import BossOs.Vm.Fork

/-!
# `exec`

Loading keeps every page below the size present, so that no page the loader or `copyout`
asks for is missing as long as the addresses stay below the size or wrap around into the
device space.
-/

namespace BossOs.Vm

open Lib

variable {im : Image} {K : Multiset Nat} {d : Nat} {m₀ m m' : Mem} {E : Stop → Mem → Prop}

structure Loaded (im : Image) (K : Multiset Nat) (d : Nat) (m₀ : Mem) (sz : Nat) (m : Mem) :
    Prop where
  total : Accounts im m (space m d + K)
  map : UserMap im sz (lookup m d)
  filled : ∀ v, v < pages sz → present (lookup m d v) = true
  table : ∀ i, i < NPDENTRIES → ¬ userTable i → tablePage m d i = tablePage m₀ d i
  agree : Agree m₀ m K

structure Unloaded (im : Image) (K : Multiset Nat) (d : Nat) (m₀ m : Mem) : Prop where
  total : Accounts im m (space m d + K)
  agree : Agree m₀ m K

namespace Loaded

variable {sz sz' : Nat} {I : Nat → Prop} {L : Nat → Nat}

section
variable (h : Loaded im K d m₀ sz m)
include h

theorem unloaded : Unloaded im K d m₀ m := ⟨h.total, h.agree⟩

theorem turn (ht : Turn im K K d I L m m')
    (hI : ∀ i, I i → userTable i) (hmap : UserMap im sz' L)
    (hfill : ∀ v < pages sz', present (L v) = true) : Loaded im K d m₀ sz' m' := by
  have hle := pages_le hmap.size
  refine ⟨ht.total, hmap.congr ht.entry, ?_, ?_, h.agree.trans ht.agree⟩
  · intro v hv
    rw [ht.entry v (upage_lt (by omega))]
    exact hfill v hv
  · intro i hi hu
    rw [ht.table i hi fun hc => hu (hI i hc), h.table i hi hu]

theorem keep (ht : Turn im K K d I (lookup m d) m m')
    (hI : ∀ i, I i → userTable i) : Loaded im K d m₀ sz m' := h.turn ht hI h.map h.filled

theorem round : Loaded im K d m₀ (pages sz * PGSIZE) m := by
  have hmap := h.map
  have hfill := h.filled
  have hle := pages_le hmap.size
  refine ⟨h.total, ⟨hmap.kernel, hmap.entry, ?_, ?_⟩, ?_, h.table, h.agree⟩
  · rw [pages_mul]
    exact hmap.above
  · rw [upages_eq] at hle
    unfold KERNBASE
    rw [pgsize_eq]
    omega
  · rw [pages_mul]
    exact hfill

end

end Loaded

theorem allocuvm_loaded {sz newsz : Nat} (h : Loaded im K d m₀ sz m) :
    ((allocuvm im d sz newsz).run m).Sat
      (fun r m' => (r = max sz newsz ∧ newsz < KERNBASE ∧ Loaded im K d m₀ r m' ∧
          Zeroed m m' d (pages sz) (pages newsz) ∧
          ∀ v, pages sz ≤ v → v < pages newsz → user (lookup m' d v) = true) ∨
        (r = 0 ∧ Unloaded im K d m₀ m' ∧
          (newsz < KERNBASE → im.pool.card ≤ 1026 + pages newsz + K.card))) E := by
  apply (allocuvm_spec h.map.above h.map.size h.total).imp
  rintro r m' (⟨rfl, hnew, L, hg, hz, hturn⟩ | ⟨rfl, hturn, hcard⟩)
  · refine Or.inl ⟨rfl, hnew, h.turn hturn (fun _ hi => hi) (h.map.grown hg hnew) ?_, hz, ?_⟩
    · intro v hv
      by_cases hvs : v < pages sz
      · rw [hg.same v (Or.inl hvs)]
        exact h.filled v hvs
      · apply (hg.new v (by omega) _).present
        rcases Nat.le_total sz newsz with hle | hle
        · rw [Nat.max_eq_right hle] at hv
          exact hv
        · rw [Nat.max_eq_left hle] at hv
          exact absurd hv hvs
    · intro v hv hv'
      have hle := pages_le (Nat.le_of_lt hnew)
      rw [hturn.entry v (upage_lt (by omega))]
      exact (hg.new v hv hv').user
  · exact Or.inr ⟨rfl, ⟨hturn.total, h.agree.trans hturn.agree⟩, hcard⟩

theorem field_lt (ph : List UInt8) (off : Nat) : field ph off 4 < 2 ^ 32 := by
  unfold field
  have hlt := leNat_lt ((ph.drop off).take 4)
  have hlen : ((ph.drop off).take 4).length ≤ 4 := List.length_take_le _ _
  calc leNat ((ph.drop off).take 4) < 256 ^ ((ph.drop off).take 4).length := hlt
    _ ≤ 256 ^ 4 := Nat.pow_le_pow_right (by decide) hlen
    _ = 2 ^ 32 := by decide

structure Segment where
  offset : Nat
  vaddr : Nat
  filesz : Nat
  memsz : Nat

def segment (ph : List UInt8) : Option Segment :=
  if field ph 0 4 = ELF_PROG_LOAD then
    some ⟨field ph 4 4, field ph 8 4, field ph 16 4, field ph 20 4⟩
  else none

def segments (ip : File) : Nat → Nat → List Segment
  | 0, _ => []
  | n + 1, off => (segment (ip.bytes off 32)).toList ++ segments ip n (off + 32)

def Segment.covers (g : Segment) (a : Nat) : Bool := decide (g.vaddr ≤ a ∧ a < g.vaddr + g.filesz)

def loadedByte (ip : File) (segs : List Segment) (a : Nat) : UInt8 :=
  ((segs.reverse.find? fun g => g.covers a).map fun g => ip.byte (g.offset + (a - g.vaddr))).getD 0

theorem loadedByte_snoc (ip : File) (segs : List Segment) (g : Segment) (a : Nat) :
    loadedByte ip (segs ++ [g]) a =
      if g.vaddr ≤ a ∧ a < g.vaddr + g.filesz then ip.byte (g.offset + (a - g.vaddr))
      else loadedByte ip segs a := by
  unfold loadedByte
  rw [List.reverse_append, List.reverse_singleton, List.singleton_append, List.find?_cons]
  unfold Segment.covers
  by_cases hc : g.vaddr ≤ a ∧ a < g.vaddr + g.filesz
  · rw [decide_eq_true hc, if_pos hc]
    rfl
  · rw [decide_eq_false hc, if_neg hc]

/-- The address space shows the bytes of the segments `segs`, which end below `sz`. -/
structure Shows (ip : File) (segs : List Segment) (m : Mem) (d sz : Nat) : Prop where
  below : ∀ g ∈ segs, g.filesz ≤ g.memsz ∧ g.vaddr + g.memsz ≤ sz
  byte : ∀ a, a / PGSIZE < pages sz → byteAt m d a = loadedByte ip segs a

namespace Shows

variable {ip : File} {segs : List Segment} {sz : Nat}

theorem new (m : Mem) (d : Nat) : Shows ip [] m d 0 := by
  refine ⟨fun _ hg => absurd hg List.not_mem_nil, ?_⟩
  intro a ha
  rw [show pages 0 = 0 by decide] at ha
  exact absurd ha (Nat.not_lt_zero _)

theorem beyond (h : Shows ip segs m d sz) {a : Nat} (ha : pages sz ≤ a / PGSIZE) :
    loadedByte ip segs a = 0 := by
  have hnone : (segs.reverse.find? fun g => g.covers a) = none := by
    apply List.find?_eq_none.mpr
    intro g hg
    have hle := h.below g (List.mem_reverse.mp hg)
    unfold Segment.covers
    rw [decide_eq_true_iff]
    unfold pages at ha
    rw [pgsize_eq] at ha
    omega
  unfold loadedByte
  rw [hnone]
  rfl

theorem alloc {newsz : Nat} (h : Shows ip segs m d sz) (hload : Loaded im K d m₀ sz m)
    (hz : Zeroed m m' d (pages sz) (pages newsz)) : Shows ip segs m' d (max sz newsz) := by
  have hpages := pages_le hload.map.size
  constructor
  · intro g hg
    have hle := h.below g hg
    omega
  · intro a ha
    by_cases hold : a / PGSIZE < pages sz
    · rw [hz.keeps.byteAt (by omega) (hload.filled _ hold)]
      exact h.byte a hold
    · have hnew : a / PGSIZE < pages newsz := by
        rcases Nat.le_total sz newsz with hle | hle
        · rw [Nat.max_eq_right hle] at ha
          exact ha
        · rw [Nat.max_eq_left hle] at ha
          exact absurd ha hold
      rw [(hz.zero _ (by omega) hnew).byteAt, Bytes.get_zero, h.beyond (by omega)]

theorem patch {g : Segment} (h : Shows ip segs m d sz) (hload : Loaded im K d m₀ sz m)
    (hp : Patched m m' d g.vaddr (ip.bytes g.offset g.filesz))
    (hle : g.filesz ≤ g.memsz ∧ g.vaddr + g.memsz ≤ sz) :
    Shows ip (segs ++ [g]) m' d sz := by
  have hpages := pages_le hload.map.size
  constructor
  · intro g' hg'
    rcases List.mem_append.mp hg' with hold | hnew
    · exact h.below g' hold
    · rw [List.mem_singleton.mp hnew]
      exact hle
  · intro a ha
    rw [hp a (by omega) (hload.filled _ ha), loadedByte_snoc, File.length_bytes]
    by_cases hc : g.vaddr ≤ a ∧ a < g.vaddr + g.filesz
    · have hk : a - g.vaddr < g.filesz := by omega
      rw [if_pos hc, if_pos hc, File.bytes, List.getElem?_map, List.getElem?_range hk]
      rfl
    · rw [if_neg hc, if_neg hc]
      exact h.byte a ha

end Shows

theorem loadSegments_spec {ip : File} (n : Nat) : ∀ {m : Mem} {off sz : Nat},
    Loaded im K d m₀ sz m → ((loadSegments im d ip n off sz).run m).Sat
      (fun r m' => (∃ sz', r = some sz' ∧ Loaded im K d m₀ sz' m' ∧
          (ip.size < 2 ^ 32 → ∀ segs, Shows ip segs m d sz →
            Shows ip (segs ++ segments ip n off) m' d sz')) ∨
        (r = none ∧ Unloaded im K d m₀ m')) E := by
  induction n with
  | zero =>
    intro m off sz h
    rw [loadSegments, Prog.sat_pure]
    refine Or.inl ⟨_, rfl, h, fun _ segs hs => ?_⟩
    rw [segments, List.append_nil]
    exact hs
  | succ n ih =>
    intro m off sz h
    have hfail : ∀ {m' : Mem}, Unloaded im K d m₀ m' →
        ((pure none : M (Option Nat)).run m').Sat
          (fun r m' => (∃ sz', r = some sz' ∧ Loaded im K d m₀ sz' m' ∧
              (ip.size < 2 ^ 32 → ∀ segs, Shows ip segs m d sz →
                Shows ip (segs ++ segments ip (n + 1) off) m' d sz')) ∨
            (r = none ∧ Unloaded im K d m₀ m')) E := by
      intro m' hu
      rw [Prog.sat_pure]
      exact Or.inr ⟨rfl, hu⟩
    unfold loadSegments
    cases hread : readi ip off 32 with
    | none => exact hfail h.unloaded
    | some ph =>
      simp only
      by_cases h1 : ph.length ≠ 32
      · rw [if_pos h1]
        exact hfail h.unloaded
      rw [if_neg h1]
      obtain ⟨hsize, hph⟩ := readi_full hread (not_not.mp h1)
      have hnext : ip.size < 2 ^ 32 → (off + 32) % 2 ^ 32 = off + 32 := fun hip =>
        Nat.mod_eq_of_lt (by omega)
      by_cases h2 : field ph 0 4 ≠ ELF_PROG_LOAD
      · rw [if_pos h2]
        apply (ih h).imp
        rintro r m' (⟨sz', rfl, hload, hshow⟩ | hbad)
        · refine Or.inl ⟨sz', rfl, hload, fun hip segs hs => ?_⟩
          have hs' := hshow hip segs hs
          rw [hnext hip] at hs'
          rw [segments, ← hph, segment, if_neg h2]
          exact hs'
        · exact Or.inr hbad
      rw [if_neg h2]
      by_cases h3 : field ph 20 4 < field ph 16 4
      · rw [if_pos h3]
        exact hfail h.unloaded
      rw [if_neg h3]
      by_cases h4 : (field ph 8 4 + field ph 20 4) % 2 ^ 32 < field ph 8 4
      · rw [if_pos h4]
        exact hfail h.unloaded
      · rw [if_neg h4, Prog.sat_bind]
        apply (allocuvm_loaded h).imp
        rintro r m₁ (⟨hr, hnew, h₁, hz, -⟩ | ⟨rfl, hu, -⟩)
        · by_cases hr0 : r = 0
          · rw [if_pos hr0]
            exact hfail h₁.unloaded
          · rw [if_neg hr0]
            by_cases halign : field ph 8 4 % PGSIZE = 0
            · rw [if_neg fun hc => hc halign, Prog.sat_bind]
              have hv := field_lt ph 8
              have hms := field_lt ph 20
              have hwrap : (field ph 8 4 + field ph 20 4) % 2 ^ 32 =
                  field ph 8 4 + field ph 20 4 := by omega
              rw [hwrap] at hr hnew hz
              have hin : field ph 8 4 + field ph 16 4 ≤ r := by omega
              have hpages : field ph 8 4 / PGSIZE + pages (field ph 16 4) ≤ pages r := by
                unfold pages
                rw [pgsize_eq] at *
                omega
              have hle := pages_le h₁.map.size
              apply (loaduvm_spec h₁.total halign (by omega) fun w _ hw =>
                h₁.filled w (by omega)).imp
              rintro ok m₂ ⟨hturn, hpatch⟩
              have h₂ := h₁.keep hturn fun _ hi => hi.elim
              cases ok with
              | true =>
                rw [if_pos rfl]
                apply (ih h₂).imp
                rintro r' m' (⟨sz', rfl, hload, hshow⟩ | hbad)
                · refine Or.inl ⟨sz', rfl, hload, fun hip segs hs => ?_⟩
                  have hs₁ := hs.alloc h hz
                  rw [← hr] at hs₁
                  have hs₂ := hs₁.patch
                    (g := ⟨field ph 4 4, field ph 8 4, field ph 16 4, field ph 20 4⟩) h₁
                    ((hpatch hip).1 rfl) ⟨Nat.not_lt.mp h3, by dsimp only; omega⟩
                  have hs' := hshow hip _ hs₂
                  rw [hnext hip, List.append_assoc] at hs'
                  rw [segments, ← hph, segment, if_pos (not_not.mp h2)]
                  exact hs'
                · exact Or.inr hbad
              | false =>
                rw [if_neg Bool.false_ne_true]
                exact hfail h₂.unloaded
            · rw [if_pos halign]
              exact hfail h₁.unloaded
        · rw [if_pos rfl]
          exact hfail hu

theorem makeStack_spec {sz : Nat} (h : Loaded im K d m₀ sz m) : ((makeStack im d sz).run m).Sat
      (fun r m' => (r = some ((pages sz + 2) * PGSIZE) ∧
          Loaded im K d m₀ ((pages sz + 2) * PGSIZE) m' ∧ Keeps m m' d ∧
          user (lookup m' d (pages sz)) = false ∧ user (lookup m' d (pages sz + 1)) = true) ∨
        (r = none ∧ Unloaded im K d m₀ m' ∧
          ((pages sz + 2) * PGSIZE < KERNBASE → im.pool.card ≤ 1028 + pages sz + K.card))) E := by
  have hsz := h.map.size
  have hround := h.round
  have hup : PGROUNDUP sz = pages sz * PGSIZE := by
    unfold KERNBASE at hsz
    unfold PGROUNDUP pages
    rw [pgsize_eq]
    omega
  have hnew : (pages sz * PGSIZE + 2 * PGSIZE) % 2 ^ 32 = (pages sz + 2) * PGSIZE := by
    have hle := pages_le hsz
    rw [upages_eq] at hle
    rw [pgsize_eq]
    omega
  unfold makeStack
  rw [hup, hnew, Prog.sat_bind]
  apply (allocuvm_loaded hround).imp
  rintro r m₁ (⟨hr, hlt, h₁, hz, huser⟩ | ⟨rfl, hu, hcard⟩)
  · have hmax : r = (pages sz + 2) * PGSIZE := by
      rw [hr, Nat.max_eq_right (Nat.mul_le_mul_right _ (Nat.le_add_right _ _))]
    subst hmax
    have hpos : (pages sz + 2) * PGSIZE ≠ 0 := by
      rw [pgsize_eq]
      omega
    have hguard : (pages sz + 2) * PGSIZE - 2 * PGSIZE = pages sz * PGSIZE := by
      rw [Nat.add_mul, Nat.add_sub_cancel]
    rw [if_neg hpos, Prog.sat_bind, hguard]
    have hle := pages_le h₁.map.size
    rw [pages_mul] at hle
    have hvp : pages sz < pages ((pages sz + 2) * PGSIZE) := by
      rw [pages_mul]
      omega
    have hp := h₁.filled (pages sz) hvp
    apply (clearpteu_spec h₁.total (by omega) hp).imp
    rintro _ m₂ ⟨hturn, hkeeps⟩
    have hlook : lookup m₁ d (pages sz) < 2 ^ 32 := by
      obtain ⟨t, -, hword⟩ := table_of_present hp
      rw [← hword]
      exact Bytes.word_lt _ _
    obtain ⟨-, hpe, -, hue⟩ := clear_user hlook
    rw [hp] at hpe
    rw [Prog.sat_pure]
    refine Or.inl ⟨rfl, h₁.turn hturn (fun _ hi => hi.elim) (h₁.map.update hvp hpe) ?_,
      hz.keeps.trans hkeeps, ?_, ?_⟩
    · intro v hv
      by_cases hvs : v = pages sz
      · subst hvs
        rw [Function.update_self]
        exact hpe
      · rw [Function.update_of_ne hvs]
        exact h₁.filled v hv
    · rw [hturn.entry _ (upage_lt (by omega)), Function.update_self]
      exact hue
    · rw [hturn.entry _ (upage_lt (by omega)), Function.update_of_ne (by omega)]
      apply huser
      · rw [pages_mul]
        omega
      · rw [pages_mul]
        omega
  · rw [if_pos rfl, Prog.sat_pure]
    refine Or.inr ⟨rfl, hu, fun hlt => ?_⟩
    have hc := hcard hlt
    rw [pages_mul] at hc
    omega

end BossOs.Vm
