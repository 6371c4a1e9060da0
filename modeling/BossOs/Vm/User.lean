import BossOs.Vm.Alloc
import BossOs.Vm.System

/-!
# User memory

`UserMap im sz` says which maps a process of size `sz` can have: the entries of `kmap` at and
above `KERNBASE`, and below it pages that are present or have no entry, none of them at or above
the size.
-/

namespace BossOs.Vm

open Lib
open Prog (sat_bind sat_modify sat_pure)

variable {im : Image} {K : Multiset Nat} {d : Nat} {m m' : Mem} {E : Stop → Mem → Prop}

structure UserMap (im : Image) (sz : Nat) (L : Nat → Nat) : Prop where
  kernel : ∀ v, UPAGES ≤ v → v < VPAGES → L v = kernelEntry im v
  entry : ∀ v, v < UPAGES → L v = 0 ∨ present (L v) = true
  above : ∀ v, pages sz ≤ v → v < UPAGES → L v = 0
  size : sz ≤ KERNBASE

variable {v : Nat}

theorem kernelEntry_user (hv : v < UPAGES) : kernelEntry im v = 0 := by
  have hnone : ((kmap im).find? fun k => k.covers v) = none := by
    apply List.find?_eq_none.mpr
    intro k hk hc
    have hker := (kmap_wf im k hk).kernel
    rw [Kmap.covers_iff] at hc
    unfold KERNBASE at hker
    rw [upages_eq] at hv
    rw [pgsize_eq] at hc
    omega
  unfold kernelEntry mapped
  rw [hnone]
  rfl

theorem kernelEntry_not_user (v : Nat) : user (kernelEntry im v) = false := by
  unfold kernelEntry mapped
  cases hf : (kmap im).find? fun k => k.covers v with
  | none =>
    rw [Option.map_none, Option.getD_none]
    exact (by decide : user 0 = false)
  | some k =>
    have hwf := kmap_wf im k (List.mem_of_find?_eq_some hf)
    have hcov : k.covers v = true := by
      have hsome := List.find?_some hf
      exact hsome
    have hc := Kmap.covers_iff.mp hcov
    have hadd : k.physStart + (v * PGSIZE - k.virt) =
        (k.physStart + (v * PGSIZE - k.virt)) / PGSIZE * PGSIZE := by
      have h1 := hwf.virt
      have h2 := hwf.phys
      rw [pgsize_eq] at *
      omega
    simp only [Option.map_some, Option.getD_some, Kmap.entry]
    rw [hadd, Nat.or_assoc, user_entry]
    rcases hwf.perm with hp | hp <;> rw [hp] <;> rfl

theorem pages_mono {a b : Nat} (h : a ≤ b) : pages a ≤ pages b := by
  unfold pages
  exact Nat.div_le_div_right (by omega)

namespace UserMap

variable {sz : Nat} {L L' : Nat → Nat}

theorem congr (h : UserMap im sz L) (hL : ∀ v < VPAGES, L' v = L v) : UserMap im sz L' := by
  refine ⟨?_, ?_, ?_, h.size⟩
  · intro v h1 h2
    rw [hL v h2, h.kernel v h1 h2]
  · intro v hv
    rw [hL v (upage_lt hv)]
    exact h.entry v hv
  · intro v h1 h2
    rw [hL v (upage_lt h2), h.above v h1 h2]

theorem new (h : ∀ v < VPAGES, L v = kernelEntry im v) : UserMap im 0 L := by
  have huser : ∀ v < UPAGES, L v = 0 := by
    intro v hv
    rw [h v (upage_lt hv), kernelEntry_user hv]
  exact ⟨fun v _ hv => h v hv, fun v hv => Or.inl (huser v hv), fun v _ hv => huser v hv,
    Nat.zero_le _⟩

theorem grown {newsz : Nat} (h : UserMap im sz L) (hg : Grown L (pages sz) (pages newsz) L')
    (hnew : newsz < KERNBASE) : UserMap im (max sz newsz) L' := by
  have hpages := pages_le (Nat.le_of_lt hnew)
  have h1 := pages_mono (Nat.le_max_left sz newsz)
  have h2 := pages_mono (Nat.le_max_right sz newsz)
  have hsz := h.size
  refine ⟨?_, ?_, ?_, by omega⟩
  · intro v hv hv'
    rw [hg.same v (by omega), h.kernel v hv hv']
  · intro v hv
    by_cases hr : pages sz ≤ v ∧ v < pages newsz
    · exact Or.inr (hg.new v hr.1 hr.2).present
    · rw [hg.same v (by omega)]
      exact h.entry v hv
  · intro v hv hv'
    rw [hg.same v (by omega), h.above v (by omega) hv']

theorem cleared (h : UserMap im sz L) (newsz : Nat) :
    UserMap im (min sz newsz) (cleared (pages newsz) (pages sz) L) := by
  have hpages := pages_le h.size
  have hsz := h.size
  refine ⟨?_, ?_, ?_, by omega⟩
  · intro v hv hv'
    rw [cleared_of_ge (by omega), h.kernel v hv hv']
  · intro v hv
    unfold Vm.cleared
    split
    · exact Or.inl rfl
    · exact h.entry v hv
  · intro v hv hv'
    by_cases hvs : v < pages sz
    · have hnew : pages newsz ≤ v := by
        rcases Nat.le_total sz newsz with hle | hle
        · rw [Nat.min_eq_left hle] at hv
          omega
        · rw [Nat.min_eq_right hle] at hv
          exact hv
      unfold Vm.cleared
      split
      · rfl
      · rename_i hnot
        exact (h.entry v hv').resolve_right fun hp => hnot ⟨hnew, hvs, hp⟩
    · rw [cleared_of_ge (by omega), h.above v (by omega) hv']

theorem mono {sz' : Nat} (h : UserMap im sz L) (hle : sz ≤ sz') (hsz : sz' ≤ KERNBASE) :
    UserMap im sz' L := by
  have hpages := pages_mono hle
  exact ⟨h.kernel, h.entry, fun v hv hv' => h.above v (by omega) hv', hsz⟩

theorem update {e : Nat} (h : UserMap im sz L) (hv : v < pages sz) (he : present e = true) :
    UserMap im sz (Function.update L v e) := by
  have hpages := pages_le h.size
  refine ⟨?_, ?_, ?_, h.size⟩
  · intro w hw hw'
    rw [Function.update_of_ne (by omega), h.kernel w hw hw']
  · intro w hw
    by_cases hwv : w = v
    · subst hwv
      rw [Function.update_self]
      exact Or.inr he
    · rw [Function.update_of_ne hwv]
      exact h.entry w hw
  · intro w hw hw'
    rw [Function.update_of_ne (by omega), h.above w hw hw']

end UserMap

theorem growproc_spec {sz : Nat} {n : Int} (h : Accounts im m (space m d + K))
    (hmap : UserMap im sz (lookup m d)) : ((growproc im d sz n).run m).Sat
      (fun r m' => ∃ L, UserMap im (r.getD sz) L ∧ Turn im K K d userTable L m m') E := by
  unfold growproc
  generalize ((sz + n) % 2 ^ 32).toNat = newsz
  by_cases hpos : 0 < n
  · rw [if_pos hpos, sat_bind]
    apply (allocuvm_spec hmap.above hmap.size h).imp
    rintro r m' (⟨rfl, hnew, L, hg, -, hturn⟩ | ⟨rfl, hturn, -⟩)
    · have hm := hmap.grown hg hnew
      rw [sat_pure]
      refine ⟨L, ?_, hturn⟩
      split
      · rename_i h0
        exact hm.mono (by omega) hmap.size
      · exact hm
    · rw [sat_pure]
      exact ⟨_, hmap, hturn⟩
  · rw [if_neg hpos]
    by_cases hneg : n < 0
    · rw [if_pos hneg, sat_bind]
      apply (deallocuvm_spec hmap.size (fun _ hn => hn) h).imp
      rintro r m' ⟨rfl, hturn⟩
      have hm := hmap.cleared newsz
      rw [sat_pure]
      refine ⟨_, ?_, hturn.mono (fun _ hi => hi.elim) fun _ _ => rfl⟩
      split
      · exact hm.mono (Nat.min_le_left _ _) hmap.size
      · exact hm
    · rw [if_neg hneg, sat_pure]
      exact ⟨_, hmap, .refl h⟩

theorem turn_frame (h : Accounts im m (space m d + K)) (hv : v < UPAGES)
    (hp : present (lookup m d v) = true) (c : Page) {I : Nat → Prop} :
    Turn im K K d I (lookup m d) m (m.write (frame (lookup m d v)) c) := by
  have htree : Agree m (m.write (frame (lookup m d v)) c) (d ::ₘ tables m d) :=
    agree_write c (h.frame_not_tree hv hp)
  refine ⟨?_, fun w hw => htree.lookup_eq hw, fun i _ _ => htree.tablePage_eq i, ?_⟩
  · apply h.congr rfl
    rw [htree.space_eq]
  · exact agree_write c (h.disjoint_rest (frame_mem_space hv hp))

theorem table_of_present (hp : present (lookup m d v) = true) :
    ∃ t, tablePage m d (v / 1024) = some t ∧ (m.page t).word (v % 1024) = lookup m d v := by
  cases ht : tablePage m d (v / 1024) with
  | none =>
    rw [lookup_of_none ht] at hp
    exact absurd hp (by decide)
  | some t => exact ⟨t, rfl, (lookup_of_table ht).symm⟩

def File.bytes (ip : File) (off n : Nat) : List UInt8 := (List.range n).map fun k => ip.byte (off + k)

theorem File.length_bytes (ip : File) (off n : Nat) : (ip.bytes off n).length = n := by
  unfold File.bytes
  rw [List.length_map, List.length_range]

theorem File.bytes_add (ip : File) (off n k : Nat) :
    ip.bytes off (n + k) = ip.bytes off n ++ ip.bytes (off + n) k := by
  unfold File.bytes
  rw [List.range_add, List.map_append, List.map_map]
  congr 1
  apply List.map_congr_left
  intro i _
  rw [Function.comp_apply, Nat.add_assoc]

theorem readi_full {ip : File} {off n : Nat} {bs : List UInt8} (h : readi ip off n = some bs)
    (hlen : bs.length = n) : off + n ≤ ip.size ∧ bs = ip.bytes off n := by
  unfold readi at h
  split at h
  · cases h
  · rename_i hbad
    cases h
    rw [List.length_map, List.length_range] at hlen
    refine ⟨by omega, ?_⟩
    rw [hlen]
    rfl

theorem readi_inside {ip : File} {off n : Nat} (hsize : ip.size < 2 ^ 32) (h : off + n ≤ ip.size) :
    readi ip off n = some (ip.bytes off n) := by
  unfold readi
  rw [if_neg (by omega), Nat.min_eq_left (by omega)]
  rfl

theorem patched_page {ip : File} {offset sz : Nat} {m₁ m₂ : Mem}
    (hsize : offset + min sz PGSIZE < 2 ^ 32)
    (h : Patched m m₁ d (v * PGSIZE) (ip.bytes offset (min sz PGSIZE)))
    (h' : Patched m₁ m₂ d ((v + 1) * PGSIZE) (ip.bytes ((offset + PGSIZE) % 2 ^ 32) (sz - PGSIZE)))
    (hentry : ∀ v < VPAGES, lookup m₁ d v = lookup m d v) :
    Patched m m₂ d (v * PGSIZE) (ip.bytes offset sz) := by
  rcases Nat.le_total sz PGSIZE with hle | hle
  · rw [Nat.sub_eq_zero_of_le hle] at h'
    rw [Nat.min_eq_left hle] at h
    have happ := h.append (h'.of_nil _) hentry
    rw [List.append_nil] at happ
    exact happ
  · rw [Nat.min_eq_right hle] at h hsize
    rw [Nat.mod_eq_of_lt hsize, Nat.add_mul, Nat.one_mul] at h'
    rw [← Nat.add_sub_cancel' hle, File.bytes_add]
    apply h.append _ hentry
    rw [File.length_bytes]
    exact h'

theorem loadFrom_spec {ip : File} (n : Nat) : ∀ {m : Mem} {v offset sz : Nat},
    Accounts im m (space m d + K) → v + n ≤ UPAGES → n = pages sz →
    (∀ w, v ≤ w → w < v + n → present (lookup m d w) = true) →
    ((loadFrom d ip n (v * PGSIZE) offset sz).run m).Sat
      (fun ok m' => Turn im K K d (fun _ => False) (lookup m d) m m' ∧
        (ip.size < 2 ^ 32 → (ok = true → Patched m m' d (v * PGSIZE) (ip.bytes offset sz)) ∧
          (sz = 0 ∨ offset + sz ≤ ip.size → ok = true))) E := by
  induction n with
  | zero =>
    intro m v offset sz h _ hn _
    obtain rfl : sz = 0 := by
      unfold pages at hn
      rw [pgsize_eq] at hn
      omega
    rw [loadFrom, sat_pure]
    exact ⟨.refl h, fun _ => ⟨fun _ => patched_nil m d _, fun _ => rfl⟩⟩
  | succ n ih =>
    intro m v offset sz h hv hn hpres
    have hvu : v < UPAGES := by omega
    have hp := hpres v (Nat.le_refl v) (by omega)
    obtain ⟨t, ht, hword⟩ := table_of_present hp
    have hinside : ip.size < 2 ^ 32 → sz = 0 ∨ offset + sz ≤ ip.size →
        readi ip offset (min sz PGSIZE) = some (ip.bytes offset (min sz PGSIZE)) := by
      intro hip hin
      have hsz : sz ≠ 0 := by
        rintro rfl
        exact absurd hn (Nat.succ_ne_zero n)
      exact readi_inside hip (by omega)
    unfold loadFrom
    rw [sat_bind, sat_walkpgdir (page_addr_lt (upage_lt hvu)), page_addr_div, ht]
    simp only [Option.map_some, sat_bind]
    rw [sat_load, hword]
    cases hread : readi ip offset (min sz PGSIZE) with
    | none =>
      simp only [sat_pure]
      refine ⟨.refl h, fun hip => ⟨fun hc => absurd hc Bool.false_ne_true, fun hin => ?_⟩⟩
      rw [hinside hip hin] at hread
      cases hread
    | some bytes =>
      simp only [sat_bind, sat_modify]
      have hturn := turn_frame (I := fun _ => False) h hvu hp
        ((m.page (frame (lookup m d v))).splice 0 bytes)
      by_cases hlen : bytes.length = min sz PGSIZE
      · obtain ⟨hsize, rfl⟩ := readi_full hread hlen
        have hpatch := patched_splice 0 (ip.bytes offset (min sz PGSIZE)) h hvu hp (by omega)
        rw [if_pos hlen, show v * PGSIZE + PGSIZE = (v + 1) * PGSIZE by rw [Nat.add_mul, Nat.one_mul]]
        rw [Nat.add_zero] at hpatch
        apply (ih hturn.total (by omega) ?_ ?_).imp
        · rintro ok m' ⟨hm', hrest⟩
          refine ⟨(hturn.trans hm').mono (fun _ hi => hi.elim id id) fun w hw => hturn.entry w hw, ?_⟩
          refine fun hip => ⟨fun hok => ?_, fun hin => (hrest hip).2 ?_⟩
          · exact patched_page (by omega) hpatch ((hrest hip).1 hok) hturn.entry
          · rw [pgsize_eq] at *
            omega
        · unfold pages at hn ⊢
          rw [pgsize_eq] at *
          omega
        · intro w hw hw'
          rw [hturn.entry w (upage_lt (by omega))]
          exact hpres w (by omega) (by omega)
      · rw [if_neg hlen, sat_pure]
        refine ⟨hturn, fun hip => ⟨fun hc => absurd hc Bool.false_ne_true, fun hin => ?_⟩⟩
        rw [hinside hip hin] at hread
        cases hread
        exact absurd (File.length_bytes ..) hlen

theorem loaduvm_spec {ip : File} {addr offset sz : Nat} (h : Accounts im m (space m d + K))
    (haddr : addr % PGSIZE = 0) (hv : addr / PGSIZE + pages sz ≤ UPAGES)
    (hpres : ∀ w, addr / PGSIZE ≤ w → w < addr / PGSIZE + pages sz →
      present (lookup m d w) = true) : ((loaduvm d addr ip offset sz).run m).Sat
      (fun ok m' => Turn im K K d (fun _ => False) (lookup m d) m m' ∧
        (ip.size < 2 ^ 32 → (ok = true → Patched m m' d addr (ip.bytes offset sz)) ∧
          (sz = 0 ∨ offset + sz ≤ ip.size → ok = true))) E := by
  have hmul : addr = addr / PGSIZE * PGSIZE := by
    rw [pgsize_eq] at *
    omega
  unfold loaduvm
  rw [if_neg (by rw [haddr]; exact fun hc => hc rfl)]
  rw [hmul]
  exact loadFrom_spec (pages sz) h hv rfl hpres

theorem clear_user {e : Nat} (he : e < 2 ^ 32) :
    e &&& (2 ^ 32 - 1 - PTE_U) < 2 ^ 32 ∧ present (e &&& (2 ^ 32 - 1 - PTE_U)) = present e ∧
      frame (e &&& (2 ^ 32 - 1 - PTE_U)) = frame e ∧ user (e &&& (2 ^ 32 - 1 - PTE_U)) = false := by
  refine ⟨Nat.lt_of_le_of_lt Nat.and_le_left he, ?_, ?_, ?_⟩
  · rw [present_eq, present_eq, Nat.testBit_and]
    rw [show Nat.testBit (2 ^ 32 - 1 - PTE_U) 0 = true by decide, Bool.and_true]
  · rw [frame_eq, frame_eq, show (4096 : Nat) = 2 ^ 12 from rfl, Nat.and_div_two_pow,
      show (2 ^ 32 - 1 - PTE_U) / 2 ^ 12 = 2 ^ 20 - 1 by decide, Nat.and_two_pow_sub_one_eq_mod]
    exact Nat.mod_eq_of_lt (by omega)
  · rw [user_eq, Nat.testBit_and, show Nat.testBit (2 ^ 32 - 1 - PTE_U) 2 = false by decide,
      Bool.and_false]

theorem keeps_setFlags {t e : Nat} (h : Accounts im m (space m d + K)) (hv : v < VPAGES)
    (ht : tablePage m d (v / 1024) = some t) (he : e < 2 ^ 32)
    (hp : present e = present (lookup m d v)) (hf : frame e = frame (lookup m d v)) :
    Keeps m (m.setEntry t v e) d := by
  intro w c hw hc
  have hframe := frame_mem_space hw hc.present
  have hpage := (edit_setEntry (e := e) h.tree hv ht).agree _ (h.frame_not_tree hw hc.present)
    (h.not_free (Multiset.mem_add.mpr (Or.inl hframe)))
  have hlook := lookup_setEntry h.tree hv ht he (upage_lt hw)
  have hsame : present (lookup (m.setEntry t v e) d w) = present (lookup m d w) ∧
      frame (lookup (m.setEntry t v e) d w) = frame (lookup m d w) := by
    rw [hlook]
    by_cases hwv : w = v
    · rw [if_pos hwv, hwv]
      exact ⟨hp, hf⟩
    · rw [if_neg hwv]
      exact ⟨rfl, rfl⟩
  constructor
  · rw [hsame.1]
    exact hc.present
  · rw [hsame.2, hpage]
    exact hc.page

theorem clearpteu_spec (h : Accounts im m (space m d + K)) (hv : v < UPAGES)
    (hp : present (lookup m d v) = true) : ((clearpteu d (v * PGSIZE)).run m).Sat
      (fun _ m' => Turn im K K d (fun _ => False)
        (Function.update (lookup m d) v (lookup m d v &&& (2 ^ 32 - 1 - PTE_U))) m m' ∧
        Keeps m m' d) E := by
  obtain ⟨t, ht, hword⟩ := table_of_present hp
  have hlt : lookup m d v < 2 ^ 32 := by
    rw [← hword]
    exact Bytes.word_lt _ _
  obtain ⟨he, hpe, hfe, -⟩ := clear_user hlt
  unfold clearpteu
  rw [sat_bind, sat_walkpgdir (page_addr_lt (upage_lt hv)), page_addr_div, ht]
  simp only [Option.map_some, sat_bind]
  rw [sat_load, hword, sat_store]
  exact ⟨turn_setFlags h (upage_lt hv) ht (fun _ hn => hn) he hpe hfe,
    keeps_setFlags h (upage_lt hv) ht he hpe hfe⟩

end BossOs.Vm
