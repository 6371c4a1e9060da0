import BossOs.Vm.Ownership

/-!
# Moving the end of a process

What `growproc` returns and leaves mapped, for every `int`. The new size is computed
modulo `2 ^ 32`, and 0 is both a size and the sign of failure: a request for less than
nothing is taken for one that changes nothing, and one for exactly nothing frees every
page and then reports failure.
-/

namespace BossOs.Vm

open Lib

variable {im : Image} {K : Multiset Nat} {d sz : Nat} {m m' : Mem} {E : Stop → Mem → Prop} {n : Int}

def mapping (m : Mem) (d v : Nat) : Option (Nat × Nat) :=
  if present (lookup m d v) then some (frame (lookup m d v), PTE_FLAGS (lookup m d v)) else none

def Filled (m : Mem) (d sz : Nat) : Prop := ∀ v, v * PGSIZE < sz → present (lookup m d v) = true

theorem growproc_cases (hlo : -2 ^ 31 ≤ n) (hhi : n < 2 ^ 31)
    (h : Accounts im m (space m d + K)) (hmap : UserMap im sz (lookup m d)) :
    ((growproc im d sz n).run m).Sat (fun r m' => (Turn im K K d userTable (lookup m d) m m' ∧
          (r = none ∧ (0 < n ∨ sz = 0 ∧ sz + n < 0) ∨
            r = some sz ∧ (n = 0 ∨ sz ≠ 0 ∧ sz + n < 0))) ∨
        (∃ (newsz : Nat) (L : Nat → Nat), (newsz : Int) = sz + n ∧ sz < newsz ∧
          newsz < KERNBASE ∧ r = some newsz ∧
          Grown (lookup m d) (pages sz) (pages newsz) L ∧ Turn im K K d userTable L m m') ∨
        (∃ newsz : Nat, (newsz : Int) = sz + n ∧ newsz < sz ∧
          r = (if newsz = 0 then none else some newsz) ∧
          Turn im K K d userTable (cleared (pages newsz) (pages sz) (lookup m d)) m m')) E := by
  have hsz : sz ≤ 2 ^ 31 := hmap.size
  unfold growproc
  by_cases hpos : 0 < n
  · obtain ⟨newsz, hnew⟩ := Int.eq_ofNat_of_zero_le (a := sz + n) (by omega)
    have hword : ((sz + n) % 2 ^ 32).toNat = newsz := by omega
    have hmax : max sz newsz = newsz := by omega
    rw [if_pos hpos, Prog.sat_bind, hword]
    apply (allocuvm_spec hmap.above hmap.size h).imp
    rintro r m' (⟨rfl, hlt, L, hg, -, hturn⟩ | ⟨rfl, hturn, -⟩)
    · rw [Prog.sat_pure, hmax, if_neg (by omega)]
      exact Or.inr (Or.inl ⟨newsz, L, hnew.symm, by omega, hlt, rfl, hg, hturn⟩)
    · rw [Prog.sat_pure]
      exact Or.inl ⟨hturn, Or.inl ⟨rfl, Or.inl hpos⟩⟩
  · rw [if_neg hpos]
    by_cases hneg : n < 0
    · rw [if_pos hneg, Prog.sat_bind]
      apply (deallocuvm_spec hmap.size (fun _ hn => hn) h).imp
      rintro r m' ⟨rfl, hturn⟩
      rw [Prog.sat_pure]
      by_cases hwrap : sz + n < 0
      · -- the request has become larger than any size
        have hle : sz ≤ ((sz + n) % 2 ^ 32).toNat := by omega
        have hpages := pages_mono hle
        rw [Nat.min_eq_left hle]
        refine Or.inl ⟨hturn.mono (fun _ hi => hi.elim) ?_, ?_⟩
        · intro v _
          rw [cleared_of_ge (by omega)]
        · split
          · exact Or.inl ⟨rfl, Or.inr ⟨‹_›, hwrap⟩⟩
          · exact Or.inr ⟨rfl, Or.inr ⟨‹_›, hwrap⟩⟩
      · obtain ⟨newsz, hnew⟩ := Int.eq_ofNat_of_zero_le (a := sz + n) (by omega)
        have hword : ((sz + n) % 2 ^ 32).toNat = newsz := by omega
        rw [hword] at hturn ⊢
        rw [Nat.min_eq_right (by omega)]
        exact Or.inr (Or.inr ⟨newsz, hnew.symm, by omega, rfl,
          hturn.mono (fun _ hi => hi.elim) fun _ _ => rfl⟩)
    · rw [if_neg hneg, Prog.sat_pure]
      exact Or.inl ⟨.refl h, Or.inr ⟨rfl, Or.inl (by omega)⟩⟩

theorem Turn.mapping_eq {I : Nat → Prop} (h : Turn im K K d I (lookup m d) m m') {v : Nat}
    (hv : v < UPAGES) : mapping m' d v = mapping m d v := by
  unfold mapping
  rw [h.entry v (upage_lt hv)]

section Calls

variable {s : State} {p : Fin NPROC}

theorem PageInv.of_live (hi : PageInv im s) (hp : (s.proc p).state = .live) :
    Accounts im s.mem (space s.mem (s.proc p).pgdir + ((s.proc p).kstack ::ₘ s.others p)) ∧
      UserMap im (s.proc p).sz (lookup s.mem (s.proc p).pgdir) := by
  have hused : (s.proc p).state ≠ .unused := by
    rw [hp]
    decide
  have htotal := hi.total
  rw [inUse_space hused] at htotal
  exact ⟨htotal, hi.map p hused⟩

/-- A `growproc` that fails changes neither the size nor the map, unless it was asked for a
process of no bytes. -/
theorem growproc_failure_atomic (hi : PageInv im s) (hp : (s.proc p).state = .live)
    (hfill : Filled s.mem (s.proc p).pgdir (s.proc p).sz) (hlo : -2 ^ 31 ≤ n) (hhi : n < 2 ^ 31) :
    (∀ m', (growproc im (s.proc p).pgdir (s.proc p).sz n).run s.mem = .ok none m' →
      s.sbrk im p n = some { s with mem := m' } ∧
      (∀ v, v < UPAGES → mapping m' (s.proc p).pgdir v = mapping s.mem (s.proc p).pgdir v) ∧
      Filled m' (s.proc p).pgdir (s.proc p).sz) ↔ n = 0 ∨ (s.proc p).sz + n ≠ 0 := by
  obtain ⟨htotal, hmap⟩ := hi.of_live hp
  have hcases := growproc_cases (E := fun _ _ => False) hlo hhi htotal hmap
  constructor
  · intro hall
    by_contra hn
    push Not at hn
    obtain ⟨hn0, hzero⟩ := hn
    obtain ⟨r, m', hr, hcases⟩ := hcases.exists_ok
    rcases hcases with ⟨-, hc⟩ | ⟨newsz, _, hnew, hlt, -⟩ | ⟨newsz, hnew, hlt, hres, hturn⟩
    · omega
    · omega
    · -- every page is gone, that at 0 too
      obtain rfl : newsz = 0 := by omega
      rw [hres] at hr
      have h0 := (hall m' hr).2.2 0 (by omega)
      rw [hturn.entry 0 (by decide), cleared_of_mem (by decide) (lt_pages_iff.mpr (by omega))] at h0
      cases h0
  · intro hn m' hfail
    rw [hfail, Outcome.sat_ok] at hcases
    have hturn : Turn im ((s.proc p).kstack ::ₘ s.others p) ((s.proc p).kstack ::ₘ s.others p)
        (s.proc p).pgdir userTable (lookup s.mem (s.proc p).pgdir) s.mem m' := by
      rcases hcases with ⟨hturn, -⟩ | ⟨_, _, _, _, _, hr, _⟩ | ⟨newsz, hnew, hlt, hr, -⟩
      · exact hturn
      · cases hr
      · exfalso
        split at hr
        · omega
        · cases hr
    refine ⟨?_, fun v hv => hturn.mapping_eq hv, ?_⟩
    · unfold State.sbrk State.call
      rw [hfail]
    · intro v hv
      have hvu : v < UPAGES := Nat.lt_of_lt_of_le (lt_pages_iff.mpr hv) (pages_le hmap.size)
      rw [hturn.entry v (upage_lt hvu)]
      exact hfill v hv

theorem filled_of_boot (h : BootInv im s) :
    Filled s.mem (s.proc initproc).pgdir (s.proc initproc).sz := by
  intro v hv
  rw [h.size, pgsize_eq] at hv
  have hv0 : v = 0 := by omega
  rw [hv0]
  exact h.first.present

theorem growproc_failure_atomic_kernbase : ∃ s m', Booted image 2 [] s ∧
    (growproc image (s.proc initproc).pgdir (s.proc initproc).sz 0x7FFFF000).run s.mem =
      .ok none m' ∧ s.sbrk image initproc 0x7FFFF000 = some { s with mem := m' } ∧
    (∀ v, v < UPAGES → mapping m' (s.proc initproc).pgdir v =
      mapping s.mem (s.proc initproc).pgdir v) ∧
    Filled m' (s.proc initproc).pgdir (s.proc initproc).sz := by
  obtain ⟨s, hboot⟩ := image_booted
  have hinv := hboot.inv
  have hfail : (growproc image (s.proc initproc).pgdir (s.proc initproc).sz 0x7FFFF000).run s.mem =
      .ok none s.mem := by
    rw [hinv.size]
    rfl
  exact ⟨s, s.mem, hboot, hfail, (growproc_failure_atomic hinv.pages hinv.live
    (filled_of_boot hinv) (by decide) (by decide)).mpr (Or.inr (by rw [hinv.size]; decide)) _ hfail⟩

/-- The first process gives all its memory back: it is told of a failure, and its page is gone. -/
theorem growproc_to_zero_fails : ∃ s m', Booted image 2 [] s ∧
    Filled s.mem (s.proc initproc).pgdir (s.proc initproc).sz ∧
    (growproc image (s.proc initproc).pgdir (s.proc initproc).sz (-4096)).run s.mem = .ok none m' ∧
    (mapping s.mem (s.proc initproc).pgdir 0).isSome = true ∧
    mapping m' (s.proc initproc).pgdir 0 = none := by
  obtain ⟨s, hboot⟩ := image_booted
  have hinv := hboot.inv
  have hfill := filled_of_boot hinv
  have hfirst : present (lookup s.mem (s.proc initproc).pgdir 0) = true := hinv.first.present
  obtain ⟨htotal, hmap⟩ := hinv.pages.of_live hinv.live
  obtain ⟨r, m', hr, hcases⟩ :=
    (growproc_cases (n := -4096) (by decide) (by decide) htotal hmap).exists_ok
  rw [hinv.size, pgsize_eq] at hcases
  have hnone : r = none ∧ present (lookup m' (s.proc initproc).pgdir 0) = false := by
    rcases hcases with ⟨-, hc⟩ | ⟨newsz, _, hnew, hlt, -⟩ | ⟨newsz, hnew, -, hr, hturn⟩
    · omega
    · omega
    · have h0 : newsz = 0 := by omega
      rw [h0] at hr hturn
      rw [hturn.entry 0 (by decide)]
      exact ⟨hr, cleared_of_mem (by decide) (by decide)⟩
  refine ⟨s, m', hboot, hfill, ?_, ?_, ?_⟩
  · rw [hr, hnone.1]
  · unfold mapping
    rw [if_pos hfirst]
    rfl
  · unfold mapping
    rw [hnone.2]
    rfl

theorem lt_of_pgroundup_le {v : Nat} (hsz : sz ≤ KERNBASE) (h : PGROUNDUP sz ≤ v * PGSIZE) :
    pages sz ≤ v := by
  unfold PGROUNDUP at h
  unfold pages
  unfold KERNBASE at hsz
  rw [pgsize_eq] at *
  omega

/-- A `growproc` that succeeds moves the end of the process by `n`, unless that is below 0. -/
theorem growproc_moves_by (hi : PageInv im s) (hp : (s.proc p).state = .live)
    (hsz : (s.proc p).sz < KERNBASE) (hfill : Filled s.mem (s.proc p).pgdir (s.proc p).sz)
    (hlo : -2 ^ 31 ≤ n) (hhi : n < 2 ^ 31) : (∀ newsz m',
      (growproc im (s.proc p).pgdir (s.proc p).sz n).run s.mem = .ok (some newsz) m' →
      (newsz : Int) = (s.proc p).sz + n ∧ newsz < KERNBASE ∧ Filled m' (s.proc p).pgdir newsz ∧
        ∀ v, v < UPAGES → PGROUNDUP newsz ≤ v * PGSIZE →
          present (lookup m' (s.proc p).pgdir v) = false) ↔
    0 ≤ (s.proc p).sz + n ∨ (s.proc p).sz = 0 := by
  obtain ⟨htotal, hmap⟩ := hi.of_live hp
  have hcases := growproc_cases (E := fun _ _ => False) hlo hhi htotal hmap
  constructor
  · intro hall
    by_contra hn
    push Not at hn
    obtain ⟨r, m', hr, hcases⟩ := hcases.exists_ok
    rcases hcases with ⟨-, ⟨-, hc⟩ | ⟨rfl, hc⟩⟩ | ⟨newsz, _, hnew, -⟩ | ⟨newsz, hnew, -⟩
    · omega
    · have hmoved := (hall _ _ hr).1
      omega
    · omega
    · omega
  intro hn newsz m' hok
  rw [hok, Outcome.sat_ok] at hcases
  have hcut : ∃ L, (newsz : Int) = (s.proc p).sz + n ∧ newsz < KERNBASE ∧
      (∀ v, v * PGSIZE < newsz → present (L v) = true) ∧ UserMap im newsz L ∧
      ∀ v, v < VPAGES → lookup m' (s.proc p).pgdir v = L v := by
    rcases hcases with ⟨hturn, hc⟩ | ⟨size, L, hnew, hlt, hker, hr, hg, hturn⟩ |
      ⟨size, hnew, hlt, hr, hturn⟩
    · have h0 : newsz = (s.proc p).sz ∧ n = 0 := by
        rcases hc with ⟨hc, -⟩ | ⟨hc, h0⟩
        · cases hc
        · cases hc
          exact ⟨rfl, by omega⟩
      obtain ⟨rfl, rfl⟩ := h0
      exact ⟨_, by omega, hsz, hfill, hmap, hturn.entry⟩
    · cases hr
      have hgrown := hmap.grown hg hker
      rw [Nat.max_eq_right (by omega)] at hgrown
      refine ⟨L, hnew, hker, ?_, hgrown, hturn.entry⟩
      intro v hv
      have hvp := lt_pages_iff.mpr hv
      by_cases hvs : v < pages (s.proc p).sz
      · rw [hg.same v (Or.inl hvs)]
        exact hfill v (lt_pages_iff.mp hvs)
      · exact (hg.new v (by omega) hvp).present
    · split at hr
      · cases hr
      · cases hr
        have hcl := hmap.cleared newsz
        rw [Nat.min_eq_right (by omega)] at hcl
        refine ⟨_, hnew, by omega, ?_, hcl, hturn.entry⟩
        intro v hv
        rw [cleared_of_ge (Or.inr (lt_pages_iff.mpr hv))]
        exact hfill v (by omega)
  obtain ⟨L, hnew, hker, hpres, hL, hlook⟩ := hcut
  refine ⟨hnew, hker, ?_, ?_⟩
  · intro v hv
    have hvu : v < UPAGES := Nat.lt_of_lt_of_le (lt_pages_iff.mpr hv) (pages_le hL.size)
    rw [hlook v (upage_lt hvu)]
    exact hpres v hv
  · intro v hv hr
    rw [hlook v (upage_lt hv), hL.above v (lt_of_pgroundup_le hL.size hr) hv]
    rfl

theorem growproc_moves_by_page : ∃ s m', Booted image 2 [] s ∧
    (growproc image (s.proc initproc).pgdir (s.proc initproc).sz (-96)).run s.mem =
      .ok (some 4000) m' ∧ ((4000 : Nat) : Int) = (s.proc initproc).sz + (-96) ∧ 4000 < KERNBASE ∧
    Filled m' (s.proc initproc).pgdir 4000 ∧ ∀ v, v < UPAGES → PGROUNDUP 4000 ≤ v * PGSIZE →
      present (lookup m' (s.proc initproc).pgdir v) = false := by
  obtain ⟨s, hboot⟩ := image_booted
  have hinv := hboot.inv
  have hfill := filled_of_boot hinv
  obtain ⟨htotal, hmap⟩ := hinv.pages.of_live hinv.live
  obtain ⟨r, m', hr, hcases⟩ :=
    (growproc_cases (n := -96) (by decide) (by decide) htotal hmap).exists_ok
  have hsome : r = some 4000 := by
    rw [hinv.size, pgsize_eq] at hcases
    rcases hcases with ⟨-, hc⟩ | ⟨newsz, _, hnew, hlt, -⟩ | ⟨newsz, hnew, -, hr, -⟩
    · omega
    · omega
    · have h0 : newsz = 4000 := by omega
      rw [hr, h0]
      rfl
  rw [hsome] at hr
  exact ⟨s, m', hboot, hr, (growproc_moves_by hinv.pages hinv.live (by rw [hinv.size]; decide) hfill
    (by decide) (by decide)).mpr (Or.inl (by rw [hinv.size]; decide)) _ _ hr⟩

/-- The first process asks for two pages less than its one: it is told of success. -/
theorem growproc_below_zero : ∃ s, Booted image 2 [] s ∧ (s.proc initproc).sz < KERNBASE ∧
    Filled s.mem (s.proc initproc).pgdir (s.proc initproc).sz ∧
    (growproc image (s.proc initproc).pgdir (s.proc initproc).sz (-8192)).run s.mem =
      .ok (some (s.proc initproc).sz) s.mem ∧
    ((s.proc initproc).sz : Int) ≠ (s.proc initproc).sz + (-8192) := by
  obtain ⟨s, hboot⟩ := image_booted
  have hinv := hboot.inv
  refine ⟨s, hboot, ?_, filled_of_boot hinv, ?_, by omega⟩
  · rw [hinv.size]
    decide
  · rw [hinv.size]
    rfl

end Calls

end BossOs.Vm
