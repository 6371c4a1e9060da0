import BossOs.Vm.Checked
import BossOs.Vm.Exec

/-!
# `copyout` to a new address space

`copyout` to addresses below the size writes to frames of the new address space, and to
addresses in the device space it fails. It goes up page by page and fails at the first one
without `PTE_U`, so that nothing long enough to reach across the guard page is stored.
-/

namespace BossOs.Vm

open Lib

variable {im : Image} {K : Multiset Nat} {cur d : Nat} {m₀ m m' : Mem} {E : Stop → Mem → Prop}

theorem sat_uva2kaChecked {va t : Nat} (hva : va < 2 ^ 32)
    (ht : tablePage m d (va / PGSIZE / 1024) = some t) {Q : Option Nat → Mem → Prop} :
    ((uva2kaChecked d va).run m).Sat Q E =
      Q (if present (lookup m d (va / PGSIZE)) && user (lookup m d (va / PGSIZE))
        then some (PTE_ADDR (lookup m d (va / PGSIZE))) else none) m := by
  unfold uva2kaChecked
  simp only [Prog.sat_bind]
  rw [sat_walkpgdir hva, ht]
  simp only [Option.map_some, Prog.sat_bind]
  rw [sat_load, Prog.sat_pure, lookup_of_table ht]

theorem sat_kernelStore {p off : Nat} (hp : p ∈ im.pool) {bytes : List UInt8}
    {Q : Unit → Mem → Prop} : ((kernelStore im (p * PGSIZE) off bytes).run m).Sat Q E =
      Q () (m.write p ((m.page p).splice off bytes)) := by
  obtain ⟨hlo, hhi⟩ := Image.mem_pool.mp hp
  have hdata := im.data_le
  unfold kernelStore
  rw [if_neg (by omega), page_addr_div, Prog.sat_modify]

/-- The entries that a `copyout` of `len` bytes to `va` goes through all have `PTE_U`. -/
def Through (m : Mem) (d va len : Nat) : Prop :=
  ∀ a, va ≤ a → a < va + len → user (lookup m d (a / PGSIZE)) = true

theorem copyoutFromChecked_spec {n : Nat} (hn : n ≤ UPAGES) (k : Nat) :
    ∀ {m : Mem} {va : Nat} {buf : List UInt8}, Accounts im m (space m d + K) →
      (∀ v < n, present (lookup m d v) = true) →
      (buf = [] ∨ va + buf.length ≤ n * PGSIZE) → buf.length ≤ k →
      ((copyoutFromChecked im d k va buf).run m).Sat
        (fun ok m' => Turn im K K d (fun _ => False) (lookup m d) m m' ∧
          (ok = true ↔ Through m d va buf.length)) E := by
  induction k with
  | zero =>
    intro m va buf h _ _ hk
    obtain rfl : buf = [] := List.length_eq_zero_iff.mp (by omega)
    rw [copyoutFromChecked, Prog.sat_pure]
    exact ⟨.refl h, fun _ a h1 h2 => absurd h1 (Nat.not_le_of_lt h2), fun _ => rfl⟩
  | succ k ih =>
    intro m va buf h hpres hbuf hk
    unfold copyoutFromChecked
    by_cases hlen : buf.length = 0
    · obtain rfl : buf = [] := List.length_eq_zero_iff.mp hlen
      rw [if_pos hlen, Prog.sat_pure]
      exact ⟨.refl h, fun _ a h1 h2 => absurd h1 (Nat.not_le_of_lt h2), fun _ => rfl⟩
    · have hva : va + buf.length ≤ n * PGSIZE := by
        rcases hbuf with rfl | hva
        · exact absurd rfl hlen
        · exact hva
      have hv : va / PGSIZE < n := by
        rw [pgsize_eq] at *
        omega
      have hvu : va / PGSIZE < UPAGES := by omega
      have hp := hpres _ hv
      obtain ⟨t, ht, -⟩ := table_of_present hp
      have hround : PGROUNDDOWN va = va / PGSIZE * PGSIZE := rfl
      rw [if_neg hlen, hround, Prog.sat_bind, sat_uva2kaChecked (page_addr_lt (upage_lt hvu))
        (by rw [page_addr_div]; exact ht), page_addr_div, hp, Bool.true_and]
      cases hu : user (lookup m d (va / PGSIZE)) with
      | false =>
        rw [if_neg Bool.false_ne_true, Prog.sat_pure]
        refine ⟨.refl h, fun hc => absurd hc Bool.false_ne_true, fun hall => ?_⟩
        exact hu.symm.trans (hall va (Nat.le_refl _) (by omega))
      | true =>
        rw [if_pos rfl]
        simp only [Prog.sat_bind]
        have hpool := h.mem_pool (Multiset.mem_add.mpr (Or.inl (frame_mem_space hvu hp)))
        have haddr : PTE_ADDR (lookup m d (va / PGSIZE)) =
            frame (lookup m d (va / PGSIZE)) * PGSIZE := by
          rw [frame_eq]
          rfl
        rw [haddr, sat_kernelStore hpool]
        obtain ⟨l, hl⟩ : ∃ l, l = min (PGSIZE - (va - va / PGSIZE * PGSIZE)) buf.length := ⟨_, rfl⟩
        have hlpos : 0 < l ∧ l ≤ buf.length ∧ va + l ≤ va / PGSIZE * PGSIZE + PGSIZE ∧
            (l = buf.length ∨ va + l = va / PGSIZE * PGSIZE + PGSIZE) := by
          rw [pgsize_eq] at *
          omega
        have hin : va / PGSIZE * PGSIZE + PGSIZE < 2 ^ 32 := by
          rw [upages_eq] at hvu
          rw [pgsize_eq] at *
          omega
        rw [← hl]
        have hturn := turn_frame (I := fun _ => False) h hvu hp
          ((m.page (frame (lookup m d (va / PGSIZE)))).splice (va - va / PGSIZE * PGSIZE)
            (buf.take l))
        apply (ih hturn.total ?_ ?_ ?_).imp
        · rintro ok m' ⟨hm', hthrough⟩
          refine ⟨(hturn.trans hm').mono (fun _ hi => hi.elim id id) fun v hv' =>
            hturn.entry v hv', hthrough.trans ?_⟩
          rw [List.length_drop, Nat.mod_eq_of_lt hin]
          have hpage : ∀ a < va + buf.length, a / PGSIZE < VPAGES := by
            intro a ha
            have han : a / PGSIZE < n := by
              rw [pgsize_eq] at *
              omega
            exact upage_lt (by omega)
          constructor
          · intro hrest a h1 h2
            by_cases hal : a < va + l
            · have hdiv : a / PGSIZE = va / PGSIZE := by
                rw [pgsize_eq] at *
                omega
              rw [hdiv]
              exact hu
            · rw [← hturn.entry _ (hpage a h2)]
              exact hrest a (by omega) (by omega)
          · intro hall a h1 h2
            rw [hturn.entry _ (hpage a (by omega))]
            exact hall a (by omega) (by omega)
        · intro v hv'
          rw [hturn.entry v (upage_lt (by omega))]
          exact hpres v hv'
        · rcases hlpos.2.2.2 with hall | hfull
          · left
            rw [hall]
            exact List.drop_length
          · right
            rw [List.length_drop, Nat.mod_eq_of_lt hin]
            omega
        · rw [List.length_drop]
          omega

theorem kernelEntry_present {v : Nat} {k : Kmap} (hk : k ∈ kmap im) (hcov : k.covers v = true) :
    present (kernelEntry im v) = true := by
  unfold kernelEntry mapped
  cases hf : (kmap im).find? fun k => k.covers v with
  | none => exact absurd hcov (List.find?_eq_none.mp hf _ hk)
  | some k => exact present_or_p _

/-- The addresses above the kernel's map of the memory and below that of the devices. -/
def Gap (a : Nat) : Prop := KERNBASE + PHYSTOP ≤ a ∧ a < DEVSPACE

instance (a : Nat) : Decidable (Gap a) := inferInstanceAs (Decidable (_ ∧ _))

theorem kernelEntry_mapped {a : Nat} (hlo : KERNBASE ≤ a) (hhi : a < 2 ^ 32) (hgap : ¬ Gap a) :
    present (kernelEntry im (a / PGSIZE)) = true := by
  have h1 := im.text
  have h2 := im.data_le
  have h3 := im.top_le
  have h4 := im.aligned
  unfold Gap at hgap
  unfold EXTMEM at h1
  unfold KERNBASE PHYSTOP DEVSPACE at *
  rw [pgsize_eq] at h4
  by_cases hio : a < 0x80100000
  · refine kernelEntry_present (k := ⟨KERNBASE, 0, EXTMEM, PTE_W⟩) List.mem_cons_self ?_
    rw [Kmap.covers_iff]
    simp only [Kmap.size, KERNBASE, EXTMEM, pgsize_eq]
    omega
  by_cases htext : a < 0x80000000 + im.data
  · refine kernelEntry_present (k := ⟨KERNLINK, EXTMEM, im.data, 0⟩)
      (List.mem_cons_of_mem _ List.mem_cons_self) ?_
    rw [Kmap.covers_iff]
    simp only [Kmap.size, KERNLINK, KERNBASE, EXTMEM, pgsize_eq]
    omega
  by_cases hdata : a < 0x8E000000
  · refine kernelEntry_present (k := ⟨KERNBASE + im.data, im.data, PHYSTOP, PTE_W⟩)
      (List.mem_cons_of_mem _ (List.mem_cons_of_mem _ List.mem_cons_self)) ?_
    rw [Kmap.covers_iff]
    simp only [Kmap.size, KERNBASE, PHYSTOP, pgsize_eq]
    omega
  · refine kernelEntry_present (k := ⟨DEVSPACE, DEVSPACE, 0, PTE_W⟩) (List.mem_cons_of_mem _
      (List.mem_cons_of_mem _ (List.mem_cons_of_mem _ List.mem_cons_self))) ?_
    rw [Kmap.covers_iff]
    simp only [Kmap.size, DEVSPACE, pgsize_eq]
    omega

theorem copyoutFromChecked_kernel {sz va k : Nat}
    (hmap : UserMap im sz (lookup m d)) (hlo : KERNBASE ≤ va) (hhi : va < 2 ^ 32)
    (hgap : ¬ Gap va) (hbuf : buf.length ≠ 0) :
    (copyoutFromChecked im d (k + 1) va buf).run m = .ok false m := by
  have hv := vpage_lt hhi
  have hu : UPAGES ≤ va / PGSIZE := by
    rw [upages_eq, pgsize_eq]
    unfold KERNBASE at hlo
    omega
  have hentry := hmap.kernel _ hu hv
  have hp : present (lookup m d (va / PGSIZE)) = true := by
    rw [hentry]
    exact kernelEntry_mapped hlo hhi hgap
  obtain ⟨t, ht, -⟩ := table_of_present hp
  have hround : PGROUNDDOWN va = va / PGSIZE * PGSIZE := rfl
  have hsat : ((copyoutFromChecked im d (k + 1) va buf).run m).Sat (fun r m' => r = false ∧ m' = m)
      fun _ _ => False := by
    unfold copyoutFromChecked
    rw [if_neg hbuf, hround, Prog.sat_bind, sat_uva2kaChecked (page_addr_lt hv)
      (by rw [page_addr_div]; exact ht), page_addr_div, hentry, kernelEntry_not_user,
      Bool.and_false, if_neg Bool.false_ne_true, Prog.sat_pure]
    exact ⟨rfl, rfl⟩
  obtain ⟨_, _, hrun, rfl, rfl⟩ := hsat.exists_ok
  exact hrun

theorem not_gap_of_device {va : Nat} (hlo : DEVSPACE ≤ va) : KERNBASE ≤ va ∧ ¬ Gap va :=
  ⟨Nat.le_trans (by decide) hlo, fun hgap => absurd hgap.2 (Nat.not_lt.mpr hlo)⟩

theorem copyoutFrom_device {sz va k : Nat} (hmap : UserMap im sz (lookup m d))
    (hlo : DEVSPACE ≤ va) (hhi : va < 2 ^ 32) (hbuf : buf.length ≠ 0) {Q : Bool → Mem → Prop} :
    ((copyoutFrom im cur d (k + 1) va buf).run m).Sat Q E = Q false m := by
  obtain ⟨hker, hgap⟩ := not_gap_of_device hlo
  rw [copyoutFromChecked_refines cur d _ _ _ (copyoutFromChecked_kernel hmap hker hhi hgap hbuf),
    Outcome.sat_ok]

theorem copyoutChecked_below {n len sp : Nat} (buf : List UInt8)
    (h : Accounts im m (space m d + K)) (hmap : UserMap im (n * PGSIZE) (lookup m d))
    (hpres : ∀ v < n, present (lookup m d v) = true) (hbuf : buf.length ≠ 0)
    (hle : buf.length ≤ 2 ^ 32 - DEVSPACE) (hsp : sp ≤ n * PGSIZE)
    (hlen : len = (sp + (2 ^ 32 - buf.length % 2 ^ 32)) % 2 ^ 32) :
    ((copyoutChecked im d len buf).run m).Sat
      (fun _ m' => Turn im K K d (fun _ => False) (lookup m d) m m') E := by
  have hn : n ≤ UPAGES := by
    have hle := pages_le hmap.size
    rw [pages_mul] at hle
    exact hle
  have hkb := hmap.size
  by_cases hin : buf.length ≤ sp
  · -- no borrow
    have hadd : len + buf.length ≤ sp := by
      unfold KERNBASE at hkb
      unfold DEVSPACE at hle
      omega
    exact (copyoutFromChecked_spec hn buf.length h hpres (Or.inr (by omega)) (Nat.le_refl _)).imp
      fun _ _ hr => hr.1
  · have hdev : DEVSPACE ≤ len ∧ len < 2 ^ 32 := by
      unfold KERNBASE at hkb
      unfold DEVSPACE at *
      omega
    obtain ⟨k, hk⟩ := Nat.exists_eq_succ_of_ne_zero hbuf
    obtain ⟨hker, hgap⟩ := not_gap_of_device hdev.1
    unfold copyoutChecked
    rw [hk, copyoutFromChecked_kernel hmap hker hdev.2 hgap hbuf, Outcome.sat_ok]
    exact .refl h

theorem Through.above_guard {g va len sp : Nat} (h : Through m d va len)
    (hg : user (lookup m d g) = false) (hlen : len ≠ 0) (hsp : (g + 1) * PGSIZE ≤ sp)
    (hend : sp < va + len + 4) : (g + 1) * PGSIZE ≤ va := by
  by_contra hlt
  have hguard : ∀ a, va ≤ a → a < va + len → a / PGSIZE ≠ g := by
    rintro a h1 h2 rfl
    have hu := h a h1 h2
    rw [hg] at hu
    exact Bool.false_ne_true hu
  have hlast := hguard (min (va + len - 1) ((g + 1) * PGSIZE - 1)) (by omega) (by omega)
  rw [pgsize_eq] at *
  omega

end BossOs.Vm
