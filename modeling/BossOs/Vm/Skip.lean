import BossOs.Vm.Ownership
import Mathlib.Tactic.Abel

/-!
# The pages that `deallocuvm` leaves out

Where a page table is missing, `deallocuvm` goes on at the next one. It does what the plain
loop does that looks at every page; this needs no assumption on the page table.
-/

namespace BossOs.Vm

open Lib

variable {im : Image} {R : Multiset Nat} {d : Nat} {m : Mem}

section Plain

variable (im : Image)

def releasePage (pgdir a : Nat) : M Unit := do
  match ← walkpgdir pgdir a false with
  | none => pure ()
  | some pte =>
    let e ← load pte
    if present e then
      if PTE_ADDR e = 0 then Prog.fail .kfree
      else
        kfree im (frame e)
        store pte 0
    else pure ()

/-- `deallocuvm` without the jump: every page from `PGROUNDUP(newsz)` to `oldsz` in turn. -/
def deallocPlain (pgdir oldsz newsz : Nat) : M Nat := do
  Prog.loop (fun k => releasePage im pgdir (k * PGSIZE)) (pages oldsz - pages newsz) (pages newsz)
  pure newsz

end Plain

theorem upage_addr {k : Nat} (hk : k < UPAGES) : k * PGSIZE < 2 ^ 32 ∧ k * PGSIZE / PGSIZE = k ∧
      (k * PGSIZE + PGSIZE) % 2 ^ 32 = (k + 1) * PGSIZE := by
  rw [upages_eq] at hk
  rw [pgsize_eq]
  omega

theorem run_walkpgdir {k : Nat} (hk : k < UPAGES) : (walkpgdir d (k * PGSIZE) false).run m =
      .ok ((tablePage m d (k / 1024)).map fun t => (t, k % 1024)) m := by
  obtain ⟨hva, hdiv, -⟩ := upage_addr hk
  apply Outcome.eq_ok_of_sat
  rw [sat_walkpgdir hva, hdiv]
  exact ⟨rfl, rfl⟩

theorem releasePage_absent {k : Nat} (hk : k < UPAGES) (ht : tablePage m d (k / 1024) = none) :
    (releasePage im d (k * PGSIZE)).run m = .ok () m := by
  unfold releasePage
  rw [Prog.run_bind_of_ok (run_walkpgdir hk), ht]
  rfl

variable (im) in
theorem loop_absent (r j : Nat) : ∀ {k : Nat}, k + j ≤ UPAGES → k + j ≤ (k / 1024 + 1) * 1024 →
    tablePage m d (k / 1024) = none →
    (Prog.loop (fun k => releasePage im d (k * PGSIZE)) (j + r) k).run m =
      (Prog.loop (fun k => releasePage im d (k * PGSIZE)) r (k + j)).run m := by
  induction j with
  | zero =>
    intro k _ _ _
    rw [Nat.zero_add, Nat.add_zero]
  | succ j ih =>
    intro k hk hend ht
    rw [show j + 1 + r = (j + r) + 1 by omega, Prog.loop,
      Prog.run_bind_of_ok (releasePage_absent (by omega) ht), show k + (j + 1) = k + 1 + j by omega]
    cases j with
    | zero => rw [Nat.zero_add, Nat.add_zero]
    | succ j =>
      have hsame : (k + 1) / 1024 = k / 1024 := by omega
      apply ih (by omega)
      · rw [hsame]
        omega
      · rw [hsame]
        exact ht

variable {oldsz : Nat}

theorem deallocFrom_round {n k t : Nat} (hk : k < UPAGES) (hlt : k * PGSIZE < oldsz)
    (ht : tablePage m d (k / 1024) = some t) : (deallocFrom im d oldsz (n + 1) (k * PGSIZE)).run m =
      (releasePage im d (k * PGSIZE) >>= fun _ =>
        deallocFrom im d oldsz n ((k + 1) * PGSIZE)).run m := by
  obtain ⟨-, -, hnext⟩ := upage_addr hk
  rw [deallocFrom, releasePage, if_pos hlt, Prog.run_bind_assoc, Prog.run_bind_of_ok (run_walkpgdir hk),
    Prog.run_bind_of_ok (run_walkpgdir hk), ht, hnext]
  simp only [Option.map_some]
  rw [Prog.run_bind_assoc]
  apply Prog.run_bind_congr rfl
  intro e m' _
  by_cases hp : present e = true
  · rw [if_pos hp, if_pos hp]
    by_cases h0 : PTE_ADDR e = 0
    · rw [if_pos h0, if_pos h0]
      rfl
    · rw [if_neg h0, if_neg h0, Prog.run_bind_assoc]
  · rw [if_neg hp, if_neg hp]
    rfl

theorem deallocFrom_plain (hold : oldsz ≤ KERNBASE) (n : Nat) :
    ∀ {m : Mem} {k : Nat}, k ≤ UPAGES → UPAGES - k < n →
      (deallocFrom im d oldsz n (k * PGSIZE)).run m =
        (Prog.loop (fun k => releasePage im d (k * PGSIZE)) (pages oldsz - k) k).run m := by
  have hpages := pages_le hold
  induction n with
  | zero => exact fun _ hn => absurd hn (Nat.not_lt_zero _)
  | succ n ih =>
    intro m k hk hn
    by_cases hlt : k < pages oldsz
    · have hku : k < UPAGES := by omega
      cases ht : tablePage m d (k / 1024) with
      | none =>
        have hstep : (deallocFrom im d oldsz (n + 1) (k * PGSIZE)).run m =
            (deallocFrom im d oldsz n ((k / 1024 + 1) * 1024 * PGSIZE)).run m := by
          obtain ⟨hva, hdiv, -⟩ := upage_addr hku
          have hskip : PGADDR (PDX (k * PGSIZE) + 1) 0 0 = (k / 1024 + 1) * 1024 * PGSIZE := by
            rw [pdx_eq hva, hdiv]
            unfold PGADDR
            rw [upages_eq] at hku
            rw [pgsize_eq]
            omega
          rw [deallocFrom, if_pos (lt_pages_iff.mp hlt), Prog.run_bind_of_ok (run_walkpgdir hku), ht]
          simp only [Option.map_none]
          rw [hskip]
        rw [upages_eq] at *
        rw [hstep, ih (by omega) (by omega)]
        by_cases hend : (k / 1024 + 1) * 1024 ≤ pages oldsz
        · have hloop := loop_absent im (m := m) (d := d)
            (pages oldsz - (k / 1024 + 1) * 1024) ((k / 1024 + 1) * 1024 - k) (k := k)
            (by rw [upages_eq]; omega) (by omega) ht
          rw [show (k / 1024 + 1) * 1024 - k + (pages oldsz - (k / 1024 + 1) * 1024) =
            pages oldsz - k by omega, show k + ((k / 1024 + 1) * 1024 - k) =
            (k / 1024 + 1) * 1024 by omega] at hloop
          exact hloop.symm
        · have hloop := loop_absent im (m := m) (d := d) 0 (pages oldsz - k) (k := k)
            (by rw [upages_eq]; omega) (by omega) ht
          rw [Nat.add_zero] at hloop
          rw [hloop, Nat.sub_eq_zero_of_le (by omega), Prog.loop, Prog.loop]
      | some t =>
        rw [deallocFrom_round hku (lt_pages_iff.mp hlt) ht,
          show pages oldsz - k = pages oldsz - (k + 1) + 1 by omega, Prog.loop]
        apply Prog.run_bind_congr rfl
        intro _ m' _
        exact ih (by omega) (by omega)
    · unfold deallocFrom
      rw [if_neg fun hc => hlt (lt_pages_iff.mpr hc), Nat.sub_eq_zero_of_le (by omega), Prog.loop]

theorem deallocuvm_plain {newsz : Nat} (hlt : newsz < oldsz) (hold : oldsz ≤ KERNBASE) :
    (deallocuvm im d oldsz newsz).run m = (deallocPlain im d oldsz newsz).run m := by
  have hup : PGROUNDUP newsz = pages newsz * PGSIZE := by
    unfold KERNBASE at hold
    unfold PGROUNDUP pages
    rw [pgsize_eq]
    omega
  have hpages := pages_le (show newsz ≤ KERNBASE by omega)
  unfold deallocuvm deallocPlain
  rw [if_neg (by omega), hup]
  apply Prog.run_bind_congr _ fun _ _ _ => rfl
  exact deallocFrom_plain hold (2 ^ 20 + 1) hpages (by rw [upages_eq]; omega)

def framesIn (m : Mem) (d lo hi : Nat) : Multiset Nat := gather (Finset.Ico lo hi) (framePage m d)

theorem frames_eq_add {m' : Mem} {lo hi : Nat} (hhi : hi ≤ UPAGES)
    (hentry : ∀ v < VPAGES, lookup m' d v = cleared lo hi (lookup m d) v) :
    frames m d = framesIn m d lo hi + frames m' d := by
  unfold frames framesIn
  apply gather_split
  · intro v hv
    rw [Finset.mem_Ico] at hv
    exact Finset.mem_range.mpr (by omega)
  · intro v hv hout
    rw [Finset.mem_Ico] at hout
    unfold framePage
    rw [hentry v (upage_lt (Finset.mem_range.mp hv)), cleared_of_ge (by omega)]
  · intro v hv
    rw [Finset.mem_Ico] at hv
    unfold framePage
    rw [hentry v (upage_lt (by omega)), cleared_of_mem hv.1 hv.2]
    rfl

/-- `deallocuvm` agrees with the plain loop on every page table. On the page table of an address
space it frees the frames of the pages from `PGROUNDUP(newsz)` to `oldsz`, each once, and clears
their entries. -/
theorem deallocuvm_exact {newsz : Nat} (hlt : newsz < oldsz) (hold : oldsz ≤ KERNBASE)
    (im : Image) (m : Mem) (d : Nat) :
    (deallocuvm im d oldsz newsz).run m = (deallocPlain im d oldsz newsz).run m ∧
      ∀ R, Accounts im m (space m d + R) →
        ∃ m', (deallocuvm im d oldsz newsz).run m = .ok newsz m' ∧
          (m'.free : Multiset Nat) = framesIn m d (pages newsz) (pages oldsz) + m.free ∧
          (∀ v, v < VPAGES → lookup m' d v =
            if pages newsz ≤ v ∧ v < pages oldsz ∧ present (lookup m d v) = true then 0
            else lookup m d v) ∧
          (∀ i, i < NPDENTRIES → tablePage m' d i = tablePage m d i) ∧ Agree m m' R := by
  refine ⟨deallocuvm_plain hlt hold, ?_⟩
  intro R h
  have hspec : ((deallocuvm im d oldsz newsz).run m).Sat _ fun _ _ => False :=
    deallocuvm_spec hold (fun _ hn => hn) h
  obtain ⟨r, m', hrun, hr, hturn⟩ := hspec.exists_ok
  rw [Nat.min_eq_right (Nat.le_of_lt hlt)] at hr
  subst hr
  have htable : ∀ i, i < NPDENTRIES → tablePage m' d i = tablePage m d i :=
    fun i hi => hturn.table i hi fun hc => hc
  refine ⟨m', hrun, ?_, hturn.entry, htable, hturn.agree⟩
  have htables : tables m' d = tables m d := by
    unfold tables
    exact gather_congr fun i hi => htable i (Finset.mem_range.mp hi)
  have htotal := hturn.total
  unfold Accounts space at h htotal
  rw [htables, ← h, frames_eq_add (pages_le hold) hturn.entry] at htotal
  apply add_right_cancel (b := d ::ₘ (tables m d + frames m' d) + R)
  rw [htotal]
  simp only [Multiset.cons_add, Multiset.add_cons]
  congr 1
  abel

/-- All but the first of the page tables below `KERNBASE` are skipped. -/
theorem deallocuvm_exact_boot : ∃ s, Booted image 2 [] s ∧
    ∃ m', (deallocuvm image (s.proc initproc).pgdir KERNBASE 0).run s.mem = .ok 0 m' ∧
      (m'.free : Multiset Nat) = framesIn s.mem (s.proc initproc).pgdir 0 UPAGES + s.mem.free := by
  obtain ⟨s, hboot⟩ := image_booted
  have htotal := hboot.inv.pages.total
  rw [inUse_space (by rw [hboot.inv.live]; decide)] at htotal
  obtain ⟨-, hexact⟩ := deallocuvm_exact (show 0 < KERNBASE by decide) (Nat.le_refl _) image s.mem
    (s.proc initproc).pgdir
  obtain ⟨m', hrun, hfree, -⟩ := hexact _ htotal
  exact ⟨s, hboot, m', hrun, hfree⟩

end BossOs.Vm
