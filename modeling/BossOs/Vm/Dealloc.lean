import BossOs.Vm.Walk

/-!
# `deallocuvm` and `freevm`

`deallocuvm` clears the entries of a range of pages and frees their frames; the rounds
that it leaves out where a page table is missing would find nothing. `freevm` gives the
whole address space back.
-/

namespace BossOs.Vm

open Lib
open Prog (sat_bind sat_loop sat_pure)

variable {im : Image} {K R : Multiset Nat} {d : Nat} {m : Mem} {E : Stop → Mem → Prop}

def cleared (lo hi : Nat) (L : Nat → Nat) (v : Nat) : Nat :=
  if lo ≤ v ∧ v < hi ∧ present (L v) = true then 0 else L v

section Cleared

variable {lo lo' hi v : Nat} {L : Nat → Nat}

theorem cleared_congr (h : lo ≤ v ↔ lo' ≤ v) : cleared lo hi L v = cleared lo' hi L v := by
  unfold cleared
  simp only [h]

theorem cleared_of_absent (h : present (L v) ≠ true) : cleared lo hi L v = L v :=
  if_neg fun hc => h hc.2.2

theorem cleared_of_ge (h : hi ≤ v ∨ v < lo) : cleared lo hi L v = L v := if_neg (by omega)

theorem cleared_of_mem (hlo : lo ≤ v) (hhi : v < hi) : present (cleared lo hi L v) = false := by
  unfold cleared
  by_cases hp : present (L v) = true
  · rw [if_pos ⟨hlo, hhi, hp⟩]
    rfl
  · rw [if_neg fun hc => hp hc.2.2]
    exact eq_false_of_ne_true hp

end Cleared

theorem lt_pages_iff {v sz : Nat} : v < pages sz ↔ v * PGSIZE < sz := by
  unfold pages
  rw [pgsize_eq]
  omega

theorem pages_le {sz : Nat} (h : sz ≤ KERNBASE) : pages sz ≤ UPAGES := by
  unfold pages UPAGES
  unfold KERNBASE at h
  rw [pgsize_eq]
  omega

theorem upages_eq : UPAGES = 524288 := by decide

theorem turn_release (h : Accounts im m (space m d + R)) (hK : ∀ n ∈ K, n ∈ R) {v t : Nat}
    (hv : v < UPAGES) (ht : tablePage m d (v / 1024) = some t)
    (hp : present (lookup m d v) = true) {I : Nat → Prop} :
    Turn im K R d I (Function.update (lookup m d) v 0) m
      ((m.push (frame (lookup m d v))).setEntry t v 0) := by
  have hvv := upage_lt hv
  have hnot := h.frame_not_tree hv hp
  have hmem := mem_tables (div_lt_of_vpage hvv) ht
  have hne : frame (lookup m d v) ≠ t := by
    intro heq
    rw [heq] at hnot
    exact hnot (Multiset.mem_cons_of_mem hmem)
  have hcomm : (m.push (frame (lookup m d v))).setEntry t v 0 =
      (m.setEntry t v 0).push (frame (lookup m d v)) := by
    unfold Mem.setEntry Mem.push Mem.write
    simp only [Mem.mk.injEq, and_true]
    rw [Function.update_of_ne hne.symm, Function.update_comm hne]
  obtain ⟨hacc, hlook⟩ := turn_clearUser h hvv ht hv hp
  have htree : Agree (m.setEntry t v 0) ((m.setEntry t v 0).push (frame (lookup m d v)))
      (d ::ₘ tables (m.setEntry t v 0) d) := by
    apply agree_push
    rw [tables_setEntry h.tree hvv ht]
    exact hnot
  rw [hcomm]
  refine ⟨?_, ?_, ?_, ?_⟩
  · rw [htree.space_eq]
    rw [Multiset.add_cons] at hacc
    exact hacc.push
  · intro w hw
    rw [htree.lookup_eq hw, hlook w hw]
  · intro i _ _
    rw [htree.tablePage_eq, tablePage_setEntry h.tree hvv ht]
  · apply (agree_setEntry h hvv ht hK).trans
    apply agree_push
    intro hmemK
    exact h.disjoint_rest (frame_mem_space hv hp) (hK _ hmemK)

theorem deallocFrom_spec {oldsz : Nat} (hold : oldsz ≤ KERNBASE) (hK : ∀ n ∈ K, n ∈ R) (n : Nat) :
    ∀ {m : Mem} {k : Nat}, k ≤ UPAGES → UPAGES - k < n → Accounts im m (space m d + R) →
      ((deallocFrom im d oldsz n (k * PGSIZE)).run m).Sat
        (fun _ m' => Turn im K R d (fun _ => False) (cleared k (pages oldsz) (lookup m d)) m m')
        E := by
  have hpages := pages_le hold
  induction n with
  | zero => exact fun _ hn => absurd hn (Nat.not_lt_zero _)
  | succ n ih =>
    intro m k hk hn h
    unfold deallocFrom
    by_cases hlt : k < pages oldsz
    · have hku : k < UPAGES := Nat.lt_of_lt_of_le hlt hpages
      have hdiv : k * PGSIZE / PGSIZE = k := Nat.mul_div_cancel _ (by decide)
      have hva : k * PGSIZE < 2 ^ 32 := by
        rw [upages_eq] at hku
        rw [pgsize_eq]
        omega
      rw [if_pos (lt_pages_iff.mp hlt), sat_bind, sat_walkpgdir hva, hdiv]
      have hnext : (k * PGSIZE + PGSIZE) % 2 ^ 32 = (k + 1) * PGSIZE := by
        rw [upages_eq] at hku
        rw [pgsize_eq]
        omega
      cases ht : tablePage m d (k / 1024) with
      | none =>
        -- no entry up to the next page table is present
        have hskip : PGADDR (PDX (k * PGSIZE) + 1) 0 0 = (k / 1024 + 1) * 1024 * PGSIZE := by
          rw [pdx_eq hva, hdiv]
          unfold PGADDR
          rw [upages_eq] at hku
          rw [pgsize_eq]
          omega
        simp only [Option.map_none]
        rw [hskip]
        rw [upages_eq] at hku
        apply (ih (k := (k / 1024 + 1) * 1024) (by rw [upages_eq]; omega)
          (by rw [upages_eq] at *; omega) h).imp
        intro _ m' hm'
        apply hm'.mono fun _ hi => hi
        intro v hv
        by_cases hrange : k ≤ v ∧ v < (k / 1024 + 1) * 1024
        · have hv0 : present (lookup m d v) ≠ true := by
            rw [lookup_of_none (show tablePage m d (v / 1024) = none by
              rw [show v / 1024 = k / 1024 by omega]
              exact ht)]
            decide
          rw [cleared_of_absent hv0, cleared_of_absent hv0]
        · exact cleared_congr (by omega)
      | some t =>
        simp only [Option.map_some, sat_bind]
        rw [sat_load, ← lookup_of_table ht]
        by_cases hp : present (lookup m d k) = true
        · have hmem : frame (lookup m d k) ∈ space m d + R :=
            Multiset.mem_add.mpr (Or.inl (frame_mem_space hku hp))
          have hne : PTE_ADDR (lookup m d k) ≠ 0 := by
            intro h0
            apply h.ne_zero hmem
            unfold frame
            rw [h0]
            rfl
          rw [if_pos hp, if_neg hne, sat_bind, sat_kfree (h.mem_pool hmem), sat_bind,
            sat_store, hnext]
          have hturn := turn_release (I := fun _ => False) h hK hku ht hp
          apply (ih (by omega) (by omega) hturn.total).imp
          intro _ m' hm'
          apply (hturn.trans hm').mono (fun _ hi => hi.elim id id)
          intro v hv
          unfold cleared
          rw [hturn.entry v hv]
          by_cases hvk : v = k
          · subst hvk
            rw [Function.update_self, ite_self, if_pos ⟨Nat.le_refl v, hlt, hp⟩]
          · rw [Function.update_of_ne hvk]
            exact cleared_congr (L := lookup m d) (by omega)
        · rw [if_neg hp, hnext]
          apply (ih (by omega) (by omega) h).imp
          intro _ m' hm'
          apply hm'.mono fun _ hi => hi
          intro v hv
          by_cases hvk : v = k
          · subst hvk
            rw [cleared_of_absent hp, cleared_of_absent hp]
          · exact cleared_congr (by omega)
    · rw [if_neg fun hc => hlt (lt_pages_iff.mpr hc), sat_pure]
      apply (Turn.refl h).mono fun _ hi => hi
      intro v hv
      rw [cleared_of_ge (by omega)]

theorem deallocuvm_spec {oldsz newsz : Nat} (hold : oldsz ≤ KERNBASE) (hK : ∀ n ∈ K, n ∈ R)
    (h : Accounts im m (space m d + R)) : ((deallocuvm im d oldsz newsz).run m).Sat
      (fun r m' => r = min oldsz newsz ∧
        Turn im K R d (fun _ => False) (cleared (pages newsz) (pages oldsz) (lookup m d)) m m')
      E := by
  unfold deallocuvm
  by_cases hle : oldsz ≤ newsz
  · rw [if_pos hle, sat_pure]
    refine ⟨(Nat.min_eq_left hle).symm, (Turn.refl h).mono (fun _ hi => hi) ?_⟩
    intro v hv
    have hpages : pages oldsz ≤ pages newsz := by
      unfold pages
      exact Nat.div_le_div_right (by omega)
    rw [cleared_of_ge (by omega)]
  · have hup : PGROUNDUP newsz = pages newsz * PGSIZE := by
      unfold KERNBASE at hold
      unfold PGROUNDUP pages
      rw [pgsize_eq]
      omega
    have hpages := pages_le (show newsz ≤ KERNBASE by omega)
    rw [if_neg hle, sat_bind, hup]
    apply (deallocFrom_spec hold hK (2 ^ 20 + 1) hpages ?_ h).imp
    · intro _ m' hm'
      rw [sat_pure]
      exact ⟨(Nat.min_eq_right (by omega)).symm, hm'⟩
    · rw [upages_eq]
      omega

def tablesFrom (m : Mem) (d k : Nat) : Multiset Nat :=
  gather (Finset.range NPDENTRIES) fun i => if k ≤ i then tablePage m d i else none

theorem tablesFrom_zero (m : Mem) (d : Nat) : tablesFrom m d 0 = tables m d := by
  unfold tablesFrom tables
  exact gather_congr fun i _ => if_pos (Nat.zero_le i)

theorem tablesFrom_end (m : Mem) (d : Nat) : tablesFrom m d NPDENTRIES = 0 := by
  unfold tablesFrom
  apply gather_eq_zero
  intro i hi
  exact if_neg (Nat.not_le.mpr (Finset.mem_range.mp hi))

theorem tablesFrom_succ {k : Nat} (hk : k < NPDENTRIES) :
    tablesFrom m d k = ((tablePage m d k).toList : Multiset Nat) + tablesFrom m d (k + 1) := by
  have hrest : ∀ i ≠ k, ((if k ≤ i then tablePage m d i else none) : Option Nat) =
      if k + 1 ≤ i then tablePage m d i else none := by
    intro i hi
    have hiff : k ≤ i ↔ k + 1 ≤ i := by omega
    simp only [hiff]
  unfold tablesFrom
  cases ht : tablePage m d k with
  | none =>
    rw [Option.toList_none, Multiset.coe_nil, zero_add]
    apply gather_congr
    intro i _
    by_cases hik : i = k
    · subst hik
      rw [if_pos (Nat.le_refl i), if_neg (by omega), ht]
    · exact hrest i hik
  | some t =>
    rw [Option.toList_some, Multiset.coe_singleton, Multiset.singleton_add]
    apply gather_cons (Finset.mem_range.mpr hk)
    · exact if_neg (by omega)
    · rw [if_pos (Nat.le_refl k), ht]
    · intro i _ hik
      exact hrest i hik

structure TablesFreed (im : Image) (K : Multiset Nat) (d : Nat) (m : Mem) (k : Nat) (m' : Mem) :
    Prop where
  total : Accounts im m' (d ::ₘ (tablesFrom m d k + K))
  dir : m'.page d = m.page d
  agree : Agree m m' K

theorem freeTable_spec {k : Nat} (hk : k < NPDENTRIES) {m' : Mem} (h : TablesFreed im K d m k m') :
    ((freeTable im d k).run m').Sat (fun _ u => TablesFreed im K d m (k + 1) u) E := by
  have hsucc := tablesFrom_succ (m := m) (d := d) hk
  have htotal := h.total
  unfold freeTable
  rw [sat_bind, sat_load, h.dir]
  unfold tablePage at hsucc
  by_cases hp : present ((m.page d).word k) = true
  · rw [if_pos hp] at hsucc
    rw [Option.toList_some, Multiset.coe_singleton, Multiset.singleton_add] at hsucc
    rw [hsucc, Multiset.cons_add] at htotal
    have hmem : frame ((m.page d).word k) ∈
        d ::ₘ frame ((m.page d).word k) ::ₘ (tablesFrom m d (k + 1) + K) :=
      Multiset.mem_cons_of_mem (Multiset.mem_cons_self _ _)
    have hnd := (Multiset.nodup_add.mp htotal.nodup).2.1
    obtain ⟨hd, hrest⟩ := Multiset.nodup_cons.mp hnd
    have hne : d ≠ frame ((m.page d).word k) := by
      intro heq
      exact hd (Multiset.mem_cons.mpr (Or.inl heq))
    rw [if_pos hp, sat_kfree (htotal.mem_pool hmem)]
    rw [Multiset.cons_swap] at htotal
    refine ⟨htotal.push, ?_, ?_⟩
    · rw [push_page_of_ne _ hne, h.dir]
    · apply h.agree.trans
      apply agree_push
      intro hK
      exact (Multiset.nodup_cons.mp hrest).1 (Multiset.mem_add.mpr (Or.inr hK))
  · rw [if_neg hp] at hsucc
    rw [Option.toList_none, Multiset.coe_nil, zero_add] at hsucc
    rw [if_neg hp, sat_pure]
    rw [hsucc] at htotal
    exact ⟨htotal, h.dir, h.agree⟩

theorem frames_cleared {m' : Mem}
    (h : Turn im K R d (fun _ => False) (cleared 0 UPAGES (lookup m d)) m m') :
    frames m' d = 0 := by
  unfold frames
  apply gather_eq_zero
  intro v hv
  have hvu := Finset.mem_range.mp hv
  unfold framePage
  rw [h.entry v (upage_lt hvu), cleared_of_mem (Nat.zero_le v) hvu]
  rfl

theorem freevm_spec (h : Accounts im m (space m d + K)) :
    ((freevm im d).run m).Sat (fun _ m' => Accounts im m' K ∧ Agree m m' K) E := by
  have hd0 : d ≠ 0 := h.ne_zero (Multiset.mem_add.mpr (Or.inl (dir_mem_space m d)))
  have hpages : pages 0 = 0 ∧ pages KERNBASE = UPAGES := by decide
  unfold freevm
  rw [if_neg hd0, sat_bind]
  apply (deallocuvm_spec (Nat.le_refl _) (fun _ hn => hn) h).imp
  rintro _ m₁ ⟨-, h₁⟩
  rw [hpages.1, hpages.2] at h₁
  have hstart : TablesFreed im K d m₁ 0 m₁ := by
    refine ⟨?_, rfl, fun _ _ => rfl⟩
    have htotal := h₁.total
    unfold space at htotal
    rw [frames_cleared h₁, add_zero, ← tablesFrom_zero, Multiset.cons_add] at htotal
    exact htotal
  have hloop := sat_loop (s := m₁) (n := NPDENTRIES) (i := 0) (f := freeTable im d) (E := E)
    (I := fun k m' => TablesFreed im K d m₁ k m')
    (fun k m' _ hk hI => freeTable_spec (by omega) hI) hstart
  rw [sat_bind]
  apply hloop.imp
  intro _ m₂ h₂
  have htotal := h₂.total
  rw [Nat.zero_add, tablesFrom_end, zero_add] at htotal
  rw [sat_kfree (htotal.mem_pool (Multiset.mem_cons_self _ _))]
  refine ⟨htotal.push, (h₁.agree.trans h₂.agree).trans ?_⟩
  apply agree_push
  exact (Multiset.nodup_cons.mp (Multiset.nodup_add.mp htotal.nodup).2.1).1

end BossOs.Vm
