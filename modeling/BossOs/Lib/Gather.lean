import Mathlib.Algebra.BigOperators.Group.Finset.Basic
import Mathlib.Algebra.BigOperators.Ring.Finset
import Mathlib.Algebra.Order.BigOperators.Group.Finset
import Mathlib.Algebra.BigOperators.Group.Multiset.Basic
import Mathlib.Data.Multiset.AddSub
import Mathlib.Data.Multiset.Dedup

/-!
# Units held in places

Each place holds one unit or none. `gather` is everything the places hold, with
multiplicity, so that "no unit is lost and none is held twice" is an equation between
multisets that each move preserves.
-/

namespace BossOs.Lib

variable {ι α : Type}

def gather (s : Finset ι) (f : ι → Option α) : Multiset α :=
  ∑ i ∈ s, ((f i).toList : Multiset α)

theorem sum_swap [DecidableEq ι] {s : Finset ι} {F G : ι → Multiset α} {i : ι} (hi : i ∈ s)
    (h : ∀ j ∈ s, j ≠ i → G j = F j) : F i + ∑ j ∈ s, G j = G i + ∑ j ∈ s, F j := by
  have herase : ∑ j ∈ s.erase i, G j = ∑ j ∈ s.erase i, F j := by
    apply Finset.sum_congr rfl
    intro j hj
    exact h j (Finset.mem_of_mem_erase hj) (Finset.ne_of_mem_erase hj)
  rw [← Finset.add_sum_erase s G hi, ← Finset.add_sum_erase s F hi, herase]
  exact add_left_comm _ _ _

variable {s : Finset ι} {f g : ι → Option α}

theorem gather_congr (h : ∀ i ∈ s, f i = g i) : gather s f = gather s g := by
  apply Finset.sum_congr rfl
  intro i hi
  rw [h i hi]

theorem gather_eq_zero (h : ∀ i ∈ s, f i = none) : gather s f = 0 := by
  apply Finset.sum_eq_zero
  intro i hi
  rw [h i hi]
  rfl

theorem mem_gather {a : α} : a ∈ gather s f ↔ ∃ i ∈ s, f i = some a := by
  unfold gather
  rw [Multiset.mem_sum]
  constructor
  · rintro ⟨i, hi, ha⟩
    exact ⟨i, hi, Option.mem_toList.mp ha⟩
  · rintro ⟨i, hi, ha⟩
    exact ⟨i, hi, Option.mem_toList.mpr ha⟩

theorem count_gather [DecidableEq α] (s : Finset ι) (f : ι → Option α) (a : α) :
    (gather s f).count a = (s.filter fun i => f i = some a).card := by
  unfold gather
  rw [Multiset.count_sum', Finset.card_filter]
  apply Finset.sum_congr rfl
  intro i _
  cases hi : f i with
  | none => rfl
  | some b =>
    rw [Option.toList_some, Multiset.coe_count, List.count_singleton]
    by_cases hb : b = a
    · rw [if_pos (beq_iff_eq.mpr hb), if_pos (congrArg some hb)]
    · rw [if_neg (fun h => hb (beq_iff_eq.mp h)), if_neg fun h => hb (Option.some.inj h)]

theorem gather_cons [DecidableEq ι] {i : ι} {a : α} (hi : i ∈ s) (hf : f i = none) (hg : g i = some a)
    (h : ∀ j ∈ s, j ≠ i → g j = f j) : gather s g = a ::ₘ gather s f := by
  have hswap := sum_swap (F := fun j => ((f j).toList : Multiset α))
    (G := fun j => ((g j).toList : Multiset α)) hi fun j hj hne => by rw [h j hj hne]
  simp only [hf, hg, Option.toList_none, Option.toList_some, Multiset.coe_nil, zero_add] at hswap
  exact hswap

theorem gather_inj [DecidableEq ι] (hn : (gather s f).Nodup) {i j : ι} {a : α} (hi : i ∈ s)
    (hj : j ∈ s) (hfi : f i = some a) (hfj : f j = some a) : i = j := by
  by_contra hne
  have hcons : gather s f = a ::ₘ gather s (Function.update f i none) := by
    apply gather_cons hi (Function.update_self ..) hfi
    intro k _ hk
    rw [Function.update_of_ne hk]
  rw [hcons, Multiset.nodup_cons] at hn
  apply hn.1
  exact mem_gather.mpr ⟨j, hj, by rw [Function.update_of_ne (Ne.symm hne), hfj]⟩

theorem card_gather_le {t : Finset ι} (h : ∀ i ∈ s, i ∉ t → f i = none) :
    (gather s f).card ≤ t.card := by
  classical
  have hcard : ∀ i ∈ s, ((f i).toList : Multiset α).card ≤ if i ∈ t then 1 else 0 := by
    intro i hi
    by_cases hit : i ∈ t
    · rw [if_pos hit]
      cases f i <;> simp
    · rw [if_neg hit, h i hi hit]
      simp
  calc (gather s f).card = ∑ i ∈ s, ((f i).toList : Multiset α).card := Multiset.card_sum s _
    _ ≤ ∑ i ∈ s, if i ∈ t then 1 else 0 := Finset.sum_le_sum hcard
    _ = (s ∩ t).card := by rw [Finset.sum_boole, Finset.filter_mem_eq_inter, Nat.cast_id]
    _ ≤ t.card := Finset.card_le_card Finset.inter_subset_right

theorem gather_split [DecidableEq ι] {t : Finset ι} (ht : t ⊆ s)
    (hout : ∀ i ∈ s, i ∉ t → g i = f i) (hin : ∀ i ∈ t, g i = none) :
    gather s f = gather t f + gather s g := by
  have hzero : ∑ i ∈ t, ((g i).toList : Multiset α) = 0 := by
    apply Finset.sum_eq_zero
    intro i hi
    rw [hin i hi]
    rfl
  have hrest : ∑ i ∈ s \ t, ((f i).toList : Multiset α) = ∑ i ∈ s \ t, ((g i).toList : Multiset α) := by
    apply Finset.sum_congr rfl
    intro i hi
    rw [hout i (Finset.mem_sdiff.mp hi).1 (Finset.mem_sdiff.mp hi).2]
  unfold gather
  rw [← Finset.sum_sdiff ht, ← Finset.sum_sdiff ht (f := fun i => ((g i).toList : Multiset α)),
    hzero, add_zero, hrest, add_comm]

attribute [irreducible] gather

end BossOs.Lib
