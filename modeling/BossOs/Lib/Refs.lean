import Mathlib.Data.Multiset.Count
import Mathlib.Data.Multiset.AddSub
import Mathlib.Logic.Function.Basic

/-!
# Reference counts

A counter that says how many references there are to an object, when each of any number of
users may have several.
-/

namespace BossOs.Lib

variable {P : Type} [DecidableEq P]

def Refs (n : Nat) (uses : P → Nat) : Prop :=
  ∃ m : Multiset P, m.card = n ∧ ∀ p, m.count p = uses p

namespace Refs

variable {n : Nat} {uses : P → Nat}

theorem zero : Refs 0 fun _ : P => 0 := ⟨0, rfl, fun _ => rfl⟩

theorem eq_zero (h : Refs 0 uses) (p : P) : uses p = 0 := by
  obtain ⟨m, hm, hu⟩ := h
  rw [← hu p, Multiset.card_eq_zero.mp hm]
  rfl

theorem pos (h : Refs n uses) {p : P} (hp : uses p ≠ 0) : n ≠ 0 := by
  rintro rfl
  exact hp (h.eq_zero p)

variable {uses' : P → Nat}

theorem congr (h : Refs n uses) (hu : ∀ p, uses' p = uses p) : Refs n uses' := by
  rwa [funext hu]

theorem add (h : Refs n uses) (p : P) (hp : uses' p = uses p + 1)
    (hq : ∀ q ≠ p, uses' q = uses q) : Refs (n + 1) uses' := by
  obtain ⟨m, rfl, hu⟩ := h
  refine ⟨p ::ₘ m, Multiset.card_cons p m, fun q => ?_⟩
  by_cases hqp : q = p
  · subst hqp
    rw [Multiset.count_cons_self, hu, hp]
  · rw [Multiset.count_cons_of_ne hqp, hu, hq q hqp]

theorem drop (h : Refs n uses) {p : P} (hp : uses p = uses' p + 1)
    (hq : ∀ q ≠ p, uses' q = uses q) : Refs (n - 1) uses' := by
  obtain ⟨m, rfl, hu⟩ := h
  have hmem : p ∈ m := Multiset.count_pos.mp (by rw [hu, hp]; exact Nat.succ_pos _)
  refine ⟨m.erase p, Multiset.card_erase_of_mem hmem, fun q => ?_⟩
  by_cases hqp : q = p
  · subst hqp
    rw [Multiset.count_erase_self, hu, hp, Nat.add_sub_cancel]
  · rw [Multiset.count_erase_of_ne hqp, hu, hq q hqp]

end Refs

end BossOs.Lib
