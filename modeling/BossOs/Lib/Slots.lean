import Mathlib.Logic.Function.Basic

/-!
# Maps kept in slots

A map from keys to values is kept in the slots `0`, …, `n - 1`, each empty or with one
binding. A new binding goes into an empty slot or after the last one; a binding is removed
by emptying its slot.
-/

namespace BossOs.Lib

variable {κ ν : Type*}

/-- The first `n` slots of `f` hold the map `M`, each key once. -/
structure Slots (n : Nat) (f : Nat → Option (κ × ν)) (M : κ → Option ν) : Prop where
  unique : ∀ i j k a b, i < n → j < n → f i = some (k, a) → f j = some (k, b) → i = j
  mem_iff : ∀ k v, M k = some v ↔ ∃ i, i < n ∧ f i = some (k, v)

namespace Slots

variable {n : Nat} {f g : Nat → Option (κ × ν)} {M : κ → Option ν} {k : κ} {v : ν}

theorem empty (h : ∀ i < n, f i = none) : Slots n f fun _ => none := by
  refine ⟨?_, ?_⟩
  · intro i _ _ _ _ hi _ hf
    rw [h i hi] at hf
    cases hf
  · intro k v
    constructor
    · intro hc
      cases hc
    · rintro ⟨i, hi, hf⟩
      rw [h i hi] at hf
      cases hf

theorem not_mem (h : Slots n f M) (hk : M k = none) {i : Nat} (hi : i < n) : f i ≠ some (k, v) := by
  intro hf
  have hM := (h.mem_iff k v).mpr ⟨i, hi, hf⟩
  rw [hk] at hM
  cases hM

variable [DecidableEq κ]

theorem insert (h : Slots n f M) (hk : M k = none) {j : Nat} (hj : j ≤ n)
    (hfree : j < n → f j = none)
    (hg : ∀ i < max n (j + 1), g i = if i = j then some (k, v) else f i) :
    Slots (max n (j + 1)) g (Function.update M k (some v)) := by
  have hold : ∀ i < max n (j + 1), i ≠ j → i < n ∧ g i = f i := by
    intro i hi hne
    rw [hg i hi, if_neg hne]
    exact ⟨by omega, rfl⟩
  have hself : g j = some (k, v) := by
    rw [hg j (by omega), if_pos rfl]
  refine ⟨?_, ?_⟩
  · intro a b k' x y ha hb hga hgb
    by_cases haj : a = j <;> by_cases hbj : b = j
    · rw [haj, hbj]
    · obtain ⟨hbn, hfb⟩ := hold b hb hbj
      rw [haj, hself, Option.some.injEq, Prod.mk.injEq] at hga
      rw [hfb, ← hga.1] at hgb
      exact absurd hgb (h.not_mem hk hbn)
    · obtain ⟨han, hfa⟩ := hold a ha haj
      rw [hbj, hself, Option.some.injEq, Prod.mk.injEq] at hgb
      rw [hfa, ← hgb.1] at hga
      exact absurd hga (h.not_mem hk han)
    · obtain ⟨han, hfa⟩ := hold a ha haj
      obtain ⟨hbn, hfb⟩ := hold b hb hbj
      rw [hfa] at hga
      rw [hfb] at hgb
      exact h.unique a b k' x y han hbn hga hgb
  · intro k' w
    by_cases hkk : k' = k
    · subst hkk
      rw [Function.update_self, Option.some.injEq]
      constructor
      · rintro rfl
        exact ⟨j, by omega, hself⟩
      · rintro ⟨i, hi, hgi⟩
        by_cases hij : i = j
        · rw [hij, hself, Option.some.injEq, Prod.mk.injEq] at hgi
          exact hgi.2
        · obtain ⟨hin, hfi⟩ := hold i hi hij
          rw [hfi] at hgi
          exact absurd hgi (h.not_mem hk hin)
    · rw [Function.update_of_ne hkk, h.mem_iff]
      constructor
      · rintro ⟨i, hi, hfi⟩
        have hij : i ≠ j := by
          rintro rfl
          rw [hfree hi] at hfi
          cases hfi
        exact ⟨i, by omega, (hold i (by omega) hij).2.trans hfi⟩
      · rintro ⟨i, hi, hgi⟩
        have hij : i ≠ j := by
          rintro rfl
          rw [hself, Option.some.injEq, Prod.mk.injEq] at hgi
          exact hkk hgi.1.symm
        obtain ⟨hin, hfi⟩ := hold i hi hij
        exact ⟨i, hin, hfi.symm.trans hgi⟩

theorem erase (h : Slots n f M) {j : Nat} (hj : j < n) (hf : f j = some (k, v))
    (hg : ∀ i < n, g i = if i = j then none else f i) :
    Slots n g (Function.update M k none) := by
  have hold : ∀ i k' w, i < n → g i = some (k', w) → i ≠ j ∧ f i = some (k', w) := by
    intro i k' w hi hgi
    rw [hg i hi] at hgi
    split at hgi
    · cases hgi
    · rename_i hne
      exact ⟨hne, hgi⟩
  refine ⟨?_, ?_⟩
  · intro a b k' x y ha hb hga hgb
    exact h.unique a b k' x y ha hb (hold a k' x ha hga).2 (hold b k' y hb hgb).2
  · intro k' w
    by_cases hkk : k' = k
    · subst hkk
      rw [Function.update_self]
      constructor
      · intro hc
        cases hc
      · rintro ⟨i, hi, hgi⟩
        obtain ⟨hne, hfi⟩ := hold i _ w hi hgi
        exact absurd (h.unique i j _ w v hi hj hfi hf) hne
    · rw [Function.update_of_ne hkk, h.mem_iff]
      constructor
      · rintro ⟨i, hi, hfi⟩
        refine ⟨i, hi, ?_⟩
        rw [hg i hi, if_neg, hfi]
        rintro rfl
        rw [hf, Option.some.injEq, Prod.mk.injEq] at hfi
        exact hkk hfi.1.symm
      · rintro ⟨i, hi, hgi⟩
        exact ⟨i, hi, (hold i k' w hi hgi).2⟩

end Slots

end BossOs.Lib
