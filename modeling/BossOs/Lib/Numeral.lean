import Mathlib.Data.Nat.Digits.Lemmas

/-!
# Numerals

The digits of a number in a base, the lowest first, as a loop that divides until nothing is left
produces them: zero has one digit. No list of digits of the same value is shorter, and no other
one has the same length.
-/

namespace BossOs.Lib

def numeral (b n : Nat) : List Nat := n % b :: Nat.digits b (n / b)

variable {b n k : Nat}

theorem numeral_of_div_eq_zero (h : n / b = 0) : numeral b n = [n % b] := by
  rw [numeral, h, Nat.digits_zero]

theorem numeral_of_div_ne_zero (hb : 1 < b) (h : n / b ≠ 0) :
    numeral b n = n % b :: numeral b (n / b) := by
  rw [numeral, Nat.digits_def' hb (Nat.pos_of_ne_zero h), numeral]

theorem ofDigits_numeral (b n : Nat) : Nat.ofDigits b (numeral b n) = n := by
  rw [numeral, Nat.ofDigits_cons, Nat.ofDigits_digits]
  exact Nat.mod_add_div n b

theorem lt_of_mem_numeral (hb : 1 < b) {d : Nat} (h : d ∈ numeral b n) : d < b := by
  rcases List.mem_cons.mp h with rfl | h
  · exact Nat.mod_lt n (Nat.zero_lt_of_lt hb)
  · exact Nat.digits_lt_base hb h

theorem length_numeral_le (hb : 1 < b) (h : n < b ^ (k + 1)) : (numeral b n).length ≤ k + 1 := by
  rw [numeral, List.length_cons]
  apply Nat.succ_le_succ
  rw [Nat.digits_length_le_iff hb]
  apply Nat.div_lt_of_lt_mul
  rwa [Nat.mul_comm, ← Nat.pow_succ]

theorem numeral_minimal (hb : 1 < b) {ds : List Nat} (hne : ds ≠ []) (hlt : ∀ d ∈ ds, d < b)
    (hval : Nat.ofDigits b ds = n) : ds = numeral b n ∨ (numeral b n).length < ds.length := by
  induction ds generalizing n with
  | nil => exact absurd rfl hne
  | cons d ds ih =>
    obtain ⟨hd, hds⟩ := List.forall_mem_cons.mp hlt
    rw [Nat.ofDigits_cons] at hval
    have hmod : n % b = d := by
      rw [← hval, Nat.add_mul_mod_self_left, Nat.mod_eq_of_lt hd]
    have hdiv : n / b = Nat.ofDigits b ds := by
      rw [← hval, Nat.add_mul_div_left _ _ (Nat.zero_lt_of_lt hb), Nat.div_eq_of_lt hd, Nat.zero_add]
    by_cases hrest : ds = []
    · subst hrest
      left
      rw [numeral_of_div_eq_zero hdiv, hmod]
    by_cases h0 : n / b = 0
    · right
      rw [numeral_of_div_eq_zero h0, List.length_cons, List.length_cons]
      exact Nat.succ_lt_succ (List.length_pos_iff.mpr hrest)
    · rw [numeral_of_div_ne_zero hb h0, hmod]
      rcases ih hrest hds hdiv.symm with heq | hlen
      · exact Or.inl (congrArg (d :: ·) heq)
      · exact Or.inr (Nat.succ_lt_succ hlen)

end BossOs.Lib
