import BossOs.Lib.Memory

/-!
# C strings in memory

`strchr` of `ulib.c` and the string that a function reads from an address on. Both loops end
at the NUL; `n` bounds the number of their turns.
-/

namespace BossOs.Ulib

open Lib Lib.Memory

def strchr (m : Memory) (c : UInt8) : Nat → UInt32 → Option UInt32
  | 0, _ => none
  | n + 1, s => if m s = 0 then none else if m s = c then some s else strchr m c n (s + 1)

def cstring (m : Memory) : Nat → UInt32 → List UInt8
  | 0, _ => []
  | n + 1, s => if m s = 0 then [] else m s :: cstring m n (s + 1)

variable {m : Memory} {c : UInt8} {s : UInt32} {n : Nat} {xs ys : List UInt8}

theorem strchr_some (h : At m s (xs ++ c :: ys)) (h0 : 0 ∉ xs) (hc : c ∉ xs) (hc0 : c ≠ 0)
    (hn : xs.length < n) : strchr m c n s = some (s + UInt32.ofNat xs.length) := by
  induction xs generalizing n s with
  | nil =>
    obtain ⟨n, rfl⟩ := Nat.exists_eq_add_of_lt hn
    obtain ⟨hs, -⟩ := at_cons.mp h
    rw [strchr, hs, if_neg hc0, if_pos rfl]
    exact congrArg some (add_zero_ofNat s).symm
  | cons x xs ih =>
    obtain ⟨n, rfl⟩ : ∃ k, n = k + 1 := ⟨n - 1, by omega⟩
    obtain ⟨hs, htail⟩ := at_cons.mp h
    obtain ⟨hx0, h0⟩ := List.ne_and_not_mem_of_not_mem_cons h0
    obtain ⟨hxc, hc⟩ := List.ne_and_not_mem_of_not_mem_cons hc
    rw [List.length_cons] at hn
    rw [strchr, hs, if_neg (Ne.symm hx0), if_neg (Ne.symm hxc), ih htail h0 hc (by omega),
      List.length_cons, add_ofNat_succ]

theorem strchr_none (h : At m s (xs ++ 0 :: ys)) (hc : c ∉ xs) (hn : xs.length < n) :
    strchr m c n s = none := by
  induction xs generalizing n s with
  | nil =>
    obtain ⟨n, rfl⟩ := Nat.exists_eq_add_of_lt hn
    obtain ⟨hs, -⟩ := at_cons.mp h
    rw [strchr, if_pos hs]
  | cons x xs ih =>
    obtain ⟨n, rfl⟩ : ∃ k, n = k + 1 := ⟨n - 1, by omega⟩
    obtain ⟨hs, htail⟩ := at_cons.mp h
    obtain ⟨hxc, hc⟩ := List.ne_and_not_mem_of_not_mem_cons hc
    rw [List.length_cons] at hn
    rw [strchr, hs, if_neg (Ne.symm hxc), ih htail hc (by omega)]
    exact ite_self _

theorem cstring_eq (h : At m s (xs ++ 0 :: ys)) (h0 : 0 ∉ xs) (hn : xs.length < n) :
    cstring m n s = xs := by
  induction xs generalizing n s with
  | nil =>
    obtain ⟨n, rfl⟩ := Nat.exists_eq_add_of_lt hn
    obtain ⟨hs, -⟩ := at_cons.mp h
    rw [cstring, if_pos hs]
  | cons x xs ih =>
    obtain ⟨n, rfl⟩ : ∃ k, n = k + 1 := ⟨n - 1, by omega⟩
    obtain ⟨hs, htail⟩ := at_cons.mp h
    obtain ⟨hx0, h0⟩ := List.ne_and_not_mem_of_not_mem_cons h0
    rw [List.length_cons] at hn
    rw [cstring, hs, if_neg (Ne.symm hx0), ih htail h0 (by omega)]

end BossOs.Ulib
