import BossOs.Lib.Bytes
import Mathlib.Data.UInt
import Mathlib.Logic.Function.Basic
import Mathlib.Tactic.Basic

/-!
# Copying bytes in a flat memory

A memory is a function on 32-bit addresses, which wrap around. `copyUp` and `copyDown` copy
one byte after the other, each reading what the earlier ones have left; `moved` is the
memory in which all bytes have been copied at once.
-/

namespace BossOs.Lib

open UInt32 (lt_iff_toNat_lt ofNat ofNat_toNat toNat_add toNat_inj toNat_sub)

abbrev Memory := UInt32 → UInt8

namespace Memory

variable {m : Memory} {d s x : UInt32} {n i j : Nat}

theorem toNat_add_ofNat (h : d.toNat + i < 2 ^ 32) : (d + ofNat i).toNat = d.toNat + i := by
  rw [toNat_add, UInt32.toNat_ofNat', Nat.add_mod_mod, Nat.mod_eq_of_lt h]

theorem add_zero_ofNat (a : UInt32) : a + ofNat 0 = a := UInt32.add_zero a

theorem add_ofNat_succ (d : UInt32) (i : Nat) :
    d + ofNat (i + 1) = d + 1 + ofNat i := by
  rw [UInt32.ofNat_add, UInt32.add_comm (ofNat i), ← UInt32.add_assoc]
  rfl

theorem sub_add_ofNat (hi : i < 2 ^ 32) : (d + ofNat i - d).toNat = i := by
  rw [UInt32.add_comm, UInt32.add_sub_cancel, UInt32.toNat_ofNat', Nat.mod_eq_of_lt hi]

theorem add_ofNat_sub (d x : UInt32) : d + ofNat (x - d).toNat = x := by
  rw [ofNat_toNat, UInt32.add_comm, UInt32.sub_add_cancel]

theorem add_ofNat_ne (hi : i < 2 ^ 32) (hj : j < 2 ^ 32) (hne : i ≠ j) :
    d + ofNat i ≠ d + ofNat j := by
  intro heq
  apply hne
  rw [← sub_add_ofNat (d := d) hi, heq, sub_add_ofNat hj]

def copyUp : Nat → UInt32 → UInt32 → Memory → Memory
  | 0, _, _, m => m
  | n + 1, d, s, m => copyUp n (d + 1) (s + 1) (Function.update m d (m s))

def copyDown : Nat → UInt32 → UInt32 → Memory → Memory
  | 0, _, _, m => m
  | n + 1, d, s, m => copyDown n (d - 1) (s - 1) (Function.update m (d - 1) (m (s - 1)))

def moved (n : Nat) (d s : UInt32) (m : Memory) : Memory := fun x =>
  if (x - d).toNat < n then m (s + (x - d)) else m x

theorem moved_add (hi : i < n) (hn : n ≤ 2 ^ 32) :
    moved n d s m (d + ofNat i) = m (s + ofNat i) := by
  have hsub := sub_add_ofNat (d := d) (show i < 2 ^ 32 by omega)
  rw [moved, if_pos (by omega), ← ofNat_toNat (x := d + ofNat i - d), hsub]

theorem copyUp_succ (n : Nat) (d s : UInt32) (m : Memory) :
    copyUp (n + 1) d s m = Function.update (copyUp n d s m) (d + ofNat n)
      (copyUp n d s m (s + ofNat n)) := by
  induction n generalizing d s m with
  | zero =>
    rw [copyUp, copyUp, copyUp, add_zero_ofNat, add_zero_ofNat]
  | succ n ih =>
    rw [copyUp, ih, add_ofNat_succ d, add_ofNat_succ s]
    rfl

theorem copyUp_of_ge (h : n ≤ (x - d).toNat) : copyUp n d s m x = m x := by
  induction n with
  | zero => rfl
  | succ n ih =>
    rw [copyUp_succ, Function.update_of_ne, ih (by omega)]
    intro heq
    have hn : n < 2 ^ 32 := Nat.lt_of_lt_of_le h (Nat.le_of_lt (x - d).toNat_lt)
    rw [heq, sub_add_ofNat hn] at h
    omega

theorem copyUp_add (hi : i < n) (hn : n ≤ 2 ^ 32) :
    copyUp n d s m (d + ofNat i) = copyUp i d s m (s + ofNat i) := by
  induction n with
  | zero => omega
  | succ n ih =>
    rw [copyUp_succ]
    rcases Nat.lt_succ_iff_lt_or_eq.mp hi with hlt | rfl
    · rw [Function.update_of_ne (add_ofNat_ne (by omega) (by omega) (by omega)), ih hlt (by omega)]
    · exact Function.update_self ..

section Bounded

variable (hs : s.toNat + n ≤ 2 ^ 32) (hd : d.toNat + n ≤ 2 ^ 32)
include hs hd

theorem copyUp_read (hi : i < n) (hout : d.toNat ≤ s.toNat + i → d.toNat + i ≤ s.toNat + i) :
    copyUp i d s m (s + ofNat i) = m (s + ofNat i) := by
  apply copyUp_of_ge
  have haddr := toNat_add_ofNat (d := s) (i := i) (by omega)
  rw [toNat_sub, haddr]
  have := d.toNat_lt
  by_cases h : d.toNat ≤ s.toNat + i
  · have := hout h
    omega
  · omega

theorem copyUp_eq_moved_iff : copyUp n d s m = moved n d s m ↔
    (s < d → ∀ i, d.toNat + i < s.toNat + n → m (s + ofNat i) = m (d + ofNat i)) := by
  have hn : n ≤ 2 ^ 32 := by omega
  constructor
  · intro h hlt i hi
    rw [lt_iff_toNat_lt] at hlt
    -- the byte at d + i is read when the copy reaches the source index k
    obtain ⟨k, hk⟩ : ∃ k, s.toNat + k = d.toNat + i := ⟨d.toNat + i - s.toNat, by omega⟩
    have haddr : s + ofNat k = d + ofNat i := by
      apply toNat_inj.mp
      rw [toNat_add_ofNat (by omega), toNat_add_ofNat (by omega), hk]
    calc m (s + ofNat i)
        = copyUp n d s m (d + ofNat i) := by rw [h, moved_add (by omega) hn]
      _ = copyUp k d s m (s + ofNat k) := by
        rw [haddr, copyUp_add (by omega) hn, copyUp_add (by omega) (by omega)]
      _ = m (d + ofNat i) := by
        rw [← copyUp_add (n := n) (by omega) hn, h, moved_add (by omega) hn, haddr]
  · intro h
    have hread : ∀ i < n, copyUp n d s m (d + ofNat i) = m (s + ofNat i) := by
      intro i
      induction i using Nat.strong_induction_on with
      | _ i ih =>
        intro hi
        rw [copyUp_add hi hn]
        by_cases hout : d.toNat ≤ s.toNat + i → d.toNat + i ≤ s.toNat + i
        · exact copyUp_read hs hd hi hout
        · -- what is read here has been written at step j
          obtain ⟨j, hj⟩ : ∃ j, d.toNat + j = s.toNat + i := ⟨s.toNat + i - d.toNat, by omega⟩
          have haddr : d + ofNat j = s + ofNat i := by
            apply toNat_inj.mp
            rw [toNat_add_ofNat (by omega), toNat_add_ofNat (by omega), hj]
          have hlt : s < d := by
            rw [lt_iff_toNat_lt]
            omega
          have hstep := ih j (by omega) (by omega)
          rw [copyUp_add (by omega) hn] at hstep
          rw [← haddr, copyUp_add (by omega) (by omega), hstep]
          exact h hlt j (by omega)
    funext x
    by_cases hx : (x - d).toNat < n
    · rw [← add_ofNat_sub d x, hread _ hx, moved_add hx hn]
    · rw [copyUp_of_ge (by omega), moved, if_neg hx]

theorem copyDown_eq_moved (hlt : s < d) :
    copyDown n (d + ofNat n) (s + ofNat n) m = moved n d s m := by
  induction n generalizing m with
  | zero =>
    funext x
    rw [moved, if_neg (Nat.not_lt_zero _)]
    rfl
  | succ n ih =>
    rw [lt_iff_toNat_lt] at hlt
    have hone : ∀ a : UInt32, a + ofNat (n + 1) - 1 = a + ofNat n := by
      intro a
      rw [UInt32.ofNat_add, ← UInt32.add_assoc]
      exact UInt32.add_sub_cancel _ _
    rw [copyDown, hone, hone, ih (by omega) (by omega)]
    funext x
    rw [moved, moved]
    rcases Nat.lt_trichotomy (x - d).toNat n with h | h | h
    · rw [if_pos h, if_pos (by omega), Function.update_of_ne]
      intro heq
      have htop := congrArg UInt32.toNat heq
      rw [← ofNat_toNat (x := x - d), toNat_add_ofNat (by omega),
        toNat_add_ofNat (by omega)] at htop
      omega
    · have hx : x = d + ofNat n := by rw [← h, add_ofNat_sub]
      rw [if_neg (by omega), if_pos (by omega), ← ofNat_toNat (x := x - d), h, hx]
      exact Function.update_self ..
    · rw [if_neg (by omega), if_neg (by omega), Function.update_of_ne]
      intro heq
      rw [heq, sub_add_ofNat (by omega)] at h
      omega

end Bounded

def At (m : Memory) (a : UInt32) (bs : List UInt8) : Prop :=
  ∀ i x, bs[i]? = some x → m (a + UInt32.ofNat i) = x

def write (m : Memory) (a : UInt32) : List UInt8 → Memory
  | [] => m
  | x :: xs => write (Function.update m a x) (a + 1) xs

def bytes (m : Memory) (a : UInt32) (n : Nat) : List UInt8 :=
  (List.range n).map fun i => m (a + UInt32.ofNat i)

section At

variable {a : UInt32} {v y : UInt8} {xs ys bs : List UInt8}

theorem at_nil : At m a [] := fun _ _ hx => nomatch hx

theorem add_add_ofNat (a : UInt32) (i j : Nat) :
    a + ofNat i + ofNat j = a + ofNat (i + j) := by
  rw [UInt32.ofNat_add, UInt32.add_assoc]

theorem at_append : At m a (xs ++ ys) ↔ At m a xs ∧ At m (a + ofNat xs.length) ys := by
  constructor
  · intro h
    constructor
    · intro i x hx
      apply h i x
      rw [List.getElem?_append_left (List.getElem?_eq_some_iff.mp hx).1]
      exact hx
    · intro i x hx
      rw [add_add_ofNat]
      apply h
      rw [List.getElem?_append_right (Nat.le_add_right _ _), Nat.add_sub_cancel_left]
      exact hx
  · rintro ⟨hxs, hys⟩ i x hx
    rcases Nat.lt_or_ge i xs.length with hi | hi
    · rw [List.getElem?_append_left hi] at hx
      exact hxs i x hx
    · rw [List.getElem?_append_right hi] at hx
      have hy := hys _ x hx
      rw [add_add_ofNat, Nat.add_sub_cancel' hi] at hy
      exact hy

theorem at_cons : At m a (y :: ys) ↔ m a = y ∧ At m (a + 1) ys := by
  have hone : At m a [y] ↔ m a = y := by
    constructor
    · intro h
      have hy := h 0 y rfl
      rw [add_zero_ofNat] at hy
      exact hy
    · rintro rfl i x hx
      obtain ⟨hi, rfl⟩ := List.getElem?_eq_some_iff.mp hx
      rw [List.length_singleton, Nat.lt_one_iff] at hi
      subst hi
      rw [add_zero_ofNat]
      rfl
  rw [← hone]
  have happ : At m a ([y] ++ ys) ↔ At m a [y] ∧ At m (a + ofNat [y].length) ys := at_append
  exact happ

theorem At.congr {m' : Memory} (h : At m a bs)
    (heq : ∀ i < bs.length, m' (a + ofNat i) = m (a + ofNat i)) : At m' a bs := by
  intro i x hx
  rw [heq i (List.getElem?_eq_some_iff.mp hx).1]
  exact h i x hx

theorem At.update (h : At m a bs) (hx : bs.length ≤ (x - a).toNat) :
    At (Function.update m x v) a bs := by
  apply h.congr
  intro i hi
  apply Function.update_of_ne
  rintro rfl
  have hlt := (a + ofNat i - a).toNat_lt
  rw [sub_add_ofNat (by omega)] at hx
  omega

theorem At.update_append (h : At m a (xs ++ y :: ys)) (hlen : (xs ++ y :: ys).length ≤ 2 ^ 32) :
    At (Function.update m (a + ofNat xs.length) v) a (xs ++ v :: ys) := by
  rw [List.length_append, List.length_cons] at hlen
  obtain ⟨hxs, hys⟩ := at_append.mp h
  apply at_append.mpr
  refine ⟨hxs.update (by rw [sub_add_ofNat (by omega)]), at_cons.mpr ⟨Function.update_self .., ?_⟩⟩
  apply (at_cons.mp hys).2.congr
  intro i hi
  apply Function.update_of_ne
  have hone : (1 : UInt32) = ofNat 1 := rfl
  rw [hone, add_add_ofNat, add_add_ofNat]
  exact add_ofNat_ne (by omega) (by omega) (by omega)

theorem write_of_ge (h : bs.length ≤ (x - a).toNat) : write m a bs x = m x := by
  induction bs generalizing m a with
  | nil => rfl
  | cons b bs ih =>
    rw [List.length_cons] at h
    have hsub : (x - (a + 1)).toNat = (x - a).toNat - 1 := by
      have hx := x.toNat_lt
      have ha := a.toNat_lt
      rw [toNat_sub] at h ⊢
      rw [toNat_sub, toNat_add]
      change (2 ^ 32 - (a.toNat + 1) % 2 ^ 32 + x.toNat) % 2 ^ 32 = _
      omega
    rw [write, ih (by omega), Function.update_of_ne]
    rintro rfl
    rw [UInt32.sub_self] at h
    exact absurd h (Nat.not_succ_le_zero _)

theorem at_write (hlen : bs.length ≤ 2 ^ 32) : At (write m a bs) a bs := by
  induction bs generalizing m a with
  | nil => exact at_nil
  | cons b bs ih =>
    rw [List.length_cons] at hlen
    refine at_cons.mpr ⟨?_, ih (by omega)⟩
    have hsub : (a - (a + 1)).toNat = 2 ^ 32 - 1 := by
      have ha := a.toNat_lt
      rw [toNat_sub, toNat_add]
      change (2 ^ 32 - (a.toNat + 1) % 2 ^ 32 + a.toNat) % 2 ^ 32 = _
      omega
    rw [write, write_of_ge (by omega)]
    exact Function.update_self ..

theorem At.write_append (h : At m a xs) (hlen : (xs ++ ys).length ≤ 2 ^ 32) :
    At (write m (a + ofNat xs.length) ys) a (xs ++ ys) := by
  rw [List.length_append] at hlen
  refine at_append.mpr ⟨h.congr fun i hi => write_of_ge ?_, at_write (by omega)⟩
  have ha := a.toNat_lt
  rw [toNat_sub, toNat_add, toNat_add, UInt32.toNat_ofNat',
    UInt32.toNat_ofNat']
  omega

theorem At.bytes (h : At m a bs) : bytes m a bs.length = bs := by
  apply List.ext_getElem?
  intro i
  rw [Memory.bytes, List.getElem?_map]
  rcases Nat.lt_or_ge i bs.length with hi | hi
  · rw [List.getElem?_range hi, List.getElem?_eq_getElem hi]
    exact congrArg some (h i _ (List.getElem?_eq_getElem hi))
  · rw [List.getElem?_eq_none (by rw [List.length_range]; exact hi), List.getElem?_eq_none hi]
    rfl

end At

def ushort (m : Memory) (p : UInt32) : UInt32 := UInt32.ofNat (leNat (bytes m p 2))

def word (m : Memory) (p : UInt32) : UInt32 := UInt32.ofNat (leNat (bytes m p 4))

end Memory

end BossOs.Lib
