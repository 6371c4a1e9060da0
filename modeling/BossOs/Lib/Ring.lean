import Mathlib.Data.Fin.Basic
import Mathlib.Logic.Function.Basic
import Mathlib.Data.Nat.ModEq
import Mathlib.Data.UInt

/-!
# Ring buffers with free-running counters

An array of `cap` cells and two 32-bit counters that are only ever incremented; a counter
`i` stands for the cell `i % cap`. The counters wrap around `2^32`, which `cap` divides, so
consecutive values of a counter are consecutive cells of the ring.
-/

namespace BossOs.Lib.Ring

open UInt32 (ofNat toNat_lt)

variable {α : Type} {cap : Nat}

def cell (cap : Nat) [NeZero cap] (i : UInt32) : Fin cap :=
  ⟨i.toNat % cap, Nat.mod_lt _ (Nat.pos_of_neZero cap)⟩

def window [NeZero cap] (data : Fin cap → α) (i : UInt32) : Nat → List α
  | 0 => []
  | n + 1 => data (cell cap i) :: window data (i + 1) n

def dist (i j : UInt32) : Nat := (j - i).toNat

theorem toNat_add_ofNat (i : UInt32) (n : Nat) :
    (i + ofNat n).toNat = (i.toNat + n) % 2 ^ 32 := by
  rw [UInt32.toNat_add, UInt32.toNat_ofNat', Nat.add_mod_mod]

theorem add_dist (i j : UInt32) : i + ofNat (dist i j) = j := by
  rw [dist, UInt32.ofNat_toNat, UInt32.add_comm, UInt32.sub_add_cancel]

@[simp]
theorem dist_self (i : UInt32) : dist i i = 0 := by
  rw [dist, UInt32.sub_self]
  rfl

theorem dist_add {i : UInt32} {n : Nat} (hn : n < 2 ^ 32) : dist i (i + ofNat n) = n := by
  rw [dist, UInt32.add_comm, UInt32.add_sub_cancel]
  exact UInt32.toNat_ofNat_of_lt' hn

variable {j : UInt32}

theorem dist_eq_zero {i : UInt32} : dist i j = 0 ↔ i = j := by
  constructor
  · intro h
    have hj := add_dist i j
    rw [h] at hj
    exact (UInt32.add_zero i).symm.trans hj
  · rintro rfl
    exact dist_self i

theorem dist_eq {i : UInt32} {n : Nat} (hn : n < 2 ^ 32) :
    dist i j = n ↔ j = i + ofNat n := by
  constructor
  · rintro rfl
    exact (add_dist i j).symm
  · rintro rfl
    exact dist_add hn

theorem dist_succ {i : UInt32} (h : dist i j + 1 < 2 ^ 32) : dist i (j + 1) = dist i j + 1 := by
  have hj : j + 1 = i + ofNat (dist i j + 1) := by
    rw [UInt32.ofNat_add, ← UInt32.add_assoc, add_dist]
    rfl
  rw [hj, dist_add h]

theorem dist_pred {i : UInt32} (h : i ≠ j) : dist (i + 1) j + 1 = dist i j := by
  have hpos : dist i j ≠ 0 := fun h0 => h (dist_eq_zero.mp h0)
  have hlt : dist i j < 2 ^ 32 := toNat_lt _
  have hj : j = i + 1 + ofNat (dist i j - 1) := by
    conv_lhs => rw [← add_dist i j, show dist i j = 1 + (dist i j - 1) by omega, UInt32.ofNat_add,
      ← UInt32.add_assoc]
    rfl
  have hd : dist (i + 1) j = dist i j - 1 := (dist_eq (by omega)).mpr hj
  omega

theorem dist_trans {i k : UInt32} (h : dist i j ≤ dist i k) : dist i j + dist j k = dist i k := by
  have hlt : dist i k < 2 ^ 32 := toNat_lt _
  have hk : k = j + ofNat (dist i k - dist i j) := by
    conv_lhs => rw [← add_dist i k, show dist i k = dist i j + (dist i k - dist i j) by omega,
      UInt32.ofNat_add, ← UInt32.add_assoc, add_dist]
  have hd : dist j k = dist i k - dist i j := (dist_eq (by omega)).mpr hk
  omega

theorem dist_sub_one {i : UInt32} (h : i ≠ j) : dist i (j - 1) + 1 = dist i j := by
  have hpos : dist i j ≠ 0 := fun h0 => h (dist_eq_zero.mp h0)
  have hlt : dist i j < 2 ^ 32 := toNat_lt _
  have hj : j - 1 = i + ofNat (dist i j - 1) := by
    conv_lhs => rw [← add_dist i j, show dist i j = dist i j - 1 + 1 by omega, UInt32.ofNat_add,
      ← UInt32.add_assoc]
    exact UInt32.add_sub_cancel ..
  have hd : dist i (j - 1) = dist i j - 1 := (dist_eq (by omega)).mpr hj
  omega

section
variable [NeZero cap] {data : Fin cap → α} {i : UInt32}

theorem window_succ (n : Nat) :
    window data i (n + 1) = window data i n ++ [data (cell cap (i + ofNat n))] := by
  induction n generalizing i with
  | zero => simp [window]
  | succ n ih =>
    rw [window, ih, window, List.cons_append, UInt32.add_assoc, UInt32.ofNat_add n 1,
      UInt32.add_comm 1]
    rfl

theorem window_add (m n : Nat) :
    window data i (m + n) = window data i m ++ window data (i + ofNat m) n := by
  induction m generalizing i with
  | zero => simp [window]
  | succ m ih =>
    rw [Nat.add_right_comm, window, ih, window, List.cons_append, UInt32.add_assoc,
      UInt32.ofNat_add m 1, UInt32.add_comm 1]
    rfl

theorem window_split {k : UInt32} (h : dist i j ≤ dist i k) :
    window data i (dist i k) = window data i (dist i j) ++ window data j (dist j k) := by
  rw [← dist_trans h, window_add, add_dist]

theorem cell_add (hcap : cap ∣ 2 ^ 32) (i : UInt32) (n : Nat) :
    (cell cap (i + ofNat n)).val = (i.toNat + n) % cap := by
  simp only [cell, toNat_add_ofNat, Nat.mod_mod_of_dvd _ hcap]

theorem cell_ne (hcap : cap ∣ 2 ^ 32) {m n : Nat} (hmn : m < n) (hn : n < cap) :
    cell cap (i + ofNat m) ≠ cell cap (i + ofNat n) := by
  intro h
  have hv := congrArg Fin.val h
  rw [cell_add hcap, cell_add hcap] at hv
  have hmod : m ≡ n [MOD cap] := Nat.ModEq.add_left_cancel' i.toNat hv
  rw [Nat.ModEq, Nat.mod_eq_of_lt (hmn.trans hn), Nat.mod_eq_of_lt hn] at hmod
  omega

theorem window_update (hcap : cap ∣ 2 ^ 32) {n k : Nat} (hk : k ≤ n) (hn : n < cap) (x : α) :
    window (Function.update data (cell cap (i + ofNat n)) x) i k = window data i k := by
  induction k with
  | zero => rfl
  | succ k ih =>
    rw [window_succ, window_succ, ih (by omega),
      Function.update_of_ne (cell_ne hcap (show k < n by omega) hn)]

theorem window_push (hcap : cap ∣ 2 ^ 32) (hn : dist i j < cap) (x : α) :
    window (Function.update data (cell cap j) x) i (dist i j + 1) =
      window data i (dist i j) ++ [x] := by
  have hj := add_dist i j
  have hw : window (Function.update data (cell cap (i + ofNat (dist i j))) x) i (dist i j) =
      window data i (dist i j) := window_update hcap le_rfl hn x
  rw [hj] at hw
  rw [window_succ, hw, hj, Function.update_self]

theorem window_pop (h : i ≠ j) :
    window data i (dist i j) = data (cell cap i) :: window data (i + 1) (dist (i + 1) j) := by
  rw [← dist_pred h, window]

end

end BossOs.Lib.Ring
