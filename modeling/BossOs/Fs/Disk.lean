import BossOs.Fs.Layout

/-!
# Reading the disk

The two tables every file-system function works on, the inodes and the free map, as
functions of the disk, and what a store into one block does to them.
-/

namespace BossOs.Fs

open Function (update update_self update_of_ne)

open Lib

def ino (sb : Superblock) (disk : Nat → Block) (i : Nat) : Dinode :=
  dinodeOf (disk (sb.iblock i)) i

def used (sb : Superblock) (disk : Nat → Block) (b : Nat) : Bool :=
  (disk (sb.bblock b)).bit (b % BPB)

/-- The inodes, the free map and the data follow each other as in `mkfs`, and numbers fit their
fields. Of the log only the size matters, to `Blk.tooBig`. -/
structure Superblock.Wf (sb : Superblock) : Prop where
  inodes : sb.inodestart + sb.ninodes / IPB + 1 ≤ sb.bmapstart
  data : sb.datastart ≤ sb.size
  size_lt : sb.size < 2 ^ 31
  ninodes_le : sb.ninodes ≤ 2 ^ 16
  root : ROOTINO < sb.ninodes

namespace Superblock.Wf

variable {sb : Superblock} (hsb : sb.Wf)
include hsb

theorem iblock_lt {i : Nat} (hi : i < sb.ninodes) : sb.iblock i < sb.bmapstart := by
  have h1 := hsb.inodes
  have h2 : i / IPB ≤ sb.ninodes / IPB := Nat.div_le_div_right (by omega)
  unfold Superblock.iblock
  omega

omit hsb in
theorem bblock_lt {b : Nat} (hb : b < sb.size) : sb.bblock b < sb.datastart := by
  have h2 : b / BPB ≤ sb.size / BPB := Nat.div_le_div_right (by omega)
  unfold Superblock.bblock Superblock.datastart
  omega

omit hsb in
theorem le_bblock (b : Nat) : sb.bmapstart ≤ sb.bblock b := Nat.le_add_left _ _

omit hsb in
theorem bmapstart_lt : sb.bmapstart < sb.datastart :=
  Nat.lt_succ_of_le (Nat.le_add_right _ _)

theorem iblock_lt_datastart {i : Nat} (hi : i < sb.ninodes) : sb.iblock i < sb.datastart :=
  Nat.lt_trans (hsb.iblock_lt hi) bmapstart_lt

theorem iblock_ne_bblock {i : Nat} (hi : i < sb.ninodes) (b : Nat) : sb.iblock i ≠ sb.bblock b :=
  Nat.ne_of_lt (Nat.lt_of_lt_of_le (hsb.iblock_lt hi) (le_bblock b))

end Superblock.Wf

theorem eq_of_div_mod {m n k : Nat} (hd : m / k = n / k) (hm : m % k = n % k) : m = n := by
  rw [← Nat.div_add_mod m k, ← Nat.div_add_mod n k, hd, hm]

section Update

variable {sb : Superblock} (disk : Nat → Block)

theorem ino_update_of_ne {i b : Nat} (v : Block) (h : sb.iblock i ≠ b) :
    ino sb (update disk b v) i = ino sb disk i := by
  rw [ino, ino, update_of_ne h]

theorem used_update_of_ne {b c : Nat} (v : Block) (h : sb.bblock c ≠ b) :
    used sb (update disk b v) c = used sb disk c := by
  rw [used, used, update_of_ne h]

theorem ino_put (i j : Nat) (d : Dinode) :
    ino sb (update disk (sb.iblock i) (putDinode (disk (sb.iblock i)) i d)) j =
      if j = i then d else ino sb disk j := by
  by_cases hb : sb.iblock j = sb.iblock i
  · rw [ino, hb, update_self]
    by_cases hji : j = i
    · subst hji
      rw [if_pos rfl, dinodeOf_putDinode_self]
    · have hmod : j % IPB ≠ i % IPB := fun h => hji (eq_of_div_mod (Nat.add_right_cancel hb) h)
      rw [if_neg hji, dinodeOf_putDinode_of_ne _ _ hmod, ino, hb]
  · rw [ino_update_of_ne _ _ hb, if_neg]
    rintro rfl
    exact hb rfl

theorem bit_lt (c : Nat) : c % BPB < 8 * BSIZE := Nat.mod_lt _ (by decide)

theorem used_setBit (b c : Nat) :
    used sb (update disk (sb.bblock b) ((disk (sb.bblock b)).setBit (b % BPB))) c =
      (used sb disk c || decide (c = b)) := by
  by_cases hb : sb.bblock c = sb.bblock b
  · have hmod : c % BPB = b % BPB ↔ c = b :=
      ⟨eq_of_div_mod (Nat.add_right_cancel hb), fun h => h ▸ rfl⟩
    rw [used, hb, update_self, Bytes.bit_setBit _ _ (bit_lt c), used, hb]
    simp only [hmod]
  · have hne : c ≠ b := by
      rintro rfl
      exact hb rfl
    rw [used_update_of_ne _ _ hb]
    simp [hne]

theorem used_clearBit (b c : Nat) :
    used sb (update disk (sb.bblock b) ((disk (sb.bblock b)).clearBit (b % BPB))) c =
      (used sb disk c && decide (c ≠ b)) := by
  by_cases hb : sb.bblock c = sb.bblock b
  · have hmod : c % BPB = b % BPB ↔ c = b :=
      ⟨eq_of_div_mod (Nat.add_right_cancel hb), fun h => h ▸ rfl⟩
    rw [used, hb, update_self, Bytes.bit_clearBit _ _ (bit_lt c), used, hb]
    simp only [ne_eq, hmod]
  · have hne : c ≠ b := by
      rintro rfl
      exact hb rfl
    rw [used_update_of_ne _ _ hb]
    simp [hne]

end Update
end BossOs.Fs
