import BossOs.Fs.Trunc

/-!
# The contents of inodes

An inode in use is, for the code above `readi` and `writei`, its fields and a sequence
of bytes. `Node` is that view, `Shaped` the invariant that its blocks are exactly
those its size needs, and `readFrom` and the loop of `writei` are array accesses.
-/

namespace BossOs.Fs

open Lib

variable {sb : Superblock}

def blocks (size : Nat) : Nat := (size + BSIZE - 1) / BSIZE

theorem bsize_eq : BSIZE = 512 := rfl

theorem lt_blocks_iff {k size : Nat} : k < blocks size ↔ k * BSIZE < size := by
  simp only [blocks, bsize_eq]
  omega

theorem div_lt_of_lt {k n : Nat} (h : k < n * BSIZE) : k / BSIZE < n :=
  Nat.div_lt_of_lt_mul (by rwa [Nat.mul_comm])

theorem div_lt_blocks {k size : Nat} (h : k < size) : k / BSIZE < blocks size := by
  simp only [blocks, bsize_eq]
  omega

theorem blocks_le {size n : Nat} (h : size ≤ n * BSIZE) : blocks size ≤ n := by
  simp only [blocks, bsize_eq] at h ⊢
  omega

theorem le_blocks_mul (size : Nat) : size ≤ blocks size * BSIZE := by
  simp only [blocks, bsize_eq]
  omega

def fileByte (d : Dinode) (D : Nat → Block) (k : Nat) : UInt8 :=
  (D (blockAt d D (k / BSIZE))).get (k % BSIZE)

@[ext]
structure Node where
  type : Int16
  major : Int16
  minor : Int16
  nlink : Int16
  size : Nat
  byte : Nat → UInt8

def Node.free : Node := ⟨0, 0, 0, 0, 0, fun _ => 0⟩

def nodeOf (d : Dinode) (D : Nat → Block) : Node :=
  if d.type = 0 then Node.free
  else ⟨d.type, d.major, d.minor, d.nlink, d.size.toNat,
    fun k => if k < d.size.toNat then fileByte d D k else 0⟩

def node (sb : Superblock) (D : Nat → Block) (i : Nat) : Node := nodeOf (ino sb D i) D

structure Shaped (d : Dinode) (D : Nat → Block) : Prop where
  extent : Extent d D (blocks d.size.toNat) (NDIRECT < blocks d.size.toNat)
  size_le : d.size.toNat ≤ MAXFILE * BSIZE

/-- The file system on disk: every block has one owner, every inode the blocks it needs. -/
structure DiskOk (sb : Superblock) (D : Nat → Block) : Prop where
  owns : Owns sb (ino sb D) D
  shaped : ∀ i, i < sb.ninodes → (ino sb D i).type ≠ 0 → Shaped (ino sb D i) D

theorem nodeOf_type (d : Dinode) (D : Nat → Block) : (nodeOf d D).type = d.type := by
  unfold nodeOf
  split
  · rename_i h
    exact h.symm
  · rfl

theorem nodeOf_of_type {d : Dinode} (D : Nat → Block) (h : d.type ≠ 0) :
    nodeOf d D = ⟨d.type, d.major, d.minor, d.nlink, d.size.toNat,
      fun k => if k < d.size.toNat then fileByte d D k else 0⟩ := if_neg h

theorem DiskOk.size_le {sb : Superblock} {D : Nat → Block} (h : DiskOk sb D) {i : Nat}
    (hi : i < sb.ninodes) : (node sb D i).size ≤ MAXFILE * BSIZE := by
  by_cases ht : (ino sb D i).type = 0
  · rw [node, nodeOf, if_pos ht]
    exact Nat.zero_le _
  · rw [node, nodeOf_of_type _ ht]
    exact (h.shaped i hi ht).size_le

section OtherNodes

variable {i j : Nat} {D D' : Nat → Block} (ho : Others sb i D D') (hj : j < sb.ninodes)
  (hne : j ≠ i)
include ho hj hne

theorem Others.blockAt_eq (ht : (ino sb D j).type ≠ 0) {k : Nat} (hk : k < MAXFILE) :
    blockAt (ino sb D' j) D' k = blockAt (ino sb D j) D k := by
  rw [← placeBlock_of _ _ hk, ← placeBlock_of _ _ hk]
  exact ho.place hj hne ht _

theorem Others.shaped (ht : (ino sb D j).type ≠ 0) (h : Shaped (ino sb D j) D) :
    Shaped (ino sb D' j) D' := by
  have heq := ho.inodes j hj hne
  refine ⟨⟨?_, ?_⟩, ?_⟩
  · intro k hk
    rw [ho.blockAt_eq hj hne ht hk, heq]
    exact h.extent.block k hk
  · rw [heq]
    exact h.extent.indirect
  · rw [heq]
    exact h.size_le

theorem Others.node_eq (h : (ino sb D j).type ≠ 0 → Shaped (ino sb D j) D) :
    node sb D' j = node sb D j := by
  unfold node
  by_cases ht : (ino sb D j).type = 0
  · rw [nodeOf, nodeOf, ho.inodes j hj hne, if_pos ht, if_pos ht]
  · have heq := ho.inodes j hj hne
    have hs := h ht
    rw [nodeOf_of_type D ht, nodeOf_of_type D' (by rw [heq]; exact ht)]
    ext k
    · rw [heq]
    · rw [heq]
    · rw [heq]
    · rw [heq]
    · rw [heq]
    · simp only
      rw [heq]
      by_cases hk : k < (ino sb D j).size.toNat
      · have hb := div_lt_blocks hk
        have hm := Nat.lt_of_lt_of_le hb (blocks_le hs.size_le)
        have hat := ho.blockAt_eq hj hne ht hm
        have hdat := ho.data j hj hne ht (Place.of _ hm)
        rw [placeBlock_of] at hdat
        rw [heq] at hat
        rw [if_pos hk, if_pos hk, fileByte, fileByte, hat,
          hdat ((hs.extent.block _ hm).mpr hb)]
      · rw [if_neg hk, if_neg hk]

end OtherNodes

theorem type_zero (i : Nat) : (dinodeOf Bytes.zero i).type = 0 := by
  have hslice : (Bytes.zero : Block).slice (inodeOff i) 64 = List.replicate 64 0 := by
    unfold Bytes.slice
    simp only [Bytes.get_zero, List.map_const', List.length_range]
  unfold dinodeOf
  rw [hslice]
  decide

theorem diskOk_blank {D : Nat → Block} (hdata : sb.datastart ≤ sb.size)
    (hino : ∀ i < sb.ninodes, (ino sb D i).type = 0)
    (hused : ∀ b < sb.size, used sb D b = decide (b < sb.datastart)) : DiskOk sb D := by
  have href : ∀ r, refBlock sb (ino sb D) D r = 0 := by
    intro r
    apply if_neg
    rintro ⟨hr, ht⟩
    exact ht (hino r.1 hr)
  refine ⟨⟨⟨?_, ?_, ?_⟩, ?_⟩, ?_⟩
  · intro r hr
    exact absurd (href r) hr
  · intro r _ hr
    exact absurd (href r) hr
  · intro b hlo hhi
    have hpos := sb.datastart_pos
    rw [hused b hhi, decide_eq_true_iff]
    constructor
    · intro hlt
      omega
    · rintro ⟨r, hr⟩
      rw [href r] at hr
      omega
  · intro b hb
    rw [hused b (Nat.lt_of_lt_of_le hb hdata)]
    exact decide_eq_true hb
  · intro i hi ht
    exact absurd (hino i hi) ht

end BossOs.Fs
