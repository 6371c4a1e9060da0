import Mathlib.Data.List.FinRange
import BossOs.Params

/-!
# On-disk format

The structures of `fs.h` as they lie in disk blocks: the superblock's layout, the
64-byte inode and the 16-byte directory entry.
-/

namespace BossOs.Fs

open Lib

def NDIRECT : Nat := 12
def NINDIRECT : Nat := BSIZE / 4
def MAXFILE : Nat := NDIRECT + NINDIRECT
def DIRSIZ : Nat := 14

def IPB : Nat := BSIZE / 64

def BPB : Nat := BSIZE * 8

structure Superblock where
  size : Nat
  nblocks : Nat
  ninodes : Nat
  nlog : Nat
  logstart : Nat
  inodestart : Nat
  bmapstart : Nat

namespace Superblock

variable (sb : Superblock)

def iblock (i : Nat) : Nat := i / IPB + sb.inodestart

def bblock (b : Nat) : Nat := b / BPB + sb.bmapstart

def datastart : Nat := sb.bmapstart + sb.size / BPB + 1

end Superblock

def T_DIR : Int16 := 1
def T_FILE : Int16 := 2
def T_DEV : Int16 := 3

@[ext]
structure Dinode where
  type : Int16
  major : Int16
  minor : Int16
  nlink : Int16
  size : UInt32
  addrs : Fin (NDIRECT + 1) → UInt32

def shortAt (l : List UInt8) (off : Nat) : Int16 :=
  (UInt16.ofNat (leNat ((l.drop off).take 2))).toInt16

def uintAt (l : List UInt8) (off : Nat) : UInt32 := UInt32.ofNat (leNat ((l.drop off).take 4))

def shortBytes (x : Int16) : List UInt8 := toLe 2 x.toUInt16.toNat

def uintBytes (x : UInt32) : List UInt8 := toLe 4 x.toNat

namespace Dinode

def decode (l : List UInt8) : Dinode where
  type := shortAt l 0
  major := shortAt l 2
  minor := shortAt l 4
  nlink := shortAt l 6
  size := uintAt l 8
  addrs k := uintAt l (12 + 4 * k.val)

def encode (d : Dinode) : List UInt8 :=
  shortBytes d.type ++ (shortBytes d.major ++ (shortBytes d.minor ++ (shortBytes d.nlink ++
    (uintBytes d.size ++ (List.finRange (NDIRECT + 1)).flatMap fun k => uintBytes (d.addrs k)))))

def addr (d : Dinode) (k : Nat) : Nat := (d.addrs (Fin.ofNat _ k)).toNat

def setAddr (d : Dinode) (k : Nat) (b : Nat) : Dinode :=
  { d with addrs := Function.update d.addrs (Fin.ofNat _ k) (UInt32.ofNat b) }

def fresh (type : Int16) : Dinode := ⟨type, 0, 0, 0, 0, fun _ => 0⟩

end Dinode

def inodeOff (i : Nat) : Nat := i % IPB * 64

def dinodeOf (bp : Block) (i : Nat) : Dinode := Dinode.decode (bp.slice (inodeOff i) 64)

def putDinode (bp : Block) (i : Nat) (d : Dinode) : Block := bp.splice (inodeOff i) d.encode

structure Dirent where
  inum : Nat
  name : List UInt8
  deriving DecidableEq

namespace Dirent

def bytes : Nat := 2 + DIRSIZ

def decode (l : List UInt8) : Dirent := ⟨leNat (l.take 2), l.drop 2⟩

def encode (d : Dirent) : List UInt8 := toLe 2 d.inum ++ d.name

end Dirent

@[simp] theorem length_shortBytes (x : Int16) : (shortBytes x).length = 2 := length_toLe ..

@[simp] theorem length_uintBytes (x : UInt32) : (uintBytes x).length = 4 := length_toLe ..

theorem shortAt_append (pre post : List UInt8) (x : Int16) {l : List UInt8} {off : Nat}
    (hl : l = pre ++ (shortBytes x ++ post)) (hoff : off = pre.length) : shortAt l off = x := by
  subst hl hoff
  have h : ((pre ++ (shortBytes x ++ post)).drop pre.length).take 2 = shortBytes x := by
    rw [List.drop_left, List.take_left' (length_shortBytes x)]
  have hx : x.toUInt16.toNat % 256 ^ 2 = x.toUInt16.toNat := Nat.mod_eq_of_lt x.toUInt16.toNat_lt
  rw [shortAt, h, shortBytes, leNat_toLe, hx]
  simp

theorem uintAt_append (pre post : List UInt8) (x : UInt32) {l : List UInt8} {off : Nat}
    (hl : l = pre ++ (uintBytes x ++ post)) (hoff : off = pre.length) : uintAt l off = x := by
  subst hl hoff
  have h : ((pre ++ (uintBytes x ++ post)).drop pre.length).take 4 = uintBytes x := by
    rw [List.drop_left, List.take_left' (length_uintBytes x)]
  have hx : x.toNat % 256 ^ 4 = x.toNat := Nat.mod_eq_of_lt x.toNat_lt
  rw [uintAt, h, uintBytes, leNat_toLe, hx]
  simp

theorem length_flatMap_uintBytes {n : Nat} (f : Fin n → UInt32) (l : List (Fin n)) :
    (l.flatMap fun k => uintBytes (f k)).length = 4 * l.length := by
  induction l with
  | nil => rfl
  | cons k l ih =>
    rw [List.flatMap_cons, List.length_append, ih, length_uintBytes, List.length_cons]
    omega

theorem uintAt_flatMap (pre : List UInt8) {n : Nat} (f : Fin n → UInt32) (k : Fin n)
    {l : List UInt8} {off : Nat}
    (hl : l = pre ++ (List.finRange n).flatMap fun k => uintBytes (f k))
    (hoff : off = pre.length + 4 * k.val) : uintAt l off = f k := by
  have hk : List.finRange n =
      (List.finRange n).take k.val ++ k :: (List.finRange n).drop (k.val + 1) := by
    have hget : (List.finRange n)[k.val]? = some k := by simp
    have h := List.take_append_drop k.val (List.finRange n)
    rw [List.drop_eq_getElem_cons (by simp)] at h
    simpa using h.symm
  rw [hk, List.flatMap_append, List.flatMap_cons, ← List.append_assoc] at hl
  refine uintAt_append _ _ _ hl ?_
  rw [List.length_append, length_flatMap_uintBytes, hoff]
  simp

namespace Dinode

@[simp] theorem length_encode (d : Dinode) : d.encode.length = 64 := by
  simp [encode, NDIRECT]

@[simp] theorem decode_encode (d : Dinode) : decode d.encode = d := by
  apply Dinode.ext
  · exact shortAt_append [] _ _ rfl rfl
  · exact shortAt_append (shortBytes d.type) _ _ rfl rfl
  · exact shortAt_append (shortBytes d.type ++ shortBytes d.major) _ _
      (by simp only [encode, List.append_assoc]; rfl) rfl
  · exact shortAt_append (shortBytes d.type ++ shortBytes d.major ++ shortBytes d.minor) _ _
      (by simp only [encode, List.append_assoc]; rfl) rfl
  · refine uintAt_append (shortBytes d.type ++ shortBytes d.major ++ shortBytes d.minor ++
      shortBytes d.nlink) ((List.finRange (NDIRECT + 1)).flatMap fun k => uintBytes (d.addrs k))
      d.size ?_ rfl
    simp only [encode, List.append_assoc]
  · funext k
    refine uintAt_flatMap (shortBytes d.type ++ shortBytes d.major ++ shortBytes d.minor ++
      shortBytes d.nlink ++ uintBytes d.size) d.addrs k ?_ rfl
    simp only [encode, List.append_assoc]

theorem addr_setAddr_self (d : Dinode) {k b : Nat} (hb : b < 2 ^ 32) :
    (d.setAddr k b).addr k = b := by
  simp only [addr, setAddr, Function.update_self]
  rw [UInt32.toNat_ofNat', Nat.mod_eq_of_lt hb]

theorem addr_setAddr_of_ne (d : Dinode) {k j b : Nat} (hk : k ≤ NDIRECT) (hj : j ≤ NDIRECT)
    (hne : j ≠ k) : (d.setAddr k b).addr j = d.addr j := by
  have h : Fin.ofNat (NDIRECT + 1) j ≠ Fin.ofNat (NDIRECT + 1) k := by
    intro h
    have h' := congrArg Fin.val h
    simp only [Fin.val_ofNat, Nat.mod_eq_of_lt (Nat.lt_succ_of_le hj),
      Nat.mod_eq_of_lt (Nat.lt_succ_of_le hk)] at h'
    exact hne h'
  simp only [addr, setAddr, Function.update_of_ne h]

end Dinode

theorem inodeOff_add_le (i : Nat) : inodeOff i + 64 ≤ BSIZE := by
  have h : i % IPB < IPB := Nat.mod_lt _ (by decide)
  have hI : IPB * 64 = BSIZE := by decide
  unfold inodeOff
  omega

@[simp] theorem dinodeOf_putDinode_self (bp : Block) (i : Nat) (d : Dinode) :
    dinodeOf (putDinode bp i d) i = d := by
  have h := Bytes.slice_splice_self bp (inodeOff i) d.encode
    (by rw [Dinode.length_encode]; exact inodeOff_add_le i)
  rw [Dinode.length_encode] at h
  rw [dinodeOf, putDinode, h, Dinode.decode_encode]

theorem dinodeOf_putDinode_of_ne (bp : Block) {i j : Nat} (d : Dinode) (h : j % IPB ≠ i % IPB) :
    dinodeOf (putDinode bp i d) j = dinodeOf bp j := by
  rw [dinodeOf, putDinode, Bytes.slice_splice_of_disjoint _ _ _ _ _ (inodeOff_add_le j), dinodeOf]
  rw [Dinode.length_encode]
  unfold inodeOff
  omega

end BossOs.Fs
