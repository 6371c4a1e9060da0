import BossOs.Lib.Memory

/-!
# `memmove` twice

The kernel's `memmove` (`string.c`) chooses the direction in which it copies, the one of the
user library (`ulib.c`) always begins with the first byte.
-/

namespace BossOs

open Lib Lib.Memory

def StringC.memmove (dst src n : UInt32) (m : Memory) : Memory :=
  if src < dst ∧ src + n > dst then copyDown n.toNat (dst + n) (src + n) m
  else copyUp n.toNat dst src m

def Ulib.memmove (dst src : UInt32) (n : Int32) (m : Memory) : Memory :=
  copyUp n.toInt.toNat dst src m

variable {dst src : UInt32} {m : Memory}

theorem StringC.memmove_eq_moved {n : UInt32} (hsrc : src.toNat + n.toNat ≤ 2 ^ 32)
    (hdst : dst.toNat + n.toNat ≤ 2 ^ 32) :
    StringC.memmove dst src n m = moved n.toNat dst src m := by
  rw [StringC.memmove]
  split
  · rename_i h
    have hdown := copyDown_eq_moved (m := m) hsrc hdst h.1
    rw [UInt32.ofNat_toNat] at hdown
    exact hdown
  · rename_i h
    apply (copyUp_eq_moved_iff hsrc hdst).mpr
    intro hlt i hi
    exfalso
    apply h
    refine ⟨hlt, ?_⟩
    rw [UInt32.lt_iff_toNat_lt] at hlt
    rw [gt_iff_lt, UInt32.lt_iff_toNat_lt, UInt32.toNat_add, Nat.mod_eq_of_lt (by omega)]
    omega

/-- The bytes of the source, as they were before the call, at the destination; nothing else. -/
theorem StringC.memmove_copies {n : UInt32} (hsrc : src.toNat + n.toNat ≤ 2 ^ 32)
    (hdst : dst.toNat + n.toNat ≤ 2 ^ 32) : (∀ i, i < n.toNat →
      StringC.memmove dst src n m (dst + UInt32.ofNat i) = m (src + UInt32.ofNat i)) ∧
    ∀ x : UInt32, x.toNat < dst.toNat ∨ dst.toNat + n.toNat ≤ x.toNat →
      StringC.memmove dst src n m x = m x := by
  rw [StringC.memmove_eq_moved hsrc hdst]
  constructor
  · intro i hi
    exact moved_add hi (Nat.le_of_lt n.toNat_lt)
  · intro x hx
    have hlt := x.toNat_lt
    rw [moved, if_neg]
    rw [UInt32.toNat_sub]
    omega

/-- Two bytes to the next address, the last of the address space. -/
theorem StringC.memmove_copies_end :
    StringC.memmove 0xFFFFFFFE 0xFFFFFFFD 2 (fun x => x.toUInt8) 0xFFFFFFFF = 0xFE ∧
      StringC.memmove 0xFFFFFFFE 0xFFFFFFFD 2 (fun x => x.toUInt8) 0 = 0 := by
  have hsrc : (0xFFFFFFFD : UInt32).toNat + (2 : UInt32).toNat ≤ 2 ^ 32 := by decide
  have hdst : (0xFFFFFFFE : UInt32).toNat + (2 : UInt32).toNat ≤ 2 ^ 32 := by decide
  have hcopy := StringC.memmove_copies (m := fun x => x.toUInt8) hsrc hdst
  exact ⟨hcopy.1 1 (by decide), hcopy.2 0 (Or.inl (by decide))⟩

/-- The user library's copy agrees with the kernel's unless the destination begins inside the
source and the bytes there differ from those at the same distance before them. -/
theorem memmove_agree_iff {n : Int32} (hn : 0 ≤ n) (hsrc : src.toNat + n.toInt.toNat ≤ 2 ^ 32)
    (hdst : dst.toNat + n.toInt.toNat ≤ 2 ^ 32) :
    Ulib.memmove dst src n m = StringC.memmove dst src n.toUInt32 m ↔
      (src < dst → ∀ i, dst.toNat + i < src.toNat + n.toInt.toNat →
        m (src + UInt32.ofNat i) = m (dst + UInt32.ofNat i)) := by
  have hcount : n.toUInt32.toNat = n.toInt.toNat := Int32.toNat_toUInt32_of_le hn
  rw [← hcount] at hsrc hdst ⊢
  rw [StringC.memmove_eq_moved hsrc hdst, Ulib.memmove, ← hcount]
  exact copyUp_eq_moved_iff hsrc hdst

/-- Two bytes to the next address: the second byte read is the first one written. -/
def twoBytes : Memory := fun x => if x = 0x1000 then 1 else if x = 0x1001 then 2 else 0

theorem memmove_agree_iff_down : Ulib.memmove 0x1000 0x1001 2 twoBytes =
    StringC.memmove 0x1000 0x1001 2 twoBytes :=
  (memmove_agree_iff (n := 2) (by decide) (by decide) (by decide)).mpr
    fun h => absurd h (by decide)

/-- The source's second byte is 2; its copy is 1 in the user library and 2 in the kernel. -/
theorem memmove_up_differs : ¬ ∀ (m : Memory) (dst src : UInt32) (n : Int32), 0 ≤ n →
    src.toNat + n.toInt.toNat ≤ 2 ^ 32 → dst.toNat + n.toInt.toNat ≤ 2 ^ 32 →
    Ulib.memmove dst src n m = StringC.memmove dst src n.toUInt32 m := by
  intro h
  have heq := h twoBytes 0x1001 0x1000 2 (by decide) (by decide) (by decide)
  have huser : Ulib.memmove 0x1001 0x1000 2 twoBytes 0x1002 = 1 := by decide
  have hkernel : StringC.memmove 0x1001 0x1000 2 twoBytes 0x1002 = 2 := by decide
  rw [heq] at huser
  exact absurd (huser.symm.trans hkernel) (by decide)

end BossOs
