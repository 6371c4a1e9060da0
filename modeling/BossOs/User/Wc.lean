import Mathlib.Data.List.Basic
import Mathlib.Data.UInt

/-!
# Counting words

`wc` of `wc.c` on the pieces that successive calls of `read` return. A word may go on from one
piece to the next; the counts are those of the whole file.
-/

namespace BossOs.Wc

structure Counts where
  l : Int32
  w : Int32
  c : Int32
  inword : Bool

/-- What `strchr` finds in `" \r\t\n\v"`. A NUL ends that string and is not found. -/
def space (b : UInt8) : Bool := b ∈ [32, 13, 9, 10, 11]

def count (s : Counts) (b : UInt8) : Counts :=
  let s := { s with c := s.c + 1 }
  let s := if b = 10 then { s with l := s.l + 1 } else s
  if space b then { s with inword := false }
  else if !s.inword then { s with w := s.w + 1, inword := true }
  else s

def wc (pieces : List (List UInt8)) (fails : Bool) : Option (Int32 × Int32 × Int32) :=
  let s := pieces.foldl (fun s piece => piece.foldl count s) ⟨0, 0, 0, false⟩
  if fails then none else some (s.l, s.w, s.c)

def words (text : List UInt8) : List (List UInt8) := (text.splitOnP space).filter (· ≠ [])

theorem count_eq (s : Counts) (b : UInt8) : count s b = ⟨s.l + if b = 10 then 1 else 0,
    s.w + if space b || s.inword then 0 else 1, s.c + 1, !space b⟩ := by
  obtain ⟨l, w, c, inword⟩ := s
  unfold count
  by_cases hb : b = 10
  · subst hb
    simp [show space 10 = true from rfl]
  · cases hs : space b <;> cases inword <;> simp [hb]

theorem add_ofNat_succ (a : Int32) (n : Nat) : a + 1 + Int32.ofNat n = a + Int32.ofNat (n + 1) := by
  rw [Int32.ofNat_add, Int32.add_assoc, Int32.add_comm 1]
  rfl

theorem foldl_count (text : List UInt8) (s : Counts) :
    (text.foldl count s).l = s.l + Int32.ofNat (text.count 10) ∧
    (text.foldl count s).w = s.w + Int32.ofNat ((if s.inword then (text.splitOnP space).tail
      else text.splitOnP space).countP (· ≠ [])) ∧
    (text.foldl count s).c = s.c + Int32.ofNat text.length := by
  induction text generalizing s with
  | nil =>
    refine ⟨(Int32.add_zero _).symm, ?_, (Int32.add_zero _).symm⟩
    cases hs : s.inword <;> exact (Int32.add_zero _).symm
  | cons b text ih =>
    obtain ⟨hl, hw, hc⟩ := ih (count s b)
    rw [List.foldl_cons, hl, hw, hc, count_eq]
    refine ⟨?_, ?_, add_ofNat_succ ..⟩
    · dsimp only
      rw [List.count_cons]
      by_cases hb : b = 10
      · rw [if_pos hb, if_pos (beq_iff_eq.mpr hb), add_ofNat_succ]
      · rw [if_neg hb, if_neg (fun h => hb (beq_iff_eq.mp h)), Int32.add_zero, Nat.add_zero]
    · obtain ⟨first, rest, hsplit⟩ := List.exists_cons_of_ne_nil (List.splitOnP_ne_nil space text)
      rw [List.splitOnP_cons_eq_if_modifyHead, hsplit]
      cases hs : space b <;> cases s.inword <;> simp [add_ofNat_succ]

/-- However the file is read, `wc` counts its newlines, its words and its bytes. -/
theorem wc_counts (pieces : List (List UInt8)) : wc pieces false =
    some (Int32.ofNat (pieces.flatten.count 10), Int32.ofNat (words pieces.flatten).length,
      Int32.ofNat pieces.flatten.length) := by
  have hflat : pieces.foldl (fun s piece => piece.foldl count s) ⟨0, 0, 0, false⟩ =
      pieces.flatten.foldl count ⟨0, 0, 0, false⟩ := List.foldl_flatten.symm
  obtain ⟨hl, hw, hc⟩ := foldl_count pieces.flatten ⟨0, 0, 0, false⟩
  rw [wc, hflat, hl, hw, hc, words, ← List.countP_eq_length_filter]
  simp

end BossOs.Wc
