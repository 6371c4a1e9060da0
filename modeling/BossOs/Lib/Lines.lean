import Mathlib.Data.List.Basic

/-!
# Lists in blocks

`joined c ls` writes the blocks `ls` one after the other, each closed by `c`. Where no block
contains `c` they can be read back.
-/

namespace BossOs.Lib

variable {α : Type}

def joined (c : α) (ls : List (List α)) : List α := ls.flatMap fun l => l ++ [c]

variable {c : α} {l l' r r' : List α} {ls ls' : List (List α)}

@[simp] theorem joined_nil : joined c ([] : List (List α)) = [] := rfl

theorem joined_cons : joined c (l :: ls) = l ++ c :: joined c ls := by
  rw [joined, List.flatMap_cons, List.append_assoc]
  rfl

theorem joined_append : joined c (ls ++ ls') = joined c ls ++ joined c ls' := List.flatMap_append

theorem mem_joined {x : α} : x ∈ joined c ls ↔ ∃ l ∈ ls, x ∈ l ∨ x = c := by
  simp only [joined, List.mem_flatMap, List.mem_append, List.mem_singleton]

theorem length_le_joined (c : α) (ls : List (List α)) : ls.length ≤ (joined c ls).length := by
  induction ls with
  | nil => exact Nat.le_refl _
  | cons l ls ih =>
    rw [joined_cons, List.length_append, List.length_cons, List.length_cons]
    omega

theorem exists_joined (c : α) (t : List α) :
    ∃ ls r, t = joined c ls ++ r ∧ (∀ l ∈ ls, c ∉ l) ∧ c ∉ r := by
  induction t with
  | nil => exact ⟨[], [], rfl, List.forall_mem_nil _, List.not_mem_nil⟩
  | cons x t ih =>
    obtain ⟨ls, r, rfl, hls, hr⟩ := ih
    by_cases hx : x = c
    · subst hx
      refine ⟨[] :: ls, r, by rw [joined_cons]; rfl, ?_, hr⟩
      exact List.forall_mem_cons.mpr ⟨List.not_mem_nil, hls⟩
    · have hne : c ≠ x := fun h => hx h.symm
      cases ls with
      | nil => exact ⟨[], x :: r, rfl, hls, List.not_mem_cons_of_ne_of_not_mem hne hr⟩
      | cons l ls =>
        obtain ⟨hl, hls⟩ := List.forall_mem_cons.mp hls
        refine ⟨(x :: l) :: ls, r, by rw [joined_cons, joined_cons]; rfl, ?_, hr⟩
        exact List.forall_mem_cons.mpr ⟨List.not_mem_cons_of_ne_of_not_mem hne hl, hls⟩

theorem block_inj (hl : c ∉ l) (hl' : c ∉ l') (h : l ++ c :: r = l' ++ c :: r') :
    l = l' ∧ r = r' := by
  induction l generalizing l' with
  | nil =>
    cases l' with
    | nil => exact ⟨rfl, (List.cons.inj h).2⟩
    | cons x l' =>
      rw [(List.cons.inj h).1] at hl'
      exact absurd List.mem_cons_self hl'
  | cons x l ih =>
    cases l' with
    | nil =>
      rw [← (List.cons.inj h).1] at hl
      exact absurd List.mem_cons_self hl
    | cons y l' =>
      obtain ⟨rfl, htail⟩ := List.cons.inj h
      obtain ⟨rfl, hr⟩ := ih (fun hc => hl (List.mem_cons_of_mem x hc))
        (fun hc => hl' (List.mem_cons_of_mem x hc)) htail
      exact ⟨rfl, hr⟩

theorem joined_inj (hls : ∀ l ∈ ls, c ∉ l) (hls' : ∀ l ∈ ls', c ∉ l)
    (h : joined c ls ++ r = joined c ls') : ∃ rest, ls' = ls ++ rest ∧ r = joined c rest := by
  induction ls generalizing ls' with
  | nil => exact ⟨ls', rfl, h⟩
  | cons l ls ih =>
    cases ls' with
    | nil =>
      rw [joined_cons, List.append_assoc] at h
      exact absurd (List.append_eq_nil_iff.mp h).2 (List.cons_ne_nil _ _)
    | cons l' ls' =>
      rw [joined_cons, joined_cons, List.append_assoc] at h
      obtain ⟨hl, hls⟩ := List.forall_mem_cons.mp hls
      obtain ⟨hl', htails⟩ := List.forall_mem_cons.mp hls'
      obtain ⟨rfl, htail⟩ := block_inj hl hl' h
      obtain ⟨rest, rfl, hr⟩ := ih hls htails htail
      exact ⟨rest, rfl, hr⟩

section Split

variable [BEq α] [LawfulBEq α]

theorem splitOn_cons_self (t : List α) : (c :: t).splitOn c = [] :: t.splitOn c := by
  rw [List.splitOn, List.splitOnP_cons_eq_if_modifyHead, if_pos BEq.rfl]
  rfl

theorem splitOn_cons_of_ne {x : α} (h : x ≠ c) (t : List α) :
    (x :: t).splitOn c = (t.splitOn c).modifyHead (List.cons x) := by
  rw [List.splitOn, List.splitOnP_cons_eq_if_modifyHead, if_neg (by simpa using h)]
  rfl

theorem splitOn_append (h : c ∉ l) (t : List α) :
    (l ++ t).splitOn c = (t.splitOn c).modifyHead fun x => l ++ x := by
  induction l with
  | nil =>
    rw [List.nil_append]
    cases t.splitOn c <;> rfl
  | cons x l ih =>
    obtain ⟨hx, hl⟩ := List.ne_and_not_mem_of_not_mem_cons h
    rw [List.cons_append, splitOn_cons_of_ne (Ne.symm hx), ih hl]
    cases t.splitOn c <;> rfl

end Split

end BossOs.Lib
