import Mathlib.Data.List.Nodup
import Mathlib.Logic.Function.Iterate

/-!
# Doubly linked rings

The nodes of a circular list that is linked both ways and has a head without contents. A list of
the nodes, from the head on, says all there is to know about the links.
-/

namespace BossOs.Lib

/-- The fields `next` and `prev` of every node; the head is `none`. -/
structure Links (α : Type) where
  next : Option α → Option α
  prev : Option α → Option α

namespace Links

variable {α : Type}

def swap (l : Links α) : Links α := ⟨l.prev, l.next⟩

def empty : Links α := ⟨fun _ => none, fun _ => none⟩

/-- `for(x = first; x != head; x = step x) if(p x) return x`, for at most `n` tests. -/
def search (step : Option α → Option α) (p : α → Bool) : Nat → Option α → Option α
  | 0, _ => none
  | _ + 1, none => none
  | n + 1, some x => if p x then some x else search step p n (step (some x))

theorem search_some {step : Option α → Option α} {p : α → Bool} {n : Nat} {a : Option α} {x : α}
    (h : search step p n a = some x) : p x = true := by
  induction n generalizing a with
  | zero => cases h
  | succ n ih =>
    cases a with
    | none => cases h
    | some y =>
      rw [search] at h
      split at h
      · cases h
        assumption
      · exact ih h

section Operations

variable [DecidableEq α] (l : Links α)

def setNext (a b : Option α) : Links α := { l with next := Function.update l.next a b }

def setPrev (a b : Option α) : Links α := { l with prev := Function.update l.prev a b }

def pushFront (x : α) : Links α :=
  let l₁ := l.setNext (some x) (l.next none)
  let l₂ := l₁.setPrev (some x) none
  let l₃ := l₂.setPrev (l₂.next none) (some x)
  l₃.setNext none (some x)

def unlink (x : α) : Links α :=
  let l₁ := l.setPrev (l.next (some x)) (l.prev (some x))
  l₁.setNext (l₁.prev (some x)) (l₁.next (some x))

def moveFront (x : α) : Links α := (l.unlink x).pushFront x

variable {l} {x : α}

theorem next_pushFront (l : Links α) (x : α) (c : Option α) : (l.pushFront x).next c =
    if c = none then some x else if c = some x then l.next none else l.next c := by
  simp only [pushFront, setNext, setPrev, Function.update_apply]

theorem prev_pushFront (c : Option α) : (l.pushFront x).prev c =
    if c = l.next none then some x else if c = some x then none else l.prev c := by
  simp only [pushFront, setNext, setPrev, Function.update_apply, reduceCtorEq, if_false]

theorem next_unlink (h : l.next (some x) ≠ some x) (c : Option α) : (l.unlink x).next c =
    if c = l.prev (some x) then l.next (some x) else l.next c := by
  simp only [unlink, setNext, setPrev, Function.update_apply, if_neg h.symm]

theorem prev_unlink (l : Links α) (x : α) (c : Option α) : (l.unlink x).prev c =
    if c = l.next (some x) then l.prev (some x) else l.prev c := by
  simp only [unlink, setNext, setPrev, Function.update_apply]

end Operations

def Seg (l : Links α) : Option α → List α → Option α → Prop
  | a, [], b => l.next a = b ∧ l.prev b = a
  | a, x :: xs, b => l.next a = some x ∧ l.prev (some x) = a ∧ Seg l (some x) xs b

section Segments

variable {l l' : Links α} {a b : Option α} {xs ys : List α} {x : α}

theorem seg_append : l.Seg a (xs ++ x :: ys) b ↔ l.Seg a xs (some x) ∧ l.Seg (some x) ys b := by
  induction xs generalizing a with
  | nil => simp only [List.nil_append, Seg, and_assoc]
  | cons y xs ih => simp only [List.cons_append, Seg, ih, and_assoc]

theorem Seg.congr (h : l.Seg a xs b)
    (hnext : ∀ c, c = a ∨ (∃ x ∈ xs, c = some x) → l'.next c = l.next c)
    (hprev : ∀ c, c = b ∨ (∃ x ∈ xs, c = some x) → l'.prev c = l.prev c) : l'.Seg a xs b := by
  induction xs generalizing a with
  | nil =>
    obtain ⟨hn, hp⟩ := h
    exact ⟨(hnext a (Or.inl rfl)).trans hn, (hprev b (Or.inl rfl)).trans hp⟩
  | cons x xs ih =>
    obtain ⟨hn, hp, h⟩ := h
    refine ⟨(hnext a (Or.inl rfl)).trans hn, ?_, ih h ?_ ?_⟩
    · exact (hprev (some x) (Or.inr ⟨x, List.mem_cons_self, rfl⟩)).trans hp
    · rintro c (rfl | ⟨y, hy, rfl⟩)
      · exact hnext _ (Or.inr ⟨x, List.mem_cons_self, rfl⟩)
      · exact hnext _ (Or.inr ⟨y, List.mem_cons_of_mem x hy, rfl⟩)
    · rintro c (rfl | ⟨y, hy, rfl⟩)
      · exact hprev _ (Or.inl rfl)
      · exact hprev _ (Or.inr ⟨y, List.mem_cons_of_mem x hy, rfl⟩)

theorem Seg.reverse (h : l.Seg a xs b) : l.swap.Seg b xs.reverse a := by
  induction xs generalizing a with
  | nil => exact ⟨h.2, h.1⟩
  | cons x xs ih =>
    obtain ⟨hn, hp, h⟩ := h
    rw [List.reverse_cons]
    exact seg_append.mpr ⟨ih h, hp, hn⟩

theorem Seg.prev_next (h : l.Seg a xs b) {c : Option α} (hc : c = a ∨ ∃ x ∈ xs, c = some x) :
    l.prev (l.next c) = c := by
  induction xs generalizing a with
  | nil =>
    rcases hc with rfl | ⟨x, hx, -⟩
    · rw [h.1, h.2]
    · exact absurd hx List.not_mem_nil
  | cons x xs ih =>
    obtain ⟨hn, hp, h⟩ := h
    rcases hc with rfl | ⟨y, hy, rfl⟩
    · rw [hn, hp]
    · rcases List.mem_cons.mp hy with rfl | hy
      · exact ih h (Or.inl rfl)
      · exact ih h (Or.inr ⟨y, hy, rfl⟩)

theorem Seg.next_start (h : l.Seg a xs b) : l.next a = b ∨ ∃ x ∈ xs, l.next a = some x := by
  cases xs with
  | nil => exact Or.inl h.1
  | cons x xs => exact Or.inr ⟨x, List.mem_cons_self, h.1⟩

theorem Seg.prev_end (h : l.Seg a (x :: xs) b) : ∃ y ∈ x :: xs, l.prev b = some y := by
  induction xs generalizing a x with
  | nil => exact ⟨x, List.mem_cons_self, h.2.2.2⟩
  | cons y xs ih =>
    obtain ⟨z, hz, heq⟩ := ih h.2.2
    exact ⟨z, List.mem_cons_of_mem x hz, heq⟩

theorem Seg.iterate (h : l.Seg a xs none) {k : Nat} (hk : k ≤ xs.length) :
    l.next^[k + 1] a = xs[k]? := by
  induction xs generalizing a k with
  | nil =>
    rw [Nat.le_zero.mp hk]
    exact h.1
  | cons x xs ih =>
    obtain ⟨hn, -, h⟩ := h
    rw [Function.iterate_succ_apply, hn]
    cases k with
    | zero => rfl
    | succ k => exact ih h (Nat.le_of_succ_le_succ hk)

theorem Seg.search (h : l.Seg a xs none) (p : α → Bool) {n : Nat} (hn : xs.length < n) :
    Links.search l.next p n (l.next a) = xs.find? p := by
  induction xs generalizing a n with
  | nil =>
    cases n with
    | zero => exact absurd hn (Nat.not_lt_zero _)
    | succ n =>
      rw [h.1]
      rfl
  | cons x xs ih =>
    cases n with
    | zero => exact absurd hn (Nat.not_lt_zero _)
    | succ n =>
      obtain ⟨hnext, -, h⟩ := h
      rw [hnext, Links.search, List.find?_cons, ih h (Nat.lt_of_succ_lt_succ hn)]
      cases p x <;> rfl

end Segments

/-- From the head on, the ring has the nodes `xs`, each once. -/
structure Ring (l : Links α) (xs : List α) : Prop where
  nodup : xs.Nodup
  seg : l.Seg none xs none

namespace Ring

variable {l : Links α} {xs : List α} {x : α}

theorem empty : (empty : Links α).Ring [] := ⟨List.nodup_nil, rfl, rfl⟩

section
variable (h : l.Ring xs)
include h

theorem swap : l.swap.Ring xs.reverse :=
  ⟨List.nodup_reverse.mpr h.nodup, h.seg.reverse⟩

theorem search (p : α → Bool) {n : Nat} (hn : xs.length < n) :
    Links.search l.next p n (l.next none) = xs.find? p := h.seg.search p hn

theorem search_prev (p : α → Bool) {n : Nat} (hn : xs.length < n) :
    Links.search l.prev p n (l.prev none) = xs.reverse.find? p :=
  h.swap.search p (by rwa [List.length_reverse])

theorem prev_next (hall : ∀ x, x ∈ xs) (c : Option α) : l.prev (l.next c) = c := by
  apply h.seg.prev_next
  cases c with
  | none => exact Or.inl rfl
  | some x => exact Or.inr ⟨x, hall x, rfl⟩

theorem next_prev (hall : ∀ x, x ∈ xs) (c : Option α) : l.next (l.prev c) = c :=
  h.swap.prev_next (fun x => List.mem_reverse.mpr (hall x)) c

theorem existsUnique (hx : x ∈ xs) :
    ∃! k, k < xs.length ∧ l.next^[k + 1] none = some x := by
  obtain ⟨k, hk, hkx⟩ := List.getElem_of_mem hx
  refine ⟨k, ⟨hk, ?_⟩, ?_⟩
  · rw [h.seg.iterate (Nat.le_of_lt hk), List.getElem?_eq_getElem hk, hkx]
  · rintro j ⟨hj, hjx⟩
    rw [h.seg.iterate (Nat.le_of_lt hj), List.getElem?_eq_getElem hj] at hjx
    apply (h.nodup.getElem_inj_iff).mp
    exact (Option.some.inj hjx).trans hkx.symm

end

variable [DecidableEq α]

theorem pushFront (h : l.Ring xs) (hx : x ∉ xs) : (l.pushFront x).Ring (x :: xs) := by
  refine ⟨List.nodup_cons.mpr ⟨hx, h.nodup⟩, ?_⟩
  obtain ⟨hnodup, hseg⟩ := h
  cases xs with
  | nil =>
    have hn : l.next none = none := hseg.1
    simp [Seg, next_pushFront, prev_pushFront, hn]
  | cons y ys =>
    obtain ⟨hn, hp, hseg⟩ := hseg
    have hy : y ∉ ys := (List.nodup_cons.mp hnodup).1
    have hxy : x ≠ y := fun h => hx (h ▸ List.mem_cons_self)
    have hxs : x ∉ ys := fun h => hx (List.mem_cons_of_mem y h)
    refine ⟨?_, ?_, ?_, ?_, hseg.congr ?_ ?_⟩
    · simp [next_pushFront]
    · simp [prev_pushFront, hn, hxy]
    · simp [next_pushFront, hn]
    · simp [prev_pushFront, hn]
    · rintro c (rfl | ⟨z, hz, rfl⟩)
      · simp [next_pushFront, hxy.symm]
      · have hzx : z ≠ x := fun h => hxs (h ▸ hz)
        simp [next_pushFront, hzx]
    · rintro c (rfl | ⟨z, hz, rfl⟩)
      · simp [prev_pushFront, hn]
      · have hzx : z ≠ x := fun h => hxs (h ▸ hz)
        have hzy : z ≠ y := fun h => hy (h ▸ hz)
        simp [prev_pushFront, hn, hzx, hzy]

end Ring

theorem Seg.unlink [DecidableEq α] {l : Links α} {a b : Option α} {ys zs : List α} {x : α}
    (h : l.Seg a (ys ++ x :: zs) b) (hnodup : (ys ++ x :: zs).Nodup)
    (ha : ∀ y ∈ ys ++ x :: zs, a ≠ some y) (hb : ∀ y ∈ ys ++ x :: zs, b ≠ some y) :
    (l.unlink x).Seg a (ys ++ zs) b := by
  have hafter : l.next (some x) = b ∨ ∃ z ∈ zs, l.next (some x) = some z :=
    (seg_append.mp h).2.next_start
  have hnext : l.next (some x) ≠ some x := by
    rcases hafter with hx | ⟨z, hz, hx⟩
    · rw [hx]
      exact hb x (by simp)
    · intro heq
      rw [hx] at heq
      cases heq
      exact (List.nodup_cons.mp (List.nodup_append.mp hnodup).2.1).1 hz
  induction ys generalizing a with
  | nil =>
    obtain ⟨hn, hp, hseg⟩ := h
    cases zs with
    | nil =>
      obtain ⟨hn', hp'⟩ := hseg
      simp [Seg, next_unlink hnext, prev_unlink, hp, hn']
    | cons z zs =>
      obtain ⟨hn', hp', hseg⟩ := hseg
      refine ⟨?_, ?_, hseg.congr ?_ ?_⟩
      · simp [next_unlink hnext, hp, hn']
      · simp [prev_unlink, hp, hn']
      · rintro c (rfl | ⟨y, hy, rfl⟩)
        · rw [next_unlink hnext, hp, if_neg (ha z (by simp)).symm]
        · rw [next_unlink hnext, hp, if_neg (ha y (by simp [hy])).symm]
      · rintro c (rfl | ⟨y, hy, rfl⟩)
        · rw [prev_unlink, hn', if_neg (hb z (by simp))]
        · have hyz : some y ≠ some z := by
            rintro heq
            cases heq
            simp [hy] at hnodup
          rw [prev_unlink, hn', if_neg hyz]
  | cons y ys ih =>
    obtain ⟨w, hw, hbefore⟩ := (seg_append.mp h).1.prev_end
    obtain ⟨hn, hp, hseg⟩ := h
    obtain ⟨hy, hnodup⟩ := List.nodup_cons.mp hnodup
    refine ⟨?_, ?_, ih hseg hnodup ?_ ?_⟩
    · have hw' : w ∈ (y :: ys) ++ x :: zs := List.mem_append_left _ hw
      rw [next_unlink hnext, hbefore, if_neg (ha w hw'), hn]
    · have hne : some y ≠ l.next (some x) := by
        rcases hafter with hx | ⟨z, hz, hx⟩
        · rw [hx]
          exact (hb y (by simp)).symm
        · intro heq
          rw [hx] at heq
          cases heq
          exact hy (by simp [hz])
      rw [prev_unlink, if_neg hne, hp]
    · rintro z hz heq
      cases heq
      exact hy hz
    · exact fun z hz => hb z (List.mem_cons_of_mem y hz)

namespace Ring

variable [DecidableEq α] {l : Links α} {xs : List α} {x : α}

theorem moveFront (h : l.Ring xs) (hx : x ∈ xs) : (l.moveFront x).Ring (x :: xs.erase x) := by
  obtain ⟨ys, zs, -, hxs, herase⟩ := List.exists_erase_eq hx
  rw [herase]
  subst hxs
  have hsub : (ys ++ zs).Sublist (ys ++ x :: zs) :=
    List.Sublist.append_left (List.sublist_cons_self x zs) ys
  have hcut : (l.unlink x).Ring (ys ++ zs) :=
    ⟨h.nodup.sublist hsub, h.seg.unlink h.nodup (fun _ _ => nofun) fun _ _ => nofun⟩
  apply hcut.pushFront
  exact (List.nodup_cons.mp (List.nodup_middle.mp h.nodup)).1

end Ring

end Links

end BossOs.Lib
