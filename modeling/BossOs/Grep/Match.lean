import Mathlib.Computability.Language

/-!
# The pattern matcher of `grep`

`match`, `matchhere` and `matchstar` of `grep.c`. Patterns and texts are C strings: lists of
the bytes before the NUL. `language` says which words a pattern stands for, apart from the
two anchors.
-/

namespace BossOs.Grep

open Computability

def caret : UInt8 := 0x5E
def dollar : UInt8 := 0x24
def dot : UInt8 := 0x2E
def star : UInt8 := 0x2A

def matchone (c : UInt8) (rest : List UInt8 → Bool) : List UInt8 → Bool
  | [] => false
  | t :: text => (c = dot || c = t) && rest text

/-- The loop of `matchstar`, where `rest` is `matchhere` of the pattern behind the star. -/
def matchstar (c : UInt8) (rest : List UInt8 → Bool) : List UInt8 → Bool
  | [] => rest []
  | t :: text => rest (t :: text) || ((t = c || c = dot) && matchstar c rest text)

def matchhere : List UInt8 → List UInt8 → Bool
  | [], _ => true
  | [c], text => if c = dollar then text = [] else matchone c (matchhere []) text
  | c :: d :: re, text =>
    if d = star then matchstar c (matchhere re) text else matchone c (matchhere (d :: re)) text

def matchFrom (re : List UInt8) : List UInt8 → Bool
  | [] => matchhere re []
  | t :: text => matchhere re (t :: text) || matchFrom re text

def matchText (re text : List UInt8) : Bool :=
  if re.head? = some caret then matchhere re.tail text else matchFrom re text

def Admits (c b : UInt8) : Prop := c = dot ∨ c = b

def symbol (c : UInt8) : Language UInt8 := {w | ∃ b, Admits c b ∧ w = [b]}

def language : List UInt8 → Language UInt8
  | [] => 1
  | [c] => if c = dollar then 1 else symbol c
  | c :: d :: re => if d = star then (symbol c)∗ * language re else symbol c * language (d :: re)

structure Found (re text w post : List UInt8) : Prop where
  split : text = w ++ post
  word : w ∈ language re
  anchor : re.getLast? = some dollar → post = []

variable {re text : List UInt8} {c d : UInt8} {rest : List UInt8 → Bool}

theorem mem_kstar_symbol {w : List UInt8} : w ∈ (symbol c)∗ ↔ ∀ b ∈ w, Admits c b := by
  constructor
  · rintro ⟨words, rfl, hwords⟩ b hb
    obtain ⟨x, hx, hbx⟩ := List.mem_flatten.mp hb
    obtain ⟨b', hb', rfl⟩ := hwords x hx
    rw [List.mem_singleton.mp hbx]
    exact hb'
  · intro h
    refine ⟨w.map fun b => [b], ?_, ?_⟩
    · induction w with
      | nil => rfl
      | cons b w ih =>
        rw [List.map_cons, List.flatten_cons, ← ih fun b' hb' => h b' (List.mem_cons_of_mem b hb')]
        rfl
    · intro x hx
      obtain ⟨b, hb, rfl⟩ := List.mem_map.mp hx
      exact ⟨b, h b hb, rfl⟩

theorem admits_iff {t : UInt8} : (t = c || c = dot : Bool) = true ↔ Admits c t := by
  rw [Bool.or_eq_true, decide_eq_true_eq, decide_eq_true_eq, Admits, eq_comm, or_comm]

theorem matchone_iff : matchone c rest text = true ↔
    ∃ b post, text = b :: post ∧ Admits c b ∧ rest post = true := by
  cases text with
  | nil => simp [matchone]
  | cons t text => simp [matchone, Admits]

theorem matchstar_iff : matchstar c rest text = true ↔
    ∃ w post, text = w ++ post ∧ (∀ b ∈ w, Admits c b) ∧ rest post = true := by
  induction text with
  | nil =>
    rw [matchstar]
    constructor
    · intro h
      exact ⟨[], [], rfl, List.forall_mem_nil _, h⟩
    · rintro ⟨w, post, hsplit, -, h⟩
      obtain ⟨rfl, rfl⟩ := List.append_eq_nil_iff.mp hsplit.symm
      exact h
  | cons t text ih =>
    rw [matchstar, Bool.or_eq_true, Bool.and_eq_true, ih]
    constructor
    · rintro (h | ⟨hc, w, post, rfl, hw, h⟩)
      · exact ⟨[], t :: text, rfl, List.forall_mem_nil _, h⟩
      · refine ⟨t :: w, post, rfl, fun b hb => ?_, h⟩
        rcases List.mem_cons.mp hb with rfl | hb
        · exact admits_iff.mp hc
        · exact hw b hb
    · rintro ⟨w, post, hsplit, hw, h⟩
      cases w with
      | nil =>
        rw [List.nil_append] at hsplit
        rw [hsplit]
        exact Or.inl h
      | cons b w =>
        obtain ⟨rfl, rfl⟩ := List.cons.inj hsplit
        refine Or.inr ⟨?_, w, post, rfl, fun b hb => hw b (List.mem_cons_of_mem _ hb), h⟩
        exact admits_iff.mpr (hw _ List.mem_cons_self)

theorem found_one (hd : d ≠ star) : (∃ w post, Found (c :: d :: re) text w post) ↔
    ∃ b post, text = b :: post ∧ Admits c b ∧ ∃ w post', Found (d :: re) post w post' := by
  constructor
  · rintro ⟨w, post, rfl, hword, hanchor⟩
    rw [language, if_neg hd] at hword
    obtain ⟨_, ⟨b, hb, rfl⟩, w', hw', rfl⟩ := Language.mem_mul.mp hword
    exact ⟨b, w' ++ post, rfl, hb, w', post, rfl, hw', hanchor⟩
  · rintro ⟨b, _, rfl, hb, w, post, rfl, hword, hanchor⟩
    refine ⟨b :: w, post, rfl, ?_, hanchor⟩
    rw [language, if_neg hd]
    exact Language.mem_mul.mpr ⟨[b], ⟨b, hb, rfl⟩, w, hword, rfl⟩

theorem getLast_star : (c :: star :: re).getLast? = some dollar ↔ re.getLast? = some dollar := by
  cases re with
  | nil =>
    constructor
    · intro h
      change some star = some dollar at h
      exact absurd (Option.some.inj h) (by decide)
    · intro h
      cases h
  | cons d re => rfl

theorem found_star : (∃ w post, Found (c :: star :: re) text w post) ↔
    ∃ w post, text = w ++ post ∧ (∀ b ∈ w, Admits c b) ∧ ∃ w' post', Found re post w' post' := by
  constructor
  · rintro ⟨w, post, rfl, hword, hanchor⟩
    rw [language, if_pos rfl] at hword
    obtain ⟨x, hx, y, hy, rfl⟩ := Language.mem_mul.mp hword
    refine ⟨x, y ++ post, List.append_assoc x y post, mem_kstar_symbol.mp hx, y, post, rfl, hy, ?_⟩
    intro hlast
    exact hanchor (getLast_star.mpr hlast)
  · rintro ⟨x, _, rfl, hx, y, post, rfl, hword, hanchor⟩
    refine ⟨x ++ y, post, (List.append_assoc x y post).symm, ?_, ?_⟩
    · rw [language, if_pos rfl]
      exact Language.mem_mul.mpr ⟨x, mem_kstar_symbol.mpr hx, y, hword, rfl⟩
    · intro hlast
      exact hanchor (getLast_star.mp hlast)

theorem found_last : (∃ w post, Found [c] text w post) ↔
    if c = dollar then text = [] else ∃ b post, text = b :: post ∧ Admits c b := by
  split
  · rename_i hc
    subst hc
    constructor
    · rintro ⟨w, post, rfl, hword, hanchor⟩
      rw [language, if_pos rfl] at hword
      rw [(Language.mem_one w).mp hword, hanchor rfl]
      rfl
    · rintro rfl
      refine ⟨[], [], rfl, ?_, fun _ => rfl⟩
      rw [language, if_pos rfl]
      rfl
  · rename_i hc
    constructor
    · rintro ⟨w, post, rfl, hword, -⟩
      rw [language, if_neg hc] at hword
      obtain ⟨b, hb, rfl⟩ := hword
      exact ⟨b, post, rfl, hb⟩
    · rintro ⟨b, post, rfl, hb⟩
      refine ⟨[b], post, rfl, ?_, ?_⟩
      · rw [language, if_neg hc]
        exact ⟨b, hb, rfl⟩
      · intro hlast
        exact absurd (Option.some.inj hlast) hc

theorem matchhere_iff : ∀ re text : List UInt8,
    matchhere re text = true ↔ ∃ w post, Found re text w post
  | [], text => by
    constructor
    · intro _
      exact ⟨[], text, rfl, rfl, nofun⟩
    · exact fun _ => rfl
  | [c], text => by
    rw [matchhere, found_last]
    split
    · exact decide_eq_true_iff
    · rw [matchone_iff]
      simp only [matchhere, and_true]
  | c :: d :: re, text => by
    rw [matchhere]
    by_cases hd : d = star
    · subst hd
      rw [if_pos rfl, matchstar_iff, found_star]
      simp only [matchhere_iff re]
    · rw [if_neg hd, matchone_iff, found_one hd]
      simp only [matchhere_iff (d :: re)]

theorem matchFrom_iff : matchFrom re text = true ↔
    ∃ pre w post, text = pre ++ (w ++ post) ∧ Found re (w ++ post) w post := by
  induction text with
  | nil =>
    rw [matchFrom, matchhere_iff]
    constructor
    · rintro ⟨w, post, h⟩
      exact ⟨[], w, post, h.split, h.split ▸ h⟩
    · rintro ⟨pre, w, post, hsplit, h⟩
      refine ⟨w, post, ?_, h.word, h.anchor⟩
      exact (List.append_eq_nil_iff.mp hsplit.symm).2.symm
  | cons t text ih =>
    rw [matchFrom, Bool.or_eq_true, matchhere_iff, ih]
    constructor
    · rintro (⟨w, post, h⟩ | ⟨pre, w, post, rfl, h⟩)
      · exact ⟨[], w, post, h.split, rfl, h.word, h.anchor⟩
      · exact ⟨t :: pre, w, post, rfl, h⟩
    · rintro ⟨pre, w, post, hsplit, h⟩
      cases pre with
      | nil => exact Or.inl ⟨w, post, hsplit, h.word, h.anchor⟩
      | cons b pre =>
        obtain ⟨rfl, rfl⟩ := List.cons.inj hsplit
        exact Or.inr ⟨pre, w, post, rfl, h⟩

def unanchored (re : List UInt8) : List UInt8 := if re.head? = some caret then re.tail else re

/-- A text matches if a part of it is a word of the pattern: one that begins with the text
where the pattern begins with `^`, and ends with it where the pattern ends with `$`. -/
theorem match_iff_language (re text : List UInt8) : matchText re text = true ↔
    ∃ pre w post, text = pre ++ w ++ post ∧ w ∈ language (unanchored re) ∧
      (re.head? = some caret → pre = []) ∧
      ((unanchored re).getLast? = some dollar → post = []) := by
  unfold matchText unanchored
  split
  · rw [matchhere_iff]
    constructor
    · rintro ⟨w, post, h⟩
      exact ⟨[], w, post, h.split, h.word, fun _ => rfl, h.anchor⟩
    · rintro ⟨pre, w, post, hsplit, hword, hpre, hanchor⟩
      rw [hpre ‹_›] at hsplit
      exact ⟨w, post, hsplit, hword, hanchor⟩
  · rename_i hcaret
    rw [matchFrom_iff]
    constructor
    · rintro ⟨pre, w, post, hsplit, h⟩
      rw [← List.append_assoc] at hsplit
      exact ⟨pre, w, post, hsplit, h.word, fun hc => absurd hc hcaret, h.anchor⟩
    · rintro ⟨pre, w, post, hsplit, hword, -, hanchor⟩
      rw [List.append_assoc] at hsplit
      exact ⟨pre, w, post, hsplit, rfl, hword, hanchor⟩

end BossOs.Grep
