import BossOs.Fs.Dir
import Mathlib.Data.List.TakeWhile

/-!
# Names and paths as C strings

A name is compared, cut and padded by `strncmp`, `skipelem` and `strncpy`; what all three keep
of it are the bytes before the terminator, up to `DIRSIZ` of them. A path is the list of the
runs of bytes between its slashes.
-/

namespace BossOs.Fs

def cstr (t : Str) : Str := t.takeWhile (· ≠ 0)

def nameKey (t : Str) : Str := (cstr t).take DIRSIZ

theorem cstr_of_head {t : Str} (h : t.headD 0 = 0) : cstr t = [] := by
  cases t with
  | nil => rfl
  | cons c t =>
    have hc : c = 0 := h
    rw [cstr, List.takeWhile_cons_of_neg (by simp [hc])]

theorem cstr_cons {c : UInt8} (h : c ≠ 0) (t : Str) : cstr (c :: t) = c :: cstr t :=
  List.takeWhile_cons_of_pos (by simp [h])

theorem exists_cons_of_head {t : Str} (h : t.headD 0 ≠ 0) : ∃ c t', t = c :: t' ∧ c ≠ 0 := by
  cases t with
  | nil => exact absurd rfl h
  | cons c t => exact ⟨c, t, rfl, h⟩

theorem strncmp_eq_zero_iff (p q : Str) (n : Nat) :
    strncmp p q n = 0 ↔ (cstr p).take n = (cstr q).take n := by
  induction n generalizing p q with
  | zero => simp [strncmp]
  | succ n ih =>
    unfold strncmp
    by_cases hp : p.headD 0 = 0
    · rw [if_neg fun hc => hc.1 hp, hp, cstr_of_head hp, List.take_nil]
      by_cases hq : q.headD 0 = 0
      · rw [hq, cstr_of_head hq, List.take_nil]
        exact iff_of_true rfl rfl
      · obtain ⟨c, q', rfl, hc⟩ := exists_cons_of_head hq
        rw [cstr_cons hc, List.take_succ_cons]
        refine iff_of_false ?_ (List.cons_ne_nil _ _).symm
        have hpos : c.toNat ≠ 0 := fun h0 => hc (UInt8.toNat_inj.mp h0)
        simp only [List.headD_cons, UInt8.toNat_zero]
        omega
    · obtain ⟨c, p', rfl, hc⟩ := exists_cons_of_head hp
      rw [cstr_cons hc, List.take_succ_cons]
      by_cases hq : q.headD 0 = 0
      · rw [hq, cstr_of_head hq, List.take_nil, if_neg fun hh => hc hh.2]
        refine iff_of_false ?_ (List.cons_ne_nil _ _)
        have hpos : c.toNat ≠ 0 := fun h0 => hc (UInt8.toNat_inj.mp h0)
        simp only [List.headD_cons, UInt8.toNat_zero]
        omega
      · obtain ⟨c', q', rfl, hc'⟩ := exists_cons_of_head hq
        rw [cstr_cons hc', List.take_succ_cons, List.cons.injEq]
        by_cases heq : c = c'
        · have hboth : (c :: p').headD 0 ≠ 0 ∧ (c :: p').headD 0 = (c' :: q').headD 0 := ⟨hc, heq⟩
          rw [if_pos hboth, List.tail_cons, List.tail_cons, ih]
          exact (and_iff_right heq).symm
        · rw [if_neg fun hh => heq hh.2]
          refine iff_of_false ?_ fun hh => heq hh.1
          have hne : c.toNat ≠ c'.toNat := fun h0 => heq (UInt8.toNat_inj.mp h0)
          simp only [List.headD_cons]
          omega

theorem namecmp_eq_zero_iff {p q : Str} : namecmp p q = 0 ↔ nameKey p = nameKey q :=
  strncmp_eq_zero_iff p q DIRSIZ

theorem cstr_strncpy (t : Str) (n : Nat) : cstr (strncpy t n) = (cstr t).take n := by
  induction n generalizing t with
  | zero => rfl
  | succ n ih =>
    unfold strncpy
    by_cases ht : t.headD 0 = 0
    · rw [if_pos ht, cstr_of_head ht]
      exact cstr_of_head rfl
    · obtain ⟨c, t', rfl, hc⟩ := exists_cons_of_head ht
      rw [if_neg ht, List.headD_cons, List.tail_cons, cstr_cons hc, cstr_cons hc, List.take_succ_cons,
        ih]

theorem nameKey_strncpy (t : Str) : nameKey (strncpy t DIRSIZ) = nameKey t := by
  rw [nameKey, cstr_strncpy, List.take_take, Nat.min_self, nameKey]

def components (path : Str) : List Str :=
  (((cstr path).splitOn slash).filter (· ≠ [])).map (List.take DIRSIZ)

inductive Skips : Str → List Str → Prop
  | nil {path : Str} (h : skipelem path = none) : Skips path []
  | cons {path rest name : Str} {names : List Str} (h : skipelem path = some (rest, name))
    (hrest : Skips rest names) : Skips path (name :: names)

variable {path : Str}

theorem components_nil (h : path.headD 0 = 0) : components path = [] := by
  rw [components, cstr_of_head h]
  rfl

theorem components_slash (path : Str) : components (slash :: path) = components path := by
  have hsplit : (slash :: cstr path).splitOn slash = [] :: (cstr path).splitOn slash := by
    unfold List.splitOn
    rw [List.splitOnP_cons_eq_if_modifyHead, if_pos (beq_self_eq_true slash)]
  rw [components, cstr_cons (by decide), hsplit, List.filter_cons_of_neg (by simp), components]

theorem components_dropWhile (path : Str) :
    components (path.dropWhile (· = slash)) = components path := by
  induction path with
  | nil => rfl
  | cons c path ih =>
    by_cases hc : c = slash
    · rw [List.dropWhile_cons_of_pos (by simp [hc]), ih, hc, components_slash]
    · rw [List.dropWhile_cons_of_neg (by simp [hc])]

theorem components_run {w rest : Str} (hw : w ≠ []) (hrun : ∀ c ∈ w, c ≠ slash ∧ c ≠ 0)
    (hrest : rest.headD 0 = slash ∨ rest.headD 0 = 0) :
    components (w ++ rest) = w.take DIRSIZ :: components rest := by
  have hcstr : cstr (w ++ rest) = w ++ cstr rest :=
    List.takeWhile_append_of_pos fun c hc => by simp [(hrun c hc).2]
  have hsplit : w.splitOn slash = [w] :=
    List.splitOnP_eq_singleton fun c hc => by simp [(hrun c hc).1]
  have hkeep : ∀ l : List Str, ((w :: l).filter (· ≠ [])).map (List.take DIRSIZ) =
      w.take DIRSIZ :: (l.filter (· ≠ [])).map (List.take DIRSIZ) := by
    intro l
    rw [List.filter_cons_of_pos (by simp [hw]), List.map_cons]
  rcases hrest with hs | h0
  · obtain ⟨c, r, rfl, hc⟩ := exists_cons_of_head (t := rest) (by rw [hs]; decide)
    obtain rfl : c = slash := hs
    have hsplit' : (w ++ slash :: cstr r).splitOn slash = w :: (cstr r).splitOn slash := by
      unfold List.splitOn at hsplit ⊢
      rw [List.splitOnP_append_cons w (cstr r) (p := (· == slash)) (beq_self_eq_true slash), hsplit]
      rfl
    rw [components_slash, components, hcstr, cstr_cons hc, hsplit', hkeep, components]
  · rw [components_nil h0, components, hcstr, cstr_of_head h0, List.append_nil, hsplit, hkeep]
    rfl

theorem headD_dropWhile {p : UInt8 → Bool} (hp : p 0 = false) (l : Str) :
    p ((l.dropWhile p).headD 0) = false := by
  induction l with
  | nil => exact hp
  | cons c l ih =>
    by_cases hc : p c = true
    · rw [List.dropWhile_cons_of_pos hc]
      exact ih
    · rw [List.dropWhile_cons_of_neg hc]
      exact Bool.eq_false_iff.mpr hc

theorem skipelem_some {rest name : Str} (h : skipelem path = some (rest, name)) :
    rest.length < path.length ∧ rest.headD 0 ≠ slash ∧ components path = name :: components rest := by
  unfold skipelem at h
  simp only at h
  have hle : (path.dropWhile (· = slash)).length ≤ path.length :=
    (List.dropWhile_sublist _).length_le
  have hslash := headD_dropWhile (p := fun c => decide (c = slash)) (by decide) path
  have hcomp := components_dropWhile path
  generalize path.dropWhile (· = slash) = l at h hle hslash hcomp
  split at h
  · cases h
  rename_i hne
  simp only [Option.some.injEq, Prod.mk.injEq] at h
  obtain ⟨rfl, rfl⟩ := h
  obtain ⟨p, hp⟩ : ∃ p : UInt8 → Bool, p = fun c => decide (c ≠ slash ∧ c ≠ 0) := ⟨_, rfl⟩
  rw [← hp]
  have happ := List.takeWhile_append_dropWhile (p := p) (l := l)
  have hdrop : l.drop (l.takeWhile p).length = l.dropWhile p :=
    (congrArg (List.drop _) happ.symm).trans List.drop_left
  have hw : l.takeWhile p ≠ [] := by
    obtain ⟨c, l', rfl, hc⟩ := exists_cons_of_head hne
    rw [List.takeWhile_cons_of_pos]
    · exact List.cons_ne_nil _ _
    · have hcs : c ≠ slash := of_decide_eq_false hslash
      simp [hp, hc, hcs]
  have hlen : (l.takeWhile p).length + (l.dropWhile p).length = l.length := by
    rw [← List.length_append, happ]
  have hpos : 0 < (l.takeWhile p).length := List.length_pos_iff.mpr hw
  have hend := headD_dropWhile (p := p) (by rw [hp]; decide) l
  rw [hdrop]
  refine ⟨?_, ?_, ?_⟩
  · have hsub : ((l.dropWhile p).dropWhile (· = slash)).length ≤ (l.dropWhile p).length :=
      (List.dropWhile_sublist _).length_le
    omega
  · have hs := headD_dropWhile (p := fun c => decide (c = slash)) (by decide) (l.dropWhile p)
    simpa using hs
  · rw [components_dropWhile, ← hcomp]
    conv_lhs => rw [← happ]
    apply components_run hw
    · intro c hc
      have hpc := List.mem_takeWhile_imp hc
      rw [hp] at hpc
      simpa using hpc
    · rw [hp] at hend ⊢
      simp only [decide_eq_false_iff_not] at hend
      tauto

theorem skipelem_eq_none (h : skipelem path = none) : components path = [] := by
  unfold skipelem at h
  simp only at h
  split at h
  · rename_i h0
    rw [← components_dropWhile]
    exact components_nil h0
  · cases h

theorem skipelem_none (h : path.headD 0 = 0) : skipelem path = none := by
  cases hs : skipelem path with
  | none => rfl
  | some p =>
    obtain ⟨rest, name⟩ := p
    have hcomp := (skipelem_some hs).2.2
    rw [components_nil h] at hcomp
    cases hcomp

theorem skips_components (n : Nat) (hn : path.length < n) : Skips path (components path) := by
  induction n generalizing path with
  | zero => exact absurd hn (Nat.not_lt_zero _)
  | succ n ih =>
    cases hs : skipelem path with
    | none =>
      rw [skipelem_eq_none hs]
      exact Skips.nil hs
    | some p =>
      obtain ⟨rest, name⟩ := p
      obtain ⟨hlt, -, hcomp⟩ := skipelem_some hs
      rw [hcomp]
      exact Skips.cons hs (ih (by omega))

end BossOs.Fs
