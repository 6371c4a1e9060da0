import BossOs.Grep.Lines

/-!
# Every way of reading a file

Whether `grep` writes the lines that match depends on how `read` divides its input: a piece
without a newline is lost, with what had been carried over. If there is no such piece, the
output is right for every pattern.
-/

namespace BossOs.Grep

open Lib Lib.Memory

variable {re : List UInt8} {buf : UInt32} {s t : State} {c : List UInt8}
variable {ls ls' : List (List UInt8)} {pieces : List (List UInt8)}

theorem plain_parts {x r : List UInt8} (h : x = joined newline ls ++ r) (h0 : 0 ∉ x)
    (hls : ∀ l ∈ ls, newline ∉ l) (hr : newline ∉ r) : (∀ l ∈ ls, Plain l) ∧ Plain r := by
  rw [h, List.mem_append, not_or] at h0
  refine ⟨fun l hl => ⟨hls l hl, fun hz => h0.1 ?_⟩, hr, h0.2⟩
  exact mem_joined.mpr ⟨l, hl, Or.inl hz⟩

theorem zero_not_mem_joined (hls : ∀ l ∈ ls, Plain l) : 0 ∉ joined newline ls := by
  intro h
  obtain ⟨l, hl, hz | hz⟩ := mem_joined.mp h
  · exact (hls l hl).2 hz
  · exact absurd hz (by decide)

theorem selected_append : selected re (ls ++ ls') = selected re ls ++ selected re ls' := by
  unfold selected
  rw [List.filter_append, joined_append]

variable (re ls) in
theorem length_selected_le : (selected re ls).length ≤ (joined newline ls).length := by
  induction ls with
  | nil => exact Nat.le_refl _
  | cons l ls ih =>
    rw [selected_cons, joined_cons, List.length_append, List.length_append, List.length_cons]
    split
    · rw [List.length_append, List.length_singleton]
      omega
    · rw [List.length_nil]
      omega

theorem grep_cons {piece : List UInt8} (h : grep re buf s (piece :: pieces) = some t)
    (hc : Carries buf s c) (hbuf : buf.toNat + bufSize ≤ 2 ^ 32) (h0 : 0 ∉ piece) :
    ∃ s' ls r, grep re buf s' pieces = some t ∧ 0 < piece.length ∧
      c ++ piece = joined newline ls ++ r ∧ (∀ l ∈ ls, newline ∉ l) ∧ newline ∉ r ∧
      Carries buf s' (if ls = [] then [] else r) ∧ s'.out = s.out ++ selected re ls := by
  rw [grep] at h
  split at h
  · rename_i hfit
    obtain ⟨ls, r, hsplit, hls, hr⟩ := exists_joined newline (c ++ piece)
    have hzero : 0 ∉ c ++ piece := by
      rw [List.mem_append, not_or]
      exact ⟨hc.plain.2, h0⟩
    obtain ⟨hlines, hrest⟩ := plain_parts hsplit hzero hls hr
    obtain ⟨hc', hout⟩ := round_spec re hc hbuf hfit.2 hfit.1 hsplit hlines hrest
    exact ⟨_, ls, r, h, hfit.1, hsplit, hls, hr, hc', hout⟩
  · cases h

theorem grep_selects (hbuf : buf.toNat + bufSize ≤ 2 ^ 32) (h : grep re buf s pieces = some t)
    (hc : Carries buf s c) (hsplit : c ++ pieces.flatten = joined newline ls)
    (hls : ∀ l ∈ ls, Plain l) (hnl : ∀ x ∈ pieces, newline ∈ x) :
    t.out = s.out ++ selected re ls := by
  induction pieces generalizing s c ls with
  | nil =>
    cases h
    rw [List.flatten_nil, List.append_nil] at hsplit
    cases ls with
    | nil => exact (List.append_nil _).symm
    | cons l ls =>
      exfalso
      apply hc.plain.1
      rw [hsplit]
      exact mem_joined.mpr ⟨l, List.mem_cons_self, Or.inr rfl⟩
  | cons piece pieces ih =>
    obtain ⟨hnl, hrest⟩ := List.forall_mem_cons.mp hnl
    rw [List.flatten_cons, ← List.append_assoc] at hsplit
    have h0 : 0 ∉ piece := by
      intro hz
      apply zero_not_mem_joined hls
      rw [← hsplit]
      exact List.mem_append_left _ (List.mem_append_right _ hz)
    obtain ⟨s', ls₁, r, hrun, -, hcut, hls₁, hr, hc', hout⟩ := grep_cons h hc hbuf h0
    have hne : ls₁ ≠ [] := by
      rintro rfl
      apply hr
      rw [joined_nil, List.nil_append] at hcut
      rw [← hcut]
      exact List.mem_append_right _ hnl
    rw [if_neg hne] at hc'
    rw [hcut, List.append_assoc] at hsplit
    obtain ⟨ls₂, rfl, htail⟩ := joined_inj hls₁ (fun l hl => (hls l hl).1) hsplit
    rw [ih hrun hc' htail (fun l hl => hls l (List.mem_append_right _ hl)) hrest, hout,
      selected_append, List.append_assoc]

theorem grep_length (hbuf : buf.toNat + bufSize ≤ 2 ^ 32) (h : grep re buf s pieces = some t)
    (hc : Carries buf s c) (h0 : 0 ∉ pieces.flatten) :
    t.out.length ≤ s.out.length + c.length + pieces.flatten.length ∧ ((∃ x ∈ pieces, newline ∉ x) →
        t.out.length < s.out.length + c.length + pieces.flatten.length) := by
  induction pieces generalizing s c with
  | nil =>
    cases h
    refine ⟨by omega, ?_⟩
    rintro ⟨x, hx, -⟩
    cases hx
  | cons piece pieces ih =>
    rw [List.flatten_cons, List.mem_append, not_or] at h0
    obtain ⟨s', ls, r, hrun, hpos, hcut, hls, hr, hc', hout⟩ := grep_cons h hc hbuf h0.1
    obtain ⟨hle, hlt⟩ := ih hrun hc' h0.2
    have hlen := congrArg List.length hcut
    have hsel := length_selected_le re ls
    rw [List.length_append, List.length_append] at hlen
    rw [hout, List.length_append] at hle hlt
    rw [List.flatten_cons, List.length_append]
    have hcarry : (if ls = [] then [] else r).length ≤ r.length := by
      split
      · exact Nat.zero_le _
      · exact Nat.le_refl _
    refine ⟨by omega, ?_⟩
    rintro ⟨x, hx, hnx⟩
    rcases List.mem_cons.mp hx with rfl | hx
    · have hnil : ls = [] := by
        by_contra hne
        obtain ⟨l, ls', rfl⟩ := List.exists_cons_of_ne_nil hne
        have hmem : newline ∈ c ++ x := by
          rw [hcut]
          exact List.mem_append_left _ (mem_joined.mpr ⟨l, List.mem_cons_self, Or.inr rfl⟩)
        rcases List.mem_append.mp hmem with hmem | hmem
        · exact hc.plain.1 hmem
        · exact hnx hmem
      subst hnil
      rw [if_pos rfl, List.length_nil] at hle
      rw [joined_nil, List.length_nil] at hsel
      omega
    · have hlast := hlt ⟨x, hx, hnx⟩
      omega

theorem carries_nil (mem : Memory) : Carries buf ⟨mem, 0, []⟩ [] :=
  ⟨at_nil, rfl, List.not_mem_nil, List.not_mem_nil⟩

theorem matchText_nil (text : List UInt8) : matchText [] text = true := by
  rw [matchText, if_neg (by decide)]
  cases text with
  | nil => rfl
  | cons t text =>
    rw [matchFrom, matchhere]
    rfl

/-- For an input of whole lines and a way to read it: `grep` is right for every pattern if
and only if each piece that is read contains a newline. -/
theorem grep_any_split_iff {mem : Memory} (hbuf : buf.toNat + bufSize ≤ 2 ^ 32)
    (hls : ∀ l ∈ ls, Plain l) (hsplit : pieces.flatten = joined newline ls)
    (hread : ∀ re, (grep re buf ⟨mem, 0, []⟩ pieces).isSome = true) :
    (∀ re, ∃ t, grep re buf ⟨mem, 0, []⟩ pieces = some t ∧ t.out = selected re ls) ↔
      ∀ x ∈ pieces, newline ∈ x := by
  constructor
  · intro h
    by_contra hnl
    push Not at hnl
    -- the empty pattern selects everything
    obtain ⟨t, hrun, hout⟩ := h []
    have h0 : 0 ∉ pieces.flatten := hsplit ▸ zero_not_mem_joined hls
    have hlt := (grep_length hbuf hrun (carries_nil mem) h0).2 hnl
    have hall : selected [] ls = joined newline ls := by
      rw [selected, List.filter_eq_self.mpr fun l _ => matchText_nil l]
    rw [hout, hall, hsplit, List.length_nil] at hlt
    omega
  · intro hnl re
    obtain ⟨t, ht⟩ := Option.isSome_iff_exists.mp (hread re)
    exact ⟨t, ht, grep_selects hbuf ht (carries_nil mem) hsplit hls hnl⟩

/-- The second line is cut: its `b` is carried over to the second piece. -/
theorem grep_any_split_iff_cut : ∃ t,
    grep [0x62, 0x63] 0x1000 ⟨fun _ => 0, 0, []⟩ [[0x61, 0x0A, 0x62], [0x63, 0x0A]] = some t ∧
      t.out = selected [0x62, 0x63] [[0x61], [0x62, 0x63]] := by
  have hplain : ∀ l ∈ [[0x61], [0x62], [0x62, 0x63]], Plain l := by
    unfold Plain
    decide
  have hread : ∀ re, (grep re 0x1000 ⟨fun _ => 0, 0, []⟩
      [[0x61, 0x0A, 0x62], [0x63, 0x0A]]).isSome = true := by
    intro re
    have hcut : [] ++ [0x61, 0x0A, 0x62] = joined newline [[0x61]] ++ [0x62] := rfl
    have hcarried := (round_spec re (carries_nil fun _ => 0)
      (show (0x1000 : UInt32).toNat + bufSize ≤ 2 ^ 32 by decide) (by decide) (by decide) hcut
      (fun l hl => hplain l (List.mem_of_mem_take (i := 1) hl)) (hplain _ (by decide))).1.length
    rw [grep, if_pos (by decide), grep, if_pos (by rw [hcarried]; decide), grep]
    rfl
  have hls : ∀ l ∈ [[0x61], [0x62, 0x63]], Plain l := fun l hl => hplain l (by
    simp only [List.mem_cons] at hl ⊢
    tauto)
  exact (grep_any_split_iff (by decide) hls (by decide) hread).mpr (by decide) _

/-- The line `ab`, read as `a` and `b` with the newline, is not found with the pattern `ab`. -/
theorem grep_loses_split_line :
    (grep [0x61, 0x62] 0x1000 ⟨fun _ => 0, 0, []⟩ [[0x61], [0x62, 0x0A]]).map State.out = some [] ∧
      selected [0x61, 0x62] [[0x61, 0x62]] = [0x61, 0x62, 0x0A] := by
  constructor <;> decide +kernel

end BossOs.Grep
