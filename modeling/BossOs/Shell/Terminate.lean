import BossOs.Shell.Accept

/-!
# The strings of an accepted line

`nulterminate` visits every node and writes its NULs behind words only: on whitespace, on an
operator or on the NUL at the end of the line.
-/

namespace BossOs.Shell

open Lib

variable {line : List UInt8}

def Cmd.words {S : Type} : Cmd S → List S
  | .exec argv => argv
  | .redir cmd file _ _ => cmd.words ++ [file]
  | .pipe left right | .list left right => left.words ++ right.words
  | .back cmd => cmd.words

theorem cuts_eq_words (cmd : Cmd Span) : cmd.cuts = cmd.words.map Span.eq := by
  induction cmd with
  | exec argv => rfl
  | redir cmd file mode fd ih =>
    rw [Cmd.cuts, ih, Cmd.words, List.map_append]
    rfl
  | pipe left right ihl ihr => rw [Cmd.cuts, ihl, ihr, Cmd.words, List.map_append]
  | list left right ihl ihr => rw [Cmd.cuts, ihl, ihr, Cmd.words, List.map_append]
  | back cmd ih => exact ih

theorem Reads.spans {cmd : Cmd Span} {t : Cmd Word} (h : Reads line cmd t) :
    ∀ σ ∈ cmd.words, ∃ w, Spans line σ w := by
  induction h with
  | exec args =>
    induction args with
    | nil => exact List.forall_mem_nil _
    | cons hw _ ih => exact List.forall_mem_cons.mpr ⟨⟨_, hw⟩, ih⟩
  | redir mode fd _ file ih =>
    intro σ hσ
    rcases List.mem_append.mp hσ with hσ | hσ
    · exact ih σ hσ
    · rw [List.mem_singleton.mp hσ]
      exact ⟨_, file⟩
  | pipe _ _ ihl ihr | list _ _ ihl ihr =>
    intro σ hσ
    rcases List.mem_append.mp hσ with hσ | hσ
    · exact ihl σ hσ
    · exact ihr σ hσ
  | back _ ih => exact ih

theorem Spans.apart {σ τ : Span} {v w : Word} (hσ : Spans line σ v) (hτ : Spans line τ w) :
    ¬ (σ.q ≤ τ.eq ∧ τ.eq < σ.eq) := by
  rintro ⟨hle, hlt⟩
  have hbound := hσ.bound
  have hlen : v.length = σ.eq - σ.q := by
    rw [← hσ.slice, List.length_take, List.length_drop]
    omega
  have hk : τ.eq - σ.q < v.length := by omega
  have hbyte := (hσ.getElem? hk).1
  rw [Nat.add_sub_cancel' hle, List.getElem?_eq_getElem hk] at hbyte
  have hstop := hτ.stop (by omega)
  rw [byte, List.getD_eq_getElem?_getD, hbyte, Option.getD_some,
    hσ.bytes _ (List.getElem_mem hk)] at hstop
  cases hstop

structure Terminated (line : List UInt8) (cmd : Cmd Span) (buf : List UInt8) : Prop where
  /-- Every pointer reads the word that it was parsed from. -/
  strings : ∃ t, Derives .line (tokens line) t ∧ Reads line cmd t ∧ cmd.strings buf = t
  /-- There is a NUL behind each word of each node, and no other byte has changed. -/
  bytes : ∀ i, buf[i]? = if i ∈ cmd.words.map Span.eq then some 0 else (line ++ [0])[i]?
  apart : ∀ σ ∈ cmd.words, ∀ τ ∈ cmd.words, ¬ (σ.q ≤ τ.eq ∧ τ.eq < σ.eq)
  inside : ∀ σ ∈ cmd.words, σ.eq ≤ line.length

theorem nulterminate_terminates_words (hnul : 0 ∉ line) {cmd : Cmd Span} {buf : List UInt8}
    (h : parsecmd line = .ok (cmd, buf)) : Terminated line cmd buf := by
  obtain ⟨rfl, t, hd, hr⟩ := parsecmd_reads hnul h
  have hinside : ∀ σ ∈ cmd.words, σ.eq ≤ line.length := by
    intro σ hσ
    obtain ⟨w, hw⟩ := hr.spans σ hσ
    exact hw.bound.2
  refine ⟨⟨t, hd, hr, ?_⟩, fun i => ?_, ?_, hinside⟩
  · rw [nulterminate_eq]
    exact hr.strings hnul hr.cuts (List.Subset.refl _)
  · rw [nulterminate_eq, cuts_eq_words, getElem?_cuts]
    by_cases hi : i ∈ cmd.words.map Span.eq
    · obtain ⟨σ, hσ, rfl⟩ := List.mem_map.mp hi
      have hle := hinside σ hσ
      rw [if_pos hi, if_pos]
      refine ⟨hi, ?_⟩
      rw [List.length_append, List.length_singleton]
      omega
    · rw [if_neg hi, if_neg fun hboth => hi hboth.1]
  · intro σ hσ τ hτ
    obtain ⟨v, hv⟩ := hr.spans σ hσ
    obtain ⟨w, hw⟩ := hr.spans τ hτ
    exact hv.apart hw

def tight : List UInt8 := ['a', '<', 'b'].map ch

theorem nulterminate_terminates_words_tight :
    parsecmd tight = .ok (.redir (.exec [⟨0, 1⟩]) ⟨2, 3⟩ O_RDONLY 0, [ch 'a', 0, ch 'b', 0]) ∧
      Terminated tight (.redir (.exec [⟨0, 1⟩]) ⟨2, 3⟩ O_RDONLY 0) [ch 'a', 0, ch 'b', 0] := by
  have hrun : parsecmd tight =
      .ok (.redir (.exec [⟨0, 1⟩]) ⟨2, 3⟩ O_RDONLY 0, [ch 'a', 0, ch 'b', 0]) := by
    decide +kernel
  exact ⟨hrun, nulterminate_terminates_words (by decide) hrun⟩

end BossOs.Shell
