import Mathlib.Data.List.Induction
import Mathlib.Logic.Function.Basic
import BossOs.Shell.Accept

/-!
# Redirections

`runcmd` on a command of words and redirections, with the descriptors of its process. Each
redirection of the text is wrapped around the ones before it, and `runcmd` opens the files
from the outside: the first redirection of a descriptor is opened last.
-/

namespace BossOs.Shell

open Lib
open Function (update update_self update_of_ne update_idem)

inductive Opened where
  | inherited (fd : Nat)
  | file (name : Word) (mode : UInt32)
  deriving DecidableEq

abbrev Fds := Nat → Option Opened

def close (t : Fds) (fd : Nat) : Fds := update t fd none

def fdalloc (t : Fds) (f : Opened) : Option Fds :=
  (firstFrom (fun fd => (t fd).isNone) NOFILE 0).map fun fd => update t fd (some f)

def openFile (t : Fds) (name : Word) (mode : UInt32) : Option Fds := fdalloc t (.file name mode)

inductive Fate where
  | exec (fds : Fds) (argv : List Word)
  | exit
  /-- The shell forks. -/
  | fork

def runcmd : Fds → Cmd Word → Fate
  | _, .exec [] => .exit
  | t, .exec (w :: ws) => .exec t (w :: ws)
  | t, .redir cmd name mode fd =>
    match openFile (close t fd) name mode with
    | none => .exit
    | some t => runcmd t cmd
  | _, .pipe _ _ => .fork
  | _, .list _ _ => .fork
  | _, .back _ => .fork

def Token.simple : Token → Bool
  | .word _ | .lt | .gt | .gtgt => true
  | _ => false

def redirections : List Token → List (Op × Word)
  | [] => []
  | .lt :: .word w :: ts => (.read, w) :: redirections ts
  | .gt :: .word w :: ts => (.write, w) :: redirections ts
  | .gtgt :: .word w :: ts => (.append, w) :: redirections ts
  | _ :: ts => redirections ts

def arguments : List Token → List Word
  | [] => []
  | .lt :: .word _ :: ts => arguments ts
  | .gt :: .word _ :: ts => arguments ts
  | .gtgt :: .word _ :: ts => arguments ts
  | .word w :: ts => w :: arguments ts
  | _ :: ts => arguments ts

variable {line : List UInt8} {ts us : List Token} {t : Fds} {c : Cmd Word}

theorem text_redirs (rs : List (Op × Word)) (ts : List Token) :
    redirections (rs.flatMap redirTokens ++ ts) = rs ++ redirections ts ∧
      arguments (rs.flatMap redirTokens ++ ts) = arguments ts := by
  induction rs with
  | nil => exact ⟨rfl, rfl⟩
  | cons r rs ih =>
    obtain ⟨op, w⟩ := r
    rw [List.flatMap_cons, List.append_assoc]
    cases op <;> exact ⟨congrArg _ ih.1, ih.2⟩

theorem text_args (args : List (Word × List (Op × Word))) :
    redirections (args.flatMap argTokens) = args.flatMap Prod.snd ∧
      arguments (args.flatMap argTokens) = args.map Prod.fst := by
  induction args with
  | nil => exact ⟨rfl, rfl⟩
  | cons a args ih =>
    obtain ⟨w, rs⟩ := a
    rw [List.flatMap_cons, List.flatMap_cons, argTokens, List.cons_append]
    obtain ⟨hredirs, hargs⟩ := text_redirs rs (args.flatMap argTokens)
    rw [ih.1] at hredirs
    rw [ih.2] at hargs
    exact ⟨hredirs, congrArg (List.cons w) hargs⟩

theorem simple_append : (ts ++ us).all Token.simple = true →
    ts.all Token.simple = true ∧ us.all Token.simple = true := by
  rw [List.all_append, Bool.and_eq_true]
  exact id

theorem derives_simple {X : Nonterminal} (h : Derives X ts c) (hs : ts.all Token.simple = true) :
    c = (redirections ts).foldl redirect (.exec (arguments ts)) := by
  induction h with
  | last n _ ih =>
    obtain ⟨hts, hn⟩ := simple_append hs
    cases n with
    | zero =>
      rw [List.replicate_zero, List.append_nil]
      exact ih hts
    | succ n =>
      rw [List.replicate_succ] at hn
      cases hn
  | list n _ _ =>
    obtain ⟨-, htail⟩ := simple_append hs
    cases htail
  | one _ ih => exact ih hs
  | pipe _ _ =>
    obtain ⟨-, htail⟩ := simple_append hs
    cases htail
  | exec redirs args few =>
    obtain ⟨hredirs, hargs⟩ := text_redirs redirs (args.flatMap argTokens)
    rw [hredirs, hargs, (text_args args).1, (text_args args).2]
  | ofBlock _ ih => exact ih hs
  | block _ _ => cases hs

structure Standard (t : Fds) : Prop where
  opened : ∀ fd, fd < 3 → (t fd).isSome = true
  closed : ∀ fd, 3 ≤ fd → t fd = none

def applyRedir (r : Op × Word) (t : Fds) : Fds :=
  update t r.1.fd (some (.file r.2 r.1.mode))

theorem fd_lt (op : Op) : op.fd < 2 := by
  cases op <;> decide

theorem applyRedir_standard (r : Op × Word) (h : Standard t) : Standard (applyRedir r t) := by
  have hfd := fd_lt r.1
  constructor
  · intro fd hlt
    unfold applyRedir
    by_cases heq : fd = r.1.fd
    · rw [heq, update_self]
      rfl
    · rw [update_of_ne heq]
      exact h.opened fd hlt
  · intro fd hge
    unfold applyRedir
    rw [update_of_ne (by omega)]
    exact h.closed fd hge

theorem openFile_close (h : Standard t) (r : Op × Word) :
    openFile (close t r.1.fd) r.2 r.1.mode = some (applyRedir r t) := by
  have hfd := fd_lt r.1
  unfold openFile fdalloc
  cases hf : firstFrom (fun fd => (close t r.1.fd fd).isNone) NOFILE 0 with
  | none =>
    have hnone := firstFrom_none hf (Nat.zero_le r.1.fd) (by unfold NOFILE; omega)
    rw [close, update_self] at hnone
    cases hnone
  | some fd =>
    obtain ⟨-, -, hfree, hlow⟩ := firstFrom_some hf
    have heq : fd = r.1.fd := by
      rcases Nat.lt_trichotomy fd r.1.fd with hlt | heq | hgt
      · rw [close, update_of_ne (by omega)] at hfree
        have hopen := h.opened fd (by omega)
        rw [Option.isSome_iff_ne_none] at hopen
        rw [Option.isNone_iff_eq_none] at hfree
        exact absurd hfree hopen
      · exact heq
      · have hclosed := hlow r.1.fd (Nat.zero_le _) hgt
        rw [close, update_self] at hclosed
        cases hclosed
    rw [Option.map_some, heq, close, update_idem]
    rfl

theorem runcmd_redirects (rs : List (Op × Word)) (h : Standard t) :
    runcmd t (rs.foldl redirect c) = runcmd (rs.foldr applyRedir t) c := by
  induction rs using List.reverseRecOn generalizing t with
  | nil => rfl
  | append_singleton rs r ih =>
    rw [List.foldl_append, List.foldr_append, List.foldl_cons, List.foldl_nil, List.foldr_cons,
      List.foldr_nil, redirect, runcmd, openFile_close h r]
    exact ih (applyRedir_standard r h)

theorem foldr_applyRedir (rs : List (Op × Word)) (t : Fds) (fd : Nat) : rs.foldr applyRedir t fd =
      ((rs.find? fun r => r.1.fd = fd).map fun r => Opened.file r.2 r.1.mode).or (t fd) := by
  induction rs with
  | nil => rfl
  | cons r rs ih =>
    rw [List.foldr_cons, applyRedir, List.find?_cons]
    by_cases h : r.1.fd = fd
    · rw [← h, update_self, decide_eq_true rfl]
      rfl
    · rw [update_of_ne (Ne.symm h), ih, decide_eq_false h]

/-- The descriptors with which a command of words and redirections is executed. A command
without words exits. -/
theorem first_redirection_wins (hnul : 0 ∉ line) {cmd : Cmd Span} {buf : List UInt8}
    (h : parsecmd line = .ok (cmd, buf)) (hs : (tokens line).all Token.simple = true)
    (ht : Standard t) (hwords : arguments (tokens line) ≠ []) :
    ∃ fds, runcmd t (cmd.strings buf) = .exec fds (arguments (tokens line)) ∧
      (∀ r, (redirections (tokens line)).find? (fun r => r.1.fd = 0) = some r →
        fds 0 = some (.file r.2 r.1.mode)) ∧
      (∀ r, (redirections (tokens line)).find? (fun r => r.1.fd = 1) = some r →
        fds 1 = some (.file r.2 r.1.mode)) := by
  obtain ⟨rfl, c, hd, hr⟩ := parsecmd_reads hnul h
  have hc : cmd.strings (nulterminate cmd (line ++ [0])) = c := by
    rw [nulterminate_eq]
    exact hr.strings hnul hr.cuts (List.Subset.refl _)
  have hrun : runcmd t c =
      .exec ((redirections (tokens line)).foldr applyRedir t) (arguments (tokens line)) := by
    rw [derives_simple hd hs, runcmd_redirects _ ht]
    obtain ⟨w, ws, hargs⟩ := List.exists_cons_of_ne_nil hwords
    rw [hargs]
    rfl
  rw [hc]
  refine ⟨_, hrun, ?_, ?_⟩
  · intro r hfirst
    rw [foldr_applyRedir, hfirst]
    rfl
  · intro r hfirst
    rw [foldr_applyRedir, hfirst]
    rfl

def inherited : Fds := fun fd => if fd < 3 then some (.inherited fd) else none

theorem inherited_standard : Standard inherited :=
  ⟨fun fd h => by rw [inherited, if_pos h]; rfl, fun fd h => if_neg (Nat.not_lt.mpr h)⟩

def twice : List UInt8 := ['a', '<', 'b', '<', 'c'].map ch

theorem parsecmd_twice : parsecmd twice = .ok (.redir (.redir (.exec [⟨0, 1⟩]) ⟨2, 3⟩ O_RDONLY 0)
    ⟨4, 5⟩ O_RDONLY 0, [ch 'a', 0, ch 'b', 0, ch 'c', 0]) := by
  decide +kernel

theorem tokens_twice :
    tokens twice = [.word [ch 'a'], .lt, .word [ch 'b'], .lt, .word [ch 'c']] := by
  decide +kernel

theorem first_redirection_wins_twice : ∃ cmd buf fds, parsecmd twice = .ok (cmd, buf) ∧
    runcmd inherited (cmd.strings buf) = .exec fds [[ch 'a']] ∧
    fds 0 = some (.file [ch 'b'] O_RDONLY) := by
  obtain ⟨fds, hexec, hread, -⟩ := first_redirection_wins (by decide) parsecmd_twice
    (by rw [tokens_twice]; rfl) inherited_standard (by rw [tokens_twice]; exact List.cons_ne_nil _ _)
  rw [tokens_twice] at hexec hread
  exact ⟨_, _, fds, parsecmd_twice, hexec, hread (.read, [ch 'b']) rfl⟩

theorem last_redirection_loses :
    (redirections (tokens twice)).reverse.find? (fun r => r.1.fd = 0) = some (.read, [ch 'c']) ∧
    ∃ cmd buf fds, parsecmd twice = .ok (cmd, buf) ∧
      runcmd inherited (cmd.strings buf) = .exec fds [[ch 'a']] ∧
      fds 0 ≠ some (.file [ch 'c'] O_RDONLY) := by
  constructor
  · rw [tokens_twice]
    rfl
  · exact ⟨_, _, _, parsecmd_twice, rfl, by decide⟩

end BossOs.Shell
