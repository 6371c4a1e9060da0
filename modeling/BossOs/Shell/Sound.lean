import Mathlib.Data.List.Forall2
import BossOs.Shell.Lexer

/-! # What the parser accepts derives from the grammar -/

namespace BossOs.Shell

open Lib
open Prog (sat_bind sat_fail sat_ite sat_pure)

inductive Cmd.Rel {S T : Type} (R : S → T → Prop) : Cmd S → Cmd T → Prop where
  | exec {a : List S} {b : List T} (args : List.Forall₂ R a b) : Rel R (.exec a) (.exec b)
  | redir {c : Cmd S} {d : Cmd T} {f : S} {g : T} (mode : UInt32) (fd : Nat) (cmd : Rel R c d)
      (file : R f g) :
      Rel R (.redir c f mode fd) (.redir d g mode fd)
  | pipe {c c' : Cmd S} {d d' : Cmd T} (left : Rel R c d) (right : Rel R c' d') :
      Rel R (.pipe c c') (.pipe d d')
  | list {c c' : Cmd S} {d d' : Cmd T} (left : Rel R c d) (right : Rel R c' d') :
      Rel R (.list c c') (.list d d')
  | back {c : Cmd S} {d : Cmd T} (cmd : Rel R c d) : Rel R (.back c) (.back d)

variable {line : List UInt8}

abbrev Reads (line : List UInt8) : Cmd Span → Cmd Word → Prop := Cmd.Rel (Spans line)

variable {t : Cmd Word}

theorem Reads.redirect {cmd : Cmd Span} {σ : Span} {w : Word} (op : Op)
    (h : Reads line cmd t) (hw : Spans line σ w) :
    Reads line (redircmd op.token.code cmd σ) (redirect t (op, w)) := by
  cases op with
  | read => exact .redir _ _ h hw
  | write => exact .redir _ _ h hw
  | append => exact .redir _ _ h hw

theorem addArg_redirs (rs : List (Op × Word)) (t : Cmd Word) (w : Word) :
    (rs.foldl redirect t).addArg w = rs.foldl redirect (t.addArg w) := by
  induction rs generalizing t with
  | nil => rfl
  | cons r rs ih => exact ih (redirect t r)

theorem Reads.addArg {cmd : Cmd Span} {σ : Span} {w : Word}
    (h : Reads line cmd t) (hw : Spans line σ w) : Reads line (cmd.addArg σ) (t.addArg w) := by
  induction h with
  | exec args => exact .exec (List.rel_append args (.cons hw .nil))
  | redir mode fd _ file ih => exact .redir mode fd ih file
  | pipe left right => exact .pipe left right
  | list left right => exact .list left right
  | back cmd => exact .back cmd

theorem begins_iff {toks : List Char} {ts : List Token} :
    begins toks ts = true ↔ ∃ t us c, ts = t :: us ∧ t.first = some c ∧ c ∈ toks.map ch := by
  cases ts with
  | nil => exact ⟨nofun, nofun⟩
  | cons t us =>
    rw [begins, List.head?_cons, Option.bind_some, Option.any_eq_true]
    constructor
    · rintro ⟨c, hc, hm⟩
      exact ⟨t, us, c, rfl, hc, List.contains_iff_mem.mp hm⟩
    · rintro ⟨t', us', c, heq, hc, hm⟩
      cases heq
      exact ⟨c, hc, List.contains_iff_mem.mpr hm⟩

variable {ts : List Token}

theorem begins_one {c : Char} {t : Token} (ht : t.first = some (ch c))
    (hu : ∀ u ∈ [Token.amp, .semi, .bar, .lparen, .rparen, .lt, .gt, .gtgt],
      u.first = some (ch c) → u = t) : begins [c] ts = true ↔ ∃ us, ts = t :: us := by
  rw [begins_iff]
  constructor
  · rintro ⟨u, us, b, rfl, hb, hm⟩
    rw [List.mem_singleton.mp hm] at hb
    refine ⟨us, ?_⟩
    cases u with
    | word w => cases hb
    | _ => rw [hu _ (by simp) hb]
  · rintro ⟨us, rfl⟩
    exact ⟨t, us, ch c, rfl, ht, List.mem_singleton.mpr rfl⟩

theorem begins_amp : begins ['&'] ts = true ↔ ∃ us, ts = .amp :: us :=
  begins_one rfl (by decide)

theorem begins_semi : begins [';'] ts = true ↔ ∃ us, ts = .semi :: us :=
  begins_one rfl (by decide)

theorem begins_bar : begins ['|'] ts = true ↔ ∃ us, ts = .bar :: us :=
  begins_one rfl (by decide)

theorem begins_lparen : begins ['('] ts = true ↔ ∃ us, ts = .lparen :: us :=
  begins_one rfl (by decide)

theorem begins_rparen : begins [')'] ts = true ↔ ∃ us, ts = .rparen :: us :=
  begins_one rfl (by decide)

theorem begins_redir : begins ['<', '>'] ts = true ↔ ∃ (op : Op) (us : List Token),
    ts = op.token :: us := by
  cases ts with
  | nil => exact ⟨nofun, nofun⟩
  | cons t us =>
    cases t with
    | lt => exact ⟨fun _ => ⟨.read, us, rfl⟩, fun _ => rfl⟩
    | gt => exact ⟨fun _ => ⟨.write, us, rfl⟩, fun _ => rfl⟩
    | gtgt => exact ⟨fun _ => ⟨.append, us, rfl⟩, fun _ => rfl⟩
    | _ =>
      refine ⟨nofun, ?_⟩
      rintro ⟨op, us', h⟩
      cases op <;> cases h

theorem Token.code_ne_zero (t : Token) : t.code ≠ 0 := by
  cases t with
  | word w => exact (by decide : ch 'a' ≠ 0)
  | _ => decide

theorem Token.eq_word {t : Token} (h : t.code = ch 'a') : ∃ w, t = .word w := by
  cases t with
  | word w => exact ⟨w, rfl⟩
  | _ => exact absurd h (by decide)

variable {n : Nat}

section
variable (hnul : 0 ∉ line)
include hnul

theorem parseredirs_sound {s : Nat} {ts : List Token} {cmd : Cmd Span}
    (h : At line s ts) (hr : Reads line cmd t) : ((parseredirs line n cmd).run s).Sat
      (fun cmd' s' => ∃ (rs : List (Op × Word)) (us : List Token),
        ts = rs.flatMap redirTokens ++ us ∧ At line s' us ∧ Reads line cmd' (rs.foldl redirect t))
      (fun e _ => e = .outOfFuel → n ≤ ts.length) := by
  induction n generalizing s ts cmd t with
  | zero =>
    rw [parseredirs, sat_fail]
    exact fun _ => Nat.zero_le _
  | succ n ih =>
    rw [parseredirs]
    refine sat_peek hnul (by decide) h ?_ ?_
    · intro hmore s h1
      obtain ⟨op, ts, rfl⟩ := begins_redir.mp hmore
      rw [sat_bind]
      refine (gettoken_cons hnul h1).imp fun tok s h2 => ?_
      obtain ⟨htok, h2, -⟩ := h2
      rw [sat_bind]
      refine (gettoken_spec hnul h2).imp fun file s h3 => ?_
      apply sat_ite
      · intro _
        rw [sat_bind, sat_fail]
        exact nofun
      · intro hkind
        have hkind := Classical.not_not.mp hkind
        rcases h3 with ⟨-, hzero, -⟩ | ⟨u, us, rfl, hcode, h3, hspan⟩
        · exact absurd (hzero.symm.trans hkind) (by decide)
        · obtain ⟨w, rfl⟩ := Token.eq_word (hcode.symm.trans hkind)
          rw [htok]
          refine (ih h3 (hr.redirect op (hspan w rfl))).mono ?_ ?_
          · rintro cmd' s' ⟨rs, vs, rfl, h4, hread⟩
            exact ⟨(op, w) :: rs, vs, rfl, h4, hread⟩
          · intro e _ hstop he
            have hle := hstop he
            simp only [List.length_cons]
            omega
    · intro _ s h1
      rw [sat_pure]
      exact ⟨[], ts, rfl, h1, hr⟩

theorem parsebacks_sound {s : Nat} {ts : List Token} {cmd : Cmd Span}
    (h : At line s ts) (hr : Reads line cmd t) : ((parsebacks line n cmd).run s).Sat
      (fun cmd' s' => ∃ m us, ts = List.replicate m .amp ++ us ∧ At line s' us ∧
        Reads line cmd' (Cmd.back^[m] t)) (fun e _ => e = .outOfFuel → n ≤ ts.length) := by
  induction n generalizing s ts cmd t with
  | zero =>
    rw [parsebacks, sat_fail]
    exact fun _ => Nat.zero_le _
  | succ n ih =>
    rw [parsebacks]
    refine sat_peek hnul (by decide) h ?_ ?_
    · intro hmore s h1
      obtain ⟨ts, rfl⟩ := begins_amp.mp hmore
      rw [sat_bind]
      refine (gettoken_cons hnul h1).imp fun tok s h2 => ?_
      refine (ih h2.2.1 (.back hr)).mono ?_ ?_
      · rintro cmd' s' ⟨m, us, rfl, h3, hread⟩
        exact ⟨m + 1, us, rfl, h3, hread⟩
      · intro e _ hstop he
        exact Nat.succ_le_succ (hstop he)
    · intro _ s h1
      rw [sat_pure]
      exact ⟨0, ts, rfl, h1, hr⟩

omit hnul in
/-- With the arguments `words` and the redirections `rs` read before, the loop reads some of the
tokens `ts` and leaves the command `cmd`. -/
def ArgsRead (line : List UInt8) (words : List Word) (rs : List (Op × Word)) (ts : List Token)
    (cmd : Cmd Span) (s : Nat) : Prop :=
  ∃ (args : List (Word × List (Op × Word))) (us : List Token),
    ts = args.flatMap argTokens ++ us ∧ At line s us ∧
    words.length + args.length ≤ MAXARGS - 1 ∧
    Reads line cmd
      ((rs ++ args.flatMap Prod.snd).foldl redirect (.exec (words ++ args.map Prod.fst)))

section
omit hnul
variable {words : List Word} {rs : List (Op × Word)} {ts : List Token} {cmd : Cmd Span} {s : Nat}

theorem argsRead_nil (h : At line s ts) (hfew : words.length ≤ MAXARGS - 1)
    (hr : Reads line cmd (rs.foldl redirect (.exec words))) : ArgsRead line words rs ts cmd s := by
  refine ⟨[], ts, rfl, h, hfew, ?_⟩
  rw [List.flatMap_nil, List.map_nil, List.append_nil, List.append_nil]
  exact hr

theorem ArgsRead.cons {w : Word} {rs' : List (Op × Word)}
    (h : ArgsRead line (words ++ [w]) (rs ++ rs') ts cmd s) :
    ArgsRead line words rs (.word w :: rs'.flatMap redirTokens ++ ts) cmd s := by
  obtain ⟨args, us, rfl, hat, hfew, hr⟩ := h
  refine ⟨(w, rs') :: args, us, ?_, hat, ?_, ?_⟩
  · rw [List.flatMap_cons, argTokens, List.append_assoc]
  · rw [List.length_append, List.length_singleton] at hfew
    rw [List.length_cons]
    omega
  · rw [List.flatMap_cons, List.map_cons, ← List.append_assoc, List.append_cons]
    exact hr

end

theorem parseargs_sound {s : Nat} {ts : List Token} {ret : Cmd Span} {rs : List (Op × Word)}
    {words : List Word} (h : At line s ts) (hfew : words.length ≤ MAXARGS - 1)
    (hr : Reads line ret (rs.foldl redirect (.exec words))) :
    ((parseargs line n ret words.length).run s).Sat (ArgsRead line words rs ts)
      (fun e _ => e = .outOfFuel → n ≤ ts.length) := by
  induction n generalizing s ts ret rs words with
  | zero =>
    rw [parseargs, sat_fail]
    exact fun _ => Nat.zero_le _
  | succ n ih =>
    rw [parseargs]
    refine sat_peek hnul (by decide) h ?_ ?_
    · intro _ s h1
      rw [sat_pure]
      exact argsRead_nil h1 hfew hr
    · intro _ s h1
      rw [sat_bind]
      refine (gettoken_spec hnul h1).imp fun tok s h2 => ?_
      simp only
      rcases h2 with ⟨rfl, hzero, h2⟩ | ⟨u, us, rfl, hcode, h2, hspan⟩
      · rw [if_pos hzero, sat_pure]
        exact argsRead_nil h2 hfew hr
      rw [if_neg (by rw [hcode]; exact u.code_ne_zero)]
      apply sat_ite
      · intro _
        rw [sat_bind, sat_fail]
        exact nofun
      intro hkind
      obtain ⟨w, rfl⟩ := Token.eq_word (hcode.symm.trans (Classical.not_not.mp hkind))
      apply sat_ite
      · intro _
        rw [sat_bind, sat_fail]
        exact nofun
      intro hargs
      rw [sat_bind]
      have hread := hr.addArg (hspan w rfl)
      rw [addArg_redirs] at hread
      refine (parseredirs_sound hnul h2 hread).mono ?_ ?_
      · rintro ret' s' ⟨rs', ts, rfl, h3, hread⟩
        rw [← List.foldl_append] at hread
        have hlen : (words ++ [w]).length = words.length + 1 := List.length_append
        rw [← hlen]
        refine (ih h3 (by omega) hread).mono (fun cmd s'' hargs => hargs.cons) ?_
        intro e _ hstop he
        have hle := hstop he
        simp only [List.length_cons, List.length_append]
        omega
      · intro e _ hstop he
        exact Nat.succ_le_succ (hstop he)

end

def Nonterminal.rank : Nonterminal → Nat
  | .block => 1
  | .exec => 2
  | .pipe => 3
  | .line => 4

theorem Nonterminal.rank_pos (X : Nonterminal) : 0 < X.rank := by
  cases X <;> exact Nat.succ_pos _

section
variable (hnul : 0 ∉ line)
include hnul

omit hnul in
def Parses (line : List UInt8) (X : Nonterminal) (n : Nat) (m : Prog Fault Nat (Cmd Span)) : Prop :=
  ∀ s ts, At line s ts → (m.run s).Sat
    (fun cmd s' => ∃ us vs t, ts = us ++ vs ∧ At line s' vs ∧ Derives X us t ∧ Reads line cmd t)
    (fun e _ => e = .outOfFuel → n < 4 * ts.length + X.rank)

theorem parsepipe_sound (hexec : Parses line .exec n (parseexec line n))
    (hpipe : Parses line .pipe n (parsepipe line n)) :
    Parses line .pipe (n + 1) (parsepipe line (n + 1)) := by
  intro s ts h
  rw [parsepipe, sat_bind]
  refine (hexec s ts h).mono ?_ ?_
  · rintro cmd s ⟨us, vs, t, rfl, h1, hd, hr⟩
    refine sat_peek hnul (by decide) h1 ?_ ?_
    · intro hmore s h2
      obtain ⟨vs, rfl⟩ := begins_bar.mp hmore
      rw [sat_bind]
      refine (gettoken_cons hnul h2).imp fun tok s h3 => ?_
      rw [sat_bind]
      refine (hpipe s vs h3.2.1).mono ?_ ?_
      · rintro right s ⟨us', ws, t', rfl, h4, hd', hr'⟩
        rw [sat_pure]
        refine ⟨us ++ .bar :: us', ws, _, ?_, h4, .pipe hd hd', .pipe hr hr'⟩
        rw [List.append_assoc, List.cons_append]
      · intro e _ hstop he
        have hlt := hstop he
        simp only [List.length_append, List.length_cons, Nonterminal.rank] at hlt ⊢
        omega
    · intro _ s h2
      rw [sat_pure]
      exact ⟨us, vs, t, rfl, h2, .one hd, hr⟩
  · intro e _ hstop he
    have hlt := hstop he
    simp only [Nonterminal.rank] at hlt ⊢
    omega

theorem parseline_sound (hpipe : Parses line .pipe n (parsepipe line n))
    (hline : Parses line .line n (parseline line n)) :
    Parses line .line (n + 1) (parseline line (n + 1)) := by
  intro s ts h
  rw [parseline, sat_bind]
  refine (hpipe s ts h).mono ?_ ?_
  · rintro cmd s ⟨us, vs, t, rfl, h1, hd, hr⟩
    rw [sat_bind]
    refine (parsebacks_sound hnul h1 hr).mono ?_ ?_
    · rintro cmd s ⟨m, vs, rfl, h2, hr⟩
      refine sat_peek hnul (by decide) h2 ?_ ?_
      · intro hmore s h3
        obtain ⟨vs, rfl⟩ := begins_semi.mp hmore
        rw [sat_bind]
        refine (gettoken_cons hnul h3).imp fun tok s h4 => ?_
        rw [sat_bind]
        refine (hline s vs h4.2.1).mono ?_ ?_
        · rintro right s ⟨us', ws, t', rfl, h5, hd', hr'⟩
          rw [sat_pure]
          refine ⟨us ++ List.replicate m .amp ++ .semi :: us', ws, _, ?_, h5, .list m hd hd',
            .list hr hr'⟩
          simp only [List.append_assoc, List.cons_append]
        · intro e _ hstop he
          have hlt := hstop he
          simp only [List.length_append, List.length_cons, Nonterminal.rank] at hlt ⊢
          omega
      · intro _ s h3
        rw [sat_pure]
        refine ⟨us ++ List.replicate m .amp, vs, _, ?_, h3, .last m hd, hr⟩
        rw [List.append_assoc]
    · intro e _ hstop he
      have hle := hstop he
      simp only [List.length_append, Nonterminal.rank] at hle ⊢
      omega
  · intro e _ hstop he
    have hlt := hstop he
    simp only [Nonterminal.rank] at hlt ⊢
    omega

theorem parseblock_sound (hline : Parses line .line n (parseline line n)) :
    Parses line .block (n + 1) (parseblock line (n + 1)) := by
  intro s ts h
  rw [parseblock]
  refine sat_peek hnul (by decide) h ?_ ?_
  · intro hmore s h1
    obtain ⟨ts, rfl⟩ := begins_lparen.mp hmore
    beta_reduce
    rw [sat_bind]
    refine (gettoken_cons hnul h1).imp fun tok s h2 => ?_
    rw [sat_bind]
    refine (hline s ts h2.2.1).mono ?_ ?_
    · rintro cmd s ⟨us, vs, t, rfl, h3, hd, hr⟩
      refine sat_peek hnul (by decide) h3 ?_ ?_
      · intro hmore s h4
        obtain ⟨vs, rfl⟩ := begins_rparen.mp hmore
        beta_reduce
        rw [sat_bind]
        refine (gettoken_cons hnul h4).imp fun tok s h5 => ?_
        refine (parseredirs_sound hnul h5.2.1 hr).mono ?_ ?_
        · rintro cmd s ⟨rs, ws, rfl, h6, hr⟩
          refine ⟨.lparen :: us ++ .rparen :: rs.flatMap redirTokens, ws, _, ?_, h6,
            .block hd rs, hr⟩
          simp only [List.append_assoc, List.cons_append]
        · intro e _ hstop he
          have hle := hstop he
          simp only [List.length_cons, List.length_append, Nonterminal.rank]
          omega
      · intro _ s h4
        rw [sat_bind, sat_fail]
        exact nofun
    · intro e _ hstop he
      have hlt := hstop he
      simp only [List.length_cons, Nonterminal.rank] at hlt ⊢
      omega
  · intro _ s h1
    rw [sat_bind, sat_fail]
    exact nofun

theorem parseexec_sound (hblock : Parses line .block n (parseblock line n)) :
    Parses line .exec (n + 1) (parseexec line (n + 1)) := by
  intro s ts h
  rw [parseexec]
  refine sat_peek hnul (by decide) h ?_ ?_
  · intro _ s h1
    refine (hblock s ts h1).mono ?_ ?_
    · rintro cmd s ⟨us, vs, t, rfl, h2, hd, hr⟩
      exact ⟨us, vs, t, rfl, h2, .ofBlock hd, hr⟩
    · intro e _ hstop he
      have hlt := hstop he
      simp only [Nonterminal.rank] at hlt ⊢
      omega
  · intro _ s h1
    rw [sat_bind]
    refine (parseredirs_sound hnul h1 (.exec .nil)).mono ?_ ?_
    · rintro ret s ⟨rs, vs, rfl, h2, hr⟩
      have hfew : ([] : List Word).length ≤ MAXARGS - 1 := Nat.zero_le _
      refine (parseargs_sound hnul h2 hfew hr).mono ?_ ?_
      · rintro cmd s ⟨args, ws, rfl, h3, hfew, hr⟩
        refine ⟨rs.flatMap redirTokens ++ args.flatMap argTokens, ws, _, ?_, h3,
          .exec rs args (by rwa [List.length_nil, Nat.zero_add] at hfew), hr⟩
        rw [List.append_assoc]
      · intro e _ hstop he
        have hle := hstop he
        simp only [List.length_append, Nonterminal.rank] at hle ⊢
        omega
    · intro e _ hstop he
      have hle := hstop he
      simp only [Nonterminal.rank] at hle ⊢
      omega

theorem parse_sound (n : Nat) :
    Parses line .line n (parseline line n) ∧ Parses line .pipe n (parsepipe line n) ∧
    Parses line .exec n (parseexec line n) ∧ Parses line .block n (parseblock line n) := by
  induction n with
  | zero =>
    refine ⟨?_, ?_, ?_, ?_⟩
    · intro s ts _
      rw [parseline, sat_fail]
      exact fun _ => Nat.succ_pos _
    · intro s ts _
      rw [parsepipe, sat_fail]
      exact fun _ => Nat.succ_pos _
    · intro s ts _
      rw [parseexec, sat_fail]
      exact fun _ => Nat.succ_pos _
    · intro s ts _
      rw [parseblock, sat_fail]
      exact fun _ => Nat.succ_pos _
  | succ n ih =>
    obtain ⟨hline, hpipe, hexec, hblock⟩ := ih
    exact ⟨parseline_sound hnul hpipe hline, parsepipe_sound hnul hexec hpipe,
      parseexec_sound hnul hblock, parseblock_sound hnul hline⟩

end

end BossOs.Shell
