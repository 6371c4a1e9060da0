import BossOs.Shell.Sound

/-! # The parser accepts what derives from the grammar -/

namespace BossOs.Shell

open List (append_assoc cons_append flatMap_cons length_append length_cons)
open Lib
open Prog (sat_bind sat_pure)

variable {line : List UInt8}

def Nonterminal.Follow : Nonterminal → List Token → Prop
  | _, [] => True
  | .line, t :: _ => t = .rparen
  | .pipe, t :: _ => t = .rparen ∨ t = .semi ∨ t = .amp
  | .exec, t :: _ | .block, t :: _ => t = .rparen ∨ t = .semi ∨ t = .amp ∨ t = .bar

variable {n : Nat}

namespace Nonterminal.Follow

variable {ts : List Token}

theorem line_pipe (h : Nonterminal.line.Follow ts) : pipe.Follow ts := by
  cases ts with
  | nil => trivial
  | cons t us => exact Or.inl h

theorem pipe_exec (h : pipe.Follow ts) : exec.Follow ts := by
  cases ts with
  | nil => trivial
  | cons t us =>
    rcases h with h | h | h
    · exact Or.inl h
    · exact Or.inr (Or.inl h)
    · exact Or.inr (Or.inr (Or.inl h))

theorem block_iff : block.Follow ts ↔ exec.Follow ts := by
  cases ts with
  | nil => exact Iff.rfl
  | cons t us => exact Iff.rfl

theorem amps (h : pipe.Follow ts) : pipe.Follow (List.replicate n .amp ++ ts) := by
  cases n with
  | zero => exact h
  | succ n => exact Or.inr (Or.inr rfl)

theorem not_amp (h : Nonterminal.line.Follow ts ∨ ∃ us, ts = .semi :: us) : begins ['&'] ts = false := by
  rcases h with h | ⟨us, rfl⟩
  · cases ts with
    | nil => rfl
    | cons t us =>
      obtain rfl := h
      rfl
  · rfl

theorem not_semi (h : Nonterminal.line.Follow ts) : begins [';'] ts = false := by
  cases ts with
  | nil => rfl
  | cons t us =>
    obtain rfl := h
    rfl

theorem not_bar (h : pipe.Follow ts) : begins ['|'] ts = false := by
  cases ts with
  | nil => rfl
  | cons t us =>
    rcases h with rfl | rfl | rfl
    · rfl
    · rfl
    · rfl

theorem not_redir (h : exec.Follow ts) : begins ['<', '>'] ts = false := by
  cases ts with
  | nil => rfl
  | cons t us =>
    rcases h with rfl | rfl | rfl | rfl
    · rfl
    · rfl
    · rfl
    · rfl

theorem not_lparen (h : exec.Follow ts) : begins ['('] ts = false := by
  cases ts with
  | nil => rfl
  | cons t us =>
    rcases h with rfl | rfl | rfl | rfl
    · rfl
    · rfl
    · rfl
    · rfl

theorem ends (h : exec.Follow ts) : ts = [] ∨ begins ['|', ')', '&', ';'] ts = true := by
  cases ts with
  | nil => exact Or.inl rfl
  | cons t us =>
    rcases h with rfl | rfl | rfl | rfl
    · exact Or.inr rfl
    · exact Or.inr rfl
    · exact Or.inr rfl
    · exact Or.inr rfl

end Nonterminal.Follow

theorem length_redirs (rs : List (Op × Word)) : (rs.flatMap redirTokens).length = 2 * rs.length := by
  induction rs with
  | nil => rfl
  | cons r rs ih =>
    rw [flatMap_cons, length_append, ih, length_cons, redirTokens]
    simp only [length_cons, List.length_nil]
    omega

variable {us : List Token}

section
variable (hnul : 0 ∉ line)
include hnul

theorem parseredirs_complete {s : Nat} {rs : List (Op × Word)} {cmd : Cmd Span}
    {t : Cmd Word} (h : At line s (rs.flatMap redirTokens ++ us))
    (hfollow : begins ['<', '>'] us = false) (hfuel : rs.length < n) (hr : Reads line cmd t) :
    ((parseredirs line n cmd).run s).Sat
      (fun cmd' s' => At line s' us ∧ Reads line cmd' (rs.foldl redirect t))
      (fun _ _ => False) := by
  obtain ⟨n, rfl⟩ : ∃ m, n = m + 1 := ⟨n - 1, by omega⟩
  induction rs generalizing n s cmd t with
  | nil =>
    rw [parseredirs]
    refine sat_peek_no hnul (by decide) h hfollow fun s h1 => ?_
    rw [sat_pure]
    exact ⟨h1, hr⟩
  | cons r rs ih =>
    obtain ⟨op, w⟩ := r
    rw [length_cons] at hfuel
    obtain ⟨n, rfl⟩ : ∃ m, n = m + 1 := ⟨n - 1, by omega⟩
    rw [parseredirs]
    refine sat_peek_yes hnul (by decide) h (begins_redir.mpr ⟨op, _, rfl⟩) fun s h1 => ?_
    rw [sat_bind]
    refine (gettoken_cons hnul h1).imp fun tok s h2 => ?_
    rw [sat_bind]
    refine (gettoken_cons hnul h2.2.1).imp fun file s h3 => ?_
    have hkind : file.1 = ch 'a' := h3.1
    simp only
    rw [if_neg (not_not_intro hkind), h2.1]
    exact ih h3.2.1 (hr.redirect op (h3.2.2 w rfl)) n (by omega)

theorem parsebacks_complete {s m : Nat} {cmd : Cmd Span} {t : Cmd Word}
    (h : At line s (List.replicate m .amp ++ us)) (hfollow : begins ['&'] us = false)
    (hfuel : m < n) (hr : Reads line cmd t) : ((parsebacks line n cmd).run s).Sat
      (fun cmd' s' => At line s' us ∧ Reads line cmd' (Cmd.back^[m] t)) (fun _ _ => False) := by
  obtain ⟨n, rfl⟩ : ∃ m, n = m + 1 := ⟨n - 1, by omega⟩
  induction m generalizing n s cmd t with
  | zero =>
    rw [parsebacks]
    refine sat_peek_no hnul (by decide) h hfollow fun s h1 => ?_
    rw [sat_pure]
    exact ⟨h1, hr⟩
  | succ m ih =>
    obtain ⟨n, rfl⟩ : ∃ m, n = m + 1 := ⟨n - 1, by omega⟩
    rw [parsebacks]
    refine sat_peek_yes hnul (by decide) h (begins_amp.mpr ⟨_, rfl⟩) fun s h1 => ?_
    rw [sat_bind]
    refine (gettoken_cons hnul h1).imp fun tok s h2 => ?_
    exact ih h2.2.1 (.back hr) n (by omega)

theorem parseargs_complete {s : Nat} {args : List (Word × List (Op × Word))}
    {ret : Cmd Span} {rs : List (Op × Word)} {words : List Word}
    (h : At line s (args.flatMap argTokens ++ us)) (hfollow : Nonterminal.exec.Follow us)
    (hfuel : (args.flatMap argTokens).length < n) (hfew : words.length + args.length ≤ MAXARGS - 1)
    (hr : Reads line ret (rs.foldl redirect (.exec words))) :
    ((parseargs line n ret words.length).run s).Sat (fun cmd s' => At line s' us ∧ Reads line cmd
        ((rs ++ args.flatMap Prod.snd).foldl redirect (.exec (words ++ args.map Prod.fst))))
      (fun _ _ => False) := by
  obtain ⟨n, rfl⟩ : ∃ m, n = m + 1 := ⟨n - 1, by omega⟩
  induction args generalizing n s ret rs words with
  | nil =>
    simp only [List.flatMap_nil, List.map_nil, List.append_nil]
    rw [parseargs]
    refine sat_peek hnul (by decide) h ?_ ?_
    · intro _ s h1
      rw [sat_pure]
      exact ⟨h1, hr⟩
    · intro hmore s h1
      rcases hfollow.ends with rfl | hends
      · rw [sat_bind]
        refine (gettoken_nil hnul h1).imp fun tok s h2 => ?_
        simp only
        rw [if_pos h2.1, sat_pure]
        exact ⟨h2.2, hr⟩
      · rw [List.flatMap_nil, List.nil_append, hends] at hmore
        cases hmore
  | cons a args ih =>
    obtain ⟨w, rs'⟩ := a
    have hlen : (words ++ [w]).length = words.length + 1 := length_append
    have hfew' : (words ++ [w]).length + args.length ≤ MAXARGS - 1 := by
      rw [length_cons] at hfew
      omega
    have hrest : begins ['<', '>'] (args.flatMap argTokens ++ us) = false := by
      cases args with
      | nil => exact hfollow.not_redir
      | cons a args => rfl
    rw [flatMap_cons, append_assoc] at h
    have hfuel : (rs'.flatMap redirTokens).length + 1 + (args.flatMap argTokens).length < n + 1 := by
      rw [flatMap_cons, length_append] at hfuel
      exact hfuel
    have hredirs := length_redirs rs'
    rw [parseargs]
    refine sat_peek_no hnul (by decide) h rfl fun s h1 => ?_
    rw [sat_bind]
    refine (gettoken_cons hnul h1).imp fun tok s h2 => ?_
    have hkind : tok.1 = ch 'a' := h2.1
    have hat : At line s (rs'.flatMap redirTokens ++ (args.flatMap argTokens ++ us)) := h2.2.1
    simp only
    rw [if_neg (by rw [hkind]; decide), if_neg (not_not_intro hkind),
      if_neg (by rw [length_cons] at hfew; omega), sat_bind]
    have hread := hr.addArg (h2.2.2 w rfl)
    rw [addArg_redirs] at hread
    refine (parseredirs_complete hnul hat hrest (by omega) hread).imp ?_
    rintro ret' s' ⟨h3, hread⟩
    rw [← List.foldl_append] at hread
    obtain ⟨n, rfl⟩ : ∃ m, n = m + 1 := ⟨n - 1, by omega⟩
    rw [← hlen]
    refine (ih h3 hfew' hread n (by omega)).imp ?_
    rintro cmd s'' ⟨h4, hread⟩
    refine ⟨h4, ?_⟩
    rw [flatMap_cons, List.map_cons, ← append_assoc, List.append_cons]
    exact hread

end

def Nonterminal.parser (line : List UInt8) : Nonterminal → Nat → Prog Fault Nat (Cmd Span)
  | .line => parseline line
  | .pipe => parsepipe line
  | .exec => parseexec line
  | .block => parseblock line

theorem parse_complete (hnul : 0 ∉ line) {X : Nonterminal} {t : Cmd Word}
    (hd : Derives X us t) {s : Nat} {vs : List Token} (h : At line s (us ++ vs))
    (hfollow : X.Follow vs) (hfuel : 4 * us.length + X.rank ≤ n) :
    ((X.parser line n).run s).Sat (fun cmd s' => At line s' vs ∧ Reads line cmd t)
      (fun _ _ => False) := by
  obtain ⟨n, rfl⟩ : ∃ m, n = m + 1 := ⟨n - 1, by have := X.rank_pos; omega⟩
  induction hd generalizing n s vs with
  | @last ts t m left ih =>
    simp only [length_append, List.length_replicate, Nonterminal.rank] at hfuel ih
    rw [append_assoc] at h
    rw [Nonterminal.parser, parseline, sat_bind]
    obtain ⟨n, rfl⟩ : ∃ m, n = m + 1 := ⟨n - 1, by omega⟩
    refine (ih h hfollow.line_pipe.amps n (by omega)).imp ?_
    rintro cmd s ⟨h1, hr⟩
    rw [sat_bind]
    refine (parsebacks_complete hnul h1 (Nonterminal.Follow.not_amp (Or.inl hfollow)) (by omega)
      hr).imp ?_
    rintro cmd s ⟨h2, hr⟩
    refine sat_peek_no hnul (by decide) h2 hfollow.not_semi fun s h3 => ?_
    rw [sat_pure]
    exact ⟨h3, hr⟩
  | @list ts us t u m left right ih ih' =>
    simp only [length_append, List.length_replicate, length_cons, Nonterminal.rank]
      at hfuel ih ih'
    rw [append_assoc, append_assoc, cons_append] at h
    rw [Nonterminal.parser, parseline, sat_bind]
    obtain ⟨n, rfl⟩ : ∃ m, n = m + 1 := ⟨n - 1, by omega⟩
    have hsemi : Nonterminal.pipe.Follow (.semi :: (us ++ vs)) := Or.inr (Or.inl rfl)
    refine (ih h hsemi.amps n (by omega)).imp ?_
    rintro cmd s ⟨h1, hr⟩
    rw [sat_bind]
    refine (parsebacks_complete hnul h1 (Nonterminal.Follow.not_amp (Or.inr ⟨_, rfl⟩)) (by omega)
      hr).imp ?_
    rintro cmd s ⟨h2, hr⟩
    refine sat_peek_yes hnul (by decide) h2 (begins_semi.mpr ⟨_, rfl⟩) fun s h3 => ?_
    rw [sat_bind]
    refine (gettoken_cons hnul h3).imp fun tok s h4 => ?_
    rw [sat_bind]
    refine (ih' h4.2.1 hfollow n (by omega)).imp ?_
    rintro right s ⟨h5, hr'⟩
    rw [sat_pure]
    exact ⟨h5, .list hr hr'⟩
  | one left ih =>
    simp only [Nonterminal.rank] at hfuel ih
    rw [Nonterminal.parser, parsepipe, sat_bind]
    obtain ⟨n, rfl⟩ : ∃ m, n = m + 1 := ⟨n - 1, by omega⟩
    refine (ih h hfollow.pipe_exec n (by omega)).imp ?_
    rintro cmd s ⟨h1, hr⟩
    refine sat_peek_no hnul (by decide) h1 hfollow.not_bar fun s h2 => ?_
    rw [sat_pure]
    exact ⟨h2, hr⟩
  | @pipe ts us t u left right ih ih' =>
    simp only [length_append, length_cons, Nonterminal.rank] at hfuel ih ih'
    rw [append_assoc, cons_append] at h
    rw [Nonterminal.parser, parsepipe, sat_bind]
    obtain ⟨n, rfl⟩ : ∃ m, n = m + 1 := ⟨n - 1, by omega⟩
    have hbar : Nonterminal.exec.Follow (.bar :: (us ++ vs)) := Or.inr (Or.inr (Or.inr rfl))
    refine (ih h hbar n (by omega)).imp ?_
    rintro cmd s ⟨h1, hr⟩
    refine sat_peek_yes hnul (by decide) h1 (begins_bar.mpr ⟨_, rfl⟩) fun s h2 => ?_
    rw [sat_bind]
    refine (gettoken_cons hnul h2).imp fun tok s h3 => ?_
    rw [sat_bind]
    refine (ih' h3.2.1 hfollow n (by omega)).imp ?_
    rintro right s ⟨h4, hr'⟩
    rw [sat_pure]
    exact ⟨h4, .pipe hr hr'⟩
  | exec redirs args few =>
    have hredirs := length_redirs redirs
    simp only [length_append, Nonterminal.rank] at hfuel
    rw [append_assoc] at h
    have hargs : begins ['<', '>'] (args.flatMap argTokens ++ vs) = false := by
      cases args with
      | nil => exact hfollow.not_redir
      | cons a args => rfl
    have hparen : begins ['('] (redirs.flatMap redirTokens ++ (args.flatMap argTokens ++ vs)) =
        false := by
      cases redirs with
      | cons r redirs =>
        obtain ⟨op, w⟩ := r
        cases op <;> rfl
      | nil =>
        cases args with
        | nil => exact hfollow.not_lparen
        | cons a args => rfl
    rw [Nonterminal.parser, parseexec]
    refine sat_peek_no hnul (by decide) h hparen fun s h1 => ?_
    rw [sat_bind]
    refine (parseredirs_complete hnul h1 hargs (by omega) (.exec .nil)).imp ?_
    rintro ret s ⟨h2, hr⟩
    have hfew' : ([] : List Word).length + args.length ≤ MAXARGS - 1 := by
      rwa [List.length_nil, Nat.zero_add]
    exact parseargs_complete hnul h2 hfollow (by omega) hfew' hr
  | @ofBlock ts t block ih =>
    simp only [Nonterminal.rank] at hfuel ih
    obtain ⟨us, hts⟩ : ∃ us, ts = .lparen :: us := by
      cases block
      exact ⟨_, rfl⟩
    rw [Nonterminal.parser, parseexec]
    obtain ⟨n, rfl⟩ : ∃ m, n = m + 1 := ⟨n - 1, by omega⟩
    refine sat_peek_yes hnul (by decide) h (begins_lparen.mpr ⟨us ++ vs, by rw [hts]; rfl⟩)
      fun s h1 => ?_
    exact ih h1 (Nonterminal.Follow.block_iff.mpr hfollow) n (by omega)
  | @block ts t inner redirs ih =>
    have hredirs := length_redirs redirs
    simp only [length_append, length_cons, Nonterminal.rank] at hfuel ih
    rw [cons_append, cons_append, append_assoc, cons_append] at h
    rw [Nonterminal.parser, parseblock]
    refine sat_peek_yes hnul (by decide) h (begins_lparen.mpr ⟨_, rfl⟩) fun s h1 => ?_
    beta_reduce
    rw [sat_bind]
    refine (gettoken_cons hnul h1).imp fun tok s h2 => ?_
    rw [sat_bind]
    obtain ⟨n, rfl⟩ : ∃ m, n = m + 1 := ⟨n - 1, by omega⟩
    refine (ih h2.2.1 rfl n (by omega)).imp ?_
    rintro cmd s ⟨h3, hr⟩
    refine sat_peek_yes hnul (by decide) h3 (begins_rparen.mpr ⟨_, rfl⟩) fun s h4 => ?_
    beta_reduce
    rw [sat_bind]
    refine (gettoken_cons hnul h4).imp fun tok s h5 => ?_
    exact parseredirs_complete hnul h5.2.1 (Nonterminal.Follow.block_iff.mp hfollow).not_redir
      (by omega) hr

end BossOs.Shell
