import BossOs.Shell.Complete

/-!
# The parser accepts exactly its grammar

`nulterminate` writes only behind words, so the pointers of the command then read those words.
-/

namespace BossOs.Shell

open Lib

variable {line : List UInt8}

def Cmd.cuts : Cmd Span → List Nat
  | .exec argv => argv.map Span.eq
  | .redir cmd file _ _ => cmd.cuts ++ [file.eq]
  | .pipe left right | .list left right => left.cuts ++ right.cuts
  | .back cmd => cmd.cuts

def cut (buf : List UInt8) (i : Nat) : List UInt8 := buf.set i 0

theorem nulterminate_eq (cmd : Cmd Span) (buf : List UInt8) :
    nulterminate cmd buf = cmd.cuts.foldl cut buf := by
  induction cmd generalizing buf with
  | exec argv =>
    rw [nulterminate, Cmd.cuts, List.foldl_map]
    rfl
  | redir cmd file mode fd ih =>
    rw [nulterminate, ih, Cmd.cuts, List.foldl_append]
    rfl
  | pipe left right ihl ihr => rw [nulterminate, ihl, ihr, Cmd.cuts, List.foldl_append]
  | list left right ihl ihr => rw [nulterminate, ihl, ihr, Cmd.cuts, List.foldl_append]
  | back cmd ih => exact ih buf

theorem getElem?_cuts (is : List Nat) (buf : List UInt8) (i : Nat) :
    (is.foldl cut buf)[i]? = if i ∈ is ∧ i < buf.length then some 0 else buf[i]? := by
  induction is generalizing buf with
  | nil =>
    rw [List.foldl_nil, if_neg fun h => List.not_mem_nil h.1]
  | cons j is ih =>
    rw [List.foldl_cons, ih, cut, List.length_set, List.getElem?_set]
    grind

theorem Reads.cuts {cmd : Cmd Span} {t : Cmd Word} (h : Reads line cmd t) :
    ∀ i ∈ cmd.cuts, i ≤ line.length ∧ (i < line.length → wordByte (byte line i) = false) := by
  induction h with
  | exec args =>
    induction args with
    | nil => exact fun i hi => absurd hi List.not_mem_nil
    | cons hw _ ih =>
      intro i hi
      rcases List.mem_cons.mp hi with rfl | hi
      · exact ⟨hw.bound.2, hw.stop⟩
      · exact ih i hi
  | redir mode fd _ file ih =>
    intro i hi
    rcases List.mem_append.mp hi with hi | hi
    · exact ih i hi
    · obtain rfl := List.mem_singleton.mp hi
      exact ⟨file.bound.2, file.stop⟩
  | pipe _ _ ihl ihr | list _ _ ihl ihr =>
    intro i hi
    rcases List.mem_append.mp hi with hi | hi
    · exact ihl i hi
    · exact ihr i hi
  | back _ ih => exact ih

theorem cstr_eq {buf : List UInt8} {q : Nat} {w : Word} (hw : 0 ∉ w)
    (hbytes : ∀ k < w.length, buf[q + k]? = w[k]?) (hend : buf[q + w.length]? = some 0) :
    cstr buf q = w := by
  unfold cstr
  induction w generalizing q with
  | nil =>
    obtain ⟨hlt, hzero⟩ := List.getElem?_eq_some_iff.mp hend
    rw [List.length_nil, Nat.add_zero] at hlt
    rw [List.drop_eq_getElem_cons hlt]
    exact List.takeWhile_cons_of_neg (by simpa using hzero)
  | cons c w ih =>
    obtain ⟨hlt, hc⟩ : ∃ hlt : q < buf.length, buf[q] = c :=
      List.getElem?_eq_some_iff.mp (hbytes 0 (Nat.succ_pos _))
    have htail := ih (q := q + 1) (fun h => hw (List.mem_cons_of_mem c h))
      (fun k hk => by
        have hb := hbytes (k + 1) (Nat.succ_lt_succ hk)
        rwa [List.getElem?_cons_succ, ← Nat.add_assoc, Nat.add_right_comm] at hb)
      (by rwa [List.length_cons, ← Nat.add_assoc, Nat.add_right_comm] at hend)
    have hne : c ≠ 0 := fun he => hw (he ▸ List.mem_cons_self)
    rw [List.drop_eq_getElem_cons hlt, hc, List.takeWhile_cons_of_pos (by simpa using hne), ← htail]

theorem Spans.getElem? {σ : Span} {w : Word} (h : Spans line σ w) {k : Nat} (hk : k < w.length) :
    (line)[σ.q + k]? = w[k]? ∧ σ.q + k < σ.eq := by
  have hlen : w.length = σ.eq - σ.q := by
    rw [← h.slice, List.length_take, List.length_drop]
    have := h.bound
    omega
  refine ⟨?_, by omega⟩
  rw [← h.slice, List.getElem?_take, if_pos (by omega), List.getElem?_drop]

theorem Spans.cstr {σ : Span} {w : Word} (h : Spans line σ w) (hnul : 0 ∉ line) {is : List Nat}
    (his : ∀ i ∈ is, i ≤ line.length ∧ (i < line.length → wordByte (byte line i) = false))
    (hσ : σ.eq ∈ is) : Shell.cstr (is.foldl cut (line ++ [0])) σ.q = w := by
  have hlen : σ.q + w.length = σ.eq := by
    rw [← h.slice, List.length_take, List.length_drop]
    have := h.bound
    omega
  have hbound := h.bound.2
  apply cstr_eq
  · intro h0
    rw [← h.slice] at h0
    exact hnul (List.mem_of_mem_drop (List.mem_of_mem_take h0))
  · intro k hk
    obtain ⟨hline, hlt⟩ := h.getElem? hk
    have hnot : σ.q + k ∉ is := by
      intro hi
      have hbyte : byte line (σ.q + k) = w[k] := by
        rw [byte, List.getD_eq_getElem?_getD, hline, List.getElem?_eq_getElem hk]
        rfl
      have hword := h.bytes _ (List.getElem_mem hk)
      rw [← hbyte, (his _ hi).2 (by omega)] at hword
      cases hword
    rw [getElem?_cuts, if_neg fun hi => hnot hi.1, List.getElem?_append_left (by omega)]
    exact hline
  · rw [hlen, getElem?_cuts, if_pos]
    refine ⟨hσ, ?_⟩
    rw [List.length_append, List.length_singleton]
    omega

theorem Reads.strings {cmd : Cmd Span} {t : Cmd Word} (h : Reads line cmd t) (hnul : 0 ∉ line)
    {is : List Nat}
    (his : ∀ i ∈ is, i ≤ line.length ∧ (i < line.length → wordByte (byte line i) = false))
    (hsub : cmd.cuts ⊆ is) : cmd.strings (is.foldl cut (line ++ [0])) = t := by
  induction h with
  | exec args =>
    refine congrArg Cmd.exec ?_
    induction args with
    | nil => rfl
    | cons hw _ ih =>
      rw [List.map_cons, hw.cstr hnul his (hsub List.mem_cons_self),
        ih fun i hi => hsub (List.mem_cons_of_mem _ hi)]
  | redir mode fd _ file ih =>
    have hcmd := ih fun i hi => hsub (List.mem_append_left _ hi)
    have hfile := file.cstr hnul his (hsub (List.mem_append_right _ List.mem_cons_self))
    rw [Cmd.strings, Cmd.map, hfile, ← hcmd]
    rfl
  | pipe _ _ ihl ihr =>
    rw [← ihl fun i hi => hsub (List.mem_append_left _ hi),
      ← ihr fun i hi => hsub (List.mem_append_right _ hi)]
    rfl
  | list _ _ ihl ihr =>
    rw [← ihl fun i hi => hsub (List.mem_append_left _ hi),
      ← ihr fun i hi => hsub (List.mem_append_right _ hi)]
    rfl
  | back _ ih =>
    rw [← ih hsub]
    rfl

theorem length_tokens_le (cs : List UInt8) : (tokens cs).length ≤ cs.length := by
  fun_induction tokens with
  | case1 => exact Nat.le_refl _
  | case2 c cs hspace ih => exact Nat.le_succ_of_le ih
  | case3 c cs hspace hsym ih =>
    exact Nat.succ_le_succ (ih.trans (List.dropWhile_sublist _).length_le)
  | case4 c cs hspace hsym hgt ih =>
    rw [List.length_tail] at ih
    rw [List.length_cons, List.length_cons]
    omega
  | case5 c cs hspace hsym hgt ih => exact Nat.succ_le_succ ih
  | case6 c cs hspace t hsym hne ih => exact Nat.succ_le_succ ih

theorem at_start (line : List UInt8) : At line 0 (tokens line) := ⟨Nat.zero_le _, rfl⟩

theorem parsecmd_of_derives (hnul : 0 ∉ line) {t : Cmd Word} (hd : Derives .line (tokens line) t) :
    ∃ cmd buf, parsecmd line = .ok (cmd, buf) ∧ cmd.strings buf = t := by
  have hlen := length_tokens_le line
  have hstart : At line 0 (tokens line ++ []) := by
    rw [List.append_nil]
    exact at_start line
  obtain ⟨cmd, s, hrun, hs, hr⟩ := (parse_complete hnul hd (n := 4 * line.length + 4) hstart trivial
    (by rw [Nonterminal.rank]; omega)).exists_ok
  have hend : advance line space s = line.length := by
    rcases lexeme_spec hnul hs.skip (advance_stop space s) with ⟨-, hend, -⟩ | ⟨t, us, hts, -⟩
    · exact hend
    · cases hts
  refine ⟨cmd, nulterminate cmd (line ++ [0]), ?_, ?_⟩
  · rw [Nonterminal.parser] at hrun
    rw [parsecmd, hrun]
    simp only
    rw [if_neg (not_not_intro hend)]
  · rw [nulterminate_eq]
    exact hr.strings hnul hr.cuts (List.Subset.refl _)

theorem parsecmd_reads (hnul : 0 ∉ line) {cmd : Cmd Span} {buf : List UInt8}
    (h : parsecmd line = .ok (cmd, buf)) : buf = nulterminate cmd (line ++ [0]) ∧
      ∃ t, Derives .line (tokens line) t ∧ Reads line cmd t := by
  have hsound := (parse_sound hnul (4 * line.length + 4)).1 0 _ (at_start line)
  rw [parsecmd] at h
  cases hrun : (parseline line (4 * line.length + 4)).run 0 with
  | stop e s =>
    rw [hrun] at h
    cases h
  | ok cmd' s =>
    rw [hrun] at h
    rw [hrun, Outcome.sat_ok] at hsound
    obtain ⟨us, vs, t, hts, hs, hd, hr⟩ := hsound
    simp only at h
    split at h
    · cases h
    · rename_i hend
      cases h
      have hvs : vs = [] := by
        rcases lexeme_spec hnul hs.skip (advance_stop space s) with ⟨hvs, -⟩ | ⟨t, us, -, hlt, -⟩
        · exact hvs
        · exact absurd (Nat.ne_of_lt hlt) hend
      rw [hvs, List.append_nil] at hts
      rw [← hts] at hd
      exact ⟨rfl, t, hd, hr⟩

theorem parsecmd_cases (hnul : 0 ∉ line) :
    (∃ msg, parsecmd line = .error (.panic msg)) ∨ ∃ cmd buf, parsecmd line = .ok (cmd, buf) := by
  have hlen := length_tokens_le line
  have hsound := (parse_sound hnul (4 * line.length + 4)).1 0 _ (at_start line)
  rw [parsecmd]
  cases hrun : (parseline line (4 * line.length + 4)).run 0 with
  | stop e s =>
    rw [hrun, Outcome.sat_stop] at hsound
    cases e with
    | panic msg => exact Or.inl ⟨msg, rfl⟩
    | outOfFuel =>
      have hlt := hsound rfl
      rw [Nonterminal.rank] at hlt
      omega
  | ok cmd s =>
    simp only
    split
    · exact Or.inl ⟨_, rfl⟩
    · exact Or.inr ⟨_, _, rfl⟩

theorem derives_of_parsecmd (hnul : 0 ∉ line) : (∃ msg, parsecmd line = .error (.panic msg)) ∨
    ∃ cmd buf, parsecmd line = .ok (cmd, buf) ∧ Derives .line (tokens line) (cmd.strings buf) := by
  rcases parsecmd_cases hnul with hpanic | ⟨cmd, buf, hok⟩
  · exact Or.inl hpanic
  · obtain ⟨rfl, t, hd, hr⟩ := parsecmd_reads hnul hok
    refine Or.inr ⟨cmd, _, hok, ?_⟩
    rw [nulterminate_eq, hr.strings hnul hr.cuts (List.Subset.refl _)]
    exact hd

theorem parsecmd_accepts_grammar (line : List UInt8) (hnul : 0 ∉ line) :
    ((∃ msg, parsecmd line = .error (.panic msg)) ∧ ∀ t, ¬ Derives .line (tokens line) t) ∨
    ∃ cmd buf, parsecmd line = .ok (cmd, buf) ∧
      ∀ t, Derives .line (tokens line) t ↔ cmd.strings buf = t := by
  rcases derives_of_parsecmd hnul with ⟨msg, hpanic⟩ | ⟨cmd, buf, hok, hd⟩
  · refine Or.inl ⟨⟨msg, hpanic⟩, fun t ht => ?_⟩
    obtain ⟨cmd, buf, hok, -⟩ := parsecmd_of_derives hnul ht
    rw [hpanic] at hok
    cases hok
  · refine Or.inr ⟨cmd, buf, hok, fun t => ⟨fun ht => ?_, fun ht => ht ▸ hd⟩⟩
    obtain ⟨cmd', buf', hok', hstr⟩ := parsecmd_of_derives hnul ht
    rw [hok] at hok'
    cases hok'
    exact hstr

def background : List UInt8 := ['a', '>', 'b', '|', 'c', '&'].map ch

theorem parsecmd_accepts_grammar_background : 0 ∉ background ∧
    ∀ t, Derives .line (tokens background) t ↔
      t = .back (.pipe (.redir (.exec [[ch 'a']]) [ch 'b'] (O_WRONLY ||| O_CREATE) 1)
        (.exec [[ch 'c']])) := by
  have hnul : 0 ∉ background := by decide
  have hrun : (parsecmd background).toOption.map (fun r => r.1.strings r.2) =
      some (.back (.pipe (.redir (.exec [[ch 'a']]) [ch 'b'] (O_WRONLY ||| O_CREATE) 1)
        (.exec [[ch 'c']]))) := by decide +kernel
  refine ⟨hnul, fun t => ?_⟩
  rcases parsecmd_accepts_grammar background hnul with ⟨⟨msg, hpanic⟩, -⟩ | ⟨cmd, buf, hok, hiff⟩
  · rw [hpanic] at hrun
    cases hrun
  · rw [hok] at hrun
    rw [hiff t, ← Option.some.inj hrun]
    exact eq_comm

end BossOs.Shell
