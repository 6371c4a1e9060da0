import Mathlib.Data.List.GetD
import Mathlib.Data.List.TakeWhile
import BossOs.Shell.Grammar

/-! # What `peek` and `gettoken` see of the tokens of a line -/

namespace BossOs.Shell

open Lib
open Prog (sat_bind sat_get sat_ite sat_modify sat_pure)

variable {line : List UInt8}

theorem drop_eq_cons {s : Nat} (h : s < line.length) :
    line.drop s = byte line s :: line.drop (s + 1) := by
  rw [byte, List.getD_eq_getElem _ _ h]
  exact List.drop_eq_getElem_cons h

section
variable (p : UInt8 → Bool)
include p

theorem le_advance (s : Nat) : s ≤ advance line p s := by
  fun_induction advance with
  | case1 s h ih => omega
  | case2 s h => exact Nat.le_refl s

theorem advance_le {s : Nat} (h : s ≤ line.length) :
    advance line p s ≤ line.length := by
  fun_induction advance with
  | case1 s hs ih => exact ih hs.1
  | case2 s hs => exact h

theorem drop_advance (s : Nat) :
    line.drop (advance line p s) = (line.drop s).dropWhile p := by
  fun_induction advance with
  | case1 s h ih =>
    rw [ih, drop_eq_cons h.1, List.dropWhile_cons_of_pos h.2]
  | case2 s h =>
    by_cases hs : s < line.length
    · rw [drop_eq_cons hs, List.dropWhile_cons_of_neg fun hp => h ⟨hs, hp⟩]
    · rw [List.drop_eq_nil_of_le (by omega)]
      rfl

theorem take_advance (s : Nat) :
    (line.drop s).take (advance line p s - s) = (line.drop s).takeWhile p := by
  fun_induction advance with
  | case1 s h ih =>
    have hle : s + 1 ≤ advance line p (s + 1) := le_advance p (s + 1)
    rw [drop_eq_cons h.1, List.takeWhile_cons_of_pos h.2,
      show advance line p (s + 1) - s = advance line p (s + 1) - (s + 1) + 1 by omega,
      List.take_succ_cons, ih]
  | case2 s h =>
    rw [Nat.sub_self, List.take_zero]
    by_cases hs : s < line.length
    · rw [drop_eq_cons hs, List.takeWhile_cons_of_neg fun hp => h ⟨hs, hp⟩]
    · rw [List.drop_eq_nil_of_le (by omega)]
      rfl

theorem advance_stop (s : Nat) (h : advance line p s < line.length) :
    p (byte line (advance line p s)) = false := by
  fun_induction advance with
  | case1 s hs ih => exact ih h
  | case2 s hs => exact eq_false_of_ne_true fun hp => hs ⟨h, hp⟩

end

theorem byte_mem {s : Nat} (h : s < line.length) : byte line s ∈ line := by
  rw [byte, List.getD_eq_getElem _ _ h]
  exact List.getElem_mem h

theorem byte_of_le {s : Nat} (h : line.length ≤ s) : byte line s = 0 :=
  List.getD_eq_default _ _ h

def Token.first : Token → Option UInt8
  | word _ => none
  | lt => some (ch '<')
  | gt | gtgt => some (ch '>')
  | bar => some (ch '|')
  | amp => some (ch '&')
  | semi => some (ch ';')
  | lparen => some (ch '(')
  | rparen => some (ch ')')

def Token.code : Token → UInt8
  | word _ => ch 'a'
  | gtgt => ch '+'
  | lt => ch '<'
  | gt => ch '>'
  | bar => ch '|'
  | amp => ch '&'
  | semi => ch ';'
  | lparen => ch '('
  | rparen => ch ')'

theorem mem_symbols {c : UInt8} : c ∈ symbols ↔ c ∈ singles ∨ c = ch '>' := by
  simp only [symbols, singles, List.map_cons, List.map_nil, List.mem_cons, List.not_mem_nil,
    or_false]
  tauto

theorem symbol_gt : symbol (ch '>') = some .gt := by decide

theorem symbol_none {c : UInt8} (h : c ∉ symbols) : symbol c = none := by
  simp only [symbols, List.map_cons, List.map_nil, List.mem_cons, List.not_mem_nil, or_false,
    not_or] at h
  simp only [symbol, List.lookup_cons, List.lookup_nil, beq_eq_false_iff_ne.mpr, h, ne_eq,
    not_false_eq_true]

theorem symbol_single {c : UInt8} (h : c ∈ singles) :
    ∃ t, symbol c = some t ∧ t ≠ .gt ∧ (∀ w, t ≠ .word w) ∧ t.first = some c ∧ t.code = c := by
  simp only [singles, List.map_cons, List.map_nil, List.mem_cons, List.not_mem_nil, or_false] at h
  rcases h with rfl | rfl | rfl | rfl | rfl | rfl
  · exact ⟨.bar, by decide, by decide, nofun, rfl, rfl⟩
  · exact ⟨.lparen, by decide, by decide, nofun, rfl, rfl⟩
  · exact ⟨.rparen, by decide, by decide, nofun, rfl, rfl⟩
  · exact ⟨.semi, by decide, by decide, nofun, rfl, rfl⟩
  · exact ⟨.amp, by decide, by decide, nofun, rfl, rfl⟩
  · exact ⟨.lt, by decide, by decide, nofun, rfl, rfl⟩

theorem tokens_dropWhile_space (cs : List UInt8) : tokens (cs.dropWhile space) = tokens cs := by
  induction cs with
  | nil => rfl
  | cons c cs ih =>
    by_cases h : space c = true
    · rw [List.dropWhile_cons_of_pos h, ih, tokens, if_pos h]
    · rw [List.dropWhile_cons_of_neg h]

def At (line : List UInt8) (s : Nat) (ts : List Token) : Prop :=
  s ≤ line.length ∧ tokens (line.drop s) = ts

theorem At.skip {s : Nat} {ts : List Token} (h : At line s ts) : At line (advance line space s) ts := by
  refine ⟨advance_le _ h.1, ?_⟩
  rw [drop_advance, tokens_dropWhile_space]
  exact h.2

/-- The word's bytes lie between the two pointers, and the word ends there. -/
structure Spans (line : List UInt8) (σ : Span) (w : Word) : Prop where
  slice : (line.drop σ.q).take (σ.eq - σ.q) = w
  bytes : ∀ c ∈ w, wordByte c = true
  bound : σ.q ≤ σ.eq ∧ σ.eq ≤ line.length
  stop : σ.eq < line.length → wordByte (byte line σ.eq) = false

/-- `t` starts at `q` and ends before `eq`, as `gettoken` finds it. -/
structure Lexed (line : List UInt8) (q eq : Nat) (ret : UInt8) (t : Token) (us : List Token) :
    Prop where
  ret : ret = t.code
  rest : At line eq us
  word : ∀ w, t = .word w → Spans line ⟨q, eq⟩ w
  first : ∀ c ∈ symbols, byte line q = c ↔ t.first = some c

section
variable {q : Nat} {ts : List Token}

theorem lexeme_word (h : At line q ts) (hq : q < line.length) (hzero : byte line q ≠ 0)
    (hspace : space (byte line q) = false) (hno : byte line q ∉ symbols) :
    ∃ t us, ts = t :: us ∧ Lexed line q (lexeme line q).2 (lexeme line q).1 t us := by
  have hword : wordByte (byte line q) = true := by
    unfold space at hspace
    rw [wordByte, hspace, Bool.eq_false_iff.mpr fun hc => hno (List.contains_iff_mem.mp hc)]
    rfl
  have hlex : lexeme line q = (ch 'a', advance line wordByte q) := by
    unfold lexeme
    rw [if_neg hzero, if_neg fun hm => hno (mem_symbols.mpr (Or.inl hm)),
      if_neg fun he => hno (mem_symbols.mpr (Or.inr he))]
  have hts := h.2
  rw [drop_eq_cons hq, tokens, if_neg (by rw [hspace]; exact Bool.false_ne_true),
    symbol_none hno] at hts
  have hdrop : line.drop (advance line wordByte q) = _ := drop_advance wordByte q
  have htake : (line.drop q).take (advance line wordByte q - q) = _ := take_advance wordByte q
  rw [drop_eq_cons hq, List.dropWhile_cons_of_pos hword] at hdrop
  rw [drop_eq_cons hq, List.takeWhile_cons_of_pos hword, ← drop_eq_cons hq] at htake
  rw [hlex]
  refine ⟨_, _, hts.symm, rfl, ⟨advance_le _ h.1, by rw [hdrop]⟩, ?_, ?_⟩
  · intro w hw
    obtain rfl := Token.word.inj hw
    refine ⟨htake, ?_, ⟨le_advance _ _, advance_le _ h.1⟩, advance_stop _ _⟩
    intro c hc
    rcases List.mem_cons.mp hc with rfl | hc
    · exact hword
    · exact List.mem_takeWhile_imp hc
  · intro c hc
    exact ⟨fun he => absurd (he ▸ hc) hno, fun he => by cases he⟩

theorem lexeme_gt (h : At line q ts) (hq : q < line.length) (hgt : byte line q = ch '>') :
    ∃ t us, ts = t :: us ∧ Lexed line q (lexeme line q).2 (lexeme line q).1 t us := by
  have hlex : lexeme line q =
      if byte line (q + 1) = ch '>' then (ch '+', q + 2) else (ch '>', q + 1) := by
    unfold lexeme
    rw [hgt, if_neg (by decide), if_neg (by decide), if_pos rfl]
  have hts := h.2
  rw [drop_eq_cons hq, tokens, hgt, if_neg (by decide), symbol_gt] at hts
  simp only at hts
  have hfirst : ∀ c ∈ symbols, byte line q = c ↔ some (ch '>') = some c := by
    intro c _
    rw [hgt, Option.some_inj]
  by_cases hnext : byte line (q + 1) = ch '>'
  · have hq' : q + 1 < line.length := by
      by_contra hge
      rw [byte_of_le (by omega)] at hnext
      exact absurd hnext (by decide)
    rw [drop_eq_cons hq', List.head?_cons, if_pos (by rw [hnext]), List.tail_cons] at hts
    rw [hlex, if_pos hnext]
    exact ⟨_, _, hts.symm, rfl, ⟨hq', rfl⟩, fun w hw => absurd hw Token.noConfusion, hfirst⟩
  · have hhead : (line.drop (q + 1)).head? ≠ some (ch '>') := by
      rcases Nat.lt_or_ge (q + 1) line.length with hq' | hq'
      · rw [drop_eq_cons hq', List.head?_cons]
        exact fun he => hnext (Option.some.inj he)
      · rw [List.drop_eq_nil_of_le hq']
        intro he
        cases he
    rw [if_neg hhead] at hts
    rw [hlex, if_neg hnext]
    exact ⟨_, _, hts.symm, rfl, ⟨hq, rfl⟩, fun w hw => absurd hw Token.noConfusion, hfirst⟩

theorem lexeme_single (h : At line q ts) (hq : q < line.length)
    (hspace : space (byte line q) = false) (hmem : byte line q ∈ singles) :
    ∃ t us, ts = t :: us ∧ Lexed line q (lexeme line q).2 (lexeme line q).1 t us := by
  obtain ⟨t, hsym, hne, hword, hfirst, hcode⟩ := symbol_single hmem
  have hzero : byte line q ≠ 0 := fun he => absurd (he ▸ hmem) (by decide)
  have hlex : lexeme line q = (byte line q, q + 1) := by
    unfold lexeme
    rw [if_neg hzero, if_pos hmem]
  have hts := h.2
  rw [drop_eq_cons hq, tokens, if_neg (by rw [hspace]; exact Bool.false_ne_true), hsym] at hts
  split at hts
  · cases ‹some t = none›
  · exact absurd (Option.some.inj ‹some t = some .gt›) hne
  · obtain rfl := Option.some.inj ‹some t = some _›
    rw [hlex]
    exact ⟨_, _, hts.symm, hcode.symm, ⟨hq, rfl⟩, fun w hw => absurd hw (hword w), fun c _ => by
      rw [hfirst, Option.some_inj]⟩

theorem lexeme_spec (hnul : 0 ∉ line) (h : At line q ts)
    (hstop : q < line.length → space (byte line q) = false) :
    (ts = [] ∧ q = line.length ∧ lexeme line q = (0, q)) ∨
    ∃ t us, ts = t :: us ∧ q < line.length ∧ Lexed line q (lexeme line q).2 (lexeme line q).1 t us := by
  rcases Nat.eq_or_lt_of_le h.1 with hq | hq
  · refine Or.inl ⟨?_, hq, ?_⟩
    · rw [← h.2, List.drop_eq_nil_of_le (by omega), tokens]
    · rw [lexeme, byte_of_le (by omega), if_pos rfl]
  · right
    have hspace := hstop hq
    have hzero : byte line q ≠ 0 := fun he => hnul (he ▸ byte_mem hq)
    have htoken : ∃ t us, ts = t :: us ∧
        Lexed line q (lexeme line q).2 (lexeme line q).1 t us := by
      by_cases hsym : byte line q ∈ symbols
      · rcases mem_symbols.mp hsym with hsingle | hgt
        · exact lexeme_single h hq hspace hsingle
        · exact lexeme_gt h hq hgt
      · exact lexeme_word h hq hzero hspace hsym
    obtain ⟨t, us, hts, hl⟩ := htoken
    exact ⟨t, us, hts, hq, hl⟩

end

section
variable {s : Nat} {ts : List Token} {E : Fault → Nat → Prop}

def begins (toks : List Char) (ts : List Token) : Bool :=
  (ts.head?.bind Token.first).any (toks.map ch).contains

variable {toks : List Char}

section
variable (hnul : 0 ∉ line)
include hnul

theorem peek_spec (htoks : toks.map ch ⊆ symbols)
    (h : At line s ts) : ((peek line toks).run s).Sat
      (fun b s' => b = begins toks ts ∧ At line s' ts) E := by
  unfold peek
  rw [sat_bind, sat_modify, sat_bind, sat_get, sat_pure]
  refine ⟨?_, h.skip⟩
  rcases lexeme_spec hnul h.skip (advance_stop space s) with ⟨rfl, hq, -⟩ | ⟨t, us, rfl, hq, hl⟩
  · rw [byte_of_le (by omega)]
    rfl
  · have hzero : byte line (advance line space s) ≠ 0 := fun he => hnul (he ▸ byte_mem hq)
    rw [decide_eq_true hzero, Bool.true_and, Bool.eq_iff_iff, List.contains_iff_mem]
    constructor
    · intro hm
      rw [begins, List.head?_cons, Option.bind_some, (hl.first _ (htoks hm)).mp rfl]
      exact List.contains_iff_mem.mpr hm
    · intro hb
      rw [begins, List.head?_cons, Option.bind_some, Option.any_eq_true] at hb
      obtain ⟨c, hc, hm⟩ := hb
      have hm := List.contains_iff_mem.mp hm
      rw [(hl.first c (htoks hm)).mpr hc]
      exact hm

theorem sat_peek {α : Type} {Q : α → Nat → Prop} {m m' : Prog Fault Nat α}
    (htoks : toks.map ch ⊆ symbols) (h : At line s ts)
    (hyes : begins toks ts = true → ∀ s', At line s' ts → (m.run s').Sat Q E)
    (hno : begins toks ts = false → ∀ s', At line s' ts → (m'.run s').Sat Q E) :
    ((peek line toks >>= fun b => if b = true then m else m').run s).Sat Q E := by
  rw [sat_bind]
  refine (peek_spec hnul htoks h).imp fun b s' hb => ?_
  obtain ⟨rfl, hs'⟩ := hb
  exact sat_ite (fun hb => hyes hb s' hs') fun hb => hno (eq_false_of_ne_true hb) s' hs'

theorem sat_peek_yes {α : Type} {Q : α → Nat → Prop} {m m' : Prog Fault Nat α}
    (htoks : toks.map ch ⊆ symbols) (h : At line s ts)
    (hb : begins toks ts = true) (hyes : ∀ s', At line s' ts → (m.run s').Sat Q E) :
    ((peek line toks >>= fun b => if b = true then m else m').run s).Sat Q E := by
  refine sat_peek hnul htoks h (fun _ => hyes) fun hno => ?_
  rw [hb] at hno
  cases hno

theorem sat_peek_no {α : Type} {Q : α → Nat → Prop} {m m' : Prog Fault Nat α}
    (htoks : toks.map ch ⊆ symbols) (h : At line s ts)
    (hb : begins toks ts = false) (hno : ∀ s', At line s' ts → (m'.run s').Sat Q E) :
    ((peek line toks >>= fun b => if b = true then m else m').run s).Sat Q E := by
  refine sat_peek hnul htoks h (fun hyes => ?_) fun _ => hno
  rw [hb] at hyes
  cases hyes

theorem gettoken_cons {t : Token} (h : At line s (t :: ts)) :
    ((gettoken line).run s).Sat
      (fun r s' => r.1 = t.code ∧ At line s' ts ∧ ∀ w, t = .word w → Spans line r.2 w) E := by
  unfold gettoken
  rw [sat_bind, sat_get]
  simp only
  rw [sat_bind, sat_modify, sat_pure]
  rcases lexeme_spec hnul h.skip (advance_stop space s) with ⟨hts, -⟩ | ⟨t, us, hts, hq, hl⟩
  · cases hts
  · cases hts
    exact ⟨hl.ret, hl.rest.skip, hl.word⟩

theorem gettoken_nil (h : At line s []) :
    ((gettoken line).run s).Sat (fun r s' => r.1 = 0 ∧ At line s' []) E := by
  unfold gettoken
  rw [sat_bind, sat_get]
  simp only
  rw [sat_bind, sat_modify, sat_pure]
  rcases lexeme_spec hnul h.skip (advance_stop space s) with ⟨-, hq, hlex⟩ | ⟨t, us, hts, -⟩
  · rw [hlex]
    exact ⟨rfl, h.skip.skip⟩
  · cases hts

theorem gettoken_spec (h : At line s ts) : ((gettoken line).run s).Sat
      (fun r s' => (ts = [] ∧ r.1 = 0 ∧ At line s' []) ∨
        ∃ t us, ts = t :: us ∧ r.1 = t.code ∧ At line s' us ∧ ∀ w, t = .word w → Spans line r.2 w)
      E := by
  cases ts with
  | nil => exact (gettoken_nil hnul h).imp fun r s' hr => Or.inl ⟨rfl, hr⟩
  | cons t us => exact (gettoken_cons hnul h).imp fun r s' hr => Or.inr ⟨t, us, rfl, hr⟩

end

end

end BossOs.Shell
