import BossOs.Grep.Match
import BossOs.Lib.Lines
import BossOs.Params
import BossOs.Ulib.Memmove
import BossOs.Ulib.Strings

/-!
# The lines of `grep`

`grep` of `grep.c` on the pieces that successive calls of `read` return. The buffer `buf` is
a static array at some address.
-/

namespace BossOs.Grep

open UInt32 (ofNat)
open Lib Lib.Memory

def bufSize : Nat := 1024

theorem bufSize_lt : bufSize < 2 ^ 31 := by decide

structure Scan where
  mem : Memory
  p : UInt32
  out : List UInt8

def line (re : List UInt8) (s : Scan) (q : UInt32) : Scan :=
  let mem : Memory := Function.update s.mem q 0
  if matchText re (Ulib.cstring mem bufSize s.p) then
    let mem : Memory := Function.update mem q newline
    ⟨mem, q + 1, s.out ++ mem.bytes s.p (q + 1 - s.p).toNat⟩
  else ⟨mem, q + 1, s.out⟩

def scanLines (re : List UInt8) : Nat → Scan → Scan
  | 0, s => s
  | n + 1, s =>
    match Ulib.strchr s.mem newline bufSize s.p with
    | none => s
    | some q => scanLines re n (line re s q)

structure State where
  mem : Memory
  m : Nat
  out : List UInt8

def round (re : List UInt8) (buf : UInt32) (s : State) (piece : List UInt8) : State :=
  let m := s.m + piece.length
  let mem := Function.update (s.mem.write (buf + UInt32.ofNat s.m) piece) (buf + UInt32.ofNat m) 0
  let t := scanLines re bufSize ⟨mem, buf, s.out⟩
  let m := if t.p = buf then 0 else m
  if 0 < m then
    let m := m - (t.p - buf).toNat
    ⟨Ulib.memmove buf t.p (Int32.ofNat m) t.mem, m, t.out⟩
  else ⟨t.mem, m, t.out⟩

/-- `grep` on a file that is read in the given pieces; `none` if one of them is not what the
`read` of its turn can return. -/
def grep (re : List UInt8) (buf : UInt32) : State → List (List UInt8) → Option State
  | s, [] => some s
  | s, piece :: pieces =>
    if 0 < piece.length ∧ piece.length ≤ bufSize - s.m - 1 then
      grep re buf (round re buf s piece) pieces
    else none

def Plain (l : List UInt8) : Prop := newline ∉ l ∧ 0 ∉ l

def selected (re : List UInt8) (ls : List (List UInt8)) : List UInt8 :=
  joined newline (ls.filter (matchText re))

variable {re : List UInt8} {buf : UInt32} {l r xs : List UInt8} {ls : List (List UInt8)}

theorem selected_cons : selected re (l :: ls) =
    (if matchText re l then l ++ [newline] else []) ++ selected re ls := by
  unfold selected
  rw [List.filter_cons]
  split
  · rw [joined_cons, List.append_assoc]
    rfl
  · rfl

variable (re) in
theorem line_spec {s : Scan} (h : At s.mem s.p (l ++ newline :: xs)) (hl : Plain l)
    (hlen : (l ++ newline :: xs).length ≤ bufSize) :
    At (line re s (s.p + ofNat l.length)).mem (s.p + ofNat (l.length + 1)) xs ∧
      (line re s (s.p + ofNat l.length)).p = s.p + ofNat (l.length + 1) ∧
      (line re s (s.p + ofNat l.length)).out =
        s.out ++ if matchText re l then l ++ [newline] else [] := by
  have hbig := bufSize_lt
  have hbound : (l ++ newline :: xs).length ≤ 2 ^ 32 := by omega
  have hcut := h.update_append (v := 0) hbound
  rw [List.length_append, List.length_cons] at hlen hbound
  have hnext : s.p + ofNat l.length + 1 = s.p + ofNat (l.length + 1) :=
    add_add_ofNat s.p l.length 1
  have htail : ∀ {m : Memory} {v : UInt8}, At m s.p (l ++ v :: xs) →
      At m (s.p + ofNat (l.length + 1)) xs := by
    intro m v hm
    rw [← hnext]
    exact (at_cons.mp (at_append.mp hm).2).2
  unfold line
  simp only
  rw [Ulib.cstring_eq hcut hl.2 (by omega)]
  split
  · have hback := hcut.update_append (v := newline) (by
      rw [List.length_append, List.length_cons]
      exact hbound)
    refine ⟨htail hback, hnext, ?_⟩
    have hline : At _ s.p (l ++ [newline]) := (at_append.mp (by
      rw [List.append_assoc]
      exact hback)).1
    have hbytes := hline.bytes
    rw [List.length_append, List.length_singleton] at hbytes
    rw [hnext, sub_add_ofNat (show l.length + 1 < 2 ^ 32 by omega), hbytes]
  · exact ⟨htail hcut, hnext, (List.append_nil _).symm⟩

variable (re) in
theorem scanLines_spec {s : Scan} {n : Nat} (h : At s.mem s.p (joined newline ls ++ (r ++ [0])))
    (hls : ∀ l ∈ ls, Plain l) (hr : Plain r)
    (hlen : (joined newline ls ++ (r ++ [0])).length ≤ bufSize) (hn : ls.length < n) :
    At (scanLines re n s).mem (s.p + ofNat (joined newline ls).length) r ∧
      (scanLines re n s).p = s.p + ofNat (joined newline ls).length ∧
      (scanLines re n s).out = s.out ++ selected re ls := by
  induction ls generalizing n s with
  | nil =>
    obtain ⟨n, rfl⟩ := Nat.exists_eq_add_of_lt hn
    rw [joined_nil, List.nil_append] at h hlen
    rw [List.length_append, List.length_singleton] at hlen
    have hnone := Ulib.strchr_none (n := bufSize) h hr.1 (by omega)
    rw [scanLines, hnone]
    simp only
    rw [joined_nil, List.length_nil, add_zero_ofNat]
    exact ⟨(at_append.mp h).1, rfl, (List.append_nil _).symm⟩
  | cons l ls ih =>
    obtain ⟨n, rfl⟩ : ∃ k, n = k + 1 := ⟨n - 1, by omega⟩
    obtain ⟨hl, hls⟩ := List.forall_mem_cons.mp hls
    rw [joined_cons, List.append_assoc] at h hlen
    have hlt : l.length < bufSize := by
      rw [List.length_append, List.cons_append, List.length_cons] at hlen
      omega
    have hsome := Ulib.strchr_some h hl.2 hl.1 (by decide) hlt
    obtain ⟨hat, hp, hout⟩ := line_spec re h hl hlen
    rw [scanLines, hsome]
    simp only
    rw [← hp] at hat
    rw [List.length_append, List.cons_append, List.length_cons] at hlen
    rw [List.length_cons] at hn
    obtain ⟨hat', hp', hout'⟩ := ih (n := n) hat hls (by omega) (by omega)
    rw [hp, add_add_ofNat] at hat' hp'
    rw [joined_cons, List.length_append, List.length_cons,
      show l.length + ((joined newline ls).length + 1) =
        l.length + 1 + (joined newline ls).length by omega]
    refine ⟨hat', hp', ?_⟩
    rw [hout', hout, selected_cons, List.append_assoc]

structure Carries (buf : UInt32) (s : State) (c : List UInt8) : Prop where
  stored : At s.mem buf c
  length : s.m = c.length
  plain : Plain c

theorem moved_at {m : Memory} {p : UInt32} {n : Nat} (h : At m p r) (hle : buf ≤ p)
    (hp : p.toNat + r.length ≤ 2 ^ 32) (hbuf : buf.toNat + r.length ≤ 2 ^ 32)
    (hn : n = r.length) (hsmall : n < 2 ^ 31) :
    At (Ulib.memmove buf p (Int32.ofNat n) m) buf r := by
  subst hn
  have hcount : (Int32.ofNat r.length).toInt.toNat = r.length :=
    Int32.toNatClampNeg_ofNat_of_lt hsmall
  rw [Ulib.memmove, hcount, (copyUp_eq_moved_iff hp hbuf).mpr]
  · intro i x hx
    rw [moved_add (List.getElem?_eq_some_iff.mp hx).1 (by omega)]
    exact h i x hx
  · intro hlt
    exact absurd hlt (UInt32.not_lt.mpr hle)

variable (re) in
theorem round_spec {s : State} {c piece : List UInt8} (h : Carries buf s c)
    (hbuf : buf.toNat + bufSize ≤ 2 ^ 32) (hfit : piece.length ≤ bufSize - s.m - 1)
    (hne : 0 < piece.length) (hsplit : c ++ piece = joined newline ls ++ r)
    (hls : ∀ l ∈ ls, Plain l) (hr : Plain r) :
    Carries buf (round re buf s piece) (if ls = [] then [] else r) ∧
      (round re buf s piece).out = s.out ++ selected re ls := by
  have htotal : (joined newline ls).length + r.length = s.m + piece.length := by
    rw [← List.length_append, ← hsplit, List.length_append, h.length]
  have hsize : s.m + piece.length < bufSize := by omega
  have hbig := bufSize_lt
  have hlines := length_le_joined newline ls
  -- the buffer after the read, closed by a NUL
  obtain ⟨mem, hmem⟩ : ∃ mem, mem = Function.update
    (s.mem.write (buf + ofNat s.m) piece) (buf + ofNat (s.m + piece.length)) 0 :=
    ⟨_, rfl⟩
  have hat : At mem buf (joined newline ls ++ (r ++ [0])) := by
    rw [← List.append_assoc, ← hsplit, hmem]
    have hwrite : At (write s.mem (buf + ofNat c.length) piece) buf (c ++ piece) :=
      h.stored.write_append (by
        rw [List.length_append, ← h.length]
        omega)
    rw [← h.length] at hwrite
    have hlen : (c ++ piece).length = s.m + piece.length := by
      rw [List.length_append, h.length]
    refine at_append.mpr ⟨hwrite.update ?_, at_cons.mpr ⟨?_, at_nil⟩⟩
    · rw [hlen, sub_add_ofNat (by omega)]
    · rw [hlen]
      exact Function.update_self ..
  obtain ⟨hat', hp, hout⟩ := scanLines_spec re (s := ⟨mem, buf, s.out⟩) (n := bufSize) hat
    hls hr (by
      rw [List.length_append, List.length_append, List.length_singleton]
      omega) (by omega)
  simp only at hat' hp hout
  unfold round
  simp only
  rw [← hmem, hp]
  by_cases hnil : ls = []
  · subst hnil
    rw [joined_nil, List.length_nil, add_zero_ofNat, if_pos rfl, if_pos rfl,
      if_neg (Nat.lt_irrefl 0)]
    exact ⟨⟨at_nil, rfl, List.not_mem_nil, List.not_mem_nil⟩, hout⟩
  · have hpos : 0 < (joined newline ls).length :=
      Nat.lt_of_lt_of_le (List.length_pos_iff.mpr hnil) hlines
    have hmoved : buf + ofNat (joined newline ls).length ≠ buf := by
      intro heq
      have hsub := sub_add_ofNat (d := buf) (i := (joined newline ls).length) (by omega)
      rw [heq, UInt32.sub_self] at hsub
      exact absurd hsub (Nat.ne_of_lt hpos)
    rw [if_neg hnil, if_neg hmoved, if_pos (by omega), sub_add_ofNat (by omega)]
    have haddr := toNat_add_ofNat (d := buf) (i := (joined newline ls).length) (by omega)
    refine ⟨⟨moved_at hat' ?_ (by omega) (by omega) (by omega) (by omega), ?_, hr⟩, hout⟩
    · rw [UInt32.le_iff_toNat_le]
      omega
    · change s.m + piece.length - _ = r.length
      omega

end BossOs.Grep
