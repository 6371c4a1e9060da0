import BossOs.Lib.Loop
import BossOs.Lib.Numeral
import Mathlib.Data.UInt

/-!
# Printing and reading integers

`printint` of `console.c` and of `printf.c`, and `atoi` of `ulib.c`. The digits are stored in
`buf` from the lowest on and put out from the end; `n` bounds the turns of the loop that divides.
Integers wrap around, so `-xx` of the least one is the number itself.
-/

namespace BossOs.Print

open Lib

def minus : UInt8 := 45

/-- `buf[i++] = c`, where `buf` has the bytes stored so far; nothing beyond `buf[15]`. -/
def store (buf : List UInt8) (c : UInt8) : Option (List UInt8) :=
  if buf.length < 16 then some (buf ++ [c]) else none

def digitRound (digits : List UInt8) (base : UInt32) (s : UInt32 × List UInt8) :
    Round (UInt32 × List UInt8) (Option (List UInt8)) :=
  match store s.2 (digits.getD (s.1 % base).toNat 0) with
  | none => .leave none
  | some buf => if s.1 / base ≠ 0 then .again (s.1 / base, buf) else .leave (some buf)

def putBack (buf : List UInt8) : Nat → List UInt8
  | 0 => []
  | i + 1 => buf.getD i 0 :: putBack buf i

/-- What follows the sign in both functions: the bytes put out, or nothing if `buf` is overrun. -/
def putDigits (digits : List UInt8) (n : Nat) (x base : UInt32) (neg : Bool) :
    Option (Option (List UInt8)) :=
  (Loop.run (digitRound digits base) n (x, [])).map fun stored =>
    (stored.bind fun buf => if neg then store buf minus else some buf).map fun buf =>
      putBack buf buf.length

def Console.digits : List UInt8 :=
  ['0', '1', '2', '3', '4', '5', '6', '7', '8', '9', 'a', 'b', 'c', 'd', 'e', 'f'].map
    fun c => UInt8.ofNat c.toNat

def Printf.digits : List UInt8 :=
  ['0', '1', '2', '3', '4', '5', '6', '7', '8', '9', 'A', 'B', 'C', 'D', 'E', 'F'].map
    fun c => UInt8.ofNat c.toNat

def Console.printint (n : Nat) (xx : Int32) (base : UInt32) (sign : Bool) :
    Option (Option (List UInt8)) :=
  let sign := if sign then decide (xx < 0) else sign
  putDigits Console.digits n (if sign then (-xx).toUInt32 else xx.toUInt32) base sign

def Printf.printint (n : Nat) (xx : Int32) (base : UInt32) (sgn : Bool) :
    Option (Option (List UInt8)) :=
  if sgn ∧ xx < 0 then putDigits Printf.digits n (-xx).toUInt32 base true
  else putDigits Printf.digits n xx.toUInt32 base false

def atoiFrom (n : Int32) : List UInt8 → Int32
  | [] => n
  | c :: s => if 48 ≤ c ∧ c ≤ 57 then atoiFrom (n * 10 + Int32.ofNat c.toNat - 48) s else n

def atoi (s : List UInt8) : Int32 := atoiFrom 0 s

variable {neg : Bool}

section Loops

variable {digits buf : List UInt8} {x base : UInt32} {n : Nat}

theorem putBack_length (buf : List UInt8) : putBack buf buf.length = buf.reverse := by
  have hpre : ∀ i ≤ buf.length, putBack buf i = (buf.take i).reverse := by
    intro i hi
    induction i with
    | zero => rfl
    | succ i ih =>
      rw [putBack, ih (Nat.le_of_succ_le hi), List.take_add_one, List.reverse_append,
        List.getElem?_eq_getElem hi, List.getD_eq_getElem?_getD, List.getElem?_eq_getElem hi]
      rfl
  rw [hpre _ (Nat.le_refl _), List.take_length]

def shown (digits : List UInt8) (ds : List Nat) : List UInt8 := ds.map (digits.getD · 0)

theorem run_digitRound (hb : 1 < base.toNat)
    (hfit : buf.length + (numeral base.toNat x.toNat).length ≤ 16)
    (hn : (numeral base.toNat x.toNat).length ≤ n) : Loop.run (digitRound digits base) n (x, buf) =
      some (some (buf ++ shown digits (numeral base.toNat x.toNat))) := by
  induction n generalizing x buf with
  | zero => exact absurd hn (Nat.not_succ_le_zero _)
  | succ n ih =>
    have hstore : store buf (digits.getD (x % base).toNat 0) =
        some (buf ++ [digits.getD (x.toNat % base.toNat) 0]) := by
      rw [numeral, List.length_cons] at hfit
      rw [store, if_pos (by omega), UInt32.toNat_mod]
    have hdiv : x / base ≠ 0 ↔ x.toNat / base.toNat ≠ 0 := by
      rw [Ne, ← UInt32.toNat_inj, UInt32.toNat_div]
      rfl
    by_cases h0 : x / base ≠ 0
    · have hround : digitRound digits base (x, buf) =
          .again (x / base, buf ++ [digits.getD (x.toNat % base.toNat) 0]) := by
        rw [digitRound, hstore]
        exact if_pos h0
      rw [numeral_of_div_ne_zero hb (hdiv.mp h0), ← UInt32.toNat_div, List.length_cons] at hfit hn
      rw [Loop.run_again hround, ih (by rw [List.length_append, List.length_singleton]; omega)
        (by omega), numeral_of_div_ne_zero hb (hdiv.mp h0), ← UInt32.toNat_div, shown, shown,
        List.map_cons, List.append_assoc]
      rfl
    · have hround : digitRound digits base (x, buf) =
          .leave (some (buf ++ [digits.getD (x.toNat % base.toNat) 0])) := by
        rw [digitRound, hstore]
        exact if_neg h0
      rw [Loop.run_leave hround, numeral_of_div_eq_zero (by_contra fun h => h0 (hdiv.mpr h))]
      rfl

def text (digits : List UInt8) (neg : Bool) (ds : List Nat) : List UInt8 :=
  (if neg then [minus] else []) ++ shown digits ds.reverse

theorem putDigits_eq (hb : 1 < base.toNat) (hfit : (numeral base.toNat x.toNat).length ≤ 15)
    (hn : (numeral base.toNat x.toNat).length ≤ n) : putDigits digits n x base neg =
      some (some (text digits neg (numeral base.toNat x.toNat))) := by
  rw [putDigits, run_digitRound hb (by rw [List.length_nil]; omega) hn, List.nil_append,
    Option.map_some, Option.bind_some, text]
  have hrev : shown digits (numeral base.toNat x.toNat).reverse =
      (shown digits (numeral base.toNat x.toNat)).reverse := List.map_reverse
  rw [hrev]
  cases neg with
  | false => exact congrArg (fun out => some (some out)) (putBack_length _)
  | true =>
    have hstore : store (shown digits (numeral base.toNat x.toNat)) minus =
        some (shown digits (numeral base.toNat x.toNat) ++ [minus]) := by
      rw [store, if_pos]
      rw [shown, List.length_map]
      omega
    rw [if_pos rfl, hstore, Option.map_some, putBack_length, List.reverse_append]
    rfl

end Loops

def signed (neg : Bool) (m : Nat) : Int := if neg then -(m : Int) else m

/-- `out` is a numeral of `v`: digits, after a minus sign for the negative of their value. -/
def Denotes (digits : List UInt8) (b : Nat) (out : List UInt8) (v : Int) : Prop :=
  ∃ neg ds, ds ≠ [] ∧ (∀ d ∈ ds, d < b) ∧ out = text digits neg ds ∧
    v = signed neg (Nat.ofDigits b ds)

def Shortest (digits : List UInt8) (b : Nat) (out : List UInt8) (v : Int) : Prop :=
  Denotes digits b out v ∧ ∀ out', Denotes digits b out' v → out' ≠ out → out.length < out'.length

theorem length_text (digits : List UInt8) (neg : Bool) (ds : List Nat) :
    (text digits neg ds).length = neg.toNat + ds.length := by
  rw [text, List.length_append, shown, List.length_map, List.length_reverse]
  cases neg with
  | false => rfl
  | true => rfl

theorem shortest_text {digits : List UInt8} {b m : Nat} (hb : 1 < b) (hneg : neg = true → m ≠ 0) :
    Shortest digits b (text digits neg (numeral b m)) (signed neg m) := by
  constructor
  · refine ⟨neg, numeral b m, List.cons_ne_nil _ _, fun d hd => lt_of_mem_numeral hb hd, rfl, ?_⟩
    rw [ofDigits_numeral]
  · rintro out' ⟨neg', ds, hne, hlt, rfl, hv⟩ hout
    rw [length_text, length_text]
    have hcases : Nat.ofDigits b ds = m ∧ (neg' = neg ∨ m = 0 ∧ neg' = true) := by
      cases neg with
      | false =>
        cases neg' with
        | false => exact ⟨(Int.ofNat.inj hv).symm, Or.inl rfl⟩
        | true =>
          change (m : Int) = -(Nat.ofDigits b ds : Nat) at hv
          exact ⟨by omega, Or.inr ⟨by omega, rfl⟩⟩
      | true =>
        have h0 := hneg rfl
        cases neg' with
        | false =>
          change -(m : Int) = (Nat.ofDigits b ds : Nat) at hv
          omega
        | true =>
          change -(m : Int) = -(Nat.ofDigits b ds : Nat) at hv
          exact ⟨by omega, Or.inl rfl⟩
    obtain ⟨hval, hsign⟩ := hcases
    rcases numeral_minimal hb hne hlt hval with heq | hlen
    · -- the same digits, so the sign differs
      rcases hsign with rfl | ⟨rfl, rfl⟩
      · exact absurd (by rw [heq]) hout
      · cases neg with
        | false =>
          rw [← heq]
          exact Nat.add_lt_add_right Nat.zero_lt_one _
        | true => exact absurd rfl (hneg rfl)
    · rcases hsign with rfl | ⟨rfl, rfl⟩
      · omega
      · cases neg with
        | false => exact Nat.add_lt_add Nat.zero_lt_one hlen
        | true => exact absurd rfl (hneg rfl)

variable {ds : List Nat}

theorem atoiFrom_shown (hlt : ∀ d ∈ ds, d < 10) (n : Nat) :
    atoiFrom (Int32.ofNat n) (shown Console.digits ds) =
      Int32.ofNat (ds.foldl (fun n d => n * 10 + d) n) := by
  induction ds generalizing n with
  | nil => rfl
  | cons d ds ih =>
    obtain ⟨hd, hds⟩ := List.forall_mem_cons.mp hlt
    have htable : ∀ d < 10, Console.digits.getD d 0 = UInt8.ofNat (48 + d) := by decide
    have hnat : (UInt8.ofNat (48 + d)).toNat = 48 + d := by
      rw [UInt8.toNat_ofNat', Nat.mod_eq_of_lt (by omega)]
    have hrange : 48 ≤ UInt8.ofNat (48 + d) ∧ UInt8.ofNat (48 + d) ≤ 57 := by
      rw [UInt8.le_iff_toNat_le, UInt8.le_iff_toNat_le, hnat]
      exact ⟨Nat.le_add_right 48 d, show 48 + d ≤ 57 by omega⟩
    have hnext : Int32.ofNat n * 10 + Int32.ofNat (48 + d) - 48 = Int32.ofNat (n * 10 + d) := by
      have hsum : n * 10 + d = n * 10 + (48 + d) - 48 := by omega
      rw [hsum, Int32.ofNat_sub _ _ (by omega), Int32.ofNat_add (n * 10), Int32.ofNat_mul]
      rfl
    rw [shown, List.map_cons, htable d hd, atoiFrom, if_pos hrange, hnat, hnext, ← shown, ih hds,
      List.foldl_cons]

theorem foldl_reverse_eq_ofDigits (ds : List Nat) :
    ds.reverse.foldl (fun n d => n * 10 + d) 0 = Nat.ofDigits 10 ds := by
  induction ds with
  | nil => rfl
  | cons d ds ih =>
    rw [List.reverse_cons, List.foldl_append, ih, Nat.ofDigits_cons]
    exact (Nat.add_comm _ _).trans (by rw [Nat.mul_comm])

theorem toInt_eq (xx : Int32) : xx.toInt = if 2 * xx.toUInt32.toNat < 2 ^ 32 then
    (xx.toUInt32.toNat : Int) else xx.toUInt32.toNat - (2 ^ 32 : Nat) :=
  BitVec.toInt_eq_toNat_cond _

theorem ofNat_toUInt32 (xx : Int32) : Int32.ofNat xx.toUInt32.toNat = xx := by
  change (UInt32.ofNat xx.toUInt32.toNat).toInt32 = xx
  rw [UInt32.ofNat_toNat]
  rfl

theorem magnitude (xx : Int32) : xx.toInt = if xx < 0 then signed true (-xx).toUInt32.toNat
      else signed false xx.toUInt32.toNat := by
  have hsize : UInt32.size = 2 ^ 32 := rfl
  have hlt := xx.toUInt32.toNat_lt
  have hint := toInt_eq xx
  rw [Int32.toUInt32_neg, UInt32.toNat_neg, hsize]
  simp only [signed, Bool.false_eq_true, if_true, if_false]
  split
  · rename_i hneg
    rw [Int32.lt_iff_toInt_lt, Int32.toInt_zero] at hneg
    split at hint <;> omega
  · rename_i hpos
    rw [Int32.lt_iff_toInt_lt, Int32.toInt_zero] at hpos
    split at hint <;> omega

def toUpper (c : UInt8) : UInt8 := if 97 ≤ c ∧ c ≤ 122 then c - 32 else c

theorem shown_toUpper (hlt : ∀ d ∈ ds, d < 16) :
    (shown Console.digits ds).map toUpper = shown Printf.digits ds := by
  rw [shown, List.map_map, shown]
  apply List.map_congr_left
  intro d hd
  have hupper : ∀ d < 16, toUpper (Console.digits.getD d 0) = Printf.digits.getD d 0 := by decide
  exact hupper d (hlt d hd)

theorem text_toUpper (hlt : ∀ d ∈ ds, d < 16) :
    (text Console.digits neg ds).map toUpper = text Printf.digits neg ds := by
  rw [text, List.map_append, shown_toUpper fun d hd => hlt d (List.mem_reverse.mp hd), text]
  cases neg with
  | false => rfl
  | true => rfl

section Printint

variable {base : UInt32} {n : Nat}

theorem length_numeral_uint32 (x : UInt32) (hb : base = 10 ∨ base = 16) :
    (numeral base.toNat x.toNat).length ≤ 10 := by
  have hx := x.toNat_lt
  rcases hb with rfl | rfl
  · exact length_numeral_le (by decide) (Nat.lt_trans hx (by decide))
  · exact Nat.le_trans (length_numeral_le (k := 7) (by decide) hx) (by decide)

theorem printint_eq (xx : Int32) (hb : base = 10 ∨ base = 16) (hn : 10 ≤ n) (sign : Bool) :
    Console.printint n xx base sign = some (some (text Console.digits (sign && decide (xx < 0))
      (numeral base.toNat
        (if sign && decide (xx < 0) then (-xx).toUInt32 else xx.toUInt32).toNat))) ∧
    Printf.printint n xx base sign = some (some (text Printf.digits (sign && decide (xx < 0))
      (numeral base.toNat
        (if sign && decide (xx < 0) then (-xx).toUInt32 else xx.toUInt32).toNat))) := by
  have hb1 : 1 < base.toNat := by
    rcases hb with rfl | rfl
    · decide
    · decide
  have hput : ∀ digits x neg, putDigits digits n x base neg =
      some (some (text digits neg (numeral base.toNat x.toNat))) := by
    intro digits x neg
    have hlen := length_numeral_uint32 x hb
    exact putDigits_eq hb1 (by omega) (by omega)
  have hsign : (if sign = true then decide (xx < 0) else sign) = (sign && decide (xx < 0)) := by
    cases sign with
    | false => rfl
    | true => rfl
  constructor
  · rw [Console.printint]
    simp only [hsign]
    exact hput ..
  · rw [Printf.printint]
    by_cases hneg : sign = true ∧ xx < 0
    · rw [if_pos hneg, hput, hneg.1, decide_eq_true hneg.2]
      rfl
    · have hfalse : (sign && decide (xx < 0)) = false := by
        rw [← Bool.not_eq_true, Bool.and_eq_true, decide_eq_true_eq]
        exact hneg
      rw [if_neg hneg, hput, hfalse]
      rfl

end Printint

/-- Both functions print the shortest numeral, signed in base 10 and unsigned in base 16, and differ
in the case of the letters only; `atoi` reads back what is printed of a number that is not
negative. -/
theorem printint_exact {n : Nat} (hn : 10 ≤ n) (xx : Int32) :
    (∃ out, Console.printint n xx 10 true = some (some out) ∧
      Printf.printint n xx 10 true = some (some out) ∧
      Shortest Console.digits 10 out xx.toInt ∧ (0 ≤ xx → atoi out = xx)) ∧
    ∃ out, Console.printint n xx 16 false = some (some out) ∧
      Printf.printint n xx 16 false = some (some (out.map toUpper)) ∧
      Shortest Console.digits 16 out xx.toUInt32.toNat ∧
      Shortest Printf.digits 16 (out.map toUpper) xx.toUInt32.toNat := by
  constructor
  · obtain ⟨hcons, hprintf⟩ := printint_eq xx (Or.inl rfl) hn true
    refine ⟨_, hcons, ?_, ?_, ?_⟩
    · rw [hprintf]
      congr 2
      -- below ten both tables have the same digits
      have hdigits : ∀ d, d < 10 → Printf.digits.getD d 0 = Console.digits.getD d 0 := by decide
      rw [text, text, shown, shown]
      congr 1
      apply List.map_congr_left
      intro d hd
      exact hdigits d (lt_of_mem_numeral (by decide) (List.mem_reverse.mp hd))
    · have hmag := magnitude xx
      by_cases hneg : xx < 0
      · rw [if_pos hneg] at hmag
        have h0 : (-xx).toUInt32.toNat ≠ 0 := by
          intro h0
          rw [h0] at hmag
          rw [Int32.lt_iff_toInt_lt, hmag] at hneg
          exact absurd hneg (by decide)
        rw [Bool.true_and, decide_eq_true hneg, hmag]
        exact shortest_text (by decide) fun _ => h0
      · rw [if_neg hneg] at hmag
        rw [Bool.true_and, decide_eq_false hneg, hmag]
        exact shortest_text (by decide) fun hc => absurd hc Bool.false_ne_true
    · intro hpos
      have hneg : ¬ xx < 0 := Int32.not_lt.mpr hpos
      rw [Bool.true_and, decide_eq_false hneg, atoi, text]
      change atoiFrom (Int32.ofNat 0)
        (shown Console.digits (numeral 10 xx.toUInt32.toNat).reverse) = xx
      rw [atoiFrom_shown fun d hd => lt_of_mem_numeral (by decide) (List.mem_reverse.mp hd),
        foldl_reverse_eq_ofDigits, ofDigits_numeral, ofNat_toUInt32]
  · obtain ⟨hcons, hprintf⟩ := printint_eq xx (Or.inr rfl) hn false
    have hupper : (text Console.digits false (numeral 16 xx.toUInt32.toNat)).map toUpper =
        text Printf.digits false (numeral 16 xx.toUInt32.toNat) :=
      text_toUpper fun d hd => lt_of_mem_numeral (by decide) hd
    refine ⟨text Console.digits false (numeral 16 xx.toUInt32.toNat), hcons, ?_, ?_, ?_⟩
    · rw [hupper]
      exact hprintf
    · exact shortest_text (by decide) fun hc => absurd hc Bool.false_ne_true
    · rw [hupper]
      exact shortest_text (by decide) fun hc => absurd hc Bool.false_ne_true

theorem printint_exact_least : ∃ out, Console.printint 10 Int32.minValue 10 true = some (some out) ∧
    out = [45, 50, 49, 52, 55, 52, 56, 51, 54, 52, 56] ∧
    Shortest Console.digits 10 out Int32.minValue.toInt := by
  obtain ⟨⟨out, hcons, -, hsh, -⟩, -⟩ := printint_exact (Nat.le_refl 10) Int32.minValue
  refine ⟨out, hcons, ?_, hsh⟩
  have heval : Console.printint 10 Int32.minValue 10 true =
      some (some [45, 50, 49, 52, 55, 52, 56, 51, 54, 52, 56]) := by decide +kernel
  rw [heval] at hcons
  exact (Option.some.inj (Option.some.inj hcons)).symm

end BossOs.Print
