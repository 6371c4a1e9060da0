import Mathlib.Data.List.Basic
import Mathlib.Data.Fin.Basic
import Mathlib.Data.Nat.Bitwise
import Mathlib.Tactic.NormNum

/-!
# Fixed-size byte buffers

A buffer of `N` bytes, kept as one little-endian number so that it computes; the two ways a C
program moves bytes in and out of it (`splice` and `slice`), and integers and bits laid over it.
-/

namespace BossOs.Lib

def leNat : List UInt8 → Nat
  | [] => 0
  | x :: xs => x.toNat + 256 * leNat xs

def toLe : Nat → Nat → List UInt8
  | 0, _ => []
  | w + 1, v => UInt8.ofNat (v % 256) :: toLe w (v / 256)

@[simp] theorem length_toLe (w v : Nat) : (toLe w v).length = w := by
  induction w generalizing v with
  | zero => rfl
  | succ w ih => simp [toLe, ih]

theorem leNat_toLe (w v : Nat) : leNat (toLe w v) = v % 256 ^ w := by
  induction w generalizing v with
  | zero => simp [toLe, leNat, Nat.mod_one]
  | succ w ih =>
    have hb : (UInt8.ofNat (v % 256)).toNat = v % 256 := by
      simp [UInt8.toNat_ofNat']
    rw [toLe, leNat, ih, hb, Nat.pow_succ, Nat.mul_comm (256 ^ w) 256, Nat.mod_mul]

theorem leNat_lt (xs : List UInt8) : leNat xs < 256 ^ xs.length := by
  induction xs with
  | nil => simp [leNat]
  | cons x xs ih =>
    have hx : x.toNat < 256 := x.toNat_lt
    rw [leNat, List.length_cons, Nat.pow_succ]
    omega

theorem toLe_leNat (xs : List UInt8) : toLe xs.length (leNat xs) = xs := by
  induction xs with
  | nil => rfl
  | cons x xs ih =>
    have hx : x.toNat < 256 := x.toNat_lt
    have hmod : (x.toNat + 256 * leNat xs) % 256 = x.toNat := by omega
    have hdiv : (x.toNat + 256 * leNat xs) / 256 = leNat xs := by omega
    rw [List.length_cons, toLe, leNat, hmod, hdiv, ih]
    simp

variable {j : Nat}

theorem testBit_ofNat (v : Nat) (hj : j < 8) : (UInt8.ofNat v).toNat.testBit j = v.testBit j := by
  rw [UInt8.toNat_ofNat', Nat.testBit_mod_two_pow]
  simp [hj]

theorem eq_of_testBit {x y : UInt8} (h : ∀ j < 8, x.toNat.testBit j = y.toNat.testBit j) :
    x = y := by
  apply UInt8.toNat_inj.mp
  apply Nat.eq_of_testBit_eq
  intro j
  by_cases hj : j < 8
  · exact h j hj
  · have hp : 2 ^ 8 ≤ 2 ^ j := Nat.pow_le_pow_right (by decide) (by omega)
    rw [Nat.testBit_lt_two_pow (Nat.lt_of_lt_of_le x.toNat_lt hp),
      Nat.testBit_lt_two_pow (Nat.lt_of_lt_of_le y.toNat_lt hp)]

theorem testBit_leNat (xs : List UInt8) (i : Nat) :
    (leNat xs).testBit i = ((xs[i / 8]?).getD 0).toNat.testBit (i % 8) := by
  induction xs generalizing i with
  | nil => simp [leNat]
  | cons x xs ih =>
    have hx : x.toNat < 2 ^ 8 := x.toNat_lt
    rw [leNat, Nat.add_comm, show (256 : Nat) = 2 ^ 8 from rfl, Nat.testBit_two_pow_mul_add _ hx]
    by_cases hi : i < 8
    · rw [if_pos hi, Nat.div_eq_of_lt hi, Nat.mod_eq_of_lt hi]
      rfl
    · have h1 : i / 8 = (i - 8) / 8 + 1 := by omega
      have h2 : i % 8 = (i - 8) % 8 := by omega
      rw [if_neg hi, ih, h1, h2, List.getElem?_cons_succ]

abbrev Bytes (N : Nat) := BitVec (8 * N)

namespace Bytes

variable {N : Nat}

def zero : Bytes N := 0

def get (b : Bytes N) (i : Nat) : UInt8 := UInt8.ofNat (b.toNat >>> (8 * i))

/-- Store the list `src` at offset `off`; bytes that would fall past the end are dropped. -/
def splice (b : Bytes N) (off : Nat) (src : List UInt8) : Bytes N :=
  b &&& ~~~(BitVec.ofNat _ ((2 ^ (8 * src.length) - 1) <<< (8 * off))) |||
    BitVec.ofNat _ (leNat src <<< (8 * off))

def slice (b : Bytes N) (off n : Nat) : List UInt8 := (List.range n).map fun i => b.get (off + i)

@[simp] theorem get_zero (i : Nat) : (zero : Bytes N).get i = 0 := by
  simp [get, zero]

theorem testBit_get (b : Bytes N) (i : Nat) (hj : j < 8) :
    (b.get i).toNat.testBit j = b.getLsbD (8 * i + j) := by
  rw [get, testBit_ofNat _ hj, Nat.testBit_shiftRight, BitVec.getLsbD]

theorem ext_get {a b : Bytes N} (h : ∀ i < N, a.get i = b.get i) : a = b := by
  apply BitVec.eq_of_getLsbD_eq
  intro j hj
  have hb := testBit_get a (j / 8) (j := j % 8) (by omega)
  rw [h (j / 8) (by omega), testBit_get b _ (by omega), Nat.div_add_mod] at hb
  exact hb.symm

theorem get_splice (b : Bytes N) (off : Nat) (src : List UInt8) {i : Nat} (hi : i < N) :
    (b.splice off src).get i = if off ≤ i then (src[i - off]?).getD (b.get i) else b.get i := by
  apply eq_of_testBit
  intro j hj
  have hlt : 8 * i + j < 8 * N := by omega
  rw [testBit_get _ _ hj]
  simp only [splice, BitVec.getLsbD_or, BitVec.getLsbD_and, BitVec.getLsbD_not, BitVec.getLsbD_ofNat,
    hlt, decide_true, Bool.true_and, Nat.testBit_shiftLeft, Nat.testBit_two_pow_sub_one,
    testBit_leNat]
  by_cases ho : off ≤ i
  · have h1 : 8 * off ≤ 8 * i + j := by omega
    have h2 : (8 * i + j - 8 * off) / 8 = i - off := by omega
    have h3 : (8 * i + j - 8 * off) % 8 = j := by omega
    rw [if_pos ho, h2, h3]
    by_cases hs : i - off < src.length
    · simp [h1, List.getElem?_eq_getElem hs, show 8 * i + j - 8 * off < 8 * src.length by omega]
    · simp [List.getElem?_eq_none (show src.length ≤ i - off by omega), testBit_get _ _ hj,
        show ¬ 8 * i + j - 8 * off < 8 * src.length by omega]
  · have h1 : ¬ 8 * off ≤ 8 * i + j := by omega
    rw [if_neg ho, testBit_get _ _ hj]
    simp [h1]

@[simp] theorem length_slice (b : Bytes N) (off n : Nat) : (b.slice off n).length = n := by
  simp [slice]

theorem getElem?_slice (b : Bytes N) (off n i : Nat) :
    (b.slice off n)[i]? = if i < n then some (b.get (off + i)) else none := by
  by_cases hi : i < n
  · simp [slice, hi]
  · simp [slice, hi]

theorem slice_splice_self (b : Bytes N) (off : Nat) (src : List UInt8)
    (h : off + src.length ≤ N) : (b.splice off src).slice off src.length = src := by
  apply List.ext_getElem?
  intro i
  rw [getElem?_slice]
  by_cases hi : i < src.length
  · rw [if_pos hi, get_splice b off src (by omega), if_pos (Nat.le_add_right off i),
      Nat.add_sub_cancel_left, List.getElem?_eq_getElem hi]
    rfl
  · rw [if_neg hi, List.getElem?_eq_none (by omega)]

theorem slice_splice_of_disjoint (b : Bytes N) (off off' n : Nat) (src : List UInt8)
    (hn : off' + n ≤ N) (h : off' + n ≤ off ∨ off + src.length ≤ off') :
    (b.splice off src).slice off' n = b.slice off' n := by
  apply List.ext_getElem?
  intro i
  rw [getElem?_slice, getElem?_slice]
  by_cases hi : i < n
  · rw [if_pos hi, if_pos hi, get_splice b off src (by omega)]
    by_cases ho : off ≤ off' + i
    · rw [if_pos ho, List.getElem?_eq_none (by omega)]
      rfl
    · rw [if_neg ho]
  · rw [if_neg hi, if_neg hi]

theorem splice_slice (b : Bytes N) (off n : Nat) : b.splice off (b.slice off n) = b := by
  apply ext_get
  intro i hi
  rw [get_splice _ _ _ hi, getElem?_slice]
  split
  · rename_i ho
    split
    · rw [Nat.add_sub_cancel' ho]
      rfl
    · rfl
  · rfl

end Bytes

namespace Bytes

variable {N : Nat}

def word (b : Bytes N) (k : Nat) : Nat := leNat (b.slice (4 * k) 4)

def setWord (b : Bytes N) (k v : Nat) : Bytes N := b.splice (4 * k) (toLe 4 v)

theorem word_lt (b : Bytes N) (k : Nat) : b.word k < 2 ^ 32 := by
  have h := leNat_lt (b.slice (4 * k) 4)
  rw [length_slice] at h
  exact h

theorem word_setWord_self (b : Bytes N) {k : Nat} (v : Nat) (hk : 4 * k + 4 ≤ N) :
    (b.setWord k v).word k = v % 2 ^ 32 := by
  have h := slice_splice_self b (4 * k) (toLe 4 v) (by simpa using hk)
  rw [length_toLe] at h
  rw [word, setWord, h, leNat_toLe]
  norm_num

theorem word_setWord_of_ne (b : Bytes N) {k : Nat} (v : Nat) (hj : 4 * j + 4 ≤ N) (hne : j ≠ k) :
    (b.setWord k v).word j = b.word j := by
  rw [word, setWord, slice_splice_of_disjoint _ _ _ _ _ hj, word]
  rw [length_toLe]
  omega

theorem setWord_word (b : Bytes N) (k : Nat) : b.setWord k (b.word k) = b := by
  have h := toLe_leNat (b.slice (4 * k) 4)
  rw [length_slice] at h
  rw [setWord, word, h]
  exact splice_slice b _ _

@[simp] theorem word_zero (k : Nat) : (zero : Bytes N).word k = 0 := by
  simp [word, slice, leNat, List.range_succ]

def setWords (b : Bytes N) (k : Nat) : List Nat → Bytes N
  | [] => b
  | v :: vs => (b.setWord k v).setWords (k + 1) vs

theorem word_setWords (b : Bytes N) (k : Nat) (vs : List Nat) (hj : 4 * j + 4 ≤ N) :
    (b.setWords k vs).word j =
      if k ≤ j then ((vs[j - k]?).map (· % 2 ^ 32)).getD (b.word j) else b.word j := by
  induction vs generalizing b k with
  | nil => simp [setWords]
  | cons v vs ih =>
    rw [setWords, ih]
    rcases Nat.lt_trichotomy j k with hlt | heq | hgt
    · rw [if_neg (by omega), if_neg (by omega), word_setWord_of_ne _ _ hj (by omega)]
    · subst heq
      rw [if_neg (by omega), if_pos (Nat.le_refl j), word_setWord_self _ _ hj]
      simp
    · have hs : j - k = (j - (k + 1)) + 1 := by omega
      rw [if_pos (by omega), if_pos (by omega), word_setWord_of_ne _ _ hj (by omega), hs,
        List.getElem?_cons_succ]

def bit (b : Bytes N) (i : Nat) : Bool := (b.get (i / 8)).toNat.testBit (i % 8)

def setBit (b : Bytes N) (i : Nat) : Bytes N :=
  b.splice (i / 8) [UInt8.ofNat ((b.get (i / 8)).toNat ||| 1 <<< (i % 8))]

def clearBit (b : Bytes N) (i : Nat) : Bytes N :=
  b.splice (i / 8) [UInt8.ofNat ((b.get (i / 8)).toNat &&& (255 ^^^ 1 <<< (i % 8)))]

theorem get_splice_singleton (b : Bytes N) (k : Nat) (x : UInt8) (hj : j < N) :
    (b.splice k [x]).get j = if j = k then x else b.get j := by
  rw [get_splice b k [x] hj]
  by_cases hjk : j = k
  · subst hjk
    simp
  · rw [if_neg hjk]
    by_cases hk : k ≤ j
    · rw [if_pos hk, List.getElem?_eq_none (by simp; omega)]
      rfl
    · rw [if_neg hk]

theorem bit_splice (b : Bytes N) (i v : Nat) (hj : j < 8 * N) :
    (b.splice (i / 8) [UInt8.ofNat v]).bit j =
      if j / 8 = i / 8 then v.testBit (j % 8) else b.bit j := by
  rw [bit, get_splice_singleton _ _ _ (by omega)]
  by_cases hji : j / 8 = i / 8
  · rw [if_pos hji, if_pos hji, testBit_ofNat _ (by omega)]
  · rw [if_neg hji, if_neg hji, bit]

theorem bit_setBit (b : Bytes N) (i : Nat) (hj : j < 8 * N) :
    (b.setBit i).bit j = (b.bit j || decide (j = i)) := by
  rw [setBit, bit_splice _ _ _ hj]
  by_cases hji : j / 8 = i / 8
  · have hiff : (i % 8 = j % 8) ↔ j = i := by omega
    rw [if_pos hji, Nat.testBit_or, Nat.one_shiftLeft, Nat.testBit_two_pow, bit, hji]
    simp only [hiff]
  · have hne : j ≠ i := by rintro rfl; exact hji rfl
    simp [hji, hne]

theorem bit_clearBit (b : Bytes N) (i : Nat) (hj : j < 8 * N) :
    (b.clearBit i).bit j = (b.bit j && decide (j ≠ i)) := by
  rw [clearBit, bit_splice _ _ _ hj]
  by_cases hji : j / 8 = i / 8
  · have hiff : (i % 8 = j % 8) ↔ j = i := by omega
    have h255 : (255 : Nat).testBit (j % 8) = true := by
      have h : j % 8 < 8 := by omega
      have h' := Nat.testBit_two_pow_sub_one 8 (j % 8)
      simpa [h] using h'
    rw [if_pos hji, Nat.testBit_and, Nat.testBit_xor, h255, Nat.one_shiftLeft, Nat.testBit_two_pow,
      bit, hji]
    simp [hiff]
  · have hne : j ≠ i := by rintro rfl; exact hji rfl
    simp [hji, hne]

def lowBits (n : Nat) : Bytes N := (List.range n).foldl setBit zero

theorem lowBits_succ (n : Nat) : (lowBits (n + 1) : Bytes N) = (lowBits n).setBit n := by
  unfold lowBits
  rw [List.range_succ, List.foldl_append]
  rfl

theorem bit_lowBits (n : Nat) {i : Nat} (hi : i < 8 * N) :
    (lowBits n : Bytes N).bit i = decide (i < n) := by
  induction n with
  | zero =>
    have h0 : (lowBits 0 : Bytes N).bit i = false := by
      unfold lowBits bit
      simp
    rw [h0]
    simp
  | succ n ih =>
    rw [lowBits_succ, bit_setBit _ _ hi, ih, Bool.eq_iff_iff]
    simp only [Bool.or_eq_true, decide_eq_true_iff]
    omega

end Bytes

end BossOs.Lib
