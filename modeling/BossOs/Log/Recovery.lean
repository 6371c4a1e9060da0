import Mathlib.Data.List.GetD
import BossOs.Log.Model

/-!
# Recovery

`Recoverable g disk target` is what a crash may find: the blocks the header names have their final
contents in the log, and all other home blocks have them in place.
-/

namespace BossOs.Log

open Lib
open Function (update update_self update_of_ne)

theorem word_setHead (hb : Block) {lh : List Nat} (hlen : lh.length ≤ LOGSIZE) :
    (setHead hb lh).word 0 = lh.length := by
  have hlen' : lh.length ≤ 30 := hlen
  rw [setHead, Bytes.word_setWords _ _ _ (by decide), if_neg (by omega),
    Bytes.word_setWord_self _ _ (by decide), Nat.mod_eq_of_lt (by omega)]

theorem getHead_setHead (hb : Block) {lh : List Nat} (hlen : lh.length ≤ LOGSIZE)
    (hlt : ∀ b ∈ lh, b < 2 ^ 32) : getHead (setHead hb lh) = lh := by
  have hlen' : lh.length ≤ 30 := hlen
  rw [getHead, word_setHead hb hlen, if_pos (by omega)]
  apply List.ext_getElem (by simp)
  intro i h1 h2
  have hfit : 4 * (1 + i) + 4 ≤ BSIZE := by
    simp only [BSIZE]
    omega
  rw [List.getElem_map, List.getElem_range, setHead, Bytes.word_setWords _ _ _ hfit,
    if_pos (by omega), Nat.add_sub_cancel_left, List.getElem?_eq_getElem h2]
  exact Nat.mod_eq_of_lt (hlt _ (List.getElem_mem h2))

theorem setHead_nil_of_word {hb : Block} (h : hb.word 0 = 0) : setHead hb [] = hb := by
  have hs := Bytes.setWord_word hb 0
  rw [h] at hs
  rw [setHead, List.length_nil, hs, Bytes.setWords]

structure Recoverable (g : Geometry) (disk target : Nat → Block) : Prop where
  count : (disk g.start).word 0 = (getHead (disk g.start)).length
  room : (getHead (disk g.start)).length ≤ g.size - 1
  home : ∀ b ∈ getHead (disk g.start), ¬ g.InLog b
  copy : ∀ i (hi : i < (getHead (disk g.start)).length),
    disk (g.start + i + 1) = target (getHead (disk g.start))[i]
  rest : ∀ b, ¬ g.InLog b → b ∉ getHead (disk g.start) → disk b = target b

def Settled (g : Geometry) (disk target : Nat → Block) : Prop := ∀ b, ¬ g.InLog b → disk b = target b

section
variable {g : Geometry} {disk target : Nat → Block}

theorem getHead_of_word_zero {hb : Block} (h : hb.word 0 = 0) : getHead hb = [] := by
  simp [getHead, h]

theorem Recoverable.of_clean (h0 : (disk g.start).word 0 = 0) (hs : Settled g disk target) :
    Recoverable g disk target := by
  have hg := getHead_of_word_zero h0
  refine ⟨by rw [hg, h0]; rfl, by simp [hg], by simp [hg], ?_, fun b hb _ => hs b hb⟩
  intro i hi
  simp [hg] at hi

theorem Recoverable.log_inLog (h : Recoverable g disk target) {i : Nat}
    (hi : i < (getHead (disk g.start)).length) : g.InLog g.start ∧ g.InLog (g.start + i + 1) := by
  have hr := h.room
  exact ⟨⟨by omega, by omega⟩, ⟨by omega, by omega⟩⟩

theorem update_home_of_inLog (disk : Nat → Block) {b c : Nat} (v : Block) (hb : ¬ g.InLog b)
    (hc : g.InLog c) : update disk b v c = disk c := by
  apply update_of_ne
  rintro rfl
  exact hb hc

theorem Recoverable.install (h : Recoverable g disk target) {i : Nat}
    (hi : i < (getHead (disk g.start)).length) :
    Recoverable g (update disk (getHead (disk g.start))[i] (disk (g.start + i + 1))) target := by
  have hb := h.home _ (List.getElem_mem hi)
  have hstart := update_home_of_inLog disk (disk (g.start + i + 1)) hb (h.log_inLog hi).1
  refine ⟨?_, ?_, ?_, ?_, ?_⟩
  · rw [hstart]
    exact h.count
  · rw [hstart]
    exact h.room
  · rw [hstart]
    exact h.home
  · rw [hstart]
    intro j hj
    rw [update_home_of_inLog disk _ hb (h.log_inLog hj).2]
    exact h.copy j hj
  · rw [hstart]
    intro c hc hnot
    have hne : c ≠ (getHead (disk g.start))[i] := by
      rintro rfl
      exact hnot (List.getElem_mem hi)
    rw [update_of_ne hne]
    exact h.rest c hc hnot

def InstalledTo (disk target : Nat → Block) (lh : List Nat) (tail : Nat) : Prop :=
  ∀ i (hi : i < lh.length), i < tail → disk lh[i] = target lh[i]

theorem InstalledTo.step {lh : List Nat} {tail : Nat} (h : InstalledTo disk target lh tail)
    (ht : tail < lh.length) {v : Block} (hv : v = target lh[tail]) :
    InstalledTo (update disk lh[tail] v) target lh (tail + 1) := by
  intro i hi hlt
  by_cases he : lh[i] = lh[tail]
  · rw [he, update_self, hv]
  · rw [update_of_ne he]
    have hne : i ≠ tail := by
      rintro rfl
      exact he rfl
    exact h i hi (by omega)

theorem Recoverable.settled (h : Recoverable g disk target) {tail : Nat}
    (hall : InstalledTo disk target (getHead (disk g.start)) tail)
    (ht : (getHead (disk g.start)).length ≤ tail) : Settled g disk target := by
  intro b hb
  by_cases hm : b ∈ getHead (disk g.start)
  · obtain ⟨i, hi, rfl⟩ := List.mem_iff_getElem.mp hm
    exact hall i hi (by omega)
  · exact h.rest b hb hm

theorem Recoverable.erase (h : Recoverable g disk target) (hs : Settled g disk target) :
    Settled g (update disk g.start (setHead (disk g.start) [])) target := by
  intro b hb
  by_cases he : b = g.start
  · subst he
    have hr := h.room
    have hz : g.size = 0 := by
      by_contra hne
      exact hb ⟨by omega, by omega⟩
    have h0 : (disk g.start).word 0 = 0 := by
      rw [h.count]
      omega
    rw [update_self, setHead_nil_of_word h0]
    exact hs _ hb
  · rw [update_of_ne he]
    exact hs b hb

end

inductive RecoverPc where
  | readHead | installTrans (tail : Nat) | clearN | writeHead | done
  deriving DecidableEq, Repr

structure Recovery where
  dev : Dev
  lh : List Nat
  pc : RecoverPc

inductive RecoverAct where
  | run | crash

def boot (d : Dev) : Recovery := ⟨d.reboot, [], .readHead⟩

def recoverStep (g : Geometry) (r : Recovery) : RecoverAct → Option Recovery
  | .crash => some (boot r.dev)
  | .run =>
    match r.pc with
    | .readHead => some { r with lh := getHead (r.dev.bread g.start), pc := .installTrans 0 }
    | .installTrans tail =>
      if tail < r.lh.length then
        some { r with dev := installStep g r.lh tail r.dev, pc := .installTrans (tail + 1) }
      else some { r with pc := .clearN }
    | .clearN => some { r with lh := [], pc := .writeHead }
    | .writeHead => some { r with dev := writeHead g r.lh r.dev, pc := .done }
    | .done => none

/-- What holds at each point of a recovery towards `target`. -/
structure RecoverInv (g : Geometry) (target : Nat → Block) (r : Recovery) : Prop where
  coherent : r.dev.cache = r.dev.disk
  disk : Recoverable g r.dev.disk target
  atPc : match r.pc with
    | .readHead => True
    | .installTrans tail => r.lh = getHead (r.dev.disk g.start) ∧
        InstalledTo r.dev.disk target r.lh tail
    | .clearN => Settled g r.dev.disk target
    | .writeHead => r.lh = [] ∧ Settled g r.dev.disk target
    | .done => (r.dev.disk g.start).word 0 = 0 ∧ Settled g r.dev.disk target

theorem recoverInv_boot {g : Geometry} {target : Nat → Block} {d : Dev}
    (h : Recoverable g d.disk target) : RecoverInv g target (boot d) := ⟨rfl, h, trivial⟩

theorem recoverInv_step {g : Geometry} {target : Nat → Block} {r r' : Recovery} {a : RecoverAct}
    (hi : RecoverInv g target r) (h : recoverStep g r a = some r') : RecoverInv g target r' := by
  obtain ⟨⟨cache, disk⟩, lh, pc⟩ := r
  obtain ⟨hc, hd, hp⟩ := hi
  simp only at hc hd hp
  subst hc
  cases a with
  | crash =>
    cases h
    exact recoverInv_boot hd
  | run =>
    cases pc with
    | readHead =>
      cases h
      refine ⟨rfl, hd, ?_⟩
      dsimp only
      exact ⟨rfl, fun i _ hlt => absurd hlt (Nat.not_lt_zero i)⟩
    | installTrans tail =>
      obtain ⟨rfl, hall⟩ := hp
      simp only [recoverStep] at h
      split at h <;> cases h
      · rename_i ht
        have hstart := update_home_of_inLog cache (cache (g.start + tail + 1))
          (hd.home _ (List.getElem_mem ht)) (hd.log_inLog ht).1
        simp only [installStep, Dev.bwrite, Dev.bread, List.getD_eq_getElem _ _ ht]
        refine ⟨rfl, hd.install ht, ?_⟩
        dsimp only
        exact ⟨(congrArg getHead hstart).symm, hall.step ht (hd.copy tail ht)⟩
      · rename_i ht
        exact ⟨rfl, hd, hd.settled hall (by omega)⟩
    | clearN =>
      cases h
      exact ⟨rfl, hd, rfl, hp⟩
    | writeHead =>
      obtain ⟨rfl, hs⟩ := hp
      cases h
      simp only [writeHead, Dev.bwrite, Dev.bread]
      have hword : (update cache g.start (setHead (cache g.start) []) g.start).word 0 = 0 := by
        rw [update_self, word_setHead _ (by simp)]
        rfl
      have hset := hd.erase hs
      exact ⟨rfl, .of_clean hword hset, hword, hset⟩
    | done => simp [recoverStep] at h

theorem recovered {g : Geometry} {target : Nat → Block} {d : Dev} {acts : List RecoverAct}
    {r : Recovery} (hd : Recoverable g d.disk target)
    (h : Run (fun _ _ => True) (recoverStep g) (boot d) acts r) (hdone : r.pc = .done) :
    Settled g r.dev.disk target ∧ (r.dev.disk g.start).word 0 = 0 := by
  have hi := h.invariant (I := RecoverInv g target)
    (fun _ _ _ hi _ hs => recoverInv_step hi hs) (recoverInv_boot hd)
  have hp := hi.atPc
  rw [hdone] at hp
  exact ⟨hp.2, hp.1⟩

end BossOs.Log
