import BossOs.Lib.Discipline
import BossOs.Log.Model

/-!
# What one step of the log can do

`Moves` lists the outcomes of `step`, guards included, and `step_moves` is the only
place where the step functions are unfolded.
-/

namespace BossOs.Log

open Lib

variable {P : Type} [DecidableEq P]

namespace Pc

def acquires : Pc → Option Pc
  | .beginAcquire | .sleepReacquire => some .beginTest
  | .logAcquire b => some (.logAppend b)
  | .endAcquire => some .endCount
  | .doneAcquire => some .doneClear
  | _ => none

def acquiresPtable : Pc → Option Pc
  | .sleepAcquire => some .sleepRelease
  | .runnable => some .sleepTidy
  | .endWakeAcquire => some .endWake
  | .doneWakeAcquire => some .doneWake
  | _ => none

def releases : Pc → Option Pc
  | .beginRelease => some .inOp
  | .sleepRelease => some .sleepSet
  | .endRelease doCommit => some (if doCommit then .commitTest else .user)
  | .doneRelease => some .user
  | _ => none

def releasesPtable : Pc → Option Pc
  | .sleepSet => some .asleep
  | .sleepTidy => some .sleepReacquire
  | _ => none

def wakes : Pc → Option Pc
  | .endWake => some (.endRelease false)
  | .doneWake => some .doneRelease
  | _ => none

end Pc

inductive Moves (g : Geometry) (s : State P) : Act P → State P → Prop where
  | begin (p : P) (at_ : s.pc p = .user) : Moves g s (.begin p) (s.goto p .beginAcquire)
  | write (p : P) (b : Nat) (v : Block) (at_ : s.pc p = .inOp) (free : s.buf b = none)
      (word : b < 2 ^ 32) : Moves g s (.write p b v)
        ({ s with dev := s.dev.modify b v, buf := Function.update s.buf b (some p) }.goto p
          (.logCheck b))
  | finish (p : P) (at_ : s.pc p = .inOp) : Moves g s (.finish p) (s.goto p .endAcquire)
  | kill (p : P) (at_ : s.pc p = .asleep) (free : s.ptable = none) :
      Moves g s (.kill p) (s.goto p .runnable)
  | acquire (p : P) (k : Pc) (at_ : (s.pc p).acquires = some k) (free : s.lock = none) :
      Moves g s (.run p) ({ s with lock := some p }.goto p k)
  | acquirePtable (p : P) (k : Pc) (at_ : (s.pc p).acquiresPtable = some k)
      (free : s.ptable = none) : Moves g s (.run p) ({ s with ptable := some p }.goto p k)
  | release (p : P) (k : Pc) (at_ : (s.pc p).releases = some k) :
      Moves g s (.run p) (s.release p k)
  | releasePtable (p : P) (k : Pc) (at_ : (s.pc p).releasesPtable = some k) :
      Moves g s (.run p) (s.releasePtable p k)
  | wake (p : P) (k : Pc) (at_ : (s.pc p).wakes = some k) :
      Moves g s (.run p) ({ s with pc := wakeup1 s.pc }.releasePtable p k)
  | wait (p : P) (at_ : s.pc p = .beginTest) (must : s.mustWait = true) :
      Moves g s (.run p) (s.goto p .sleepAcquire)
  | enter (p : P) (at_ : s.pc p = .beginTest) (may : s.mustWait = false) :
      Moves g s (.run p) ({ s with
        outstanding := s.outstanding + 1
        op := Function.update s.op p s.nops
        nops := s.nops + 1 }.goto p .beginRelease)
  | tooBig (p : P) (b : Nat) (at_ : s.pc p = .logCheck b)
      (full : s.lh.length ≥ LOGSIZE ∨ s.lh.length ≥ g.size - 1) :
      Moves g s (.run p) { s with stop := some .tooBig }
  | outsideTrans (p : P) (b : Nat) (at_ : s.pc p = .logCheck b) (none_ : s.outstanding < 1) :
      Moves g s (.run p) { s with stop := some .outsideTrans }
  | check (p : P) (b : Nat) (at_ : s.pc p = .logCheck b) (room : s.lh.length < LOGSIZE)
      (room' : s.lh.length < g.size - 1) : Moves g s (.run p) (s.goto p (.logAcquire b))
  | overrun (p : P) (b : Nat) (at_ : s.pc p = .logAppend b) :
      Moves g s (.run p) { s with stop := some .overrun }
  | append (p : P) (b : Nat) (at_ : s.pc p = .logAppend b)
      (fits : s.lh.idxOf b < LOGSIZE) : Moves g s (.run p)
        ({ s with
          lh := if b ∈ s.lh then s.lh else s.lh ++ [b]
          cur := s.cur ++ [Write.mk (s.op p) b (s.dev.bread b)] }.goto p (.logRelease b))
  | logRelease (p : P) (b : Nat) (at_ : s.pc p = .logRelease b) :
      Moves g s (.run p) ({ s with buf := Function.update s.buf b none }.release p .inOp)
  | logCommitting (p : P) (at_ : s.pc p = .endCount) (com : s.committing = true) :
      Moves g s (.run p)
        { s with outstanding := s.outstanding - 1, stop := some .logCommitting }
  | last (p : P) (at_ : s.pc p = .endCount) (com : s.committing = false)
      (one : s.outstanding = 1) : Moves g s (.run p)
        ({ s with outstanding := s.outstanding - 1, committing := true }.goto p (.endRelease true))
  | notLast (p : P) (at_ : s.pc p = .endCount) (com : s.committing = false)
      (more : s.outstanding ≠ 1) : Moves g s (.run p)
        ({ s with outstanding := s.outstanding - 1 }.goto p .endWakeAcquire)
  | commit (p : P) (at_ : s.pc p = .commitTest) (some_ : s.lh ≠ []) : Moves g s (.run p)
      ({ s with groups := s.groups ++ [s.cur], cur := [] }.goto p (.writeLog 0))
  | skip (p : P) (at_ : s.pc p = .commitTest) (empty : s.lh = []) :
      Moves g s (.run p) (s.goto p .doneAcquire)
  | writeLog (p : P) (tail : Nat) (at_ : s.pc p = .writeLog tail) (lt : tail < s.lh.length) :
      Moves g s (.run p)
        ({ s with dev := writeLogStep g s.lh tail s.dev }.goto p (.writeLog (tail + 1)))
  | logged (p : P) (tail : Nat) (at_ : s.pc p = .writeLog tail) (ge : s.lh.length ≤ tail) :
      Moves g s (.run p) (s.goto p .writeHead)
  | writeHead (p : P) (at_ : s.pc p = .writeHead) : Moves g s (.run p)
      ({ s with dev := writeHead g s.lh s.dev, committed := s.committed + 1 }.goto p
        (.installTrans 0))
  | install (p : P) (tail : Nat) (at_ : s.pc p = .installTrans tail) (lt : tail < s.lh.length) :
      Moves g s (.run p)
        ({ s with dev := installStep g s.lh tail s.dev }.goto p (.installTrans (tail + 1)))
  | installed (p : P) (tail : Nat) (at_ : s.pc p = .installTrans tail)
      (ge : s.lh.length ≤ tail) : Moves g s (.run p) (s.goto p .clearN)
  | clearN (p : P) (at_ : s.pc p = .clearN) :
      Moves g s (.run p) ({ s with lh := [] }.goto p .eraseHead)
  | eraseHead (p : P) (at_ : s.pc p = .eraseHead) :
      Moves g s (.run p) ({ s with dev := Log.writeHead g s.lh s.dev }.goto p .doneAcquire)
  | doneClear (p : P) (at_ : s.pc p = .doneClear) :
      Moves g s (.run p) ({ s with committing := false }.goto p .doneWakeAcquire)

theorem set_idxOf_self (lh : List Nat) (b : Nat) :
    (if lh.idxOf b = lh.length then lh ++ [b] else lh.set (lh.idxOf b) b) =
      if b ∈ lh then lh else lh ++ [b] := by
  by_cases hb : b ∈ lh
  · have hlt : lh.idxOf b < lh.length := List.idxOf_lt_length_iff.mpr hb
    rw [if_neg (by omega), if_pos hb]
    apply List.ext_getElem (by simp)
    intro i h1 h2
    rw [List.getElem_set]
    split
    · rename_i hi
      subst hi
      exact (List.getElem_idxOf hlt).symm
    · rfl
  · rw [if_pos (List.idxOf_eq_length hb), if_neg hb]

theorem append_moves (g : Geometry) (s : State P) (p : P) (b : Nat) (at_ : s.pc p = .logAppend b) :
    Moves g s (.run p) (s.append p b) := by
  unfold State.append
  simp only [set_idxOf_self]
  split
  · rename_i hi
    exact .append p b at_ hi
  · exact .overrun p b at_

theorem countDown_moves (g : Geometry) (s : State P) (p : P) (at_ : s.pc p = .endCount) :
    Moves g s (.run p) (s.countDown p) := by
  unfold State.countDown
  simp only
  split
  · rename_i hc
    exact .logCommitting p at_ hc
  · rename_i hc
    have hc' : s.committing = false := by simpa using hc
    split
    · exact .last p at_ hc' (by omega)
    · exact .notLast p at_ hc' (by omega)

variable {g : Geometry} {s t : State P}

theorem acquire_moves {p : P} {k : Pc}
    (at_ : (s.pc p).acquires = some k) (h : s.acquire p k = some t) : Moves g s (.run p) t := by
  unfold State.acquire at h
  split at h
  · rename_i hl
    cases h
    exact .acquire p k at_ hl
  · cases h

theorem acquirePtable_moves {p : P} {k : Pc}
    (at_ : (s.pc p).acquiresPtable = some k) (h : s.acquirePtable p k = some t) :
    Moves g s (.run p) t := by
  unfold State.acquirePtable at h
  split at h
  · rename_i hl
    cases h
    exact .acquirePtable p k at_ hl
  · cases h

theorem runStep_moves {p : P} (h : runStep g s p = some t) : Moves g s (.run p) t := by
  unfold runStep at h
  generalize hpc : s.pc p = k at h
  cases k with
  | user | inOp | asleep => cases h
  | beginAcquire | sleepReacquire | endAcquire | doneAcquire | logAcquire =>
    exact acquire_moves (by rw [hpc]; rfl) h
  | sleepAcquire | runnable | endWakeAcquire | doneWakeAcquire =>
    exact acquirePtable_moves (by rw [hpc]; rfl) h
  | beginRelease | sleepRelease | endRelease | doneRelease =>
    cases h
    exact .release p _ (by rw [hpc]; rfl)
  | sleepSet | sleepTidy =>
    cases h
    exact .releasePtable p _ (by rw [hpc]; rfl)
  | endWake | doneWake =>
    cases h
    exact .wake p _ (by rw [hpc]; rfl)
  | beginTest =>
    dsimp only at h
    split at h <;> cases h
    · exact .wait p hpc (by assumption)
    · rename_i hm
      exact .enter p hpc (by simpa using hm)
  | logCheck b =>
    dsimp only at h
    split at h
    · cases h
      exact .tooBig p b hpc (by assumption)
    · rename_i hroom
      split at h <;> cases h
      · exact .outsideTrans p b hpc (by assumption)
      · exact .check p b hpc (by omega) (by omega)
  | logAppend b =>
    cases h
    exact append_moves g s p b hpc
  | logRelease b =>
    cases h
    exact .logRelease p b hpc
  | endCount =>
    cases h
    exact countDown_moves g s p hpc
  | commitTest =>
    dsimp only at h
    split at h <;> cases h
    · rename_i hn
      exact .commit p hpc (List.length_pos_iff.mp hn)
    · rename_i hn
      exact .skip p hpc (by simpa using hn)
  | writeLog tail =>
    dsimp only at h
    split at h <;> cases h
    · exact .writeLog p tail hpc (by assumption)
    · exact .logged p tail hpc (by omega)
  | writeHead =>
    cases h
    exact .writeHead p hpc
  | installTrans tail =>
    dsimp only at h
    split at h <;> cases h
    · exact .install p tail hpc (by assumption)
    · exact .installed p tail hpc (by omega)
  | clearN =>
    cases h
    exact .clearN p hpc
  | eraseHead =>
    cases h
    exact .eraseHead p hpc
  | doneClear =>
    cases h
    exact .doneClear p hpc

theorem step_moves {a : Act P} (h : step g s a = some t) : s.stop = none ∧ Moves g s a t := by
  cases a with
  | begin p =>
    simp only [step] at h
    split at h <;> cases h
    rename_i hc
    exact ⟨hc.1, .begin p hc.2⟩
  | write p b v =>
    simp only [step] at h
    split at h <;> cases h
    rename_i hc
    exact ⟨hc.1, .write p b v hc.2.1 hc.2.2.1 hc.2.2.2⟩
  | finish p =>
    simp only [step] at h
    split at h <;> cases h
    rename_i hc
    exact ⟨hc.1, .finish p hc.2⟩
  | run p =>
    simp only [step] at h
    split at h
    · rename_i hc
      exact ⟨hc, runStep_moves h⟩
    · cases h
  | kill p =>
    simp only [step] at h
    split at h <;> cases h
    rename_i hc
    exact ⟨hc.1, .kill p hc.2.2 hc.2.1⟩

end BossOs.Log
