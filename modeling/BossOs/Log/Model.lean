import Mathlib.Logic.Function.Basic
import BossOs.Lib.Transition
import BossOs.Params

/-!
# The log of `log.c`

Processes run `begin_op`, any number of `log_write` calls and `end_op`, one small
step at a time; the last one to leave runs `commit`. `sleep` and `wakeup` on `&log`
are the ones of `proc.c`, with `ptable.lock` explicit. The history fields at the
end of `State` are read by no step of the code.
-/

namespace BossOs.Log

open Lib
open Function (update)

structure Geometry where
  start : Nat
  size : Nat

def Geometry.InLog (g : Geometry) (b : Nat) : Prop := g.start ≤ b ∧ b < g.start + g.size

instance (g : Geometry) (b : Nat) : Decidable (g.InLog b) :=
  inferInstanceAs (Decidable (g.start ≤ b ∧ b < g.start + g.size))

/-- `write_head`'s stores into the header buffer: `n`, then `block[0..n)`. Words past
`block[n-1]` keep what an earlier header left there. -/
def setHead (hb : Block) (lh : List Nat) : Block := (hb.setWord 0 lh.length).setWords 1 lh

/-- `read_head`: the first `n` block numbers; `n` is an `int`, and none if it is negative. -/
def getHead (hb : Block) : List Nat :=
  if hb.word 0 < 2 ^ 31 then (List.range (hb.word 0)).map fun i => hb.word (1 + i) else []

/-- Block contents as the buffer cache shows them, and as they are on disk. This cache has room for
every block; the one with `NBUF` buffers is in `BossOs.Bio`. -/
structure Dev where
  cache : Nat → Block
  disk : Nat → Block

namespace Dev

def bread (d : Dev) (b : Nat) : Block := d.cache b

def bwrite (d : Dev) (b : Nat) (v : Block) : Dev :=
  ⟨update d.cache b v, update d.disk b v⟩

def modify (d : Dev) (b : Nat) (v : Block) : Dev := { d with cache := update d.cache b v }

def reboot (d : Dev) : Dev := ⟨d.disk, d.disk⟩

end Dev

def writeLogStep (g : Geometry) (lh : List Nat) (tail : Nat) (d : Dev) : Dev :=
  d.bwrite (g.start + tail + 1) (d.bread (lh.getD tail 0))

def installStep (g : Geometry) (lh : List Nat) (tail : Nat) (d : Dev) : Dev :=
  d.bwrite (lh.getD tail 0) (d.bread (g.start + tail + 1))

def writeHead (g : Geometry) (lh : List Nat) (d : Dev) : Dev :=
  d.bwrite g.start (setHead (d.bread g.start) lh)

/-- Where a process stands. Each name is the statement it executes next. -/
inductive Pc where
  | user
  | beginAcquire | beginTest | beginRelease
  | sleepAcquire | sleepRelease | sleepSet | asleep | runnable | sleepTidy | sleepReacquire
  | inOp
  | logCheck (b : Nat) | logAcquire (b : Nat) | logAppend (b : Nat) | logRelease (b : Nat)
  | endAcquire | endCount | endWakeAcquire | endWake | endRelease (doCommit : Bool)
  | commitTest | writeLog (tail : Nat) | writeHead | installTrans (tail : Nat) | clearN | eraseHead
  | doneAcquire | doneClear | doneWakeAcquire | doneWake | doneRelease
  deriving DecidableEq, Repr

/-- Why the machine stopped. `overrun` is a store past `lh.block[LOGSIZE-1]`. -/
inductive Stop where
  | tooBig | outsideTrans | logCommitting | overrun
  deriving DecidableEq, Repr

/-- A completed `log_write`: the operation, the block and the contents logged. -/
structure Write where
  op : Nat
  blockno : Nat
  data : Block

structure State (P : Type) where
  lock : Option P
  ptable : Option P
  outstanding : Int
  committing : Bool
  lh : List Nat
  /-- The holder of a buffer between `bread` and `brelse`. -/
  buf : Nat → Option P
  dev : Dev
  pc : P → Pc
  stop : Option Stop
  /-- History: operations begun so far, and the number of each process's operation. -/
  nops : Nat
  op : P → Nat
  /-- History: the writes of the group now open, and of each group handed to `commit`. -/
  cur : List Write
  groups : List (List Write)
  /-- History: header writes with `n > 0` that reached the disk. -/
  committed : Nat

inductive Act (P : Type) where
  | begin (p : P)
  | write (p : P) (b : Nat) (v : Block)
  | finish (p : P)
  | run (p : P)
  | kill (p : P)

def wakeup1 {P : Type} (pc : P → Pc) : P → Pc := fun q =>
  if pc q = .asleep then .runnable else pc q

section Step
variable {P : Type} [DecidableEq P]

def State.goto (s : State P) (p : P) (k : Pc) : State P := { s with pc := update s.pc p k }

def State.acquire (s : State P) (p : P) (k : Pc) : Option (State P) :=
  if s.lock = none then some ({ s with lock := some p }.goto p k) else none

def State.acquirePtable (s : State P) (p : P) (k : Pc) : Option (State P) :=
  if s.ptable = none then some ({ s with ptable := some p }.goto p k) else none

def State.release (s : State P) (p : P) (k : Pc) : State P := { s with lock := none }.goto p k

def State.releasePtable (s : State P) (p : P) (k : Pc) : State P := { s with ptable := none }.goto p k

def State.mustWait (s : State P) : Bool :=
  s.committing || decide ((s.lh.length : Int) + (s.outstanding + 1) * MAXOPBLOCKS > LOGSIZE)

def State.append (s : State P) (p : P) (b : Nat) : State P :=
  let i := s.lh.idxOf b
  if i < LOGSIZE then
    { s with
      lh := if i = s.lh.length then s.lh ++ [b] else s.lh.set i b
      cur := s.cur ++ [Write.mk (s.op p) b (s.dev.bread b)] }.goto p (.logRelease b)
  else { s with stop := some .overrun }

def State.countDown (s : State P) (p : P) : State P :=
  let s' := { s with outstanding := s.outstanding - 1 }
  if s.committing then { s' with stop := some .logCommitting }
  else if s'.outstanding = 0 then { s' with committing := true }.goto p (.endRelease true)
  else s'.goto p .endWakeAcquire

def runStep (g : Geometry) (s : State P) (p : P) : Option (State P) :=
  match s.pc p with
  | .user | .inOp | .asleep => none
  | .beginAcquire => s.acquire p .beginTest
  | .beginTest =>
    if s.mustWait then some (s.goto p .sleepAcquire)
    else some ({ s with
      outstanding := s.outstanding + 1
      op := update s.op p s.nops
      nops := s.nops + 1 }.goto p .beginRelease)
  | .beginRelease => some (s.release p .inOp)
  | .sleepAcquire => s.acquirePtable p .sleepRelease
  | .sleepRelease => some (s.release p .sleepSet)
  -- `sched` hands `ptable.lock` to the scheduler, which releases it
  | .sleepSet => some (s.releasePtable p .asleep)
  | .runnable => s.acquirePtable p .sleepTidy
  | .sleepTidy => some (s.releasePtable p .sleepReacquire)
  | .sleepReacquire => s.acquire p .beginTest
  | .logCheck b =>
    if s.lh.length ≥ LOGSIZE ∨ s.lh.length ≥ g.size - 1 then some { s with stop := some .tooBig }
    else if s.outstanding < 1 then some { s with stop := some .outsideTrans }
    else some (s.goto p (.logAcquire b))
  | .logAcquire b => s.acquire p (.logAppend b)
  | .logAppend b => some (s.append p b)
  -- the caller's `brelse` follows the release of `log.lock`
  | .logRelease b => some ({ s with buf := update s.buf b none }.release p .inOp)
  | .endAcquire => s.acquire p .endCount
  | .endCount => some (s.countDown p)
  | .endWakeAcquire => s.acquirePtable p .endWake
  | .endWake => some ({ s with pc := wakeup1 s.pc }.releasePtable p (.endRelease false))
  | .endRelease doCommit => some (s.release p (if doCommit then .commitTest else .user))
  | .commitTest =>
    if 0 < s.lh.length then
      some ({ s with groups := s.groups ++ [s.cur], cur := [] }.goto p (.writeLog 0))
    else some (s.goto p .doneAcquire)
  | .writeLog tail =>
    if tail < s.lh.length then
      some ({ s with dev := writeLogStep g s.lh tail s.dev }.goto p (.writeLog (tail + 1)))
    else some (s.goto p .writeHead)
  | .writeHead =>
    some ({ s with dev := writeHead g s.lh s.dev, committed := s.committed + 1 }.goto p
      (.installTrans 0))
  | .installTrans tail =>
    if tail < s.lh.length then
      some ({ s with dev := installStep g s.lh tail s.dev }.goto p (.installTrans (tail + 1)))
    else some (s.goto p .clearN)
  | .clearN => some ({ s with lh := [] }.goto p .eraseHead)
  | .eraseHead => some ({ s with dev := writeHead g s.lh s.dev }.goto p .doneAcquire)
  | .doneAcquire => s.acquire p .doneClear
  | .doneClear => some ({ s with committing := false }.goto p .doneWakeAcquire)
  | .doneWakeAcquire => s.acquirePtable p .doneWake
  | .doneWake => some ({ s with pc := wakeup1 s.pc }.releasePtable p .doneRelease)
  | .doneRelease => some (s.release p .user)

/-- One action of the system. A `write` is the caller's change to a buffer it holds,
followed by its call of `log_write`; `kill` wakes a sleeper without a `wakeup`. -/
def step (g : Geometry) (s : State P) : Act P → Option (State P)
  | .begin p =>
    if s.stop = none ∧ s.pc p = .user then some (s.goto p .beginAcquire) else none
  | .write p b v =>
    if s.stop = none ∧ s.pc p = .inOp ∧ s.buf b = none ∧ b < 2 ^ 32 then
      some ({ s with dev := s.dev.modify b v, buf := update s.buf b (some p) }.goto p
        (.logCheck b))
    else none
  | .finish p =>
    if s.stop = none ∧ s.pc p = .inOp then some (s.goto p .endAcquire) else none
  | .run p => if s.stop = none then runStep g s p else none
  | .kill p =>
    if s.stop = none ∧ s.ptable = none ∧ s.pc p = .asleep then some (s.goto p .runnable) else none

end Step

def init (P : Type) (d : Nat → Block) : State P where
  lock := none
  ptable := none
  outstanding := 0
  committing := false
  lh := []
  buf := fun _ => none
  dev := ⟨d, d⟩
  pc := fun _ => .user
  stop := none
  nops := 0
  op := fun _ => 0
  cur := []
  groups := []
  committed := 0

end BossOs.Log
