import BossOs.Lib.Discipline
import BossOs.Proc.Model

/-!
# Spinlocks, `sleep` and `wakeup`

Kernel threads that run code made of the calls of `spinlock.c` and `proc.c`, for any
number of processes `P`. What a piece of code does between two such calls is one step on
the shared data `D`. `sleep`, `wakeup` and `kill` take `ptable.lock` themselves, so they
are several steps. A process that sleeps hands `ptable.lock` to the scheduler of its CPU,
which hands it to the process it switches to.

A timer interrupt takes a process from RUNNING to RUNNABLE and back, which nothing here
looks at; it is left out, and RUNNABLE means woken and not yet chosen by a scheduler.
-/

namespace BossOs.Sync

open Lib
open Proc (ProcState)
open Function (update)

inductive Lock (L : Type) where
  | ptable
  | of (l : L)
  deriving DecidableEq

section
variable (P L Ch D K : Type)

/-- The next thing that code does at one of its points; `k` is where it goes on. -/
inductive Instr where
  /-- Outside the code modelled. -/
  | idle
  | acquire (lk : Lock L) (k : K)
  | release (lk : Lock L) (k : K)
  | sleep (ch : Ch) (lk : Lock L) (k : K)
  | wakeup (ch : Ch) (k : K)
  | wakeup1 (ch : Ch) (k : K)
  | kill (q : P) (k : K)
  /-- Read `myproc()->killed`. -/
  | killed (k : Bool → K)
  | update (f : D → K × D)

structure Code where
  instr : P → K → Instr P L Ch D K
  /-- Which functions an idle thread at the first point may call. -/
  call : K → K → Bool

/-- Where a thread stands: in the code, or inside `sleep`, `wakeup` or `kill`. -/
inductive Thread where
  | run (k : K)
  | sleepAcquire (ch : Ch) (l : L) (k : K)
  | sleepRelease (ch : Ch) (l : L) (k : K)
  | sleepSet (ch : Ch) (lk : Lock L) (k : K)
  | sleepSched (ch : Ch) (lk : Lock L) (k : K)
  /-- Switched out, in `sched`. -/
  | sleepOut (ch : Ch) (lk : Lock L) (k : K)
  | sleepBack (lk : Lock L) (k : K)
  | sleepUnlock (l : L) (k : K)
  | sleepReacquire (l : L) (k : K)
  | wakeAcquire (ch : Ch) (k : K)
  | wakeBody (ch : Ch) (k : K)
  | wakeRelease (k : K)
  | killAcquire (q : P) (k : K)
  | killBody (q : P) (k : K)
  | killRelease (k : K)

structure State where
  /-- Who holds the lock; `some none` is the scheduler of some CPU. -/
  lock : Lock L → Option (Option P)
  state : P → ProcState
  chan : P → Option Ch
  killed : P → Bool
  thread : P → Thread P L Ch K
  data : D

/-- A thread moves on, or an idle one calls a function, or a scheduler acts. -/
inductive Act where
  | run (p : P)
  | call (p : P) (k : K)
  | schedAcquire
  | schedRelease
  | swtch (p : P)

end

variable {P L Ch D K : Type}

def Act.calls (p : P) (k : K) (n : Nat) : List (Act P K) := .call p k :: List.replicate n (.run p)

variable [DecidableEq P] [DecidableEq L] [DecidableEq Ch]

omit [DecidableEq P] in
def wakeup1 (state : P → ProcState) (chan : P → Option Ch) (ch : Ch) : P → ProcState :=
  fun q => if state q = .sleeping ∧ chan q = some ch then .runnable else state q

namespace State

variable (s : State P L Ch D K)

def goto (p : P) (t : Thread P L Ch K) : State P L Ch D K :=
  { s with thread := update s.thread p t }

def acquire (lk : Lock L) (p : P) (t : Thread P L Ch K) : Option (State P L Ch D K) :=
  if s.lock lk = none then
    some ({ s with lock := update s.lock lk (some (some p)) }.goto p t)
  else none

def release (lk : Lock L) (p : P) (t : Thread P L Ch K) : State P L Ch D K :=
  { s with lock := update s.lock lk none }.goto p t

def kill (q : P) : State P L Ch D K :=
  { s with
    killed := update s.killed q true
    state := if s.state q = .sleeping then update s.state q .runnable else s.state }

end State

def runInstr (s : State P L Ch D K) (p : P) : Instr P L Ch D K → Option (State P L Ch D K)
  | .idle => none
  | .acquire lk k => s.acquire lk p (.run k)
  | .release lk k => some (s.release lk p (.run k))
  | .sleep ch .ptable k => some (s.goto p (.sleepSet ch .ptable k))
  | .sleep ch (.of l) k => some (s.goto p (.sleepAcquire ch l k))
  | .wakeup ch k => some (s.goto p (.wakeAcquire ch k))
  | .wakeup1 ch k => some ({ s with state := wakeup1 s.state s.chan ch }.goto p (.run k))
  | .kill q k => some (s.goto p (.killAcquire q k))
  | .killed f => some (s.goto p (.run (f (s.killed p))))
  | .update f => some ({ s with data := (f s.data).2 }.goto p (.run (f s.data).1))

def runThread (c : Code P L Ch D K) (s : State P L Ch D K) (p : P) : Option (State P L Ch D K) :=
  match s.thread p with
  | .run k => runInstr s p (c.instr p k)
  | .sleepAcquire ch l k => s.acquire .ptable p (.sleepRelease ch l k)
  | .sleepRelease ch l k => some (s.release (.of l) p (.sleepSet ch (.of l) k))
  | .sleepSet ch lk k =>
    some ({ s with
      chan := update s.chan p (some ch)
      state := update s.state p .sleeping }.goto p (.sleepSched ch lk k))
  | .sleepSched ch lk k =>
    some ({ s with lock := update s.lock .ptable (some none) }.goto p (.sleepOut ch lk k))
  | .sleepOut _ _ _ => none
  | .sleepBack .ptable k => some ({ s with chan := update s.chan p none }.goto p (.run k))
  | .sleepBack (.of l) k =>
    some ({ s with chan := update s.chan p none }.goto p (.sleepUnlock l k))
  | .sleepUnlock l k => some (s.release .ptable p (.sleepReacquire l k))
  | .sleepReacquire l k => s.acquire (.of l) p (.run k)
  | .wakeAcquire ch k => s.acquire .ptable p (.wakeBody ch k)
  | .wakeBody ch k =>
    some ({ s with state := wakeup1 s.state s.chan ch }.goto p (.wakeRelease k))
  | .wakeRelease k => some (s.release .ptable p (.run k))
  | .killAcquire q k => s.acquire .ptable p (.killBody q k)
  | .killBody q k => some ((s.kill q).goto p (.killRelease k))
  | .killRelease k => some (s.release .ptable p (.run k))

def step (c : Code P L Ch D K) (s : State P L Ch D K) : Act P K → Option (State P L Ch D K)
  | .run p => runThread c s p
  | .call p k =>
    match s.thread p with
    | .run k₀ =>
      match c.instr p k₀ with
      | .idle => if c.call k₀ k then some (s.goto p (.run k)) else none
      | _ => none
    | _ => none
  | .schedAcquire =>
    if s.lock .ptable = none then
      some { s with lock := update s.lock .ptable (some none) }
    else none
  | .schedRelease =>
    if s.lock .ptable = some none then
      some { s with lock := update s.lock .ptable none }
    else none
  | .swtch p =>
    match s.thread p with
    | .sleepOut _ lk k =>
      if s.lock .ptable = some none ∧ s.state p = .runnable then
        some ({ s with
          lock := update s.lock .ptable (some (some p))
          state := update s.state p .running }.goto p (.sleepBack lk k))
      else none
    | _ => none

def start (k : P → K) (d : D) : State P L Ch D K where
  lock := fun _ => none
  state := fun _ => .running
  chan := fun _ => none
  killed := fun _ => false
  thread := fun p => .run (k p)
  data := d

end BossOs.Sync
