import Mathlib.Data.List.FinRange
import Mathlib.Data.List.Induction
import Mathlib.Logic.Function.Basic
import BossOs.Lib.Transition
import BossOs.Params

/-!
# The process table of `proc.c`

Each CPU runs `scheduler` or the kernel thread of the process it was switched to.
`ptable.lock` belongs to a CPU, and stays with it across `swtch`. The bodies of the
critical sections are single steps; `fork` fills in the new slot without the lock,
one step at a time. The table is kept as one function for each field of `struct proc`.
-/

namespace BossOs.Proc

open Lib
open Function (update)

abbrev Slot := Fin NPROC

def initproc : Slot := ⟨0, nproc_pos⟩

inductive ProcState where
  | unused | embryo | sleeping | runnable | running | zombie
  deriving DecidableEq, Repr

/-- What `sleep` waits on: a process, as in `wait`, or any other address. -/
inductive Chan where
  | proc (p : Slot)
  | other (addr : Nat)
  deriving DecidableEq

inductive YieldPc where
  | acquire | set | switch | release
  deriving DecidableEq

/-- Where a kernel thread stands. `user` is anywhere outside the functions modelled,
`yield at k` a timer interrupt that came at `k`. -/
inductive Pc where
  | user | forkret
  | allocAcquire | allocFind | allocRelease (np : Option Slot)
  | forkKalloc (np : Slot) | forkCopy (np : Slot) | forkParent (np : Slot)
  | forkAcquire (np : Slot) (pid : Int) | forkSet (np : Slot) (pid : Int) | forkRelease (pid : Int)
  | exitAcquire | exitBody | exitSwitch | exited
  | waitAcquire | waitScan | waitSwitch | waitResume | waitRelease (ret : Int)
  | sleepAcquire (addr : Nat) | sleepSet (addr : Nat) | sleepSwitch | sleepResume | sleepRelease
  | wakeAcquire (addr : Nat) | wakeBody (addr : Nat) | wakeRelease
  | killAcquire (pid : Int) | killBody (pid : Int) | killRelease (ret : Int)
  | yield (at_ : YieldPc) (k : Pc)
  deriving DecidableEq

/-- The scheduler thread of a CPU: before `acquire`, at entry `i` of its loop, back from
`swtch`; or the CPU is on the stack of `c->proc`. -/
inductive CpuPc where
  | idle | scan (i : Nat) | back | proc
  deriving DecidableEq

structure Cpu where
  proc : Option Slot
  pc : CpuPc
  deriving DecidableEq

/-- A child freed by `wait`, with the pages that were freed. -/
structure Reap where
  by_ : Slot
  slot : Slot
  pid : Int
  kstack : Option Nat
  pgdir : Option Nat

structure State (C : Type) where
  lock : Option C
  cpu : C → Cpu
  state : Slot → ProcState
  pid : Slot → Int
  parent : Slot → Option Slot
  chan : Slot → Option Chan
  killed : Slot → Bool
  kstack : Slot → Option Nat
  pgdir : Slot → Option Nat
  /-- The value the last system call returned, `tf->eax`. -/
  eax : Slot → Int
  pc : Slot → Pc
  nextpid : Int
  panicked : Bool
  /-- History: calls of `allocproc` that found a slot, pages handed out (each gets the
  next number, so that two uses of one page are told apart), and pages given back. -/
  allocs : Nat
  pages : Nat
  freed : List Nat
  reaped : List Reap

/-- The system calls modelled; `sleep` and `wakeup` stand for all their other callers. -/
inductive Call where
  | fork | exit | wait | kill (pid : Int) | sleep (addr : Nat) | wakeup (addr : Nat)

/-- `run c ok` is the next step of CPU `c`; `ok` says whether an allocation succeeds. -/
inductive Act (C : Type) where
  | run (c : C) (ok : Bool)
  | call (c : C) (k : Call)
  | timer (c : C)

def wakeup1 (state : Slot → ProcState) (chan : Slot → Option Chan) (ch : Option Chan) :
    Slot → ProcState :=
  fun q => if state q = .sleeping ∧ chan q = ch then .runnable else state q

def passChild (chan : Slot → Option Chan) (p : Slot)
    (t : (Slot → Option Slot) × (Slot → ProcState)) (q : Slot) :
    (Slot → Option Slot) × (Slot → ProcState) :=
  if t.1 q = some p then
    (update t.1 q (some initproc),
      if t.2 q = .zombie then wakeup1 t.2 chan (some (.proc initproc)) else t.2)
  else t

def passChildren (chan : Slot → Option Chan) (p : Slot)
    (t : (Slot → Option Slot) × (Slot → ProcState)) : (Slot → Option Slot) × (Slot → ProcState) :=
  (List.finRange NPROC).foldl (passChild chan p) t

def findUnused (state : Slot → ProcState) : Option Slot :=
  (List.finRange NPROC).find? fun q => state q = .unused

def findZombie (parent : Slot → Option Slot) (state : Slot → ProcState) (p : Slot) : Option Slot :=
  (List.finRange NPROC).find? fun q => parent q = some p ∧ state q = .zombie

def haveKids (parent : Slot → Option Slot) (p : Slot) : Bool :=
  (List.finRange NPROC).any fun q => parent q = some p

def findPid (pid : Slot → Int) (n : Int) : Option Slot :=
  (List.finRange NPROC).find? fun q => pid q = n

def wrap (n : Int) : Int := Int.bmod n (2 ^ 32)

section Step
variable {C : Type} [DecidableEq C]

def State.goto (s : State C) (p : Slot) (k : Pc) : State C :=
  { s with pc := update s.pc p k }

def State.acquire (s : State C) (c : C) (p : Slot) (k : Pc) : Option (State C) :=
  if s.lock = none then some ({ s with lock := some c }.goto p k) else none

def State.release (s : State C) (p : Slot) (k : Pc) : State C := { s with lock := none }.goto p k

def State.ret (s : State C) (p : Slot) (v : Int) : State C :=
  { s with eax := update s.eax p v }.goto p .user

def State.sched (s : State C) (c : C) (p : Slot) (k : Pc) : State C :=
  { s with cpu := update s.cpu c { s.cpu c with pc := .back } }.goto p k

def State.allocproc (s : State C) (p : Slot) : State C :=
  match findUnused s.state with
  | none => s.goto p (.allocRelease none)
  | some np =>
    { s with
      state := update s.state np .embryo
      pid := update s.pid np s.nextpid
      nextpid := wrap (s.nextpid + 1)
      allocs := s.allocs + 1 }.goto p (.allocRelease (some np))

/-- `allocproc` after the release: the kernel stack, and the context that starts at `forkret`. -/
def State.kalloc (s : State C) (p np : Slot) (ok : Bool) : State C :=
  if ok then
    { s with
      kstack := update s.kstack np (some s.pages)
      pages := s.pages + 1
      pc := update s.pc np .forkret }.goto p (.forkCopy np)
  else
    { s with
      kstack := update s.kstack np none
      state := update s.state np .unused }.ret p (-1)

def State.copyuvm (s : State C) (p np : Slot) (ok : Bool) : State C :=
  if ok then
    { s with
      pgdir := update s.pgdir np (some s.pages)
      pages := s.pages + 1 }.goto p (.forkParent np)
  else
    { s with
      pgdir := update s.pgdir np none
      freed := s.freed ++ (s.kstack np).toList
      kstack := update s.kstack np none
      state := update s.state np .unused }.ret p (-1)

def State.exit (s : State C) (p : Slot) : State C :=
  let t := passChildren s.chan p
    (s.parent, wakeup1 s.state s.chan ((s.parent p).map Chan.proc))
  { s with
    parent := t.1
    state := update t.2 p .zombie }.goto p .exitSwitch

def State.wait (s : State C) (p : Slot) : State C :=
  match findZombie s.parent s.state p with
  | some q =>
    { s with
      freed := s.freed ++ (s.kstack q).toList ++ (s.pgdir q).toList
      kstack := update s.kstack q none
      pid := update s.pid q 0
      parent := update s.parent q none
      killed := update s.killed q false
      state := update s.state q .unused
      reaped := s.reaped ++ [Reap.mk p q (s.pid q) (s.kstack q) (s.pgdir q)] }.goto p
        (.waitRelease (s.pid q))
  | none =>
    if haveKids s.parent p = false ∨ s.killed p = true then s.goto p (.waitRelease (-1))
    else
      { s with
        chan := update s.chan p (some (.proc p))
        state := update s.state p .sleeping }.goto p .waitSwitch

def State.kill (s : State C) (p : Slot) (pid : Int) : State C :=
  match findPid s.pid pid with
  | some q =>
    { s with
      killed := update s.killed q true
      state := if s.state q = ProcState.sleeping then update s.state q .runnable
        else s.state }.goto p
        (.killRelease 0)
  | none => s.goto p (.killRelease (-1))

def runProc (s : State C) (c : C) (p : Slot) (ok : Bool) : Option (State C) :=
  match s.pc p with
  | .user => none
  | .forkret => some (s.release p .user)
  | .allocAcquire => s.acquire c p .allocFind
  | .allocFind => some (s.allocproc p)
  | .allocRelease none => some ({ s with lock := none }.ret p (-1))
  | .allocRelease (some np) => some (s.release p (.forkKalloc np))
  | .forkKalloc np => some (s.kalloc p np ok)
  | .forkCopy np => some (s.copyuvm p np ok)
  | .forkParent np =>
    some ({ s with parent := update s.parent np (some p) }.goto p
      (.forkAcquire np (s.pid np)))
  | .forkAcquire np pid => s.acquire c p (.forkSet np pid)
  | .forkSet np pid =>
    some ({ s with state := update s.state np .runnable }.goto p (.forkRelease pid))
  | .forkRelease pid => some ({ s with lock := none }.ret p pid)
  | .exitAcquire => s.acquire c p .exitBody
  | .exitBody => some (s.exit p)
  | .exitSwitch => some (s.sched c p .exited)
  -- panic("zombie exit")
  | .exited => some { s with panicked := true }
  | .waitAcquire => s.acquire c p .waitScan
  | .waitScan => some (s.wait p)
  | .waitSwitch => some (s.sched c p .waitResume)
  | .waitResume => some ({ s with chan := update s.chan p none }.goto p .waitScan)
  | .waitRelease v => some ({ s with lock := none }.ret p v)
  | .sleepAcquire addr => s.acquire c p (.sleepSet addr)
  | .sleepSet addr =>
    some ({ s with
      chan := update s.chan p (some (.other addr))
      state := update s.state p .sleeping }.goto p .sleepSwitch)
  | .sleepSwitch => some (s.sched c p .sleepResume)
  | .sleepResume => some ({ s with chan := update s.chan p none }.goto p .sleepRelease)
  | .sleepRelease => some (s.release p .user)
  | .wakeAcquire addr => s.acquire c p (.wakeBody addr)
  | .wakeBody addr =>
    some ({ s with state := wakeup1 s.state s.chan (some (.other addr)) }.goto p .wakeRelease)
  | .wakeRelease => some (s.release p .user)
  | .killAcquire pid => s.acquire c p (.killBody pid)
  | .killBody pid => some (s.kill p pid)
  | .killRelease v => some ({ s with lock := none }.ret p v)
  | .yield .acquire k => s.acquire c p (.yield .set k)
  | .yield .set k =>
    some ({ s with state := update s.state p .runnable }.goto p (.yield .switch k))
  | .yield .switch k => some (s.sched c p (.yield .release k))
  | .yield .release k => some (s.release p k)

def runScheduler (s : State C) (c : C) : Option (State C) :=
  match (s.cpu c).pc with
  | .idle =>
    if s.lock = none then
      some { s with lock := some c, cpu := update s.cpu c ⟨none, .scan 0⟩ }
    else none
  | .scan i =>
    if hi : i < NPROC then
      if s.state ⟨i, hi⟩ = .runnable then
        some { s with
          cpu := update s.cpu c ⟨some ⟨i, hi⟩, .proc⟩
          state := update s.state ⟨i, hi⟩ .running }
      else some { s with cpu := update s.cpu c ⟨none, .scan (i + 1)⟩ }
    else some { s with lock := none, cpu := update s.cpu c ⟨none, .idle⟩ }
  | .back =>
    match (s.cpu c).proc with
    | some p => some { s with cpu := update s.cpu c ⟨none, .scan (p + 1)⟩ }
    | none => none
  | .proc => none

def Pc.holding : Pc → Bool
  | .user | .allocAcquire | .forkKalloc _ | .forkCopy _ | .forkParent _ | .forkAcquire _ _
  | .exitAcquire | .exited | .waitAcquire | .sleepAcquire _ | .wakeAcquire _ | .killAcquire _
  | .yield .acquire _ => false
  | _ => true

def State.On (s : State C) (c : C) (p : Slot) : Prop := s.cpu c = ⟨some p, .proc⟩

def Call.entry : Call → Pc
  | .fork => .allocAcquire
  | .exit => .exitAcquire
  | .wait => .waitAcquire
  | .kill pid => .killAcquire pid
  | .sleep addr => .sleepAcquire addr
  | .wakeup addr => .wakeAcquire addr

/-- One action of the machine. A timer interrupt comes only while interrupts are on,
that is while the thread does not hold the lock. -/
def step (s : State C) : Act C → Option (State C)
  | .run c ok =>
    if s.panicked then none
    else match s.cpu c with
      | ⟨some p, .proc⟩ => runProc s c p ok
      | _ => runScheduler s c
  | .call c k =>
    if s.panicked then none
    else match s.cpu c with
      | ⟨some p, .proc⟩ =>
        if s.pc p = .user then
          match k with
          | .exit => if p = initproc then some { s with panicked := true }
            else some (s.goto p .exitAcquire)
          | k => some (s.goto p k.entry)
        else none
      | _ => none
  | .timer c =>
    if s.panicked then none
    else match s.cpu c with
      | ⟨some p, .proc⟩ =>
        match s.pc p with
        | .yield _ _ => none
        | k => if k.holding then none else some (s.goto p (.yield .acquire k))
      | _ => none

end Step

/-- What `userinit` leaves: init in the first slot, and every CPU about to schedule. -/
def boot (C : Type) : State C where
  lock := none
  cpu := fun _ => ⟨none, .idle⟩
  state := update (fun _ => .unused) initproc .runnable
  pid := update (fun _ => 0) initproc 1
  parent := fun _ => none
  chan := fun _ => none
  killed := fun _ => false
  kstack := update (fun _ => none) initproc (some 0)
  pgdir := update (fun _ => none) initproc (some 1)
  eax := fun _ => 0
  pc := fun _ => .forkret
  nextpid := 2
  panicked := false
  allocs := 1
  pages := 2
  freed := []
  reaped := []

end BossOs.Proc
