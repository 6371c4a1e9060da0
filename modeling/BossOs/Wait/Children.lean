import BossOs.Sync.Service

/-!
# Waiting for children

`wait`, `exit` and the part of `fork` that makes a child known to its parent, as code over
`ptable.lock` alone. The process table itself, with its slots and schedulers, is the
subject of `BossOs.Proc`; here a process is one element of `P`, `procs` the order of the
table, and an exited process is one that never leaves the point `exited`. Which process a
`fork` makes a child is left open.
-/

namespace BossOs.Children

open Sync

variable {P : Type}

structure Family (P : Type) where
  parent : P → Option P
  zombie : P → Bool

inductive Pc (P : Type) where
  | idle
  | waitAcquire | waitScan | waitKilled | waitSleep
  | waitRelease (child : Option P)
  | exitAcquire | exitParent | exitWake (parent : P) | exitPass | exitWakeInit | exitZombie
  | exitSched | exited
  | forkParent (child : P) | forkAcquire | forkRelease

variable [DecidableEq P] (procs : List P) (initproc : P)

def scan (p : P) (d : Family P) : Pc P × Family P :=
  match procs.find? fun q => decide (d.parent q = some p) && d.zombie q with
  | some q =>
    (.waitRelease (some q), ⟨Function.update d.parent q none, Function.update d.zombie q false⟩)
  | none =>
    if procs.any fun q => decide (d.parent q = some p) then (.waitKilled, d)
    else (.waitRelease none, d)

/-- The loop of `exit`: the children of `p` go to init, which is woken up if one is a zombie. -/
def pass (p : P) (d : Family P) : Pc P × Family P :=
  (if procs.any fun q => decide (d.parent q = some p) && d.zombie q then .exitWakeInit
    else .exitZombie,
    { d with parent := fun q => if d.parent q = some p then some initproc else d.parent q })

def instr (p : P) : Pc P → Instr P Empty P (Family P) (Pc P)
  | .idle => .idle
  | .waitAcquire => .acquire .ptable .waitScan
  | .waitScan => .update (scan procs p)
  | .waitKilled => .killed fun
    | true => .waitRelease none
    | false => .waitSleep
  | .waitSleep => .sleep p .ptable .waitScan
  | .waitRelease _ => .release .ptable .idle
  | .exitAcquire => .acquire .ptable .exitParent
  | .exitParent => .update fun d =>
    match d.parent p with
    | some q => (.exitWake q, d)
    | none => (.exitPass, d)
  | .exitWake q => .wakeup1 q .exitPass
  | .exitPass => .update (pass procs initproc p)
  | .exitWakeInit => .wakeup1 initproc .exitZombie
  | .exitZombie => .update fun d => (.exitSched, { d with zombie := Function.update d.zombie p true })
  -- the scheduler releases the lock
  | .exitSched => .release .ptable .exited
  | .exited => .idle
  | .forkParent child => .update fun d =>
    (.forkAcquire, { d with parent := Function.update d.parent child (some p) })
  | .forkAcquire => .acquire .ptable .forkRelease
  | .forkRelease => .release .ptable .idle

def service : Service P Empty P (Family P) (Pc P) where
  instr := instr procs initproc
  idle
    | .idle => true
    | _ => false
  entry
    | .waitAcquire | .exitAcquire | .forkParent _ => true
    | _ => false

omit [DecidableEq P]

def Pc.locked : Pc P → Bool
  | .idle | .waitAcquire | .exitAcquire | .exited | .forkParent _ | .forkAcquire => false
  | _ => true

def held (k : Pc P) : Lock Empty → Bool
  | .ptable => k.locked

def tested : Pc P → Bool
  | .waitSleep => true
  | _ => false

theorem forall_lock {Φ : Lock Empty → Prop} (h : Φ .ptable) : ∀ m, Φ m
  | .ptable => h
  | .of l => l.elim

theorem held_eq {k k' : Pc P} (h : k.locked = k'.locked) : held k = held k' :=
  funext (forall_lock h)

variable [DecidableEq P]

theorem scan_locked (p : P) (d : Family P) :
    (scan procs p d).1.locked = true ∧ tested (scan procs p d).1 = false := by
  unfold scan
  split
  · exact ⟨rfl, rfl⟩
  · split <;> exact ⟨rfl, rfl⟩

theorem pass_locked (p : P) (d : Family P) : (pass procs initproc p d).1.locked = true ∧
    tested (pass procs initproc p d).1 = false := by
  simp only [pass]
  split <;> exact ⟨rfl, rfl⟩

theorem annotated : Annotated held tested (service procs initproc) where
  locks := by
    intro p k
    cases k with
    | idle | exited => trivial
    | waitAcquire | exitAcquire | forkAcquire => exact ⟨rfl, forall_lock rfl⟩
    | waitRelease | exitSched | forkRelease => exact ⟨rfl, forall_lock rfl⟩
    | waitSleep => exact ⟨forall_lock rfl, held_eq rfl⟩
    | exitWake | exitWakeInit => exact ⟨rfl, held_eq rfl⟩
    | waitScan => exact fun d => held_eq (scan_locked procs p d).1
    | exitPass => exact fun d => held_eq (pass_locked procs initproc p d).1
    | exitZombie | forkParent => exact fun d => held_eq rfl
    | waitKilled =>
      intro b
      cases b <;> exact held_eq rfl
    | exitParent =>
      intro d
      simp only
      split <;> exact held_eq rfl
  tests := by
    intro p k
    cases k with
    | idle | exited => trivial
    | waitAcquire | exitAcquire | forkAcquire | waitRelease | exitSched | forkRelease | exitWake
    | exitWakeInit => exact fun h => h
    | waitSleep => exact ⟨rfl, rfl⟩
    | waitKilled => rfl
    | waitScan =>
      intro d h
      rw [(scan_locked procs p d).2] at h
      cases h
    | exitPass =>
      intro d h
      rw [(pass_locked procs initproc p d).2] at h
      cases h
    | exitZombie | forkParent => exact fun _ h => h
    | exitParent =>
      intro d h
      simp only at h
      split at h <;> exact h
  idle := by
    intro k h
    cases k with
    | idle => exact forall_lock rfl
    | _ => cases h
  entry := by
    intro k h
    cases k with
    | waitAcquire | exitAcquire | forkParent => exact ⟨forall_lock rfl, rfl⟩
    | _ => cases h

end BossOs.Children
