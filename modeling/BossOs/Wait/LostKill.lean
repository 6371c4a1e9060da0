import BossOs.Console.Model
import BossOs.Pipe.Model
import BossOs.Wait.Children
import BossOs.Wait.Clock

/-!
# `kill` and the waiting loops

The functions that test `killed` before they sleep, `pipewrite`, `piperead`, `consoleread`,
`sys_sleep` and `wait`, in one system with `kill`: any number of pipes, the console, the
clock and the process family. Only `wait` tests the flag under `ptable.lock`; in the other
loops a `kill` that comes between the test and `sleep` finds the process not yet SLEEPING
and does not wake it up.
-/

namespace BossOs.LostKill

open Lib Sync
open Proc (ProcState)

variable {P : Type} [DecidableEq P]

def pipe : Service P Unit Pipe.Ch (Pipe.Data P) (Pipe.Pc P) where
  instr := Pipe.instr
  idle
    | .idle => true
    | _ => false
  entry
    | .writeAcquire _ | .readAcquire _ | .closeAcquire _ => true
    | _ => false

def pipeTested : Pipe.Pc P → Bool
  | .writeFull _ _ _ | .writeSleep _ _ | .readSleep _ => true
  | _ => false

theorem pipe_annotated : Annotated Pipe.held pipeTested (pipe : Service P _ _ _ _) where
  locks := Pipe.disciplined.instr
  tests := by
    intro p k
    cases k with
    | idle => trivial
    | writeAcquire | readAcquire | closeAcquire | writeRelease | readRelease | closeRelease
    | writeWake | readWake | closeWake => exact fun h => h
    | writeFull => exact fun _ => rfl
    | writeSleep | readSleep => exact ⟨rfl, rfl⟩
    | kill | writeKilled | readKilled => rfl
    | writeFail | writeDone | closeSet => exact fun _ h => h
    | writeTest w i fresh =>
      intro d h
      simp only at h
      split_ifs at h <;> exact h
    | readTest n =>
      intro d h
      simp only at h
      split_ifs at h <;> exact h
    | readCopy n buf =>
      intro d h
      simp only at h
      split_ifs at h <;> exact h
  idle := by
    intro k h m
    cases k with
    | idle => rfl
    | _ => cases h
  entry := by
    intro k h
    cases k with
    | writeAcquire | readAcquire | closeAcquire => exact ⟨fun _ => rfl, rfl⟩
    | _ => cases h

def kill : Service P Empty Empty Unit (Option P) where
  instr
    | _, none => .idle
    | _, some q => .kill q none
  idle := Option.isNone
  entry := Option.isSome

omit [DecidableEq P] in
theorem kill_annotated : Annotated (fun _ _ => false) (fun _ => false)
    (kill : Service P Empty Empty Unit (Option P)) where
  locks := by
    rintro p (_ | q)
    · trivial
    · exact ⟨rfl, rfl⟩
  tests := by
    rintro p (_ | q)
    · trivial
    · rfl
  idle := fun _ _ _ => rfl
  entry := fun _ _ => ⟨fun _ => rfl, rfl⟩

section
variable (J : Type) [DecidableEq J] (procs : List P) (initproc : P)

abbrev Locks := J × Unit ⊕ Unit ⊕ Unit ⊕ Empty ⊕ Empty

abbrev Chans (P : Type) := J × Pipe.Ch ⊕ Unit ⊕ Unit ⊕ P ⊕ Empty

abbrev Pcs (P : Type) := J × Pipe.Pc P ⊕ Console.Pc ⊕ Clock.Pc ⊕ Children.Pc P ⊕ Option P

abbrev Data (P : Type) :=
  (J → Pipe.Data P) × Console.Data × UInt32 × Children.Family P × Unit

def system : Service P (Locks J) (Chans J P) (Data J P) (Pcs J P) :=
  (pipe.copies J).sum (Console.service.sum (Clock.service.sum
    ((Children.service procs initproc).sum kill)))

def held : Pcs J P → Lock (Locks J) → Bool :=
  heldSum (heldCopies J Pipe.held) (heldSum Console.held (heldSum Clock.held
    (heldSum Children.held fun _ _ => false)))

def tested : Pcs J P → Bool :=
  Sum.elim (fun k => pipeTested k.2) (Sum.elim Console.tested (Sum.elim Clock.tested
    (Sum.elim Children.tested fun _ => false)))

theorem annotated : Annotated (held J) (tested J) (system J procs initproc) :=
  (pipe_annotated.copies J).sum (Console.annotated.sum (Clock.annotated.sum
    ((Children.annotated procs initproc).sum kill_annotated)))

def outside : Pcs J P := .inr (.inr (.inr (.inr none)))

variable {J procs initproc} {d : Data J P} {acts : List (Act P (Pcs J P))}
  {s : State P (Locks J) (Chans J P) (Data J P) (Pcs J P)}

theorem no_kill_lost (h : Run (fun s a => killsInTime (tested J) (held J) s a = true)
      (step (system J procs initproc).code) (start (fun _ => outside J) d) acts s) (p : P) :
    ¬ (s.killed p = true ∧ s.state p = .sleeping) := by
  have ha := annotated J procs initproc
  have hout : ∀ m, held J (outside J : Pcs J P) m = false :=
    ha.idle (outside J) rfl
  rintro ⟨hk, hst⟩
  exact (awakeInv_of_run ha.code_disciplined ha.code_tested (fun _ => hout) h).awake p hk hst

end

def quiet : Data Unit Bool :=
  (fun _ => Pipe.pipealloc fun _ => 0, ⟨⟨fun _ => 0, 0, 0, 0⟩, [], []⟩, 0,
    ⟨Function.update (fun _ => none) true (some false), fun _ => false⟩, ())

def killedInWait : List (Act Bool (Pcs Unit Bool)) :=
  List.flatten [Act.calls false (.inr (.inr (.inr (.inl .waitAcquire)))) 6, [.schedRelease],
    Act.calls true (.inr (.inr (.inr (.inr (some false))))) 4]

theorem no_kill_lost_in_wait :
    ∃ s, Run (fun s a => killsInTime (tested Unit) (held Unit) s a = true)
        (step (system Unit [false, true] false).code) (start (fun _ => outside Unit) quiet)
        killedInWait s ∧
      (s.killed false, decide (s.chan false = some (.inr (.inr (.inr (.inl false)))))) = (true, true) ∧
      s.state false ≠ .sleeping := by
  obtain ⟨s, hs, hf⟩ : ∃ s, Run (fun s a => killsInTime (tested Unit) (held Unit) s a = true)
      (step (system Unit [false, true] false).code) (start (fun _ => outside Unit) quiet)
      killedInWait s ∧ (s.killed false,
        decide (s.chan false = some (.inr (.inr (.inr (.inl false)))))) = (true, true) :=
    Run.of_exec_map (by decide +kernel)
  exact ⟨s, hs, hf, fun hst => no_kill_lost hs false ⟨congrArg Prod.fst hf, hst⟩⟩

/-- A call that waits, with the numbers of steps up to its test of `killed` and from there
until it sleeps, the lock it waits with and its channel. -/
structure Loop where
  entry : Pcs Unit Bool
  test : Nat
  sleep : Nat
  lock : Locks Unit
  chan : Chans Unit Bool

def loops : List Loop :=
  [⟨.inl ((), .writeAcquire ⟨fun _ => 0, 513⟩), 515, 9, .inl ((), ()), .inl ((), .nwrite)⟩,
    ⟨.inl ((), .readAcquire 1), 3, 5, .inl ((), ()), .inl ((), .nread)⟩,
    ⟨.inr (.inl (.readAcquire 1)), 3, 5, .inr (.inl ()), .inr (.inl ())⟩,
    ⟨.inr (.inr (.inl (.sleepAcquire 1))), 4, 5, .inr (.inr (.inl ())), .inr (.inr (.inl ()))⟩]

/-- `true` gets as far as the test, `false` kills it, and `true` goes on into `sleep`. -/
def Loop.killed (l : Loop) : List (Act Bool (Pcs Unit Bool)) :=
  List.flatten [Act.calls true l.entry l.test,
    Act.calls false (.inr (.inr (.inr (.inr (some true))))) 4,
    List.replicate l.sleep (.run true), [.schedRelease]]

/-- The killed process sleeps on, with the locks that its loop and `kill` use free. -/
def Loop.LosesKill (l : Loop) : Prop :=
  ∃ s, Run (fun _ _ => True) (step (system Unit [false, true] false).code)
      (start (fun _ => outside Unit) quiet) l.killed s ∧
    s.lock .ptable = none ∧ s.lock (.of l.lock) = none ∧ s.killed true = true ∧
    s.state true = .sleeping ∧ s.chan true = some l.chan

theorem kill_lost_in_loops : loops.Forall Loop.LosesKill := by
  rw [List.forall_iff_forall_mem]
  intro l hl
  obtain ⟨s, hs, hf⟩ : ∃ s, Run (fun _ _ => True) (step (system Unit [false, true] false).code)
      (start (fun _ => outside Unit) quiet) l.killed s ∧
      decide (s.lock .ptable = none ∧ s.lock (.of l.lock) = none ∧ s.killed true = true ∧
        s.state true = .sleeping ∧ s.chan true = some l.chan) = true := by
    refine Run.of_exec_map ?_
    revert l
    decide +kernel
  exact ⟨s, hs, of_decide_eq_true hf⟩

end BossOs.LostKill
