import BossOs.Lib.Ring
import BossOs.Sync.Points

/-!
# Pipes

`pipewrite`, `piperead` and `pipeclose` of `pipe.c` on one pipe, and `kill`, called in any
order by any number of processes. Next to the pipe the model keeps its history: the bytes
stored and by whom, the bytes read, and the finished calls of `pipewrite`. Freeing the
pipe's page once both ends are closed is left out; whoever calls one of the functions has
a file that keeps its end of the pipe open.
-/

namespace BossOs

open Lib Sync

def PIPESIZE : Nat := 512

instance : NeZero PIPESIZE := ⟨by decide⟩

structure Pipe where
  data : Fin PIPESIZE → UInt8
  nread : UInt32
  nwrite : UInt32
  readopen : Bool
  writeopen : Bool

namespace Pipe

section
variable (p : Pipe)

def full : Bool := p.nwrite == p.nread + UInt32.ofNat PIPESIZE

def empty : Bool := p.nread == p.nwrite

def store (b : UInt8) : Pipe :=
  { p with
    data := Function.update p.data (Ring.cell PIPESIZE p.nwrite) b
    nwrite := p.nwrite + 1 }

def next : UInt8 := p.data (Ring.cell PIPESIZE p.nread)

def take : Pipe := { p with nread := p.nread + 1 }

def close (writable : Bool) : Pipe :=
  if writable then { p with writeopen := false } else { p with readopen := false }

def contents : List UInt8 := Ring.window p.data p.nread (Ring.dist p.nread p.nwrite)

end

structure Write where
  addr : Nat → UInt8
  n : Int

def Write.bytes (w : Write) (i : Nat) : List UInt8 := (List.range i).map w.addr

/-- A finished call of `pipewrite`: what it returned, and how many bytes it stored. -/
structure Call where
  write : Write
  ret : Int
  kept : Nat

def Call.bytes (c : Call) : List UInt8 := c.write.bytes c.kept

structure Data (P : Type) where
  pipe : Pipe
  stored : List (P × UInt8)
  read : List UInt8
  calls : P → List Call

inductive Ch where
  | nread | nwrite
  deriving DecidableEq

/-- `i` is the loop variable; `fresh` says that `pipewrite` has stored a byte since it last
woke up the readers. The bytes that `piperead` has copied are `buf`. -/
inductive Pc (P : Type) where
  | idle
  | writeAcquire (w : Write)
  | writeTest (w : Write) (i : Nat) (fresh : Bool)
  | writeKilled (w : Write) (i : Nat) (fresh : Bool)
  | writeFail (w : Write) (i : Nat) (fresh : Bool)
  | writeFull (w : Write) (i : Nat) (fresh : Bool)
  | writeSleep (w : Write) (i : Nat)
  | writeWake (w : Write)
  | writeDone (w : Write)
  | writeRelease (ret : Int)
  | readAcquire (n : Int)
  | readTest (n : Int)
  | readKilled (n : Int)
  | readSleep (n : Int)
  | readCopy (n : Int) (buf : List UInt8)
  | readWake (n : Int) (buf : List UInt8)
  | readRelease (n ret : Int)
  | closeAcquire (writable : Bool)
  | closeSet (writable : Bool)
  | closeWake (writable : Bool)
  | closeRelease
  | kill (q : P)

variable {P : Type}

namespace Data

variable (d : Data P)

def store (p : P) (b : UInt8) : Data P :=
  { d with pipe := d.pipe.store b, stored := d.stored ++ [(p, b)] }

def take : Data P := { d with pipe := d.pipe.take, read := d.read ++ [d.pipe.next] }

variable [DecidableEq P]

def finish (p : P) (c : Call) : Data P :=
  { d with calls := Function.update d.calls p (d.calls p ++ [c]) }

def sent (p : P) : List UInt8 := (d.stored.filter fun e => decide (e.1 = p)).map Prod.snd

end Data

section
variable [DecidableEq P]

def instr (p : P) : Pc P → Instr P Unit Ch (Data P) (Pc P)
  | .idle => .idle
  | .writeAcquire w => .acquire (.of ()) (.writeTest w 0 false)
  | .writeTest w i fresh => .update fun d =>
    if (i : Int) < w.n then
      if d.pipe.full then
        if d.pipe.readopen then (.writeKilled w i fresh, d) else (.writeFail w i fresh, d)
      else (.writeTest w (i + 1) true, d.store p (w.addr i))
    else (.writeWake w, d)
  | .writeKilled w i fresh => .killed fun
    | true => .writeFail w i fresh
    | false => .writeFull w i fresh
  | .writeFail w i _ => .update fun d => (.writeRelease (-1), d.finish p ⟨w, -1, i⟩)
  | .writeFull w i _ => .wakeup .nread (.writeSleep w i)
  | .writeSleep w i => .sleep .nwrite (.of ()) (.writeTest w i false)
  | .writeWake w => .wakeup .nread (.writeDone w)
  | .writeDone w => .update fun d => (.writeRelease w.n, d.finish p ⟨w, w.n, w.n.toNat⟩)
  | .writeRelease _ => .release (.of ()) .idle
  | .readAcquire n => .acquire (.of ()) (.readTest n)
  | .readTest n => .update fun d =>
    if d.pipe.empty && d.pipe.writeopen then (.readKilled n, d) else (.readCopy n [], d)
  | .readKilled n => .killed fun
    | true => .readRelease n (-1)
    | false => .readSleep n
  | .readSleep n => .sleep .nread (.of ()) (.readTest n)
  | .readCopy n buf => .update fun d =>
    if (buf.length : Int) < n then
      if d.pipe.empty then (.readWake n buf, d)
      else (.readCopy n (buf ++ [d.pipe.next]), d.take)
    else (.readWake n buf, d)
  | .readWake n buf => .wakeup .nwrite (.readRelease n buf.length)
  | .readRelease _ _ => .release (.of ()) .idle
  | .closeAcquire writable => .acquire (.of ()) (.closeSet writable)
  | .closeSet writable => .update fun d =>
    (.closeWake writable, { d with pipe := d.pipe.close writable })
  | .closeWake writable => .wakeup (if writable then .nread else .nwrite) .closeRelease
  | .closeRelease => .release (.of ()) .idle
  | .kill q => .kill q .idle

def call : Pc P → Pc P → Bool
  | .idle, .writeAcquire _ | .idle, .readAcquire _ | .idle, .closeAcquire _ | .idle, .kill _ => true
  | _, _ => false

def code : Code P Unit Ch (Data P) (Pc P) := ⟨instr, call⟩

def pipealloc (data : Fin PIPESIZE → UInt8) : Data P :=
  ⟨⟨data, 0, 0, true, true⟩, [], [], fun _ => []⟩

end

def Pc.locked : Pc P → Bool
  | .idle | .writeAcquire _ | .readAcquire _ | .closeAcquire _ | .kill _ => false
  | _ => true

def held (k : Pc P) : Lock Unit → Bool := only () k.locked

def knows : Pc P → Data P → Prop
  | .writeKilled _ _ _, d | .writeFull _ _ _, d | .writeSleep _ _, d =>
    d.pipe.full = true ∧ d.pipe.readopen = true
  | .readKilled _, d | .readSleep _, d => d.pipe.empty = true ∧ d.pipe.writeopen = true
  | .readCopy _ buf, d => buf = [] → d.pipe.empty = true → d.pipe.writeopen = false
  | .readWake n buf, d => 0 < n → buf = [] → d.pipe.empty = true ∧ d.pipe.writeopen = false
  | .readRelease n ret, d => 0 < n → ret = 0 → d.pipe.empty = true ∧ d.pipe.writeopen = false
  | _, _ => True

section
variable [DecidableEq P]

theorem disciplined : Disciplined held (code : Code P Unit Ch (Data P) (Pc P)) where
  instr := by
    intro p k
    cases k with
    | idle => trivial
    | writeAcquire | readAcquire | closeAcquire => exact disciplined_acquire rfl
    | writeRelease | readRelease | closeRelease => exact disciplined_release rfl
    | writeSleep | readSleep => exact disciplined_sleep rfl
    | writeFull | writeWake | readWake | closeWake => exact disciplined_wakeup rfl
    | kill => exact disciplined_kill rfl
    | writeFail | writeDone | closeSet => exact fun _ => rfl
    | writeKilled | readKilled =>
      intro b
      cases b <;> rfl
    | writeTest w i fresh =>
      intro d
      simp only
      split
      · split
        · split <;> rfl
        · rfl
      · rfl
    | readTest n =>
      intro d
      simp only
      split <;> rfl
    | readCopy n buf =>
      intro d
      simp only
      split
      · split <;> rfl
      · rfl
  call := by
    intro k k' h
    cases k with
    | idle =>
      cases k' with
      | writeAcquire | readAcquire | closeAcquire | kill => rfl
      | _ => cases h
    | _ => cases h

end

end Pipe

end BossOs
