import BossOs.Log.Model

/-!
# The buffer cache

`bget`, `bread`, `bwrite` and `brelse` of `bio.c` over the disk of `memide.c`, and the log's
use of them. Any number of processes run programs made of these calls. The critical
section of `bget`, taking the buffer's sleep-lock, `iderw`, giving the sleep-lock back and
the critical section of `brelse` are one step each. The checks of `log_write`, which can
only stop the machine, are in `Log.Model`.
-/

namespace BossOs.Bio

open Lib
open Function (update)

def NBUF : Nat := MAXOPBLOCKS * 3

instance : NeZero NBUF := ⟨by decide⟩

abbrev Slot := Fin NBUF

structure Buf (P : Type) where
  valid : Bool
  dirty : Bool
  dev : Nat
  blockno : Nat
  lock : Option P
  refcnt : Nat
  data : Block

/-- What a process does with buffers, from one call to the next. -/
inductive Prog where
  | ret
  | bread (b : Nat) (k : Slot → Prog)
  | read (i : Slot) (k : Block → Prog)
  | modify (i : Slot) (v : Block) (k : Prog)
  | bwrite (i : Slot) (k : Prog)
  | logWrite (i : Slot) (k : Prog)
  | brelse (i : Slot) (k : Prog)
  /-- Read `log.lh`. -/
  | header (k : List Nat → Prog)
  /-- `log.lh.n = 0`. -/
  | clear (k : Prog)

namespace Prog

/-- The program keeps to the rules of the interface, with the buffers of `held`: it uses a
buffer between `bread` and `brelse`, and after a change, marked `true` in `held`, calls
`bwrite` or `log_write` before `brelse`. -/
def Clean : (Slot → Option Bool) → Prog → Prop
  | held, .ret => ∀ i, held i = none
  | held, .bread _ k => ∀ i, held i = none → Clean (update held i (some false)) (k i)
  | held, .read i k => held i ≠ none ∧ ∀ v, Clean held (k v)
  | held, .modify i _ k => held i ≠ none ∧ Clean (update held i (some true)) k
  | held, .bwrite i k | held, .logWrite i k =>
    held i ≠ none ∧ Clean (update held i (some false)) k
  | held, .brelse i k => held i = some false ∧ Clean (update held i none) k
  | held, .header k => ∀ lh, Clean held (k lh)
  | held, .clear k => Clean held k

def memmove (dst src : Slot) (k : Prog) : Prog := .read src fun v => .modify dst v k

def writeLog (g : Log.Geometry) (k : Prog) : Nat → Prog
  | 0 => k
  | n + 1 => .header fun lh =>
    let tail := LOGSIZE - (n + 1)
    if tail < lh.length then
      .bread (g.start + tail + 1) fun dst => .bread (lh.getD tail 0) fun src =>
        memmove dst src (.bwrite dst (.brelse src (.brelse dst (writeLog g k n))))
    else k

def installTrans (g : Log.Geometry) (k : Prog) : Nat → Prog
  | 0 => k
  | n + 1 => .header fun lh =>
    let tail := LOGSIZE - (n + 1)
    if tail < lh.length then
      .bread (g.start + tail + 1) fun lbuf => .bread (lh.getD tail 0) fun dbuf =>
        memmove dbuf lbuf (.bwrite dbuf (.brelse lbuf (.brelse dbuf (installTrans g k n))))
    else k

def writeHead (g : Log.Geometry) (k : Prog) : Prog :=
  .bread g.start fun buf => .header fun lh =>
    .read buf fun v => .modify buf (Log.setHead v lh) (.bwrite buf (.brelse buf k))

def commit (g : Log.Geometry) : Prog :=
  .header fun lh =>
    if 0 < lh.length then
      writeLog g (writeHead g (installTrans g (.clear (writeHead g .ret)) LOGSIZE)) LOGSIZE
    else .ret

end Prog

/-- Where a process stands: before the next call, or inside one. In `bread` these are
`acquiresleep`, the test of `B_VALID`, `iderw` and the return of the buffer. -/
inductive Thread where
  | prog (c : Prog)
  | lock (b : Nat) (i : Slot) (k : Slot → Prog)
  | check (b : Nat) (i : Slot) (k : Slot → Prog)
  | fill (b : Nat) (i : Slot) (k : Slot → Prog)
  | back (b : Nat) (i : Slot) (k : Slot → Prog)
  | write (i : Slot) (k : Prog)
  | unref (i : Slot) (k : Prog)

inductive Stop where
  | noBuffers | notHeld | nothingToDo | otherDisk | outOfRange
  deriving DecidableEq

structure State (P : Type) where
  buf : Slot → Buf P
  /-- The list through `next`, from `bcache.head` on. -/
  order : List Slot
  disk : Nat → Block
  lh : List Nat
  thread : P → Thread
  stop : Option Stop
  /-- History: the buffers changed since their last `bwrite` or `log_write`, and the last
  contents given to each block. -/
  changed : Slot → Bool
  latest : Nat → Block

abbrev Call := { c : Prog // c.Clean fun _ => none }

inductive Act (P : Type) where
  | run (p : P)
  | call (p : P) (c : Call)

section Step
variable {P : Type} [DecidableEq P]

namespace State

variable (s : State P)

def goto (p : P) (t : Thread) : State P := { s with thread := update s.thread p t }

def setBuf (i : Slot) (b : Buf P) : State P := { s with buf := update s.buf i b }

def setChanged (i : Slot) (c : Bool) : State P := { s with changed := update s.changed i c }

def panic (e : Stop) : State P := { s with stop := some e }

def lookup (b : Nat) : Option Slot :=
  s.order.find? fun i => decide ((s.buf i).dev = ROOTDEV ∧ (s.buf i).blockno = b)

def unused : Option Slot :=
  s.order.reverse.find? fun i => decide ((s.buf i).refcnt = 0) && !(s.buf i).dirty

def bget (p : P) (b : Nat) (k : Slot → Prog) : State P :=
  match s.lookup b with
  | some i => (s.setBuf i { s.buf i with refcnt := (s.buf i).refcnt + 1 }).goto p (.lock b i k)
  | none =>
    match s.unused with
    | some i =>
      (s.setBuf i { s.buf i with
        dev := ROOTDEV, blockno := b, valid := false, dirty := false, refcnt := 1 }).goto p
        (.lock b i k)
    | none => s.panic .noBuffers

def iderw (size : Nat) (p : P) (i : Slot) (t : Thread) : State P :=
  let b := s.buf i
  if b.lock ≠ some p then s.panic .notHeld
  else if b.valid ∧ ¬ b.dirty then s.panic .nothingToDo
  else if b.dev ≠ 1 then s.panic .otherDisk
  else if size ≤ b.blockno then s.panic .outOfRange
  else if b.dirty then
    { s with disk := update s.disk b.blockno b.data }.setBuf i
      { b with dirty := false, valid := true } |>.goto p t
  else (s.setBuf i { b with data := s.disk b.blockno, valid := true }).goto p t

def toFront (i : Slot) : List Slot := i :: s.order.erase i

def unref (p : P) (i : Slot) (k : Prog) : State P :=
  let n := (s.buf i).refcnt - 1
  let s' := (s.setBuf i { s.buf i with refcnt := n }).goto p (.prog k)
  if n = 0 then { s' with order := s.toFront i } else s'

end State

def runProg (s : State P) (p : P) : Prog → Option (State P)
  | .ret => none
  | .bread b k => some (s.bget p b k)
  | .read i k => some (s.goto p (.prog (k (s.buf i).data)))
  | .modify i v k =>
    some (({ s with latest := update s.latest (s.buf i).blockno v }.setBuf i
      { s.buf i with data := v }).setChanged i true |>.goto p (.prog k))
  | .bwrite i k =>
    if (s.buf i).lock ≠ some p then some (s.panic .notHeld)
    else some ((s.setBuf i { s.buf i with dirty := true }).setChanged i false |>.goto p (.write i k))
  | .logWrite i k =>
    some (({ s with
        lh := if (s.buf i).blockno ∈ s.lh then s.lh else s.lh ++ [(s.buf i).blockno] }.setBuf i
      { s.buf i with dirty := true }).setChanged i false |>.goto p (.prog k))
  | .brelse i k =>
    if (s.buf i).lock ≠ some p then some (s.panic .notHeld)
    else some ((s.setBuf i { s.buf i with lock := none }).goto p (.unref i k))
  | .header k => some (s.goto p (.prog (k s.lh)))
  | .clear k => some ({ s with lh := [] }.goto p (.prog k))

def runThread (size : Nat) (s : State P) (p : P) : Option (State P) :=
  match s.thread p with
  | .prog c => runProg s p c
  | .lock b i k =>
    if (s.buf i).lock = none then
      some ((s.setBuf i { s.buf i with lock := some p }).goto p (.check b i k))
    else none
  | .check b i k => some (s.goto p (if (s.buf i).valid then .back b i k else .fill b i k))
  | .fill b i k => some (s.iderw size p i (.back b i k))
  | .back _ i k => some (s.goto p (.prog (k i)))
  | .write i k => some (s.iderw size p i (.prog k))
  | .unref i k => some (s.unref p i k)

def step (size : Nat) (s : State P) : Act P → Option (State P)
  | .run p => if s.stop = none then runThread size s p else none
  | .call p c =>
    match s.thread p with
    | .prog .ret => if s.stop = none then some (s.goto p (.prog c.1)) else none
    | _ => none

end Step

def binit (P : Type) (d : Nat → Block) : State P where
  buf := fun _ => ⟨false, false, 0, 0, none, 0, .zero⟩
  order := (List.finRange NBUF).reverse
  disk := d
  lh := []
  thread := fun _ => .prog .ret
  stop := none
  changed := fun _ => false
  latest := d

end BossOs.Bio
