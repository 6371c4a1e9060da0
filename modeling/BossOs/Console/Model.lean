import BossOs.Lib.Ring
import BossOs.Params
import BossOs.Sync.Service

/-!
# Console input

`consoleread` and `consoleintr` of `console.c`. A reader is any process, an interrupt any
thread on which it comes; it brings the characters that `getc` returns before -1. The model
keeps the bytes committed so far and the bytes that readers have copied. Echoing, the
process listing and the lock of the console's inode, which `consoleread` gives up while it
waits, are left out.
-/

namespace BossOs.Console

open Lib Sync

def INPUT_BUF : Nat := 128

instance : NeZero INPUT_BUF := ⟨by decide⟩

def ctrl (x : Char) : UInt8 := UInt8.ofNat (x.toNat - '@'.toNat)

def carriageReturn : UInt8 := 13
def delete : UInt8 := 127

structure Input where
  buf : Fin INPUT_BUF → UInt8
  r : UInt32
  w : UInt32
  e : UInt32

namespace Input

variable (i : Input)

def eraseLine : Nat → UInt32 → UInt32
  | 0, e => e
  | n + 1, e =>
    if e ≠ i.w ∧ i.buf (Ring.cell INPUT_BUF (e - 1)) ≠ newline then eraseLine n (e - 1) else e

def receive (c : UInt8) : Input × Bool :=
  if c = ctrl 'P' then (i, false)
  else if c = ctrl 'U' then ({ i with e := i.eraseLine (Ring.dist i.w i.e) i.e }, false)
  else if c = ctrl 'H' ∨ c = delete then
    (if i.e ≠ i.w then { i with e := i.e - 1 } else i, false)
  else if c ≠ 0 ∧ i.e - i.r < UInt32.ofNat INPUT_BUF then
    let c := if c = carriageReturn then newline else c
    let i := { i with buf := Function.update i.buf (Ring.cell INPUT_BUF i.e) c, e := i.e + 1 }
    if c = newline ∨ c = ctrl 'D' ∨ i.e = i.r + UInt32.ofNat INPUT_BUF then ({ i with w := i.e }, true)
    else (i, false)
  else (i, false)

def next : UInt8 := i.buf (Ring.cell INPUT_BUF i.r)

end Input

structure Data where
  input : Input
  committed : List UInt8
  copied : List UInt8

def Data.receive (d : Data) (c : UInt8) : Data × Bool :=
  let (i, wake) := d.input.receive c
  ({ d with
    input := i
    committed := d.committed ++ Ring.window i.buf d.input.w (Ring.dist d.input.w i.w) }, wake)

/-- `n` is what is left of `target`, `dst` what has been copied. -/
inductive Pc where
  | idle
  | readAcquire (n : Int)
  | readLoop (n target : Int) (dst : List UInt8)
  | readKilled (n target : Int) (dst : List UInt8)
  | readSleep (n target : Int) (dst : List UInt8)
  | readRelease (ret : Int) (dst : List UInt8)
  | intrAcquire (cs : List UInt8)
  | intrLoop (cs : List UInt8)
  | intrWake (cs : List UInt8)
  | intrRelease
  deriving DecidableEq

def copy (n target : Int) (dst : List UInt8) (d : Data) : Pc × Data :=
  let c := d.input.next
  if c = ctrl 'D' then
    -- a Ctrl-D after other bytes stays for the next call
    if n < target then (.readRelease (target - n) dst, d)
    else (.readRelease (target - n) dst, { d with input.r := d.input.r + 1 })
  else
    let d := { d with input.r := d.input.r + 1, copied := d.copied ++ [c] }
    if c = newline then (.readRelease (target - (n - 1)) (dst ++ [c]), d)
    else (.readLoop (n - 1) target (dst ++ [c]), d)

variable {P : Type}

def instr : Pc → Instr P Unit Unit Data Pc
  | .idle => .idle
  | .readAcquire n => .acquire (.of ()) (.readLoop n n [])
  | .readLoop n target dst => .update fun d =>
    if 0 < n then
      if d.input.r = d.input.w then (.readKilled n target dst, d) else copy n target dst d
    else (.readRelease (target - n) dst, d)
  | .readKilled n target dst => .killed fun
    | true => .readRelease (-1) dst
    | false => .readSleep n target dst
  | .readSleep n target dst => .sleep () (.of ()) (.readLoop n target dst)
  | .readRelease _ _ => .release (.of ()) .idle
  | .intrAcquire cs => .acquire (.of ()) (.intrLoop cs)
  | .intrLoop [] => .update fun d => (.intrRelease, d)
  | .intrLoop (c :: cs) => .update fun d =>
    (if (d.receive c).2 then .intrWake cs else .intrLoop cs, (d.receive c).1)
  | .intrWake cs => .wakeup () (.intrLoop cs)
  | .intrRelease => .release (.of ()) .idle

def service : Service P Unit Unit Data Pc where
  instr _ := instr
  idle
    | .idle => true
    | _ => false
  entry
    | .readAcquire _ | .intrAcquire _ => true
    | _ => false

def Pc.locked : Pc → Bool
  | .idle | .readAcquire _ | .intrAcquire _ => false
  | _ => true

def held (k : Pc) : Lock Unit → Bool := only () k.locked

def tested : Pc → Bool
  | .readSleep _ _ _ => true
  | _ => false

theorem copy_locked (n target : Int) (dst : List UInt8) (d : Data) :
    (copy n target dst d).1.locked = true ∧ tested (copy n target dst d).1 = false := by
  simp only [copy]
  split_ifs <;> exact ⟨rfl, rfl⟩

theorem annotated : Annotated held tested (service : Service P Unit Unit Data Pc) where
  locks := by
    intro p k
    cases k with
    | idle => trivial
    | readAcquire | intrAcquire => exact disciplined_acquire rfl
    | readRelease | intrRelease => exact disciplined_release rfl
    | readSleep => exact disciplined_sleep rfl
    | intrWake => exact disciplined_wakeup rfl
    | readKilled =>
      intro b
      cases b <;> rfl
    | readLoop n target dst =>
      intro d
      simp only
      split
      · split
        · rfl
        · rw [held, (copy_locked n target dst d).1]
          rfl
      · rfl
    | intrLoop cs =>
      cases cs with
      | nil => exact fun _ => rfl
      | cons c cs =>
        intro d
        simp only
        split <;> rfl
  tests := by
    intro p k
    cases k with
    | idle => trivial
    | readAcquire | intrAcquire | readRelease | intrRelease | intrWake => exact fun h => h
    | readSleep => exact ⟨rfl, rfl⟩
    | readKilled => rfl
    | readLoop n target dst =>
      intro d h
      simp only at h
      split at h
      · split at h
        · exact h
        · rw [(copy_locked n target dst d).2] at h
          cases h
      · exact h
    | intrLoop cs =>
      cases cs with
      | nil => exact fun _ h => h
      | cons c cs =>
        intro d h
        simp only at h
        split at h <;> exact h
  idle := by
    intro k h m
    cases k with
    | idle => rfl
    | _ => cases h
  entry := by
    intro k h
    cases k with
    | readAcquire | intrAcquire => exact ⟨fun _ => rfl, rfl⟩
    | _ => cases h

end BossOs.Console
