import BossOs.Sync.Service

/-!
# The clock

`sys_sleep` and `sys_uptime` of `sysproc.c`, and the timer interrupt of `trap.c`, on the
counter `ticks` and its lock `tickslock`.
-/

namespace BossOs.Clock

open Sync

inductive Pc where
  | idle
  | sleepAcquire (n : UInt32)
  | sleepStart (n : UInt32)
  | sleepTest (n ticks0 : UInt32)
  | sleepKilled (n ticks0 : UInt32)
  | sleepSleep (n ticks0 : UInt32)
  | sleepRelease (ret : Int)
  | uptimeAcquire
  | uptimeRead
  | uptimeRelease (xticks : UInt32)
  | timerAcquire
  | timerTick
  | timerWake
  | timerRelease
  deriving DecidableEq

variable {P : Type}

def instr : Pc → Instr P Unit Unit UInt32 Pc
  | .idle => .idle
  | .sleepAcquire n => .acquire (.of ()) (.sleepStart n)
  | .sleepStart n => .update fun ticks => (.sleepTest n ticks, ticks)
  | .sleepTest n ticks0 => .update fun ticks =>
    (if ticks - ticks0 < n then .sleepKilled n ticks0 else .sleepRelease 0, ticks)
  | .sleepKilled n ticks0 => .killed fun
    | true => .sleepRelease (-1)
    | false => .sleepSleep n ticks0
  | .sleepSleep n ticks0 => .sleep () (.of ()) (.sleepTest n ticks0)
  | .sleepRelease _ => .release (.of ()) .idle
  | .uptimeAcquire => .acquire (.of ()) .uptimeRead
  | .uptimeRead => .update fun ticks => (.uptimeRelease ticks, ticks)
  | .uptimeRelease _ => .release (.of ()) .idle
  | .timerAcquire => .acquire (.of ()) .timerTick
  | .timerTick => .update fun ticks => (.timerWake, ticks + 1)
  | .timerWake => .wakeup () .timerRelease
  | .timerRelease => .release (.of ()) .idle

def service : Service P Unit Unit UInt32 Pc where
  instr _ := instr
  idle k := k = .idle
  entry
    | .sleepAcquire _ | .uptimeAcquire | .timerAcquire => true
    | _ => false

def Pc.locked : Pc → Bool
  | .idle | .sleepAcquire _ | .uptimeAcquire | .timerAcquire => false
  | _ => true

def held (k : Pc) : Lock Unit → Bool := only () k.locked

def tested : Pc → Bool
  | .sleepSleep _ _ => true
  | _ => false

theorem annotated : Annotated held tested (service : Service P Unit Unit UInt32 Pc) where
  locks := by
    intro p k
    cases k with
    | idle => trivial
    | sleepAcquire | uptimeAcquire | timerAcquire => exact disciplined_acquire rfl
    | sleepRelease | uptimeRelease | timerRelease => exact disciplined_release rfl
    | sleepSleep => exact disciplined_sleep rfl
    | timerWake => exact disciplined_wakeup rfl
    | sleepStart | uptimeRead | timerTick => exact fun _ => rfl
    | sleepKilled =>
      intro b
      cases b <;> rfl
    | sleepTest n ticks0 =>
      intro ticks
      simp only
      split <;> rfl
  tests := by
    intro p k
    cases k with
    | idle => trivial
    | sleepAcquire | uptimeAcquire | timerAcquire | sleepRelease | uptimeRelease | timerRelease
    | timerWake => exact fun h => h
    | sleepSleep => exact ⟨rfl, rfl⟩
    | sleepKilled => rfl
    | sleepStart | uptimeRead | timerTick => exact fun _ h => h
    | sleepTest n ticks0 =>
      intro ticks h
      simp only at h
      split at h <;> exact h
  idle := by
    intro k h m
    rw [of_decide_eq_true h]
    rfl
  entry := by
    intro k h
    cases k with
    | sleepAcquire | uptimeAcquire | timerAcquire => exact ⟨fun _ => rfl, rfl⟩
    | _ => cases h

end BossOs.Clock
