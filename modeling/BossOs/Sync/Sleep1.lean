import BossOs.Sync.Wakeup

/-!
# Producers and consumers

The system of `sleep1.p`, for any number of processes and rounds and any condition on the
data. Consumers wait for the condition and then do something to the data; producers make
the condition true, and call `wakeup` before or after they release the lock.
-/

namespace BossOs.Sync.Sleep1

open Lib
open Proc (ProcState)

variable {D : Type}

abbrev Make (cond : D → Bool) := { f : D → D // ∀ d, cond (f d) = true }

/-- `early` producers call `wakeup` before they release the lock. -/
inductive Pc (cond : D → Bool) where
  | idle
  | consAcquire (use : D → D) | consTest (use : D → D) | consSleep (use : D → D)
  | consUse (use : D → D) | consRelease
  | prodAcquire (make : Make cond) (early : Bool) | prodMake (make : Make cond) (early : Bool)
  | prodWake | prodRelease
  | prodReleaseFirst | prodWakeLate

variable {P : Type} (cond : D → Bool)

def instr : Pc cond → Instr P Unit Unit D (Pc cond)
  | .idle => .idle
  | .consAcquire use => .acquire (.of ()) (.consTest use)
  | .consTest use => .update fun d => (if cond d then .consUse use else .consSleep use, d)
  | .consSleep use => .sleep () (.of ()) (.consTest use)
  | .consUse use => .update fun d => (.consRelease, use d)
  | .consRelease => .release (.of ()) .idle
  | .prodAcquire make early => .acquire (.of ()) (.prodMake make early)
  | .prodMake make early =>
    .update fun d => (if early then .prodWake else .prodReleaseFirst, make.val d)
  | .prodWake => .wakeup () .prodRelease
  | .prodRelease => .release (.of ()) .idle
  | .prodReleaseFirst => .release (.of ()) .prodWakeLate
  | .prodWakeLate => .wakeup () .idle

def call : Pc cond → Pc cond → Bool
  | .idle, .consAcquire _ | .idle, .prodAcquire _ _ => true
  | _, _ => false

def code : Code P Unit Unit D (Pc cond) := ⟨fun _ => instr cond, call cond⟩

def Pc.due : Pc cond → Bool
  | .prodWake | .prodReleaseFirst | .prodWakeLate => true
  | _ => false

/-- The thread has its call of `wakeup` still to make, or to get to `wakeup1` in it. -/
def due : Thread P Unit Unit (Pc cond) → Bool
  | .wakeAcquire _ _ | .wakeBody _ _ => true
  | .run k | .wakeRelease k | .killAcquire _ k | .killBody _ k | .killRelease k
  | .sleepAcquire _ _ k | .sleepRelease _ _ k | .sleepSet _ _ k | .sleepSched _ _ k
  | .sleepOut _ _ k | .sleepBack _ k | .sleepUnlock _ k | .sleepReacquire _ k => k.due

variable {cond}

def Pc.locked : Pc cond → Bool
  | .idle | .consAcquire _ | .prodAcquire _ _ | .prodWakeLate => false
  | _ => true

def held (k : Pc cond) : Lock Unit → Bool := only () k.locked

def guard (cond : D → Bool) : Guard Unit Unit D (Pc cond) where
  lk := ()
  knows
    | .consSleep _, d => cond d = false
    | .consUse _, d => cond d = true
    | _, _ => True
  waits _ d := cond d = false
  owes _ k := k.due

theorem disciplined : Disciplined held (code cond : Code P Unit Unit D (Pc cond)) where
  instr := by
    intro p k
    cases k with
    | idle => trivial
    | consAcquire | prodAcquire => exact disciplined_acquire rfl
    | consRelease | prodRelease | prodReleaseFirst => exact disciplined_release rfl
    | consSleep => exact disciplined_sleep rfl
    | prodWake | prodWakeLate => exact disciplined_wakeup rfl
    | consUse => exact fun _ => rfl
    | consTest use =>
      intro d
      simp only
      split <;> rfl
    | prodMake make early =>
      intro d
      cases early <;> rfl
  call := by
    intro k k' h
    cases k with
    | idle =>
      cases k' with
      | consAcquire | prodAcquire => rfl
      | _ => cases h
    | _ => cases h

theorem guarded : Guarded (fun _ _ => True) (code cond : Code P Unit Unit D (Pc cond)) held
    (guard cond) where
  disciplined := disciplined
  free := by
    intro k d h
    cases k with
    | consSleep | consUse => cases h
    | _ => trivial
  call := by
    intro k k' h
    cases k with
    | idle =>
      cases k' with
      | consAcquire | prodAcquire => exact ⟨fun _ => trivial, fun _ ho => by cases ho⟩
      | _ => cases h
    | _ => cases h
  sound := by
    intro s p k _ _ hk
    have none_owed : ∀ k k' : Pc cond, (∀ ch, (guard cond).owes ch k = false) →
        (guard cond).Carries k k' := fun k k' h ch ho => by
      rw [h ch] at ho
      cases ho
    cases k with
    | idle => trivial
    | consAcquire | prodAcquire => exact ⟨fun _ => trivial, none_owed _ _ fun _ => rfl⟩
    | consRelease | prodRelease => exact ⟨trivial, none_owed _ _ fun _ => rfl⟩
    | prodReleaseFirst => exact ⟨trivial, fun _ => id⟩
    | consSleep use => exact ⟨rfl, hk, fun _ => trivial, none_owed _ _ fun _ => rfl⟩
    | prodWake | prodWakeLate => exact ⟨trivial, fun _ _ => Or.inl rfl⟩
    | consTest use =>
      refine ⟨rfl, ?_, none_owed _ _ fun _ => rfl, fun _ hw => Or.inl hw⟩
      simp only
      split
      · assumption
      · exact Bool.eq_false_of_not_eq_true ‹_›
    | consUse use =>
      -- the condition holds, so nobody waits on account of its being false
      refine ⟨rfl, trivial, none_owed _ _ fun _ => rfl, fun _ hw => ?_⟩
      exact absurd (hk.symm.trans hw) (by simp)
    | prodMake make early =>
      refine ⟨rfl, ?_, none_owed _ _ fun _ => rfl, fun _ _ => Or.inr ?_⟩
      · cases early <;> trivial
      · cases early <;> rfl

theorem due_of_owing {ch : Unit} {t : Thread P Unit Unit (Pc cond)}
    (h : (guard cond).owing ch t = true) : due cond t = true := by
  cases t <;> first | rfl | exact h

section
variable [DecidableEq P] {d : D} {acts : List (Act P (Pc cond))}
  {s : State P Unit Unit D (Pc cond)}

theorem sleep_loses_no_wakeup
    (h : Run (fun _ _ => True) (step (code cond)) (start (fun _ => .idle) d) acts s) :
    ¬ (cond s.data = true ∧ s.lock (.of ()) = none ∧ s.lock .ptable = none ∧
      (∀ p, due cond (s.thread p) = false) ∧ ∃ p, s.state p = .sleeping ∧ s.chan p = some ()) := by
  rintro ⟨hcond, -, -, hdue, p, hst, hch⟩
  obtain ⟨hi, hw⟩ := guarded.run (fun _ _ => rfl) h
  rcases hw.asleep hi hst hch with hwait | ⟨q, hq⟩
  · exact absurd (hcond.symm.trans hwait) (by simp)
  · have hq' := due_of_owing hq
    rw [hdue q] at hq'
    cases hq'

end

/-- The queue of `sleep1.p`: one consumer goes to sleep, then one producer adds an item,
releases the lock and has yet to call `wakeup`. -/
def oneItem : List (Act Bool (Pc fun n : Nat => decide (0 < n))) :=
  List.flatten [Act.calls false (.consAcquire Nat.pred) 7, [.schedRelease],
    Act.calls true (.prodAcquire ⟨Nat.succ, fun _ => rfl⟩ false) 3]

theorem sleep_loses_no_wakeup_one_item : ∃ s, Run (fun _ _ => True) (step (code _))
    (start (fun _ => .idle) 0) oneItem s ∧
    ((s.data, s.lock (.of ()), s.lock .ptable), s.state false, s.chan false) =
      ((1, none, none), .sleeping, some ()) ∧ ¬ ∀ p, due _ (s.thread p) = false := by
  obtain ⟨s, hs, hf⟩ : ∃ s, Run (fun _ _ => True) (step (code _))
      (start (fun _ => .idle) 0) oneItem s ∧
      ((s.data, s.lock (.of ()), s.lock .ptable), s.state false, s.chan false) =
        ((1, none, none), .sleeping, some ()) := Run.of_exec_map (by decide +kernel)
  refine ⟨s, hs, hf, fun hno => sleep_loses_no_wakeup hs ?_⟩
  simp only [Prod.mk.injEq] at hf
  obtain ⟨⟨hd, hl, hp⟩, hst, hch⟩ := hf
  exact ⟨by rw [hd]; rfl, hl, hp, hno, false, hst, hch⟩

end BossOs.Sync.Sleep1
