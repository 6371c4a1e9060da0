import BossOs.Sync.Locks

/-!
# Tests of `killed` before `sleep`

Code is annotated with the points at which the process has found its flag `killed` clear
and is on its way to `sleep`. The flag is set under `ptable.lock` and tested under another
lock, so a `kill` may come between the test and the moment at which `sleep` has
`ptable.lock`. In the runs in which that never happens, no killed process sleeps.
-/

namespace BossOs.Sync

open Lib
open Proc (ProcState)
open Function (update update_self update_of_ne)

variable {P L Ch D K : Type}

section Annotation
variable (tested : K → Bool)

def Instr.Tested (k : K) : Instr P L Ch D K → Prop
  | .idle => True
  | .acquire _ k' | .release _ k' | .wakeup _ k' | .wakeup1 _ k' => tested k' = true → tested k = true
  | .sleep _ _ k' => tested k = true ∧ tested k' = false
  | .kill _ k' => tested k' = false
  | .killed f => tested (f true) = false
  | .update f => ∀ d, tested (f d).1 = true → tested k = true

structure Tested (c : Code P L Ch D K) : Prop where
  instr : ∀ p k, (c.instr p k).Tested tested k
  call : ∀ k k', c.call k k' = true → tested k' = false

namespace Thread

def committed : Thread P L Ch K → Bool
  | .run k | .wakeAcquire _ k | .wakeBody _ k | .wakeRelease k => tested k
  | .sleepAcquire _ _ _ | .sleepRelease _ _ _ | .sleepSet _ _ _ => true
  | _ => false

/-- A process that is committed to `sleep` has its flag `b` clear; after `sleep` and after
`kill` it will test the flag again. -/
def Clear (b : Bool) : Thread P L Ch K → Prop
  | .run k | .wakeAcquire _ k | .wakeBody _ k | .wakeRelease k => tested k = true → b = false
  | .sleepAcquire _ _ k | .sleepRelease _ _ k | .sleepSet _ _ k => b = false ∧ tested k = false
  | .sleepSched _ _ k | .sleepOut _ _ k | .sleepBack _ k | .sleepUnlock _ k | .sleepReacquire _ k
  | .killAcquire _ k | .killBody _ k | .killRelease k => tested k = false

end Thread

variable [DecidableEq L] (held : K → Lock L → Bool)

/-- `kill` does not set the flag of a process that has tested it and has not yet got
`ptable.lock` in `sleep`. -/
def killsInTime (s : State P L Ch D K) : Act P K → Bool
  | .run p =>
    match s.thread p with
    | .killBody q _ => !(s.thread q).committed tested || (s.thread q).holds held .ptable
    | _ => true
  | _ => true

structure AwakeInv (s : State P L Ch D K) : Prop where
  clear : ∀ p, (s.thread p).Clear tested (s.killed p)
  awake : ∀ p, s.killed p = true → s.state p ≠ .sleeping

omit [DecidableEq L] in
theorem awakeInv_start (k : P → K) (d : D) : AwakeInv tested (start k d : State P L Ch D K) :=
  ⟨fun _ _ => rfl, fun _ h => Bool.noConfusion h⟩

end Annotation

section Clear
variable {tested : K → Bool} {c : Code P L Ch D K} {p : P} {t u : Thread P L Ch K} {b : Bool}

theorem Takes.clear {lk : Lock L} (h : Takes c p t lk u) (ht : Tested tested c)
    (hc : t.Clear tested b) : u.Clear tested b := by
  cases h with
  | instr k lk k' at_ =>
    have hin := ht.instr p k
    rw [at_] at hin
    exact fun hk' => hc (hin hk')
  | resume l k => exact fun hk => absurd (hk.symm.trans hc) (by simp)
  | sleep ch l k | wake ch k | kill q k => exact hc

theorem Drops.clear {lk : Lock L} (h : Drops c p t lk u) (ht : Tested tested c)
    (hc : t.Clear tested b) : u.Clear tested b := by
  cases h with
  | instr k lk k' at_ =>
    have hin := ht.instr p k
    rw [at_] at hin
    exact fun hk' => hc (hin hk')
  | kill k => exact fun hk => absurd (hk.symm.trans hc) (by simp)
  | sleep ch l k | resume l k | wake k => exact hc

theorem Passes.clear (h : Passes c p b t u) (ht : Tested tested c) (hc : t.Clear tested b) :
    u.Clear tested b := by
  cases h with
  | wait k ch k' at_ | sleep k ch l k' at_ =>
    have hin := ht.instr p k
    rw [at_] at hin
    exact ⟨hc hin.1, hin.2⟩
  | wakeup k ch k' at_ =>
    have hin := ht.instr p k
    rw [at_] at hin
    exact fun hk' => hc (hin hk')
  | kill k q k' at_ =>
    have hin := ht.instr p k
    rw [at_] at hin
    exact hin
  | killed k f at_ =>
    have hin := ht.instr p k
    rw [at_] at hin
    intro hk
    cases b with
    | false => rfl
    | true => exact absurd (hk.symm.trans hin) (by simp)

theorem Wakes.clear {ch : Ch} (h : Wakes c p t ch u) (ht : Tested tested c)
    (hc : t.Clear tested b) : u.Clear tested b := by
  cases h with
  | instr k ch k' at_ =>
    have hin := ht.instr p k
    rw [at_] at hin
    exact fun hk' => hc (hin hk')
  | body ch k => exact hc

theorem Thread.Clear.of_not_committed (hc : t.Clear tested b) (h : t.committed tested = false)
    (b' : Bool) : t.Clear tested b' := by
  cases t with
  | run k | wakeAcquire ch k | wakeBody ch k | wakeRelease k =>
    exact fun hk => absurd (hk.symm.trans h) (by simp)
  | sleepAcquire ch l k | sleepRelease ch l k | sleepSet ch lk k => cases h
  | _ => exact hc

end Clear

section Step
variable [DecidableEq P] {tested : K → Bool} {s : State P L Ch D K}

theorem AwakeInv.move (h : AwakeInv tested s) {p : P} {u : Thread P L Ch K} {s' : State P L Ch D K}
    (ht : s'.thread = update s.thread p u) (hk : s'.killed = s.killed)
    (hst : ∀ q, s'.state q = .sleeping → s.state q = .sleeping)
    (hu : u.Clear tested (s.killed p)) : AwakeInv tested s' := by
  refine ⟨fun q => ?_, fun q hq hsl => ?_⟩
  · rw [hk, ht]
    by_cases hqp : q = p
    · subst hqp
      rwa [update_self]
    · rw [update_of_ne hqp]
      exact h.clear q
  · rw [hk] at hq
    exact h.awake q hq (hst q hsl)

variable [DecidableEq L] [DecidableEq Ch] {c : Code P L Ch D K} {held : K → Lock L → Bool}
  {s' : State P L Ch D K} {a : Act P K}

omit [DecidableEq P] [DecidableEq Ch] in
theorem not_committed_of_kill (hi : SyncInv held s) {p q : P} {k : K} (hp : s.thread p = .killBody q k)
    (hok : killsInTime tested held s (.run p) = true) {r : P} (hr : r ≠ p) (hrq : r = q) :
    (s.thread r).committed tested = false := by
  subst hrq
  simp only [killsInTime, hp, Bool.or_eq_true, Bool.not_eq_true'] at hok
  refine hok.resolve_right fun hl => hr ?_
  refine (hi.lock .ptable).unique hl ?_
  rw [hp]
  simp [Thread.holds]

theorem awakeInv_step (hi : SyncInv held s) (ht : Tested tested c) (h : AwakeInv tested s)
    (hok : killsInTime tested held s a = true) (hs : step c s a = some s') :
    AwakeInv tested s' := by
  cases step_moves hs with
  | take p lk u act at_ free => exact h.move rfl rfl (fun _ => id) (at_.clear ht (h.clear p))
  | drop p lk u act at_ => exact h.move rfl rfl (fun _ => id) (at_.clear ht (h.clear p))
  | pass p u act at_ => exact h.move rfl rfl (fun _ => id) (at_.clear ht (h.clear p))
  | call p k k' act at_ code entry =>
    exact h.move rfl rfl (fun _ => id) fun hk' => absurd (hk'.symm.trans (ht.call k k' entry)) (by simp)
  | update p k f act at_ code =>
    have hin := ht.instr p k
    rw [code] at hin
    have hc := h.clear p
    rw [at_] at hc
    exact h.move rfl rfl (fun _ => id) fun hk' => hc (hin _ hk')
  | set p ch lk k act at_ =>
    have hc := h.clear p
    rw [at_] at hc
    refine ⟨fun q => ?_, fun q hq => ?_⟩ <;> by_cases hqp : q = p
    · subst hqp
      simp only [State.goto, update_self]
      exact hc.2
    · simp only [State.goto, update_of_ne hqp]
      exact h.clear q
    · subst hqp
      exact absurd (hc.1.symm.trans hq) (by simp)
    · simp only [State.goto, update_of_ne hqp]
      exact h.awake q hq
  | sched p ch lk k act at_ =>
    have hc := h.clear p
    rw [at_] at hc
    exact h.move rfl rfl (fun _ => id) hc
  | back p lk k act at_ =>
    have hc := h.clear p
    rw [at_] at hc
    refine h.move rfl rfl (fun _ => id) ?_
    cases lk with
    | ptable => exact fun hk => absurd (hk.symm.trans hc) (by simp)
    | of l => exact hc
  | wake p ch u act at_ =>
    refine h.move rfl rfl (fun q hq => ?_) (at_.clear ht (h.clear p))
    rcases wakeup1_state s.state s.chan ch q with heq | ⟨hsl, -⟩
    · exact heq.symm.trans hq
    · exact hsl
  | kill p q k act at_ =>
    subst act
    have hc := h.clear p
    rw [at_] at hc
    refine ⟨fun r => ?_, fun r hr hsl => ?_⟩
    · by_cases hrp : r = p
      · subst hrp
        simp only [State.goto, update_self]
        exact hc
      · simp only [State.goto, State.kill, update_of_ne hrp]
        by_cases hrq : r = q
        · exact (h.clear r).of_not_committed (not_committed_of_kill hi at_ hok hrp hrq) _
        · rw [update_of_ne hrq]
          exact h.clear r
    · by_cases hrq : r = q
      · subst hrq
        simp only [State.goto, State.kill] at hsl
        split at hsl
        · simp at hsl
        · exact absurd hsl ‹_›
      · simp only [State.goto, State.kill, update_of_ne hrq] at hr
        refine h.awake r hr ?_
        rcases kill_state s q r with heq | ⟨hs, -⟩
        · exact heq.symm.trans hsl
        · exact hs
  | schedAcquire free => exact ⟨h.clear, h.awake⟩
  | schedRelease held => exact ⟨h.clear, h.awake⟩
  | swtch p ch lk k at_ held runnable =>
    have hc := h.clear p
    rw [at_] at hc
    refine h.move rfl rfl (fun q hq => ?_) hc
    by_cases hqp : q = p
    · subst hqp
      simp [State.goto] at hq
    · simpa [State.goto, update_of_ne hqp] using hq

theorem awakeInv_of_run (hd : Disciplined held c) (ht : Tested tested c) {k : P → K} {d : D}
    {acts : List (Act P K)} (hk : ∀ p m, held (k p) m = false)
    (h : Run (fun s a => killsInTime tested held s a = true) (step c) (start k d) acts s) :
    AwakeInv tested s := by
  refine (Run.invariant (I := fun s => SyncInv held s ∧ AwakeInv tested s) ?_ h
    ⟨syncInv_start held hk d, awakeInv_start tested k d⟩).2
  rintro s a t ⟨hi, ha⟩ hok hs
  exact ⟨syncInv_step hd hi hs, awakeInv_step hi ht ha hok hs⟩

end Step

end BossOs.Sync
