import BossOs.Sync.Machine

/-!
# What one step of a kernel thread can do

The outcomes of `step`, by their effect on the locks and on the other processes; the step
functions are unfolded here and nowhere else.
-/

namespace BossOs.Sync

open Lib
open Proc (ProcState)
open Function (update)

variable {P L Ch D K : Type}

section
variable (c : Code P L Ch D K) (p : P)

inductive Takes : Thread P L Ch K → Lock L → Thread P L Ch K → Prop where
  | instr (k : K) (lk : Lock L) (k' : K) (at_ : c.instr p k = .acquire lk k') :
      Takes (.run k) lk (.run k')
  | sleep (ch : Ch) (l : L) (k : K) : Takes (.sleepAcquire ch l k) .ptable (.sleepRelease ch l k)
  | resume (l : L) (k : K) : Takes (.sleepReacquire l k) (.of l) (.run k)
  | wake (ch : Ch) (k : K) : Takes (.wakeAcquire ch k) .ptable (.wakeBody ch k)
  | kill (q : P) (k : K) : Takes (.killAcquire q k) .ptable (.killBody q k)

inductive Drops : Thread P L Ch K → Lock L → Thread P L Ch K → Prop where
  | instr (k : K) (lk : Lock L) (k' : K) (at_ : c.instr p k = .release lk k') :
      Drops (.run k) lk (.run k')
  | sleep (ch : Ch) (l : L) (k : K) : Drops (.sleepRelease ch l k) (.of l) (.sleepSet ch (.of l) k)
  | resume (l : L) (k : K) : Drops (.sleepUnlock l k) .ptable (.sleepReacquire l k)
  | wake (k : K) : Drops (.wakeRelease k) .ptable (.run k)
  | kill (k : K) : Drops (.killRelease k) .ptable (.run k)

/-- Steps of the thread alone: calls of `sleep` and the like, and the test of `killed`. -/
inductive Passes (killed : Bool) : Thread P L Ch K → Thread P L Ch K → Prop where
  | wait (k : K) (ch : Ch) (k' : K) (at_ : c.instr p k = .sleep ch .ptable k') :
      Passes killed (.run k) (.sleepSet ch .ptable k')
  | sleep (k : K) (ch : Ch) (l : L) (k' : K) (at_ : c.instr p k = .sleep ch (.of l) k') :
      Passes killed (.run k) (.sleepAcquire ch l k')
  | wakeup (k : K) (ch : Ch) (k' : K) (at_ : c.instr p k = .wakeup ch k') :
      Passes killed (.run k) (.wakeAcquire ch k')
  | kill (k : K) (q : P) (k' : K) (at_ : c.instr p k = .kill q k') :
      Passes killed (.run k) (.killAcquire q k')
  | killed (k : K) (f : Bool → K) (at_ : c.instr p k = .killed f) :
      Passes killed (.run k) (.run (f killed))

inductive Wakes : Thread P L Ch K → Ch → Thread P L Ch K → Prop where
  | instr (k : K) (ch : Ch) (k' : K) (at_ : c.instr p k = .wakeup1 ch k') :
      Wakes (.run k) ch (.run k')
  | body (ch : Ch) (k : K) : Wakes (.wakeBody ch k) ch (.wakeRelease k)

def Thread.awake : Lock L → K → Thread P L Ch K
  | .ptable, k => .run k
  | .of l, k => .sleepUnlock l k

end

variable [DecidableEq P] [DecidableEq L] [DecidableEq Ch]

inductive Moves (c : Code P L Ch D K) (s : State P L Ch D K) (a : Act P K) :
    State P L Ch D K → Prop where
  | take (p : P) (lk : Lock L) (t : Thread P L Ch K) (act : a = .run p)
      (at_ : Takes c p (s.thread p) lk t) (free : s.lock lk = none) :
      Moves c s a ({ s with lock := update s.lock lk (some (some p)) }.goto p t)
  | drop (p : P) (lk : Lock L) (t : Thread P L Ch K) (act : a = .run p)
      (at_ : Drops c p (s.thread p) lk t) : Moves c s a (s.release lk p t)
  | pass (p : P) (t : Thread P L Ch K) (act : a = .run p)
      (at_ : Passes c p (s.killed p) (s.thread p) t) : Moves c s a (s.goto p t)
  | call (p : P) (k k' : K) (act : a = .call p k') (at_ : s.thread p = .run k)
      (code : c.instr p k = .idle) (entry : c.call k k' = true) : Moves c s a (s.goto p (.run k'))
  | update (p : P) (k : K) (f : D → K × D) (act : a = .run p) (at_ : s.thread p = .run k)
      (code : c.instr p k = .update f) :
      Moves c s a ({ s with data := (f s.data).2 }.goto p (.run (f s.data).1))
  | set (p : P) (ch : Ch) (lk : Lock L) (k : K) (act : a = .run p)
      (at_ : s.thread p = .sleepSet ch lk k) : Moves c s a ({ s with
        chan := update s.chan p (some ch)
        state := update s.state p .sleeping }.goto p (.sleepSched ch lk k))
  | sched (p : P) (ch : Ch) (lk : Lock L) (k : K) (act : a = .run p)
      (at_ : s.thread p = .sleepSched ch lk k) : Moves c s a
        ({ s with lock := update s.lock .ptable (some none) }.goto p (.sleepOut ch lk k))
  | back (p : P) (lk : Lock L) (k : K) (act : a = .run p) (at_ : s.thread p = .sleepBack lk k) :
      Moves c s a ({ s with chan := update s.chan p none }.goto p (.awake lk k))
  | wake (p : P) (ch : Ch) (t : Thread P L Ch K) (act : a = .run p)
      (at_ : Wakes c p (s.thread p) ch t) :
      Moves c s a ({ s with state := wakeup1 s.state s.chan ch }.goto p t)
  | kill (p q : P) (k : K) (act : a = .run p) (at_ : s.thread p = .killBody q k) :
      Moves c s a ((s.kill q).goto p (.killRelease k))
  | schedAcquire (free : s.lock .ptable = none) :
      Moves c s a { s with lock := update s.lock .ptable (some none) }
  | schedRelease (held : s.lock .ptable = some none) :
      Moves c s a { s with lock := update s.lock .ptable none }
  | swtch (p : P) (ch : Ch) (lk : Lock L) (k : K) (at_ : s.thread p = .sleepOut ch lk k)
      (held : s.lock .ptable = some none) (runnable : s.state p = .runnable) :
      Moves c s a ({ s with
        lock := update s.lock .ptable (some (some p))
        state := update s.state p .running }.goto p (.sleepBack lk k))

variable {c : Code P L Ch D K} {s t : State P L Ch D K} {p : P}

omit [DecidableEq Ch] in
theorem acquire_some {lk : Lock L} {u : Thread P L Ch K} (h : s.acquire lk p u = some t) :
    s.lock lk = none ∧ t = { s with lock := update s.lock lk (some (some p)) }.goto p u := by
  unfold State.acquire at h
  split at h
  · cases h
    exact ⟨‹_›, rfl⟩
  · cases h

theorem runInstr_moves {k : K} (at_ : s.thread p = .run k)
    (h : runInstr s p (c.instr p k) = some t) : Moves c s (.run p) t := by
  cases hi : c.instr p k with
  | idle =>
    rw [hi] at h
    cases h
  | acquire lk k' =>
    rw [hi] at h
    obtain ⟨hfree, rfl⟩ := acquire_some h
    exact .take p lk _ rfl (by rw [at_]; exact .instr k lk k' hi) hfree
  | release lk k' =>
    rw [hi] at h
    cases h
    exact .drop p lk _ rfl (by rw [at_]; exact .instr k lk k' hi)
  | sleep ch lk k' =>
    rw [hi] at h
    cases lk with
    | ptable =>
      cases h
      exact .pass p _ rfl (by rw [at_]; exact .wait k ch k' hi)
    | of l =>
      cases h
      exact .pass p _ rfl (by rw [at_]; exact .sleep k ch l k' hi)
  | wakeup ch k' =>
    rw [hi] at h
    cases h
    exact .pass p _ rfl (by rw [at_]; exact .wakeup k ch k' hi)
  | wakeup1 ch k' =>
    rw [hi] at h
    cases h
    exact .wake p ch _ rfl (by rw [at_]; exact .instr k ch k' hi)
  | kill q k' =>
    rw [hi] at h
    cases h
    exact .pass p _ rfl (by rw [at_]; exact .kill k q k' hi)
  | killed f =>
    rw [hi] at h
    cases h
    exact .pass p _ rfl (by rw [at_]; exact .killed k f hi)
  | update f =>
    rw [hi] at h
    cases h
    exact .update p k f rfl at_ hi

theorem runThread_moves (h : runThread c s p = some t) : Moves c s (.run p) t := by
  unfold runThread at h
  split at h
  · rename_i k at_
    exact runInstr_moves at_ h
  · rename_i ch l k at_
    obtain ⟨hfree, rfl⟩ := acquire_some h
    exact .take p .ptable _ rfl (by rw [at_]; exact .sleep ch l k) hfree
  · rename_i ch l k at_
    cases h
    exact .drop p (.of l) _ rfl (by rw [at_]; exact .sleep ch l k)
  · rename_i ch lk k at_
    cases h
    exact .set p ch lk k rfl at_
  · rename_i ch lk k at_
    cases h
    exact .sched p ch lk k rfl at_
  · cases h
  · rename_i k at_
    cases h
    exact .back p .ptable k rfl at_
  · rename_i l k at_
    cases h
    exact .back p (.of l) k rfl at_
  · rename_i l k at_
    cases h
    exact .drop p .ptable _ rfl (by rw [at_]; exact .resume l k)
  · rename_i l k at_
    obtain ⟨hfree, rfl⟩ := acquire_some h
    exact .take p (.of l) _ rfl (by rw [at_]; exact .resume l k) hfree
  · rename_i ch k at_
    obtain ⟨hfree, rfl⟩ := acquire_some h
    exact .take p .ptable _ rfl (by rw [at_]; exact .wake ch k) hfree
  · rename_i ch k at_
    cases h
    exact .wake p ch _ rfl (by rw [at_]; exact .body ch k)
  · rename_i k at_
    cases h
    exact .drop p .ptable _ rfl (by rw [at_]; exact .wake k)
  · rename_i q k at_
    obtain ⟨hfree, rfl⟩ := acquire_some h
    exact .take p .ptable _ rfl (by rw [at_]; exact .kill q k) hfree
  · rename_i q k at_
    cases h
    exact .kill p q k rfl at_
  · rename_i k at_
    cases h
    exact .drop p .ptable _ rfl (by rw [at_]; exact .kill k)

theorem step_moves {a : Act P K} (h : step c s a = some t) : Moves c s a t := by
  cases a with
  | run p => exact runThread_moves h
  | call p k' =>
    simp only [step] at h
    split at h
    · rename_i k at_
      split at h
      · rename_i hi
        split at h
        · rename_i hcall
          cases h
          exact .call p k k' rfl at_ hi hcall
        · cases h
      · cases h
    · cases h
  | schedAcquire =>
    simp only [step] at h
    split at h
    · cases h
      exact .schedAcquire ‹_›
    · cases h
  | schedRelease =>
    simp only [step] at h
    split at h
    · cases h
      exact .schedRelease ‹_›
    · cases h
  | swtch p =>
    simp only [step] at h
    split at h
    · rename_i ch lk k at_
      split at h
      · rename_i hc
        cases h
        exact .swtch p ch lk k at_ hc.1 hc.2
      · cases h
    · cases h

end BossOs.Sync
