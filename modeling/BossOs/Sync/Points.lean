import BossOs.Sync.Wakeup

/-!
# Runs of the code itself

Inside `sleep`, `wakeup` and `kill` a thread changes neither its place in the code nor the
data. An invariant about the places of all threads and the data is therefore proved from
the instructions alone.
-/

namespace BossOs.Sync

open Lib
open Proc (ProcState)
open Function (update update_self update_of_ne update_eq_self)

variable {P L Ch D K : Type}

def Thread.point : Thread P L Ch K → K
  | .run k | .wakeAcquire _ k | .wakeBody _ k | .wakeRelease k | .killAcquire _ k | .killBody _ k
  | .killRelease k | .sleepAcquire _ _ k | .sleepRelease _ _ k | .sleepSet _ _ k
  | .sleepSched _ _ k | .sleepOut _ _ k | .sleepBack _ k | .sleepUnlock _ k
  | .sleepReacquire _ k => k

def State.points (s : State P L Ch D K) (p : P) : K := (s.thread p).point

/-- What the code of `p` at `k` does to its own place and to the data. -/
inductive Leads (c : Code P L Ch D K) (p : P) (killed : Bool) (k : K) (d : D) : K → D → Prop where
  | call (k' : K) (at_ : c.instr p k = .idle) (entry : c.call k k' = true) :
      Leads c p killed k d k' d
  | acquire (lk : Lock L) (k' : K) (at_ : c.instr p k = .acquire lk k') : Leads c p killed k d k' d
  | release (lk : Lock L) (k' : K) (at_ : c.instr p k = .release lk k') : Leads c p killed k d k' d
  | sleep (ch : Ch) (lk : Lock L) (k' : K) (at_ : c.instr p k = .sleep ch lk k') :
      Leads c p killed k d k' d
  | wakeup (ch : Ch) (k' : K) (at_ : c.instr p k = .wakeup ch k') : Leads c p killed k d k' d
  | wakeup1 (ch : Ch) (k' : K) (at_ : c.instr p k = .wakeup1 ch k') : Leads c p killed k d k' d
  | kill (q : P) (k' : K) (at_ : c.instr p k = .kill q k') : Leads c p killed k d k' d
  | killed (f : Bool → K) (at_ : c.instr p k = .killed f) : Leads c p killed k d (f killed) d
  | update (f : D → K × D) (at_ : c.instr p k = .update f) : Leads c p killed k d (f d).1 (f d).2

section
variable [DecidableEq P] {s : State P L Ch D K} {p : P}

theorem points_update (u : Thread P L Ch K) :
    (fun q => (update s.thread p u q).point) = update s.points p u.point := by
  funext q
  by_cases hq : q = p
  · subst hq
    rw [update_self, update_self]
  · rw [update_of_ne hq, update_of_ne hq]
    rfl

theorem points_same {u : Thread P L Ch K} (hu : u.point = (s.thread p).point) :
    (fun q => (update s.thread p u q).point) = s.points := by
  rw [points_update, hu]
  exact update_eq_self ..

variable [DecidableEq L] [DecidableEq Ch] {c : Code P L Ch D K}

variable {s' : State P L Ch D K}

theorem points_act {a : Act P K} (hs : step c s a = some s') :
    (s'.points = s.points ∧ s'.data = s.data) ∨
    ∃ p k k' d', s.thread p = .run k ∧ Leads c p (s.killed p) k s.data k' d' ∧
      s'.points = update s.points p k' ∧ s'.data = d' ∧
      (a = .run p ∨ a = .call p k' ∧ c.instr p k = .idle) := by
  have inner : ∀ {p u} {t : State P L Ch D K}, u.point = (s.thread p).point →
      t.thread = update s.thread p u → t.points = s.points := by
    intro p u t hu ht
    rw [← points_same hu]
    funext q
    rw [State.points, ht]
  have instr : ∀ {p u k} {t : State P L Ch D K}, s.thread p = .run k →
      Leads c p (s.killed p) k s.data u.point t.data →
      t.thread = update s.thread p u →
      (a = .run p ∨ a = .call p u.point ∧ c.instr p k = .idle) →
      ∃ p k k' d', s.thread p = .run k ∧ Leads c p (s.killed p) k s.data k' d' ∧
      t.points = update s.points p k' ∧ t.data = d' ∧
      (a = .run p ∨ a = .call p k' ∧ c.instr p k = .idle) := by
    intro p u k t hk hl ht hact
    refine ⟨p, k, u.point, t.data, hk, hl, ?_, rfl, hact⟩
    rw [← points_update]
    funext q
    rw [State.points, ht]
  cases step_moves hs with
  | take p lk u act at_ free =>
    generalize ht : s.thread p = t at at_
    cases at_ with
    | instr k lk k' at_ => exact Or.inr (instr ht (.acquire lk k' at_) rfl (Or.inl act))
    | _ => exact Or.inl ⟨inner (by rw [ht]; rfl) rfl, rfl⟩
  | drop p lk u act at_ =>
    generalize ht : s.thread p = t at at_
    cases at_ with
    | instr k lk k' at_ => exact Or.inr (instr ht (.release lk k' at_) rfl (Or.inl act))
    | _ => exact Or.inl ⟨inner (by rw [ht]; rfl) rfl, rfl⟩
  | pass p u act at_ =>
    generalize ht : s.thread p = t at at_
    cases at_ with
    | wait k ch k' at_ => exact Or.inr (instr ht (.sleep ch .ptable k' at_) rfl (Or.inl act))
    | sleep k ch l k' at_ => exact Or.inr (instr ht (.sleep ch (.of l) k' at_) rfl (Or.inl act))
    | wakeup k ch k' at_ => exact Or.inr (instr ht (.wakeup ch k' at_) rfl (Or.inl act))
    | kill k q k' at_ => exact Or.inr (instr ht (.kill q k' at_) rfl (Or.inl act))
    | killed k f at_ => exact Or.inr (instr ht (.killed f at_) rfl (Or.inl act))
  | call p k k' act at_ code entry =>
    exact Or.inr (instr at_ (.call k' code entry) rfl (Or.inr ⟨act, code⟩))
  | update p k f act at_ code => exact Or.inr (instr at_ (.update f code) rfl (Or.inl act))
  | wake p ch u act at_ =>
    generalize ht : s.thread p = t at at_
    cases at_ with
    | instr k ch k' at_ => exact Or.inr (instr ht (.wakeup1 ch k' at_) rfl (Or.inl act))
    | body ch k => exact Or.inl ⟨inner (by rw [ht]; rfl) rfl, rfl⟩
  | set p ch lk k act at_ | sched p ch lk k act at_ | kill p q k act at_
  | swtch p ch lk k at_ held runnable => exact Or.inl ⟨inner (by rw [at_]; rfl) rfl, rfl⟩
  | back p lk k act at_ =>
    refine Or.inl ⟨inner (u := .awake lk k) ?_ rfl, rfl⟩
    rw [at_]
    cases lk <;> rfl
  | schedAcquire | schedRelease => exact Or.inl ⟨rfl, rfl⟩

theorem points_step {a : Act P K} (hs : step c s a = some s') :
    (s'.points = s.points ∧ s'.data = s.data) ∨
    ∃ p k k' d', s.thread p = .run k ∧ Leads c p (s.killed p) k s.data k' d' ∧
      s'.points = update s.points p k' ∧ s'.data = d' := by
  rcases points_act hs with hsame | ⟨p, k, k', d', hp, hl, hpt, hd, -⟩
  · exact Or.inl hsame
  · exact Or.inr ⟨p, k, k', d', hp, hl, hpt, hd⟩

theorem step_run {k : K} (hp : s.thread p = .run k) :
    step c s (.run p) = runInstr s p (c.instr p k) := by
  rw [step, runThread, hp]

end

end BossOs.Sync
