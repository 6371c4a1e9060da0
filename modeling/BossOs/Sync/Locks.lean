import BossOs.Sync.Steps

/-!
# Who holds which lock

Code is annotated with the locks held at each of its points. If every call is consistent
with the annotation, then in every run the holder of a lock is the one thread that stands
at a point where it is held, inside `sleep`, `wakeup` and `kill` as well.
-/

namespace BossOs.Sync

open Lib
open Proc (ProcState)
open Function (update update_self update_of_ne)

variable {P L Ch D K : Type}

def Thread.Fits : Thread P L Ch K → ProcState → Option Ch → Prop
  | .sleepSched ch _ _, st, ch' | .sleepOut ch _ _, st, ch' =>
    (st = .sleeping ∨ st = .runnable) ∧ ch' = some ch
  | _, st, _ => st = .running

section Fits
variable {c : Code P L Ch D K} {p : P} {t u : Thread P L Ch K} {st : ProcState} {ch : Option Ch}

theorem Takes.fits {lk : Lock L} (h : Takes c p t lk u) (hf : t.Fits st ch) : u.Fits st ch := by
  cases h <;> exact hf

theorem Drops.fits {lk : Lock L} (h : Drops c p t lk u) (hf : t.Fits st ch) : u.Fits st ch := by
  cases h <;> exact hf

theorem Passes.fits {b : Bool} (h : Passes c p b t u) (hf : t.Fits st ch) : u.Fits st ch := by
  cases h <;> exact hf

theorem Wakes.fits {ch' : Ch} (h : Wakes c p t ch' u) (hf : t.Fits st ch) : u.Fits st ch := by
  cases h <;> exact hf

theorem Thread.Fits.wake {st' : ProcState} (hf : t.Fits st ch)
    (hst : st' = st ∨ st = .sleeping ∧ st' = .runnable) : t.Fits st' ch := by
  rcases hst with rfl | ⟨rfl, rfl⟩
  · exact hf
  · cases t with
    | sleepSched ch lk k | sleepOut ch lk k => exact ⟨Or.inr rfl, hf.2⟩
    | _ => cases hf

end Fits

variable [DecidableEq L]

section Annotation
variable (held : K → Lock L → Bool)

/-- An instruction at a point with the locks `h` is consistent with the annotation. -/
def Instr.Disciplined (h : Lock L → Bool) : Instr P L Ch D K → Prop
  | .idle => True
  | .acquire lk k => h lk = false ∧ ∀ m, held k m = (h m || decide (m = lk))
  | .release lk k => h lk = true ∧ ∀ m, held k m = (h m && decide (m ≠ lk))
  | .sleep _ lk k => (∀ m, h m = decide (m = lk)) ∧ held k = h
  | .wakeup _ k | .kill _ k => h .ptable = false ∧ held k = h
  | .wakeup1 _ k => h .ptable = true ∧ held k = h
  | .killed f => ∀ b, held (f b) = h
  | .update f => ∀ d, held (f d).1 = h

structure Disciplined (c : Code P L Ch D K) : Prop where
  instr : ∀ p k, (c.instr p k).Disciplined held (held k)
  call : ∀ k k', c.call k k' = true → held k' = held k

def only (l : L) (b : Bool) (m : Lock L) : Bool := b && decide (m = .of l)

section
variable {held} {l : L} {k' : K} {ch : Ch}

theorem disciplined_acquire (hk : held k' = only l true) :
    (Instr.acquire (.of l) k' : Instr P L Ch D K).Disciplined held (only l false) := by
  simp [Instr.Disciplined, hk, only]

theorem disciplined_release (hk : held k' = only l false) :
    (Instr.release (.of l) k' : Instr P L Ch D K).Disciplined held (only l true) := by
  simp [Instr.Disciplined, hk, only]

theorem disciplined_sleep (hk : held k' = only l true) :
    (Instr.sleep ch (.of l) k' : Instr P L Ch D K).Disciplined held (only l true) := by
  simp [Instr.Disciplined, hk, only]

theorem disciplined_wakeup {b : Bool} (hk : held k' = only l b) :
    (Instr.wakeup ch k' : Instr P L Ch D K).Disciplined held (only l b) := by
  simp [Instr.Disciplined, hk, only]

theorem disciplined_kill {b : Bool} {q : P} (hk : held k' = only l b) :
    (Instr.kill q k' : Instr P L Ch D K).Disciplined held (only l b) := by
  simp [Instr.Disciplined, hk, only]

end

namespace Thread

def holds : Thread P L Ch K → Lock L → Bool
  | .run k, m | .wakeAcquire _ k, m | .killAcquire _ k, m => held k m
  | .sleepAcquire _ l _, m => m = .of l
  | .sleepRelease _ l _, m => m = .of l ∨ m = .ptable
  | .sleepSet _ _ _, m | .sleepSched _ _ _, m | .sleepBack _ _, m | .sleepUnlock _ _, m =>
    m = .ptable
  | .sleepOut _ _ _, _ | .sleepReacquire _ _, _ => false
  | .wakeBody _ k, m | .wakeRelease k, m | .killBody _ k, m | .killRelease k, m =>
    held k m || decide (m = .ptable)

def Wf : Thread P L Ch K → Prop
  | .run _ => True
  | .sleepAcquire _ l k | .sleepRelease _ l k | .sleepUnlock l k | .sleepReacquire l k =>
    ∀ m, held k m = decide (m = .of l)
  | .sleepSet _ lk k | .sleepSched _ lk k | .sleepOut _ lk k | .sleepBack lk k =>
    ∀ m, held k m = decide (m = lk)
  | .wakeAcquire _ k | .wakeBody _ k | .wakeRelease k | .killAcquire _ k | .killBody _ k
  | .killRelease k => held k .ptable = false

end Thread

end Annotation

section
variable {held : K → Lock L → Bool} {c : Code P L Ch D K} {p : P} {t u : Thread P L Ch K}
  {lk : Lock L}

theorem Takes.holds (hd : Disciplined held c) (h : Takes c p t lk u) (hw : t.Wf held) :
    t.holds held lk = false ∧ (∀ m, u.holds held m = (t.holds held m || decide (m = lk))) ∧
      u.Wf held := by
  cases h with
  | instr k lk k' at_ =>
    have hi := hd.instr p k
    rw [at_] at hi
    exact ⟨hi.1, hi.2, trivial⟩
  | sleep ch l k =>
    refine ⟨by simp [Thread.holds], fun m => ?_, hw⟩
    simp only [Thread.holds, Bool.decide_or]
  | resume l k => exact ⟨rfl, fun m => hw m, trivial⟩
  | wake ch k => exact ⟨hw, fun m => rfl, hw⟩
  | kill q k => exact ⟨hw, fun m => rfl, hw⟩

theorem Drops.holds (hd : Disciplined held c) (h : Drops c p t lk u) (hw : t.Wf held) :
    t.holds held lk = true ∧ (∀ m, u.holds held m = (t.holds held m && decide (m ≠ lk))) ∧
      u.Wf held := by
  have hptable : ∀ k, held k .ptable = false → ∀ m,
      held k m = ((held k m || decide (m = .ptable)) && decide (m ≠ .ptable)) := by
    intro k hk m
    by_cases hm : m = .ptable
    · subst hm
      simp [hk]
    · simp [hm]
  cases h with
  | instr k lk k' at_ =>
    have hi := hd.instr p k
    rw [at_] at hi
    exact ⟨hi.1, hi.2, trivial⟩
  | sleep ch l k =>
    refine ⟨by simp [Thread.holds], fun m => ?_, hw⟩
    by_cases hm : m = .of l
    · subst hm
      simp [Thread.holds]
    · simp [Thread.holds, hm]
  | resume l k =>
    refine ⟨by simp [Thread.holds], fun m => ?_, hw⟩
    simp [Thread.holds]
  | wake k => exact ⟨by simp [Thread.holds], hptable k hw, trivial⟩
  | kill k => exact ⟨by simp [Thread.holds], hptable k hw, trivial⟩

theorem Passes.holds {b : Bool} (hd : Disciplined held c) (h : Passes c p b t u) :
    (∀ m, u.holds held m = t.holds held m) ∧ u.Wf held := by
  cases h with
  | wait k ch k' at_ =>
    have hi := hd.instr p k
    rw [at_] at hi
    refine ⟨fun m => (hi.1 m).symm, fun m => ?_⟩
    rw [hi.2]
    exact hi.1 m
  | sleep k ch l k' at_ =>
    have hi := hd.instr p k
    rw [at_] at hi
    refine ⟨fun m => (hi.1 m).symm, fun m => ?_⟩
    rw [hi.2]
    exact hi.1 m
  | wakeup k ch k' at_ =>
    have hi := hd.instr p k
    rw [at_] at hi
    exact ⟨fun m => congrFun hi.2 m, by rw [Thread.Wf, hi.2]; exact hi.1⟩
  | kill k q k' at_ =>
    have hi := hd.instr p k
    rw [at_] at hi
    exact ⟨fun m => congrFun hi.2 m, by rw [Thread.Wf, hi.2]; exact hi.1⟩
  | killed k f at_ =>
    have hi := hd.instr p k
    rw [at_] at hi
    exact ⟨fun m => congrFun (hi b) m, trivial⟩

theorem Wakes.holds {ch : Ch} (hd : Disciplined held c) (h : Wakes c p t ch u) (hw : t.Wf held) :
    t.holds held .ptable = true ∧ (∀ m, u.holds held m = t.holds held m) ∧ u.Wf held := by
  cases h with
  | instr k ch k' at_ =>
    have hi := hd.instr p k
    rw [at_] at hi
    exact ⟨hi.1, fun m => congrFun hi.2 m, trivial⟩
  | body ch k => exact ⟨by simp [Thread.holds], fun _ => rfl, hw⟩

theorem Thread.awake_holds {k : K} (hw : (Thread.sleepBack lk k : Thread P L Ch K).Wf held) :
    (∀ m, (Thread.awake lk k : Thread P L Ch K).holds held m =
      (Thread.sleepBack lk k : Thread P L Ch K).holds held m) ∧
      (Thread.awake lk k : Thread P L Ch K).Wf held := by
  cases lk with
  | ptable => exact ⟨hw, trivial⟩
  | of l => exact ⟨fun _ => rfl, hw⟩

end

section Inv
variable (held : K → Lock L → Bool)

structure SyncInv (s : State P L Ch D K) : Prop where
  lock : ∀ m, Holds (s.lock m).join (fun t => Thread.holds held t m) s.thread
  wf : ∀ p, (s.thread p).Wf held
  fits : ∀ p, (s.thread p).Fits (s.state p) (s.chan p)

theorem syncInv_start {k : P → K} (hk : ∀ p m, held (k p) m = false) (d : D) :
    SyncInv held (start k d : State P L Ch D K) where
  lock := fun m p => by
    change (none : Option P) = some p ↔ held (k p) m = true
    simp [hk]
  wf := fun _ => trivial
  fits := fun _ => rfl

variable {held} [DecidableEq P] {s : State P L Ch D K} {p : P}

section
variable (h : SyncInv held s)
include h

theorem SyncInv.move {s' : State P L Ch D K} {u : Thread P L Ch K}
    (hthread : s'.thread = update s.thread p u)
    (hlock : ∀ m, Holds (s'.lock m).join (fun t => Thread.holds held t m) (update s.thread p u))
    (hwf : u.Wf held) (hfits : u.Fits (s'.state p) (s'.chan p))
    (hstate : ∀ q ≠ p, s'.state q = s.state q ∨ s.state q = .sleeping ∧ s'.state q = .runnable)
    (hchan : ∀ q ≠ p, s'.chan q = s.chan q) : SyncInv held s' := by
  refine ⟨fun m => by rw [hthread]; exact hlock m, fun q => ?_, fun q => ?_⟩
  · rw [hthread]
    by_cases hq : q = p
    · subst hq
      rwa [update_self]
    · rw [update_of_ne hq]
      exact h.wf q
  · rw [hthread]
    by_cases hq : q = p
    · subst hq
      rwa [update_self]
    · rw [update_of_ne hq, hchan q hq]
      exact (h.fits q).wake (hstate q hq)

theorem SyncInv.keep_locks {u : Thread P L Ch K}
    (hu : ∀ m, u.holds held m = (s.thread p).holds held m) (m : Lock L) :
    Holds (s.lock m).join (fun t => Thread.holds held t m) (update s.thread p u) :=
  (h.lock m).move (hu m)

theorem SyncInv.take_lock {u : Thread P L Ch K} {lk : Lock L}
    (hfree : (s.lock lk).join = none)
    (hu : ∀ m, u.holds held m = ((s.thread p).holds held m || decide (m = lk))) (m : Lock L) :
    Holds (update s.lock lk (some (some p)) m).join (fun t => Thread.holds held t m)
      (update s.thread p u) := by
  by_cases hm : m = lk
  · subst hm
    have hl := h.lock m
    rw [hfree] at hl
    rw [update_self]
    exact hl.take (by simp [hu m])
  · rw [update_of_ne hm]
    exact (h.lock m).move (by simp [hu m, hm])

theorem SyncInv.drop_lock {u : Thread P L Ch K} {lk : Lock L}
    {who : Option (Option P)} (hwho : who.join = none) (hp : (s.thread p).holds held lk = true)
    (hu : ∀ m, u.holds held m = ((s.thread p).holds held m && decide (m ≠ lk))) (m : Lock L) :
    Holds (update s.lock lk who m).join (fun t => Thread.holds held t m) (update s.thread p u) := by
  by_cases hm : m = lk
  · subst hm
    rw [update_self, hwho]
    exact (h.lock m).drop hp (by simp [hu m])
  · rw [update_of_ne hm]
    exact (h.lock m).move (by simp [hu m, hm])

omit [DecidableEq P] in
theorem SyncInv.sched_lock {lk : Lock L} {who : Option (Option P)}
    (hfree : (s.lock lk).join = none) (hwho : who.join = none) (m : Lock L) :
    Holds (update s.lock lk who m).join (fun t => Thread.holds held t m) s.thread := by
  by_cases hm : m = lk
  · subst hm
    rw [update_self, hwho, ← hfree]
    exact h.lock m
  · rw [update_of_ne hm]
    exact h.lock m

end

variable [DecidableEq Ch]

omit [DecidableEq P] [DecidableEq L] in
theorem wakeup1_state (state : P → ProcState) (chan : P → Option Ch) (ch : Ch) (q : P) :
    wakeup1 state chan ch q = state q ∨
      state q = .sleeping ∧ wakeup1 state chan ch q = .runnable := by
  unfold wakeup1
  split
  · exact Or.inr ⟨(by tauto), rfl⟩
  · exact Or.inl rfl

omit [DecidableEq L] [DecidableEq Ch] in
theorem kill_state (s : State P L Ch D K) (r q : P) : (s.kill r).state q = s.state q ∨
    s.state q = .sleeping ∧ (s.kill r).state q = .runnable := by
  simp only [State.kill]
  split
  · by_cases hq : q = r
    · subst hq
      exact Or.inr ⟨‹_›, update_self ..⟩
    · exact Or.inl (update_of_ne hq ..)
  · exact Or.inl rfl

theorem syncInv_step {c : Code P L Ch D K} (hd : Disciplined held c) (h : SyncInv held s)
    {a : Act P K} {s' : State P L Ch D K} (hs : step c s a = some s') : SyncInv held s' := by
  cases step_moves hs with
  | take p lk u act at_ free =>
    obtain ⟨-, hu, hwf⟩ := at_.holds hd (h.wf p)
    exact h.move rfl (h.take_lock (by rw [free]; rfl) hu) hwf (at_.fits (h.fits p))
      (fun _ _ => Or.inl rfl) fun _ _ => rfl
  | drop p lk u act at_ =>
    obtain ⟨hp, hu, hwf⟩ := at_.holds hd (h.wf p)
    exact h.move rfl (h.drop_lock rfl hp hu) hwf (at_.fits (h.fits p)) (fun _ _ => Or.inl rfl)
      fun _ _ => rfl
  | pass p u act at_ =>
    obtain ⟨hu, hwf⟩ := at_.holds hd
    exact h.move rfl (h.keep_locks hu) hwf (at_.fits (h.fits p)) (fun _ _ => Or.inl rfl)
      fun _ _ => rfl
  | call p k k' act at_ code entry =>
    have hf := h.fits p
    rw [at_] at hf
    refine h.move rfl (h.keep_locks fun m => ?_) trivial hf (fun _ _ => Or.inl rfl) fun _ _ => rfl
    rw [at_]
    exact congrFun (hd.call k k' entry) m
  | update p k f act at_ code =>
    have hi := hd.instr p k
    rw [code] at hi
    have hf := h.fits p
    rw [at_] at hf
    refine h.move rfl (h.keep_locks fun m => ?_) trivial hf (fun _ _ => Or.inl rfl) fun _ _ => rfl
    rw [at_]
    exact congrFun (hi s.data) m
  | set p ch lk k act at_ =>
    have hw := h.wf p
    rw [at_] at hw
    refine h.move rfl (h.keep_locks fun m => by rw [at_]; rfl) hw ?_ (fun q hq => Or.inl ?_)
      fun q hq => ?_
    · rw [State.goto]
      simp only [update_self]
      exact ⟨Or.inl rfl, rfl⟩
    · exact update_of_ne hq ..
    · exact update_of_ne hq ..
  | sched p ch lk k act at_ =>
    have hw := h.wf p
    have hf := h.fits p
    rw [at_] at hw hf
    refine h.move rfl (h.drop_lock rfl ?_ fun m => ?_) hw hf (fun _ _ => Or.inl rfl) fun _ _ => rfl
    · rw [at_]
      simp [Thread.holds]
    · rw [at_]
      simp [Thread.holds]
  | back p lk k act at_ =>
    have hw := h.wf p
    have hf := h.fits p
    rw [at_] at hw hf
    obtain ⟨hu, hwf⟩ := Thread.awake_holds hw
    refine h.move rfl (h.keep_locks fun m => by rw [at_]; exact hu m) hwf ?_ (fun _ _ => Or.inl rfl)
      fun q hq => update_of_ne hq ..
    cases lk <;> exact hf
  | wake p ch u act at_ =>
    obtain ⟨-, hu, hwf⟩ := at_.holds hd (h.wf p)
    refine h.move rfl (h.keep_locks hu) hwf ?_ (fun q _ => wakeup1_state ..) fun _ _ => rfl
    exact at_.fits ((h.fits p).wake (wakeup1_state ..))
  | kill p q k act at_ =>
    have hw := h.wf p
    have hf := h.fits p
    rw [at_] at hw hf
    exact h.move rfl (h.keep_locks fun m => by rw [at_]; rfl) hw
      (Thread.Fits.wake hf (kill_state s q p)) (fun r _ => kill_state s q r) fun _ _ => rfl
  | schedAcquire free => exact ⟨h.sched_lock (by rw [free]; rfl) rfl, h.wf, h.fits⟩
  | schedRelease held => exact ⟨h.sched_lock (by rw [held]; rfl) rfl, h.wf, h.fits⟩
  | swtch p ch lk k at_ held runnable =>
    have hw := h.wf p
    rw [at_] at hw
    refine h.move rfl (h.take_lock (by rw [held]; rfl) fun m => ?_) hw ?_
      (fun q hq => Or.inl (update_of_ne hq ..)) fun _ _ => rfl
    · rw [at_]
      simp [Thread.holds]
    · exact update_self ..

end Inv

end BossOs.Sync
