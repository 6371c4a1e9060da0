import BossOs.Sync.Locks

/-!
# No lost wakeup

One spinlock protects the shared data. For every channel there is a condition on the data under
which a process may sleep on it. A thread that makes the condition false owes a `wakeup` of the
channel from then until it has called it. Then, in every run, whoever sleeps or is about to sleep
on a channel does so with its condition true, or some thread still owes the wakeup.
-/

namespace BossOs.Sync

open Lib
open Proc (ProcState)
open Function (update update_self update_of_ne)

/-- What is known of the data at a point, what a sleeper relies on, and what is owed. -/
structure Guard (L Ch D K : Type) where
  lk : L
  knows : K → D → Prop
  waits : Ch → D → Prop
  owes : Ch → K → Bool

variable {P L Ch D K : Type} [DecidableEq Ch]

namespace Guard

variable (g : Guard L Ch D K)

def Carries (k k' : K) : Prop := ∀ ch, g.owes ch k = true → g.owes ch k' = true

/-- The instruction at `k` keeps to the rules, with the data `d` and the flag `killed`. -/
def Sound (held : K → Lock L → Bool) (k : K) (d : D) (killed : Bool) : Instr P L Ch D K → Prop
  | .idle => True
  | .acquire _ k' => (∀ d', g.knows k' d') ∧ g.Carries k k'
  | .release _ k' | .kill _ k' => g.knows k' d ∧ g.Carries k k'
  | .sleep ch lk k' => lk = .of g.lk ∧ g.waits ch d ∧ (∀ d', g.knows k' d') ∧ g.Carries k k'
  | .wakeup ch k' | .wakeup1 ch k' => g.knows k' d ∧
    ∀ ch', g.owes ch' k = true → ch' = ch ∨ g.owes ch' k' = true
  | .killed f => g.knows (f killed) d ∧ g.Carries k (f killed)
  | .update f => held k (.of g.lk) = true ∧ g.knows (f d).1 (f d).2 ∧ g.Carries k (f d).1 ∧
    ∀ ch, g.waits ch d → g.waits ch (f d).2 ∨ g.owes ch (f d).1 = true

omit [DecidableEq Ch] in
variable {g} in
theorem sound_update {held : K → Lock L → Bool} {k : K} {d : D} {b : Bool} {f : D → K × D}
    (k' : K) (d' : D) (hf : f d = (k', d')) (hheld : held k (.of g.lk) = true)
    (hknows : g.knows k' d') (hcarries : g.Carries k k')
    (hwaits : ∀ ch, g.waits ch d → g.waits ch d' ∨ g.owes ch k' = true) :
    g.Sound held k d b (.update f : Instr P L Ch D K) := by
  rw [Sound, hf]
  exact ⟨hheld, hknows, hcarries, hwaits⟩

def relies : Thread P L Ch K → D → Prop
  | .run k, d | .wakeAcquire _ k, d | .wakeBody _ k, d | .wakeRelease k, d
  | .killAcquire _ k, d | .killBody _ k, d | .killRelease k, d => g.knows k d
  | .sleepAcquire ch l k, d => l = g.lk ∧ g.waits ch d ∧ ∀ d', g.knows k d'
  | .sleepRelease _ _ k, _ | .sleepSet _ _ k, _ | .sleepSched _ _ k, _ | .sleepOut _ _ k, _
  | .sleepBack _ k, _ | .sleepUnlock _ k, _ | .sleepReacquire _ k, _ => ∀ d', g.knows k d'

def owing (ch : Ch) : Thread P L Ch K → Bool
  | .run k | .wakeRelease k | .killAcquire _ k | .killBody _ k | .killRelease k
  | .sleepAcquire _ _ k | .sleepRelease _ _ k | .sleepSet _ _ k | .sleepSched _ _ k
  | .sleepOut _ _ k | .sleepBack _ k | .sleepUnlock _ k | .sleepReacquire _ k => g.owes ch k
  | .wakeAcquire ch' k | .wakeBody ch' k => decide (ch = ch') || g.owes ch k

end Guard

def Thread.waiting (ch : Ch) : Thread P L Ch K → ProcState → Prop
  | .sleepRelease ch' _ _, _ | .sleepSet ch' _ _, _ => ch' = ch
  | .sleepSched ch' _ _, st | .sleepOut ch' _ _, st => ch' = ch ∧ st = .sleeping
  | _, _ => False

structure WakeInv (g : Guard L Ch D K) (s : State P L Ch D K) : Prop where
  relies : ∀ p, g.relies (s.thread p) s.data
  promise : ∀ p ch, (s.thread p).waiting ch (s.state p) →
    g.waits ch s.data ∨ ∃ q, g.owing ch (s.thread q) = true

variable {k : P → K}

theorem wakeInv_start (g : Guard L Ch D K) {d : D} (h : ∀ p, g.knows (k p) d) :
    WakeInv g (start k d : State P L Ch D K) := ⟨h, fun _ _ hw => hw.elim⟩

variable {ch : Ch}

section
variable {g : Guard L Ch D K} {c : Code P L Ch D K} {held : K → Lock L → Bool} {p : P}
  {t u : Thread P L Ch K} {d : D} {b : Bool}

/-- What the rules say about the step of a thread that leaves the data alone. -/
structure Follows (g : Guard L Ch D K) (d : D) (t u : Thread P L Ch K) : Prop where
  relies : g.relies u d
  owing : ∀ ch, g.owing ch t = true → g.owing ch u = true
  waiting : ∀ ch st, u.waiting ch st → t.waiting ch st ∨ g.waits ch d

theorem Takes.follows {lk : Lock L} (h : Takes c p t lk u) (hr : g.relies t d)
    (hg : ∀ k, t = .run k → g.Sound held k d b (c.instr p k)) : Follows g d t u := by
  cases h with
  | instr k lk k' at_ =>
    have hi := hg k rfl
    rw [at_] at hi
    exact ⟨hi.1 d, hi.2, fun _ _ hw => hw.elim⟩
  | sleep ch l k =>
    refine ⟨hr.2.2, fun _ => id, fun ch' _ hw => Or.inr ?_⟩
    obtain rfl : ch = ch' := hw
    exact hr.2.1
  | resume l k => exact ⟨hr d, fun _ => id, fun _ _ hw => hw.elim⟩
  | wake ch k => exact ⟨hr, fun _ => id, fun _ _ hw => hw.elim⟩
  | kill q k => exact ⟨hr, fun _ => id, fun _ _ hw => hw.elim⟩

theorem Drops.follows {lk : Lock L} (h : Drops c p t lk u) (hr : g.relies t d)
    (hg : ∀ k, t = .run k → g.Sound held k d b (c.instr p k)) : Follows g d t u := by
  cases h with
  | instr k lk k' at_ =>
    have hi := hg k rfl
    rw [at_] at hi
    exact ⟨hi.1, hi.2, fun _ _ hw => hw.elim⟩
  | sleep ch l k => exact ⟨hr, fun _ => id, fun _ _ hw => Or.inl hw⟩
  | resume l k => exact ⟨hr, fun _ => id, fun _ _ hw => hw.elim⟩
  | wake k => exact ⟨hr, fun _ => id, fun _ _ hw => hw.elim⟩
  | kill k => exact ⟨hr, fun _ => id, fun _ _ hw => hw.elim⟩

theorem Passes.follows (h : Passes c p b t u)
    (hg : ∀ k, t = .run k → g.Sound held k d b (c.instr p k)) : Follows g d t u := by
  cases h with
  | wait k ch k' at_ =>
    have hi := hg k rfl
    rw [at_] at hi
    cases hi.1
  | sleep k ch l k' at_ =>
    have hi := hg k rfl
    rw [at_] at hi
    obtain ⟨hl, hw, hk, hc⟩ := hi
    cases hl
    exact ⟨⟨rfl, hw, hk⟩, hc, fun _ _ hw => hw.elim⟩
  | wakeup k ch k' at_ =>
    have hi := hg k rfl
    rw [at_] at hi
    refine ⟨hi.1, fun ch' ho => ?_, fun _ _ hw => hw.elim⟩
    rcases hi.2 ch' ho with rfl | ho
    · simp [Guard.owing]
    · simp [Guard.owing, ho]
  | kill k q k' at_ =>
    have hi := hg k rfl
    rw [at_] at hi
    exact ⟨hi.1, hi.2, fun _ _ hw => hw.elim⟩
  | killed k f at_ =>
    have hi := hg k rfl
    rw [at_] at hi
    exact ⟨hi.1, hi.2, fun _ _ hw => hw.elim⟩

theorem Wakes.follows (h : Wakes c p t ch u) (hr : g.relies t d)
    (hg : ∀ k, t = .run k → g.Sound held k d b (c.instr p k)) :
    g.relies u d ∧ (∀ ch', g.owing ch' t = true → ch' = ch ∨ g.owing ch' u = true) ∧
      ∀ ch' st, ¬ u.waiting ch' st := by
  cases h with
  | instr k ch k' at_ =>
    have hi := hg k rfl
    rw [at_] at hi
    exact ⟨hi.1, hi.2, fun _ _ hw => hw⟩
  | body ch k =>
    refine ⟨hr, fun ch' ho => ?_, fun _ _ hw => hw⟩
    simpa [Guard.owing] using ho

omit [DecidableEq Ch] in
theorem Thread.waiting.of_state {st st' : ProcState} (h : t.waiting ch st')
    (hst : st' = .sleeping → st = .sleeping) : t.waiting ch st := by
  cases t with
  | sleepRelease ch' l k => exact h
  | sleepSet ch' lk k => exact h
  | sleepSched ch' lk k => exact ⟨h.1, hst h.2⟩
  | sleepOut ch' lk k => exact ⟨h.1, hst h.2⟩
  | _ => exact h.elim

omit [DecidableEq Ch] in
theorem Thread.waiting.holds [DecidableEq L] {st : ProcState} (h : t.waiting ch st) :
    t.holds held .ptable = true ∨ ∃ lk k, t = .sleepOut ch lk k ∧ st = .sleeping := by
  cases t with
  | sleepRelease ch' l k => simp [Thread.holds]
  | sleepSet ch' lk k => simp [Thread.holds]
  | sleepSched ch' lk k => simp [Thread.holds]
  | sleepOut ch' lk k =>
    obtain ⟨rfl, hst⟩ := h
    exact Or.inr ⟨lk, k, rfl, hst⟩
  | _ => exact h.elim

variable [DecidableEq P] {s s' : State P L Ch D K}

theorem WakeInv.move (h : WakeInv g s) (hthread : s'.thread = update s.thread p u)
    (hdata : s'.data = s.data) (hr : g.relies u s.data)
    (hstate : ∀ q ≠ p, s'.state q = .sleeping → s.state q = .sleeping)
    (howing : ∀ ch q, (s'.thread q).waiting ch (s'.state q) →
      g.owing ch (s.thread p) = true → g.owing ch u = true)
    (hown : ∀ ch, u.waiting ch (s'.state p) →
      (s.thread p).waiting ch (s.state p) ∨ g.waits ch s.data) : WakeInv g s' := by
  constructor
  · intro q
    rw [hthread, hdata]
    by_cases hq : q = p
    · subst hq
      rwa [update_self]
    · rw [update_of_ne hq]
      exact h.relies q
  · intro q ch hw
    have hpq : g.waits ch s.data ∨ ∃ r, g.owing ch (s.thread r) = true := by
      have hw' := hw
      rw [hthread] at hw'
      by_cases hq : q = p
      · subst hq
        rw [update_self] at hw'
        rcases hown ch hw' with hw' | hw'
        · exact h.promise q ch hw'
        · exact Or.inl hw'
      · rw [update_of_ne hq] at hw'
        exact h.promise q ch (hw'.of_state (hstate q hq))
    rw [hdata]
    refine hpq.imp_right fun ⟨r, hr⟩ => ⟨r, ?_⟩
    rw [hthread]
    by_cases hrp : r = p
    · subst hrp
      rw [update_self]
      exact howing ch q hw hr
    · rwa [update_of_ne hrp]

theorem WakeInv.follow (h : WakeInv g s) (hthread : s'.thread = update s.thread p u)
    (hdata : s'.data = s.data) (hf : Follows g s.data (s.thread p) u) (hstate : s'.state = s.state) :
    WakeInv g s' := by
  refine h.move hthread hdata hf.relies (fun q _ hq => ?_) (fun ch _ _ => hf.owing ch) fun ch hw => ?_
  · rwa [hstate] at hq
  · rw [hstate] at hw
    exact hf.waiting ch _ hw

end

section Step
variable [DecidableEq P] [DecidableEq L] {g : Guard L Ch D K} {c : Code P L Ch D K}
  {held : K → Lock L → Bool} {s s' : State P L Ch D K}

omit [DecidableEq Ch] [DecidableEq P] in
theorem relies_of_free (hfree : ∀ k d, held k (.of g.lk) = false → g.knows k d)
    {t : Thread P L Ch K} (hl : t.holds held (.of g.lk) = false) {d : D} (h : g.relies t d) (d' : D) :
    g.relies t d' := by
  cases t with
  | run k | wakeAcquire ch k | killAcquire q k => exact hfree k d' hl
  | wakeBody ch k | wakeRelease k | killBody q k | killRelease k =>
    refine hfree k d' ?_
    simpa [Thread.holds] using hl
  | sleepAcquire ch l k =>
    obtain ⟨rfl, -⟩ := h
    simp [Thread.holds] at hl
  | _ => exact h

theorem wakeInv_step (hi : SyncInv held s) (h : WakeInv g s) (hd : Disciplined held c)
    (hfree : ∀ k d, held k (.of g.lk) = false → g.knows k d)
    (hcall : ∀ k k', c.call k k' = true → (∀ d, g.knows k' d) ∧ g.Carries k k')
    {a : Act P K} (hg : ∀ p k, a = .run p → s.thread p = .run k → g.knows k s.data →
      g.Sound held k s.data (s.killed p) (c.instr p k))
    (hs : step c s a = some s') : WakeInv g s' := by
  have sound : ∀ p, a = .run p → ∀ k, s.thread p = .run k →
      g.Sound held k s.data (s.killed p) (c.instr p k) := by
    intro p hp k hk
    have hr := h.relies p
    rw [hk] at hr
    exact hg p k hp hk hr
  cases step_moves hs with
  | take p lk u act at_ free =>
    exact h.follow rfl rfl (at_.follows (h.relies p) (sound p act)) rfl
  | drop p lk u act at_ => exact h.follow rfl rfl (at_.follows (h.relies p) (sound p act)) rfl
  | pass p u act at_ => exact h.follow rfl rfl (at_.follows (sound p act)) rfl
  | call p k k' act at_ code entry =>
    obtain ⟨hk, hc⟩ := hcall k k' entry
    refine h.follow rfl rfl ⟨hk s.data, ?_, fun _ _ hw => hw.elim⟩ rfl
    rw [at_]
    exact hc
  | update p k f act at_ code =>
    have hu := sound p act k at_
    rw [code] at hu
    obtain ⟨hheld, hknows, hcarry, hwaits⟩ := hu
    constructor
    · intro q
      by_cases hq : q = p
      · subst hq
        simp only [State.goto, update_self]
        exact hknows
      · -- nobody else has the lock
        have hp : (s.thread p).holds held (.of g.lk) = true := by rw [at_]; exact hheld
        have hql : (s.thread q).holds held (.of g.lk) = false := by
          by_contra hne
          exact hq ((hi.lock (.of g.lk)).unique (by simpa using hne) hp)
        have hr := relies_of_free hfree hql (h.relies q) (f s.data).2
        simpa [State.goto, update_of_ne hq] using hr
    · intro q ch hw
      have hq : q ≠ p := by
        rintro rfl
        simp [State.goto, Thread.waiting] at hw
      have hw' : (s.thread q).waiting ch (s.state q) := by
        simpa [State.goto, update_of_ne hq] using hw
      have owner : g.owes ch (f s.data).1 = true → ∃ r, g.owing ch
          (update s.thread p (.run (f s.data).1) r) = true :=
        fun ho => ⟨p, by rw [update_self]; exact ho⟩
      rcases h.promise q ch hw' with hcond | ⟨r, hr⟩
      · exact (hwaits ch hcond).imp_right owner
      · refine Or.inr ?_
        by_cases hrp : r = p
        · subst hrp
          rw [at_] at hr
          exact owner (hcarry ch hr)
        · refine ⟨r, ?_⟩
          simpa [State.goto, update_of_ne hrp] using hr
  | set p ch lk k act at_ =>
    have hr := h.relies p
    rw [at_] at hr
    refine h.move rfl rfl hr (fun q hq hst => ?_) (fun ch' _ _ ho => ?_) fun ch' hw => Or.inl ?_
    · simpa [State.goto, update_of_ne hq] using hst
    · rw [at_] at ho
      exact ho
    · rw [at_]
      exact hw.1
  | sched p ch lk k act at_ =>
    have hr := h.relies p
    rw [at_] at hr
    refine h.follow rfl rfl ⟨hr, ?_, ?_⟩ rfl
    · rw [at_]
      exact fun _ => id
    · rw [at_]
      exact fun _ _ => Or.inl
  | back p lk k act at_ =>
    have hr := h.relies p
    rw [at_] at hr
    refine h.follow (u := .awake lk k) rfl rfl ⟨?_, ?_, ?_⟩ rfl
    · cases lk with
      | ptable => exact hr s.data
      | of l => exact hr
    · rw [at_]
      cases lk <;> exact fun _ => id
    · cases lk <;> exact fun _ _ hw => hw.elim
  | wake p ch u act at_ =>
    obtain ⟨hr, howes, hno⟩ := at_.follows (h.relies p) (sound p act)
    obtain ⟨hp, hu, -⟩ := at_.holds hd (hi.wf p)
    have state_of : ∀ q, wakeup1 s.state s.chan ch q = .sleeping →
        s.state q = .sleeping ∧ s.chan q ≠ some ch := by
      intro q hq
      unfold wakeup1 at hq
      split at hq
      · cases hq
      · rename_i hno
        exact ⟨hq, fun hch => hno ⟨hq, hch⟩⟩
    refine h.move (u := u) rfl rfl hr (fun q _ hq => (state_of q hq).1) (fun ch' q hw ho => ?_)
      fun ch' hw => (hno ch' _ hw).elim
    rcases howes ch' ho with rfl | ho
    · -- nobody is left waiting on the channel
      exfalso
      by_cases hq : q = p
      · subst hq
        simp only [State.goto, update_self] at hw
        exact hno ch' _ hw
      · simp only [State.goto, update_of_ne hq] at hw
        rcases hw.holds with hlock | ⟨lk, k, hout, hsl⟩
        · exact hq ((hi.lock .ptable).unique hlock hp)
        · have hf := hi.fits q
          rw [hout] at hf
          exact (state_of q hsl).2 hf.2
    · exact ho
  | kill p q k act at_ =>
    have hr := h.relies p
    rw [at_] at hr
    refine h.move rfl rfl hr (fun r _ hst => ?_) (fun _ _ _ ho => ?_) fun _ hw => hw.elim
    · rcases kill_state s q r with heq | ⟨hsl, -⟩
      · exact heq.symm.trans hst
      · exact hsl
    · rw [at_] at ho
      exact ho
  | schedAcquire free => exact ⟨h.relies, h.promise⟩
  | schedRelease held => exact ⟨h.relies, h.promise⟩
  | swtch p ch lk k at_ held runnable =>
    have hr := h.relies p
    rw [at_] at hr
    refine h.move rfl rfl hr (fun q hq hst => ?_) (fun _ _ _ ho => ?_) fun _ hw => hw.elim
    · simpa [State.goto, update_of_ne hq] using hst
    · rw [at_] at ho
      exact ho

/-- Code that keeps to the rules wherever the runs considered take it. -/
structure Guarded (ok : State P L Ch D K → Act P K → Prop) (c : Code P L Ch D K)
    (held : K → Lock L → Bool) (g : Guard L Ch D K) : Prop where
  disciplined : Disciplined held c
  free : ∀ k d, held k (.of g.lk) = false → g.knows k d
  call : ∀ k k', c.call k k' = true → (∀ d, g.knows k' d) ∧ g.Carries k k'
  sound : ∀ s p k, ok s (.run p) → s.thread p = .run k → g.knows k s.data →
    g.Sound held k s.data (s.killed p) (c.instr p k)

variable {ok : State P L Ch D K → Act P K → Prop}

theorem Guarded.keeps (hg : Guarded ok c held g)
    {a : Act P K} {s' : State P L Ch D K} (h : SyncInv held s ∧ WakeInv g s) (hok : ok s a)
    (hs : step c s a = some s') : SyncInv held s' ∧ WakeInv g s' := by
  obtain ⟨hi, hw⟩ := h
  refine ⟨syncInv_step hg.disciplined hi hs, wakeInv_step hi hw hg.disciplined hg.free hg.call ?_ hs⟩
  rintro p k rfl at_ hknows
  exact hg.sound s p k hok at_ hknows

omit [DecidableEq P] in
theorem Guarded.initial (hg : Guarded ok c held g) (hk : ∀ p m, held (k p) m = false) (d : D) :
    SyncInv held (start k d : State P L Ch D K) ∧ WakeInv g (start k d : State P L Ch D K) :=
  ⟨syncInv_start held hk d, wakeInv_start g fun p => hg.free _ _ (hk p _)⟩

theorem Guarded.run (hg : Guarded ok c held g)
    {d : D} {acts : List (Act P K)} (hk : ∀ p m, held (k p) m = false)
    (h : Run ok (step c) (start k d) acts s) : SyncInv held s ∧ WakeInv g s :=
  Run.invariant (I := fun s => SyncInv held s ∧ WakeInv g s)
    (fun _ _ _ hi hok hs => hg.keeps hi hok hs) h (hg.initial hk d)

omit [DecidableEq P] in
theorem WakeInv.asleep (hi : SyncInv held s) (h : WakeInv g s) {p : P}
    (hst : s.state p = .sleeping) (hch : s.chan p = some ch) :
    g.waits ch s.data ∨ ∃ q, g.owing ch (s.thread q) = true := by
  refine h.promise p ch ?_
  have hf := hi.fits p
  rw [hst, hch] at hf
  rw [hst]
  cases ht : s.thread p with
  | sleepSched ch' lk k | sleepOut ch' lk k =>
    rw [ht] at hf
    exact ⟨(Option.some.inj hf.2).symm, rfl⟩
  | _ =>
    rw [ht] at hf
    cases hf

structure Prompt (c : Code P L Ch D K) (held : K → Lock L → Bool) (g : Guard L Ch D K) : Prop where
  owes : ∀ ch k, g.owes ch k = true → held k (.of g.lk) = true
  wakeup : ∀ p k ch k', c.instr p k = .wakeup ch k' → held k (.of g.lk) = true
  sleep : ∀ p k ch lk k', c.instr p k = .sleep ch lk k' → ∀ ch', g.owes ch' k' = false

def Thread.prompt (held : K → Lock L → Bool) (g : Guard L Ch D K) : Thread P L Ch K → Prop
  | .run _ | .wakeRelease _ | .killAcquire _ _ | .killBody _ _ | .killRelease _ => True
  | .wakeAcquire _ k | .wakeBody _ k => held k (.of g.lk) = true
  | .sleepAcquire _ _ k | .sleepRelease _ _ k | .sleepSet _ _ k | .sleepSched _ _ k
  | .sleepOut _ _ k | .sleepBack _ k | .sleepUnlock _ k | .sleepReacquire _ k =>
    ∀ ch, g.owes ch k = false

omit [DecidableEq P] in
theorem Thread.prompt.holds (hp : Prompt c held g) {t : Thread P L Ch K} (h : t.prompt held g)
    (ho : g.owing ch t = true) : t.holds held (.of g.lk) = true := by
  cases t with
  | run k | killAcquire q k => exact hp.owes ch k ho
  | wakeRelease k | killBody q k | killRelease k => simp [Thread.holds, hp.owes ch k ho]
  | wakeAcquire ch' k => exact h
  | wakeBody ch' k =>
    rw [Thread.prompt] at h
    simp [Thread.holds, h]
  | _ =>
    rw [Guard.owing, h ch] at ho
    cases ho

theorem prompt_step (hd : Disciplined held c) (hp : Prompt c held g)
    (h : ∀ p, (s.thread p).prompt held g) {a : Act P K} (hs : step c s a = some s') (p : P) :
    (s'.thread p).prompt held g := by
  have move : ∀ q u, u.prompt held g → (update s.thread q u p).prompt held g := by
    intro q u hu
    by_cases hpq : p = q
    · subst hpq
      rwa [update_self]
    · rw [update_of_ne hpq]
      exact h p
  cases step_moves hs with
  | take q lk u act at_ free =>
    refine move q u ?_
    have hq := h q
    generalize s.thread q = t at at_ hq
    cases at_ with
    | sleep ch l k | wake ch k => exact hq
    | _ => trivial
  | drop q lk u act at_ =>
    refine move q u ?_
    have hq := h q
    generalize s.thread q = t at at_ hq
    cases at_ with
    | sleep ch l k | resume l k => exact hq
    | _ => trivial
  | pass q u act at_ =>
    refine move q u ?_
    generalize s.thread q = t at at_
    cases at_ with
    | wait k ch k' at_ => exact hp.sleep q k ch .ptable k' at_
    | sleep k ch l k' at_ => exact hp.sleep q k ch (.of l) k' at_
    | wakeup k ch k' at_ =>
      have hi := hd.instr q k
      rw [at_] at hi
      rw [Thread.prompt, hi.2]
      exact hp.wakeup q k ch k' at_
    | _ => trivial
  | set q ch lk k act at_ | sched q ch lk k act at_ =>
    refine move q _ ?_
    have hq := h q
    rw [at_] at hq
    exact hq
  | back q lk k act at_ =>
    refine move q _ ?_
    have hq := h q
    rw [at_] at hq
    cases lk with
    | ptable => trivial
    | of l => exact hq
  | wake q ch u act at_ =>
    refine move q u ?_
    generalize s.thread q = t at at_
    cases at_ <;> trivial
  | swtch q ch lk k at_ held runnable =>
    refine move q _ ?_
    have hq := h q
    rw [at_] at hq
    exact hq
  | call q | update q | kill q => exact move q _ trivial
  | schedAcquire | schedRelease => exact h p

theorem Guarded.asleep (hg : Guarded ok c held g)
    (hp : Prompt c held g) {d : D} {acts : List (Act P K)}
    (hk : ∀ p m, held (k p) m = false) (h : Run ok (step c) (start k d) acts s)
    (hfree : s.lock (.of g.lk) = none) {p : P} (hst : s.state p = .sleeping)
    (hch : s.chan p = some ch) : g.waits ch s.data := by
  obtain ⟨hi, hw⟩ := hg.run hk h
  have hprompt : ∀ p, (s.thread p).prompt held g := by
    refine Run.invariant (I := fun s => ∀ p, (s.thread p).prompt held g) ?_ h fun _ => trivial
    intro s a t hs _ hst
    exact prompt_step hg.disciplined hp hs hst
  refine (hw.asleep hi hst hch).resolve_right ?_
  rintro ⟨q, hq⟩
  have hl := (hi.lock (.of g.lk)).eq_of_at ((hprompt q).holds hp hq)
  rw [hfree] at hl
  cases hl

end Step

end BossOs.Sync
