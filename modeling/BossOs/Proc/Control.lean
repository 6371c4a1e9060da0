import BossOs.Proc.Steps

/-!
# Who runs where, and who holds the lock

A process is on at most one CPU. On a CPU its state is the one its program point
says; off every CPU it is parked where `swtch` left it, or has not started yet. The
holder of `ptable.lock` is read off the program points.
-/

namespace BossOs.Proc

open Lib
open Function (update update_self update_of_ne)

variable {k : Pc}

namespace Pc

/-- The state of a process that is on a CPU. It differs from `running` only between
the assignment to `state` and `swtch`. -/
def here : Pc → ProcState
  | .exitSwitch => .zombie
  | .waitSwitch | .sleepSwitch => .sleeping
  | .yield .switch _ => .runnable
  | _ => .running

def resumes : Pc → Bool
  | .forkret | .waitResume | .sleepResume | .yield .release _ => true
  | _ => false

/-- A timer interrupt came while interrupts were on, and not inside another one. -/
def interruptible : Pc → Bool
  | .yield _ k => !k.holding && k.calm
  | _ => true

theorem holding_of_here (h : k.here ≠ .running) : k.holding = true := by
  cases k with
  | yield y k => cases y <;> first | rfl | exact absurd rfl h
  | _ => first | rfl | exact absurd rfl h

theorem here_of_not_holding (h : k.holding = false) : k.here = .running := by
  by_contra hne
  rw [holding_of_here hne] at h
  cases h

theorem resumes_here (h : k.resumes = true) : k.here = .running ∧ k.holding = true := by
  cases k with
  | yield y k => cases y <;> first | exact ⟨rfl, rfl⟩ | cases h
  | _ => first | exact ⟨rfl, rfl⟩ | cases h

theorem acquires_control {k' : Pc} (h : k.acquires = some k') : k.holding = false ∧
    k'.holding = true ∧ k'.here = .running ∧ (k.interruptible = true → k'.interruptible = true) := by
  cases k with
  | yield y k =>
    cases y <;> cases h
    exact ⟨rfl, rfl, rfl, id⟩
  | _ => cases h <;> exact ⟨rfl, rfl, rfl, id⟩

theorem interruptible_of_calm (hk : k.calm = true) : k.interruptible = true := by
  cases k with
  | yield y k => cases hk
  | _ => rfl

theorem releases_control {k' : Pc} (h : k.releases = some k') (hk : k.interruptible = true) :
    k.holding = true ∧ k'.holding = false ∧ k.here = .running ∧ k'.interruptible = true := by
  cases k with
  | yield y k =>
    cases y <;> cases h
    simp only [interruptible, Bool.and_eq_true, Bool.not_eq_true'] at hk
    exact ⟨rfl, hk.1, rfl, interruptible_of_calm hk.2⟩
  | allocRelease np =>
    cases np <;> cases h
    exact ⟨rfl, rfl, rfl, rfl⟩
  | _ => cases h <;> exact ⟨rfl, rfl, rfl, rfl⟩

theorem returns_control {v : Int} (h : k.returns = some v) :
    k.holding = true ∧ k.here = .running := by
  cases k with
  | yield y k => cases y <;> cases h
  | allocRelease np => exact ⟨rfl, rfl⟩
  | _ => first | exact ⟨rfl, rfl⟩ | cases h

theorem here_ne (k : Pc) : k.here ≠ .unused ∧ k.here ≠ .embryo := by
  cases k with
  | yield y k => cases y <;> simp [here]
  | _ => simp [here]

/-- The slot a call of `fork` is filling in, and how far it is: 1 once the slot has a
stack, 2 once it has an address space, 3 once it has a parent. -/
def child : Pc → Option (Slot × Nat)
  | .allocRelease (some np) | .forkKalloc np => some (np, 0)
  | .forkCopy np => some (np, 1)
  | .forkParent np => some (np, 2)
  | .forkAcquire np _ | .forkSet np _ => some (np, 3)
  | .yield _ k => k.child
  | _ => none

end Pc

def Parked (st : ProcState) (k : Pc) : Prop :=
  match st with
  | .running => False
  | .sleeping => k = .waitResume ∨ k = .sleepResume
  | .runnable => k.resumes = true
  | .zombie => k = .exited
  | .unused | .embryo => k = .exited ∨ k = .forkret

theorem Pc.switches_control {k' : Pc} (h : k.switches = some k') :
    k.holding = true ∧ Parked k.here k' ∧ (k.interruptible = true → k'.interruptible = true) := by
  cases k with
  | yield y k =>
    cases y <;> cases h
    exact ⟨rfl, rfl, id⟩
  | waitSwitch =>
    cases h
    exact ⟨rfl, Or.inl rfl, id⟩
  | sleepSwitch =>
    cases h
    exact ⟨rfl, Or.inr rfl, id⟩
  | _ => cases h <;> exact ⟨rfl, rfl, id⟩

section
variable {C : Type}

def State.holds (s : State C) (c : C) : Bool :=
  match (s.cpu c).pc with
  | .idle => false
  | .scan _ | .back => true
  | .proc => (s.cpu c).proc.any fun p => (s.pc p).holding

structure ControlInv (s : State C) : Prop where
  lock : Holds s.lock id s.holds
  idle : ∀ c, (s.cpu c).pc ≠ .proc → (s.cpu c).pc ≠ .back → (s.cpu c).proc = none
  cur : ∀ c c' p, (s.cpu c).proc = some p → (s.cpu c').proc = some p → c = c'
  running : ∀ c p, s.On c p → s.state p = (s.pc p).here
  off : ∀ p, (∀ c, ¬ s.On c p) → Parked (s.state p) (s.pc p)
  inner : ∀ p, (s.pc p).interruptible = true

structure ForkInv (s : State C) : Prop where
  embryo : ∀ p np n, (s.pc p).child = some (np, n) → s.state np = .embryo
  start : ∀ p np n, (s.pc p).child = some (np, n) → 1 ≤ n → s.pc np = .forkret
  inj : ∀ p p' np n n', (s.pc p).child = some (np, n) → (s.pc p').child = some (np, n') → p = p'

theorem controlInv_boot : ControlInv (boot C) where
  lock := fun c => by simp [boot, State.holds]
  idle := fun c _ _ => rfl
  cur := fun c c' p h => by cases h
  running := fun c p h => by cases h
  off := fun p _ => by
    change Parked (update (fun _ => ProcState.unused) initproc .runnable p) .forkret
    by_cases hp : p = initproc
    · subst hp
      rw [update_self]
      rfl
    · rw [update_of_ne hp]
      exact Or.inr rfl
  inner := fun p => rfl

variable {s t : State C} {c : C} {p : Slot}

theorem holds_on (on : s.On c p) : s.holds c = (s.pc p).holding := by
  rw [State.On] at on
  rw [State.holds, on]
  rfl

theorem holds_scan {i : Nat} (hc : (s.cpu c).pc = .scan i) : s.holds c = true := by
  rw [State.holds, hc]

theorem holds_back (hc : (s.cpu c).pc = .back) : s.holds c = true := by
  rw [State.holds, hc]

theorem holds_congr (hcpu : t.cpu c = s.cpu c) (hpc : ∀ q, s.On c q → t.pc q = s.pc q) :
    t.holds c = s.holds c := by
  rw [State.holds, State.holds, hcpu]
  cases hk : (s.cpu c).pc with
  | idle | scan | back => rfl
  | proc =>
    cases hp : (s.cpu c).proc with
    | none => rfl
    | some q =>
      have hon : s.On c q := by rw [State.On, ← hp, ← hk]
      simp only [Option.any_some]
      rw [hpc q hon]

theorem State.On.proc (on : s.On c p) : (s.cpu c).proc = some p := by
  rw [State.On] at on
  rw [on]

theorem ControlInv.on_unique (h : ControlInv s) {c' : C} (on : s.On c p) (on' : s.On c' p) :
    c = c' := h.cur c c' p on.proc on'.proc

theorem ControlInv.state_of (h : ControlInv s) (on : s.On c p) (at_ : s.pc p = k)
    {st : ProcState} (hk : k.here = st) : s.state p = st := by
  rw [h.running c p on, at_, hk]

variable {q : Slot}

theorem ControlInv.off_of_new (h : ControlInv s)
    (hq : s.state q = .unused ∨ s.state q = .embryo) (c' : C) : ¬ s.On c' q := by
  intro on
  rw [h.running c' q on] at hq
  rcases hq with hq | hq
  · exact (Pc.here_ne _).1 hq
  · exact (Pc.here_ne _).2 hq

theorem ControlInv.ne_of_new (h : ControlInv s) (on : s.On c p)
    (hq : s.state q = .unused ∨ s.state q = .embryo) : q ≠ p := by
  rintro rfl
  exact h.off_of_new hq c on

theorem ControlInv.running_of_other (h : ControlInv s) {c' : C} (hc : s.holds c = true)
    (hne : c' ≠ c) (on : s.On c' q) : s.state q = .running := by
  rw [h.running c' q on]
  apply Pc.here_of_not_holding
  rw [← holds_on on]
  cases hh : s.holds c' with
  | false => rfl
  | true => exact absurd (h.lock.unique (K := Bool) hh hc) hne

theorem ControlInv.off_of_state (h : ControlInv s) (on : s.On c p) (hc : s.holds c = true)
    (hq : q ≠ p) (hst : s.state q ≠ .running) (c' : C) : ¬ s.On c' q := by
  intro on'
  refine hst (h.running_of_other hc ?_ on')
  rintro rfl
  have := on.proc.symm.trans on'.proc
  exact hq (Option.some.inj this).symm

/-- What a step of a thread may do to another process: nothing, or move it from one
parked position to another. -/
def Aside (s t : State C) (q : Slot) : Prop :=
  (t.state q = s.state q ∧ t.pc q = s.pc q) ∨
    ((∀ c, ¬ s.On c q) ∧ Parked (t.state q) (t.pc q) ∧ (t.pc q).interruptible = true)

theorem aside_woken (h : ControlInv s) (on : s.On c p) (hc : (s.pc p).holding = true)
    (hq : q ≠ p) (hpc : t.pc q = s.pc q)
    (hst : t.state q = s.state q ∨ (s.state q = .sleeping ∧ t.state q = .runnable)) :
    Aside s t q := by
  rcases hst with hst | ⟨hsl, hrun⟩
  · exact Or.inl ⟨hst, hpc⟩
  · have hoff : ∀ c', ¬ s.On c' q :=
      h.off_of_state on (by rw [holds_on on, hc]) hq (by rw [hsl]; simp)
    have hpark := h.off q hoff
    rw [hsl] at hpark
    refine Or.inr ⟨hoff, ?_, by rw [hpc]; exact h.inner q⟩
    rw [hrun, hpc]
    rcases hpark with hk | hk <;> rw [hk] <;> rfl

variable [DecidableEq C]

section
variable (h : ControlInv s)
include h

theorem holds_thread (on : s.On c p) (hcpu : t.cpu = s.cpu)
    (haside : ∀ q ≠ p, Aside s t q) : t.holds = update s.holds c (t.pc p).holding := by
  funext c'
  by_cases hc : c' = c
  · subst hc
    rw [update_self]
    apply holds_on
    rw [State.On, hcpu]
    exact on
  · rw [update_of_ne hc]
    refine holds_congr (by rw [hcpu]) fun q hq => ?_
    have hne : q ≠ p := by
      rintro rfl
      exact hc (h.on_unique (p := q) hq on)
    rcases haside q hne with hsame | hoff
    · exact hsame.2
    · exact absurd hq (hoff.1 c')

theorem ControlInv.thread (on : s.On c p) (hcpu : t.cpu = s.cpu)
    (hlock : Holds t.lock id (update s.holds c (t.pc p).holding))
    (hp : t.state p = (t.pc p).here) (hint : (t.pc p).interruptible = true)
    (haside : ∀ q ≠ p, Aside s t q) : ControlInv t := by
  have hon : ∀ c' q, t.On c' q ↔ s.On c' q := fun c' q => by rw [State.On, State.On, hcpu]
  refine ⟨?_, ?_, ?_, fun c' q hq => ?_, fun q hq => ?_, fun q => ?_⟩
  · rw [holds_thread h on hcpu haside]
    exact hlock
  · rw [hcpu]
    exact h.idle
  · rw [hcpu]
    exact h.cur
  · rw [hon] at hq
    by_cases hqp : q = p
    · rw [hqp]
      exact hp
    · rcases haside q hqp with hsame | hoff
      · rw [hsame.1, hsame.2]
        exact h.running c' q hq
      · exact absurd hq (hoff.1 c')
  · have hqp : q ≠ p := by
      rintro rfl
      exact hq c ((hon c q).mpr on)
    rcases haside q hqp with hsame | hoff
    · rw [hsame.1, hsame.2]
      exact h.off q fun c' => (hon c' q).not.mp (hq c')
    · exact hoff.2.1
  · by_cases hqp : q = p
    · rw [hqp]
      exact hint
    · rcases haside q hqp with hsame | hoff
      · rw [hsame.2]
        exact h.inner q
      · exact hoff.2.2

theorem ControlInv.alone (on : s.On c p) (hcpu : t.cpu = s.cpu)
    (hpc : t.pc = update s.pc p k) (hst : ∀ q ≠ p, t.state q = s.state q)
    (hp : t.state p = k.here) (hint : k.interruptible = true)
    (hlock : Holds t.lock id (update s.holds c k.holding)) : ControlInv t := by
  have hk : t.pc p = k := by rw [hpc, update_self]
  refine h.thread on hcpu (hk ▸ hlock) (hk ▸ hp) (hk ▸ hint) fun q hq => Or.inl ⟨hst q hq, ?_⟩
  rw [hpc, update_of_ne hq]

theorem ControlInv.keep (on : s.On c p) (hk : k.holding = (s.pc p).holding) :
    Holds s.lock id (update s.holds c k.holding) :=
  h.lock.move (by rw [id, id, hk, holds_on on])

theorem ControlInv.take (hfree : s.lock = none)
    (hk : k.holding = true) : Holds (some c) id (update s.holds c k.holding) := by
  have hl := h.lock
  rw [hfree] at hl
  exact hl.take hk

theorem ControlInv.drop (on : s.On c p)
    (hp : (s.pc p).holding = true) (hk : k.holding = false) :
    Holds none id (update s.holds c k.holding) :=
  h.lock.drop (by rw [id, holds_on on, hp]) hk

end

theorem holds_update {x : Cpu} (hcpu : t.cpu = update s.cpu c x)
    (hpc : ∀ c' q, c' ≠ c → s.On c' q → t.pc q = s.pc q) :
    t.holds = update s.holds c (t.holds c) := by
  funext c'
  by_cases hcc : c' = c
  · rw [hcc, update_self]
  · rw [update_of_ne hcc]
    exact holds_congr (by rw [hcpu, update_of_ne hcc]) fun q hq => hpc c' q hcc hq

theorem ControlInv.idle_update (h : ControlInv s) {x : Cpu} (hcpu : t.cpu = update s.cpu c x)
    (hx : x.pc ≠ .proc → x.pc ≠ .back → x.proc = none) (c' : C) (hp : (t.cpu c').pc ≠ .proc)
    (hb : (t.cpu c').pc ≠ .back) : (t.cpu c').proc = none := by
  rw [hcpu] at hp hb ⊢
  by_cases hcc : c' = c
  · subst hcc
    rw [update_self] at hp hb ⊢
    exact hx hp hb
  · rw [update_of_ne hcc] at hp hb ⊢
    exact h.idle c' hp hb

theorem holds_scan_update {i : Nat} (hcpu : t.cpu = update s.cpu c ⟨none, .scan i⟩) :
    t.holds c = true :=
  holds_scan (i := i) (by rw [hcpu, update_self])

theorem ControlInv.scheduler (h : ControlInv s) (hc : (s.cpu c).pc ≠ .proc) {k : CpuPc}
    (hk : k ≠ .proc ∧ k ≠ .back) (hcpu : t.cpu = update s.cpu c ⟨none, k⟩)
    (hst : t.state = s.state) (hpc : t.pc = s.pc)
    (hlock : Holds t.lock id (update s.holds c (t.holds c))) : ControlInv t := by
  have hon : ∀ c' q, t.On c' q ↔ s.On c' q := fun c' q => by
    rw [State.On, hcpu]
    by_cases hcc : c' = c
    · subst hcc
      rw [update_self]
      exact ⟨fun hq => absurd (congrArg Cpu.pc hq) hk.1, fun hq => absurd (congrArg Cpu.pc hq) hc⟩
    · rw [update_of_ne hcc, State.On]
  refine ⟨?_, h.idle_update hcpu fun _ _ => rfl, fun c₁ c₂ q => ?_, fun c' q hq => ?_,
    fun q hq => ?_, fun q => ?_⟩
  · rw [holds_update hcpu fun _ q _ _ => by rw [hpc]]
    exact hlock
  · rw [hcpu]
    intro h₁ h₂
    have hne : ∀ c', (update s.cpu c ⟨none, k⟩ c').proc = some q → c' ≠ c := by
      rintro c' hq rfl
      rw [update_self] at hq
      cases hq
    rw [update_of_ne (hne c₁ h₁)] at h₁
    rw [update_of_ne (hne c₂ h₂)] at h₂
    exact h.cur c₁ c₂ q h₁ h₂
  · rw [hst, hpc]
    exact h.running c' q ((hon c' q).mp hq)
  · rw [hst, hpc]
    exact h.off q fun c' => (hon c' q).not.mp (hq c')
  · rw [hpc]
    exact h.inner q

theorem ControlInv.sched (h : ControlInv s) (on : s.On c p)
    (hk : (s.pc p).switches = some k) : ControlInv (s.sched c p k) := by
  obtain ⟨hhold, hpark, hint⟩ := Pc.switches_control hk
  have hcpu : (s.sched c p k).cpu = update s.cpu c ⟨some p, .back⟩ := by
    change update s.cpu c { s.cpu c with pc := .back } = _
    rw [State.On] at on
    rw [on]
  have hpc : ∀ q ≠ p, (s.sched c p k).pc q = s.pc q := fun q hq => update_of_ne hq _ _
  have hpk : (s.sched c p k).pc p = k := update_self _ _ _
  have hon : ∀ c' q, (s.sched c p k).On c' q ↔ s.On c' q ∧ q ≠ p := fun c' q => by
    rw [State.On, hcpu]
    by_cases hcc : c' = c
    · subst hcc
      rw [update_self]
      refine ⟨fun hq => ?_, fun ⟨hq, hne⟩ => absurd ?_ hne⟩
      · cases congrArg Cpu.pc hq
      · exact Option.some.inj (hq.proc.symm.trans on.proc)
    · rw [update_of_ne hcc, State.On]
      refine ⟨fun hq => ⟨hq, ?_⟩, And.left⟩
      rintro rfl
      exact hcc (h.on_unique (p := q) hq on)
  refine ⟨?_, h.idle_update hcpu fun _ hb => absurd rfl hb, fun c₁ c₂ q h₁ h₂ => ?_,
    fun c' q hq => ?_, fun q hq => ?_, fun q => ?_⟩
  · rw [holds_update hcpu fun c' q hcc hq => hpc q ((hon c' q).mp ?_).2]
    · rw [holds_back (by rw [hcpu, update_self])]
      exact h.lock.move (by rw [id, id, holds_on on, hhold])
    · rw [State.On, hcpu, update_of_ne hcc]
      exact hq
  · have hproc : ∀ c', ((s.sched c p k).cpu c').proc = (s.cpu c').proc := fun c' => by
      rw [hcpu]
      by_cases hcc : c' = c
      · subst hcc
        rw [update_self, on.proc]
      · rw [update_of_ne hcc]
    rw [hproc] at h₁ h₂
    exact h.cur c₁ c₂ q h₁ h₂
  · obtain ⟨hq, hne⟩ := (hon c' q).mp hq
    rw [hpc q hne]
    exact h.running c' q hq
  · by_cases hqp : q = p
    · subst hqp
      rw [hpk]
      exact h.running c q on ▸ hpark
    · rw [hpc q hqp]
      exact h.off q fun c' hq' => hq c' ((hon c' q).mpr ⟨hq', hqp⟩)
  · by_cases hqp : q = p
    · subst hqp
      rw [hpk]
      exact hint (h.inner q)
    · rw [hpc q hqp]
      exact h.inner q

theorem ControlInv.off_of_runnable (h : ControlInv s) {i : Nat} (hc : (s.cpu c).pc = .scan i)
    (hq : s.state q = .runnable) (c' : C) : (s.cpu c').proc ≠ some q := by
  intro hproc
  have hhold := holds_scan hc
  by_cases hcc : c' = c
  · subst hcc
    rw [h.idle c' (by rw [hc]; simp) (by rw [hc]; simp)] at hproc
    cases hproc
  · cases hx : (s.cpu c').pc with
    | idle | scan j =>
      rw [h.idle c' (by rw [hx]; simp) (by rw [hx]; simp)] at hproc
      cases hproc
    | back =>
      exact hcc (h.lock.unique (K := Bool) (holds_back hx) hhold)
    | proc =>
      have hon : s.On c' q := by rw [State.On, ← hproc, ← hx]
      rw [h.running_of_other hhold hcc hon] at hq
      cases hq

theorem ControlInv.dispatch (h : ControlInv s) (hc : (s.cpu c).pc = .scan q)
    (hq : s.state q = .runnable) : ControlInv { s with
      cpu := update s.cpu c ⟨some q, .proc⟩
      state := update s.state q .running } := by
  have hoffproc := h.off_of_runnable hc hq
  have hoff : ∀ c', ¬ s.On c' q := fun c' hon => hoffproc c' hon.proc
  have hpark := h.off q hoff
  rw [hq] at hpark
  obtain ⟨hhere, hhold⟩ := Pc.resumes_here hpark
  have hcq : ∀ q', ¬ s.On c q' := fun q' hon => by
    rw [State.On] at hon
    rw [hon] at hc
    cases hc
  set t : State C := { s with
    cpu := update s.cpu c ⟨some q, .proc⟩
    state := update s.state q .running } with ht
  have hcpu : t.cpu = update s.cpu c ⟨some q, .proc⟩ := rfl
  have hon : ∀ c' q', t.On c' q' ↔ s.On c' q' ∨ c' = c ∧ q' = q := fun c' q' => by
    rw [State.On, hcpu]
    by_cases hcc : c' = c
    · subst hcc
      rw [update_self]
      constructor
      · intro he
        exact Or.inr ⟨rfl, (Option.some.inj (congrArg Cpu.proc he)).symm⟩
      · rintro (he | ⟨_, rfl⟩)
        · exact absurd he (hcq q')
        · rfl
    · rw [update_of_ne hcc, State.On]
      simp [hcc]
  refine ⟨?_, h.idle_update hcpu fun hp => absurd rfl hp, fun c₁ c₂ r h₁ h₂ => ?_,
    fun c' r hr => ?_, fun r hr => ?_, h.inner⟩
  · rw [holds_update hcpu fun _ _ _ _ => rfl, holds_on ((hon c q).mpr (Or.inr ⟨rfl, rfl⟩))]
    exact h.lock.move (by rw [id, id, hhold, holds_scan hc])
  · have hother : ∀ c' ≠ c, (t.cpu c').proc = (s.cpu c').proc := fun c' hcc => by
      rw [hcpu, update_of_ne hcc]
    have hself : (t.cpu c).proc = some q := by rw [hcpu, update_self]
    by_cases e₁ : c₁ = c <;> by_cases e₂ : c₂ = c
    · rw [e₁, e₂]
    · rw [e₁, hself] at h₁
      rw [hother c₂ e₂, ← h₁] at h₂
      exact absurd h₂ (hoffproc c₂)
    · rw [e₂, hself] at h₂
      rw [hother c₁ e₁, ← h₂] at h₁
      exact absurd h₁ (hoffproc c₁)
    · rw [hother c₁ e₁] at h₁
      rw [hother c₂ e₂] at h₂
      exact h.cur c₁ c₂ r h₁ h₂
  · rcases (hon c' r).mp hr with hs | ⟨_, rfl⟩
    · have hne : r ≠ q := by
        rintro rfl
        exact hoff c' hs
      exact (update_of_ne hne _ _).trans (h.running c' r hs)
    · exact (update_self _ _ _).trans hhere.symm
  · have hne : r ≠ q := by
      rintro rfl
      exact hr c ((hon c r).mpr (Or.inr ⟨rfl, rfl⟩))
    have hst : t.state r = s.state r := update_of_ne hne _ _
    rw [hst]
    exact h.off r fun c' hr' => hr c' ((hon c' r).mpr (Or.inl hr'))

theorem Call.entry_control (k : Call) : k.entry.holding = false ∧ k.entry.here = .running ∧
    k.entry.interruptible = true := by
  cases k <;> exact ⟨rfl, rfl, rfl⟩

theorem ControlInv.other (h : ControlInv s) (on : s.On c p) {np : Slot} {st : ProcState}
    (hcpu : t.cpu = s.cpu) (hpc : t.pc = update s.pc p k)
    (hst : t.state = update s.state np st) (hne : np ≠ p) (hoff : ∀ c', ¬ s.On c' np)
    (hpark : Parked st (s.pc np)) (hp : s.state p = k.here) (hint : k.interruptible = true)
    (hlock : Holds t.lock id (update s.holds c k.holding)) : ControlInv t := by
  have hk : t.pc p = k := by rw [hpc, update_self]
  refine h.thread on hcpu (hk ▸ hlock) ?_ (hk ▸ hint) fun q hq => ?_
  · rw [hst, hk, update_of_ne hne.symm, hp]
  · by_cases hqn : q = np
    · subst hqn
      refine Or.inr ⟨hoff, ?_, ?_⟩
      · rw [hst, hpc, update_self, update_of_ne hq]
        exact hpark
      · rw [hpc, update_of_ne hq]
        exact h.inner q
    · refine Or.inl ⟨?_, ?_⟩
      · rw [hst, update_of_ne hqn]
      · rw [hpc, update_of_ne hq]

theorem ControlInv.rouse (h : ControlInv s) (on : s.On c p) (hhold : (s.pc p).holding = true)
    (hrun : s.state p = .running) (hcpu : t.cpu = s.cpu)
    (hpc : t.pc = update s.pc p k) (hwoken : Woken s.state t.state)
    (hk : k.here = .running) (hint : k.interruptible = true)
    (hlock : Holds t.lock id (update s.holds c k.holding)) : ControlInv t := by
  have hpk : t.pc p = k := by rw [hpc, update_self]
  refine h.thread on hcpu (hpk ▸ hlock) ?_ (hpk ▸ hint) fun q hq => ?_
  · rw [hpk, hk]
    rcases hwoken p with hs | ⟨hs, _⟩
    · exact hs.trans hrun
    · rw [hrun] at hs
      cases hs
  · refine aside_woken h on hhold hq ?_ (hwoken q)
    rw [hpc, update_of_ne hq]

theorem controlInv_step {a : Act C} (h : ControlInv s) (hf : ForkInv s)
    (hstep : step s a = some t) : ControlInv t := by
  cases step_moves hstep with
  | start c p k on at_ =>
    obtain ⟨hfree, hhere, hint⟩ := k.entry_control
    refine h.alone on rfl rfl (fun _ _ => rfl) ?_ hint (h.keep on (by rw [hfree, at_]; rfl))
    exact h.state_of on at_ hhere.symm
  | timer c p on free calm =>
    refine h.alone on rfl rfl (fun _ _ => rfl) ?_ ?_ (h.keep on (by rw [free]; rfl))
    · exact (h.running c p on).trans (Pc.here_of_not_holding free)
    · simp [Pc.interruptible, free, calm]
  | acquire c ok p k on at_ free =>
    obtain ⟨hfree, hhold, hhere, hint⟩ := Pc.acquires_control at_
    refine h.alone on rfl rfl (fun _ _ => rfl) ?_ (hint (h.inner p)) (h.take free hhold)
    exact (h.running c p on).trans ((Pc.here_of_not_holding hfree).trans hhere.symm)
  | release c ok p k on at_ =>
    obtain ⟨hhold, hfree, hhere, hint⟩ := Pc.releases_control at_ (h.inner p)
    refine h.alone on rfl rfl (fun _ _ => rfl) ?_ hint (h.drop on hhold hfree)
    exact (h.running c p on).trans (hhere.trans (Pc.here_of_not_holding hfree).symm)
  | returns c ok p v on at_ =>
    obtain ⟨hhold, hhere⟩ := Pc.returns_control at_
    refine h.alone (k := .user) on rfl rfl (fun _ _ => rfl) ?_ rfl (h.drop on hhold rfl)
    exact (h.running c p on).trans hhere
  | switch c ok p k on at_ => exact h.sched on at_
  | noSlot c ok p on at_ | waitNone c ok p on at_ | killNone c ok p pid on at_
  | waitResume c ok p on at_ | sleepResume c ok p on at_ | setParent c ok p np on at_
  | copy c ok p np on at_ =>
    exact h.alone on rfl rfl (fun _ _ => rfl) (h.state_of on at_ rfl) rfl (h.keep on (by rw [at_]; rfl))
  | waitSleep c ok p on at_ | sleepSet c ok p addr on at_ =>
    refine h.alone on rfl rfl (fun q hq => ?_) ?_ rfl (h.keep on (by rw [at_]; rfl))
    · exact update_of_ne hq _ _
    · exact update_self _ _ _
  | yieldSet c ok p k on at_ =>
    refine h.alone on rfl rfl (fun q hq => ?_) ?_ ?_ (h.keep on (by rw [at_]; rfl))
    · exact update_of_ne hq _ _
    · exact update_self _ _ _
    · have := h.inner p
      rwa [at_] at this
  | found c ok p np on at_ unused =>
    have hoff := h.off_of_new (Or.inl unused)
    have hpark := h.off np hoff
    rw [unused] at hpark
    exact h.other on rfl rfl rfl (h.ne_of_new on (Or.inl unused)) hoff hpark (h.state_of on at_ rfl) rfl
      (h.keep on (by rw [at_]; rfl))
  | kalloc c ok p np on at_ =>
    have hemb := hf.embryo p np 0 (by rw [at_]; rfl)
    have hoff := h.off_of_new (Or.inr hemb)
    have hne := h.ne_of_new on (Or.inr hemb)
    refine h.thread on rfl ?_ ?_ ?_ fun q hq => ?_
    all_goals simp only [State.goto, update_self]
    · exact h.keep on (by rw [at_]; rfl)
    · exact h.state_of on at_ rfl
    · rfl
    · by_cases hqn : q = np
      · subst hqn
        refine Or.inr ⟨hoff, ?_, ?_⟩
        · simp only [update_of_ne hq, update_self, hemb]
          exact Or.inr rfl
        · simp only [update_of_ne hq, update_self]
          rfl
      · refine Or.inl ⟨rfl, ?_⟩
        simp only [update_of_ne hq, update_of_ne hqn]
  | kallocFail c ok p np on at_ | copyFail c ok p np on at_ =>
    have hemb := hf.embryo p np _ (by rw [at_]; rfl)
    have hoff := h.off_of_new (Or.inr hemb)
    have hpark := h.off np hoff
    rw [hemb] at hpark
    exact h.other (k := .user) on rfl rfl rfl (h.ne_of_new on (Or.inr hemb)) hoff hpark
      (h.state_of on at_ rfl) rfl (h.keep on (by rw [at_]; rfl))
  | setRunnable c ok p np pid on at_ =>
    have hemb := hf.embryo p np 3 (by rw [at_]; rfl)
    have hstart := hf.start p np 3 (by rw [at_]; rfl) (by decide)
    exact h.other on rfl rfl rfl (h.ne_of_new on (Or.inr hemb)) (h.off_of_new (Or.inr hemb))
      (by rw [hstart]; rfl) (h.state_of on at_ rfl) rfl (h.keep on (by rw [at_]; rfl))
  | reap c ok p q on at_ child zombie =>
    have hrun := h.state_of on at_ rfl
    have hne : q ≠ p := by
      rintro rfl
      rw [zombie] at hrun
      cases hrun
    have hoff := h.off_of_state on (by rw [holds_on on, at_]; rfl) hne (by rw [zombie]; simp)
    have hpark := h.off q hoff
    rw [zombie] at hpark
    exact h.other on rfl rfl rfl hne hoff (Or.inl hpark) hrun rfl (h.keep on (by rw [at_]; rfl))
  | exit c ok p on at_ =>
    obtain ⟨parent, state, heq, _, hwoken, _⟩ := exit_spec s p
    rw [heq]
    have hhold : (s.pc p).holding = true := by rw [at_]; rfl
    refine h.thread on rfl ?_ ?_ ?_ fun q hq => ?_
    · exact h.keep on (by rw [hhold]; simp only [State.goto, update_self]; rfl)
    · simp only [State.goto, update_self]
      rfl
    · simp only [State.goto, update_self]
      rfl
    · refine aside_woken h on hhold hq (update_of_ne hq _ _) ?_
      simp only [State.goto, update_of_ne hq]
      exact hwoken q
  | wake c ok p addr on at_ =>
    exact h.rouse on (by rw [at_]; rfl) (h.state_of on at_ rfl) rfl rfl (woken_wakeup1 _ _ _) rfl rfl
      (h.keep on (by rw [at_]; rfl))
  | kill c ok p q pid on at_ hit =>
    exact h.rouse on (by rw [at_]; rfl) (h.state_of on at_ rfl) rfl rfl (woken_kill _ _) rfl rfl
      (h.keep on (by rw [at_]; rfl))
  | initExits | zombieExit => exact ⟨h.lock, h.idle, h.cur, h.running, h.off, h.inner⟩
  | schedAcquire c ok at_ free =>
    refine h.scheduler (by rw [at_]; simp) ⟨by simp, by simp⟩ rfl rfl rfl ?_
    have hl := h.lock
    rw [free] at hl
    exact hl.take (holds_scan_update (s := s) rfl)
  | schedSkip c ok i at_ =>
    refine h.scheduler (by rw [at_]; simp) ⟨by simp, by simp⟩ rfl rfl rfl (h.lock.move ?_)
    exact (holds_scan_update (s := s) rfl).trans (holds_scan at_).symm
  | schedRelease c ok i at_ =>
    refine h.scheduler (by rw [at_]; simp) ⟨by simp, by simp⟩ rfl rfl rfl ?_
    refine h.lock.drop (holds_scan at_) ?_
    simp [State.holds]
  | schedBack c ok i at_ =>
    refine h.scheduler (by rw [at_]; simp) ⟨by simp, by simp⟩ rfl rfl rfl (h.lock.move ?_)
    exact (holds_scan_update (s := s) rfl).trans (holds_back at_).symm
  | dispatch c ok q at_ runnable => exact h.dispatch at_ runnable

end

end BossOs.Proc
