import BossOs.Proc.Reap

/-!
# Scheduler exclusivity

A process is `c->proc` of at most one CPU, and of one exactly while it is RUNNING, except where
the CPU that switches to it or from it has `ptable.lock`.
-/

namespace BossOs.Proc

open Lib

section
variable {C : Type} {s t : State C} {c : C} {p q : Slot}

theorem ControlInv.on_of_free (h : ControlInv s) (hfree : s.lock = none)
    (hp : (s.cpu c).proc = some p) : s.On c p ∧ (s.pc p).holding = false := by
  have hnot : s.holds c = false := (hfree ▸ h.lock).not_at c
  have hback : (s.cpu c).pc ≠ .back := fun hb => by
    rw [holds_back hb] at hnot
    cases hnot
  have hpc : (s.cpu c).pc = .proc := by
    by_contra hpc
    rw [h.idle c hpc hback] at hp
    cases hp
  have on : s.On c p := by
    rw [State.On, ← hp, ← hpc]
  rw [holds_on on] at hnot
  exact ⟨on, hnot⟩

theorem ControlInv.running_iff (h : ControlInv s) (hfree : s.lock = none) (p : Slot) :
    s.state p = .running ↔ ∃! c, (s.cpu c).proc = some p := by
  constructor
  · intro hrun
    by_contra hno
    have hoff : ∀ c, ¬ s.On c p := fun c on =>
      hno ⟨c, on.proc, fun c' hc' => h.cur c' c p hc' on.proc⟩
    have hpark := h.off p hoff
    rw [hrun] at hpark
    exact hpark
  · rintro ⟨c, hc, -⟩
    obtain ⟨on, hhold⟩ := h.on_of_free hfree hc
    rw [h.running c p on, Pc.here_of_not_holding hhold]

theorem ControlInv.zombie_off (h : ControlInv s) (on : s.On c p) (at_ : s.pc p = .waitScan)
    (zombie : s.state q = .zombie) (c' : C) : (s.cpu c').proc ≠ some q := by
  intro hq
  have hc : s.holds c = true := by rw [holds_on on, at_]; rfl
  have hne : q ≠ p := by
    rintro rfl
    rw [h.running c q on, at_] at zombie
    cases zombie
  by_cases hpc : (s.cpu c').pc = .proc
  · have on' : s.On c' q := by rw [State.On, ← hq, ← hpc]
    have hc' : s.holds c' = true := by
      rw [holds_on on']
      refine Pc.holding_of_here ?_
      rw [← h.running c' q on', zombie]
      simp
    have hcc := h.lock.unique hc hc'
    subst hcc
    exact hne (Option.some.inj (hq.symm.trans on.proc))
  · have hback : (s.cpu c').pc = .back := by
      by_contra hb
      rw [h.idle c' hpc hb] at hq
      cases hq
    have hcc := h.lock.unique hc (holds_back hback)
    subst hcc
    exact hne (Option.some.inj (hq.symm.trans on.proc))

theorem ControlInv.used_of_on (h : ControlInv s) (on : s.On c q) : (s.state q).used = true := by
  rw [h.running c q on]
  cases s.pc q with
  | yield y k => cases y <;> rfl
  | _ => rfl

theorem PageInv.disjoint (h : PageInv s) (hne : q ≠ p) (hq : (s.state q).used = true)
    (hp : (s.state p).used = true) : s.kstack q ≠ s.kstack p ∧ s.kstack q ≠ s.pgdir p ∧
      s.pgdir q ≠ s.kstack p ∧ s.pgdir q ≠ s.pgdir p := by
  obtain ⟨k, hk⟩ := Option.ne_none_iff_exists'.mp (h.used p hp).1
  obtain ⟨d, hd⟩ := Option.ne_none_iff_exists'.mp (h.used p hp).2
  obtain ⟨d', hd'⟩ := Option.ne_none_iff_exists'.mp (h.used q hq).2
  rw [hk, hd]
  refine ⟨fun he => hne (h.stackInj q p k he hk), (h.dir p d (Or.inl hp) hd).2 q, ?_,
    fun he => hne (h.dirInj q p d (Or.inl hq) (Or.inl hp) he hd)⟩
  intro he
  rw [he] at hd'
  exact (h.dir q d' (Or.inl hq) (he.trans hd')).2 p (hk.trans hd')

variable [DecidableEq C]

theorem scheduler_exclusivity {acts : List (Act C)} (h : Reaches acts s) :
    (∀ c c' p, (s.cpu c).proc = some p → (s.cpu c').proc = some p → c = c') ∧
    (s.lock = none → ∀ p, s.state p = .running ↔ ∃! c, (s.cpu c).proc = some p) ∧
    ∀ a t r, step s a = some t → t.reaped = s.reaped ++ [r] →
      ∀ c q, (s.cpu c).proc = some q → q ≠ r.slot ∧
        s.kstack q ≠ r.kstack ∧ s.kstack q ≠ r.pgdir ∧ s.pgdir q ≠ r.kstack ∧
        s.pgdir q ≠ r.pgdir := by
  obtain ⟨⟨hc, -⟩, -, hpage⟩ := table_of_reaches h
  refine ⟨hc.cur, fun hfree => hc.running_iff hfree, ?_⟩
  intro a t r hs hr c' q hq
  rcases reaped_step hs with heq | ⟨c, ok, p, z, -, on, at_, -, zombie, heq, -⟩
  · rw [heq] at hr
    simp at hr
  · rw [heq] at hr
    obtain rfl : _ = r := List.singleton_inj.mp (List.append_cancel_left hr)
    have hqz : q ≠ z := by
      rintro rfl
      exact hc.zombie_off on at_ zombie c' hq
    have hhold : s.holds c = true := by rw [holds_on on, at_]; rfl
    have on' : s.On c' q := by
      by_contra hno
      have hpc : (s.cpu c').pc ≠ .proc := fun hpc => hno (by rw [State.On, ← hq, ← hpc])
      have hback : (s.cpu c').pc = .back := by
        by_contra hb
        rw [hc.idle c' hpc hb] at hq
        cases hq
      have hcc := hc.lock.unique hhold (holds_back hback)
      subst hcc
      rw [State.On] at on
      rw [on] at hback
      cases hback
    exact ⟨hqz, hpage.disjoint hqz (hc.used_of_on on') (by rw [zombie]; rfl)⟩

end

def firstChild : Slot := ⟨1, by decide⟩

/-- After `fork`, init is on the CPU and its child, RUNNABLE, is not. -/
theorem scheduler_exclusivity_fork : ∃ s : State Unit, Reaches (forkExitWait.take 13) s ∧
    (s.state initproc = .running ∧ ∃! c, (s.cpu c).proc = some initproc) ∧
    s.state firstChild = .runnable ∧ ¬ ∃! c, (s.cpu c).proc = some firstChild := by
  obtain ⟨s, hs, hf⟩ : ∃ s : State Unit, Reaches (forkExitWait.take 13) s ∧
      (s.lock, s.state initproc, s.state firstChild) = (none, .running, .runnable) :=
    Run.of_exec_map (by decide +kernel)
  simp only [Prod.mk.injEq] at hf
  obtain ⟨hfree, hinit, hchild⟩ := hf
  have hrun := (scheduler_exclusivity hs).2.1 hfree
  refine ⟨s, hs, ⟨hinit, (hrun initproc).mp hinit⟩, hchild, fun hno => ?_⟩
  have h1 := (hrun firstChild).mpr hno
  rw [hchild] at h1
  cases h1

end BossOs.Proc
