import BossOs.Proc.Control

/-!
# Slots being filled in

Between `allocproc` and the last critical section of `fork`, the new slot belongs to
one process alone: it is an embryo, on no CPU, and nobody else fills it in.
-/

namespace BossOs.Proc

open Lib
open Function (update update_self update_of_ne)

variable {k : Pc}

namespace Pc

theorem acquires_child {k' : Pc} (h : k.acquires = some k') : k'.child = k.child := by
  cases k with
  | yield y k =>
    cases y <;> cases h
    rfl
  | _ => cases h <;> rfl

theorem releases_child {k' : Pc} (h : k.releases = some k') : k'.child = k.child := by
  cases k with
  | yield y k =>
    cases y <;> cases h
    rfl
  | allocRelease np =>
    cases np <;> cases h
    rfl
  | _ => cases h <;> rfl

theorem switches_child {k' : Pc} (h : k.switches = some k') : k'.child = k.child := by
  cases k with
  | yield y k =>
    cases y <;> cases h
    rfl
  | _ => cases h <;> rfl

end Pc

theorem Call.entry_child (k : Call) : k.entry.child = none := by
  cases k <;> rfl

section
variable {C : Type} {s t : State C} {c : C} {p : Slot}

theorem forkInv_boot : ForkInv (boot C) where
  embryo := fun p np n h => by cases h
  start := fun p np n h => by cases h
  inj := fun p p' np n n' h => by cases h

theorem ForkInv.of_child (h : ForkInv s) (H : ∀ q np n, (t.pc q).child = some (np, n) →
    (∃ m, (s.pc q).child = some (np, m)) ∧ t.state np = .embryo ∧
      (1 ≤ n → t.pc np = .forkret)) : ForkInv t := by
  refine ⟨fun q np n hq => (H q np n hq).2.1, fun q np n hq => (H q np n hq).2.2,
    fun q r np n n' hq hr => ?_⟩
  obtain ⟨m, hm⟩ := (H q np n hq).1
  obtain ⟨m', hm'⟩ := (H r np n' hr).1
  exact h.inj q r np m m' hm hm'

theorem ForkInv.move (h : ForkInv s) (hc : ControlInv s) (on : s.On c p)
    (hpc : t.pc = update s.pc p k) (hk : ∀ x, k.child = some x → (s.pc p).child = some x)
    (hst : ∀ q, s.state q = .embryo → t.state q = .embryo) : ForkInv t := by
  refine h.of_child fun q np n hq => ?_
  have hold : (s.pc q).child = some (np, n) := by
    rw [hpc] at hq
    by_cases hqp : q = p
    · subst hqp
      rw [update_self] at hq
      exact hk _ hq
    · rwa [update_of_ne hqp] at hq
  have hemb := h.embryo q np n hold
  refine ⟨⟨n, hold⟩, hst np hemb, fun hn => ?_⟩
  rw [hpc, update_of_ne (hc.ne_of_new on (Or.inr hemb))]
  exact h.start q np n hold hn

theorem ForkInv.found (h : ForkInv s) (hc : ControlInv s) (on : s.On c p) {np : Slot}
    (hnp : s.state np = .unused) (hpc : t.pc = update s.pc p (.allocRelease (some np)))
    (hst : t.state = update s.state np .embryo) : ForkInv t := by
  have hother : ∀ q ≠ p, t.pc q = s.pc q := fun q hq => by rw [hpc, update_of_ne hq]
  have hself : t.pc p = .allocRelease (some np) := by rw [hpc, update_self]
  have hne : ∀ q np' n, (s.pc q).child = some (np', n) → np' ≠ np := by
    rintro q np' n hq rfl
    rw [h.embryo q np' n hq] at hnp
    cases hnp
  refine ⟨fun q np' n hq => ?_, fun q np' n hq hn => ?_, fun q r np' n n' hq hr => ?_⟩
  · by_cases hqp : q = p
    · rw [hqp, hself] at hq
      cases hq
      rw [hst, update_self]
    · rw [hother q hqp] at hq
      rw [hst, update_of_ne (hne q np' n hq)]
      exact h.embryo q np' n hq
  · by_cases hqp : q = p
    · rw [hqp, hself] at hq
      cases hq
      cases hn
    · rw [hother q hqp] at hq
      have hemb := h.embryo q np' n hq
      rw [hother np' (hc.ne_of_new on (Or.inr hemb))]
      exact h.start q np' n hq hn
  · by_cases hqp : q = p <;> by_cases hrp : r = p
    · rw [hqp, hrp]
    · rw [hqp, hself] at hq
      rw [hother r hrp] at hr
      cases hq
      exact absurd rfl (hne r _ n' hr)
    · rw [hrp, hself] at hr
      rw [hother q hqp] at hq
      cases hr
      exact absurd rfl (hne q _ n hq)
    · rw [hother q hqp] at hq
      rw [hother r hrp] at hr
      exact h.inj q r np' n n' hq hr

theorem ForkInv.stage (h : ForkInv s) (hc : ControlInv s) (on : s.On c p) {np : Slot} {m n : Nat}
    (hp : (s.pc p).child = some (np, m)) (hk : k.child = some (np, n))
    (hself : t.pc p = k) (hnp : t.pc np = .forkret)
    (hpc : ∀ q ≠ p, q ≠ np → t.pc q = s.pc q) (hst : t.state = s.state) : ForkInv t := by
  refine h.of_child fun q np' n' hq => ?_
  rw [hst]
  by_cases hqp : q = p
  · rw [hqp] at hq ⊢
    rw [hself, hk] at hq
    cases hq
    exact ⟨⟨m, hp⟩, h.embryo p _ m hp, fun _ => hnp⟩
  · have hqn : q ≠ np := by
      rintro rfl
      rw [hnp] at hq
      cases hq
    rw [hpc q hqp hqn] at hq
    have hemb := h.embryo q np' n' hq
    have hne : np' ≠ np := by
      rintro rfl
      exact hqp (h.inj q p np' n' m hq hp)
    refine ⟨⟨n', hq⟩, hemb, fun hn => ?_⟩
    rw [hpc np' (hc.ne_of_new on (Or.inr hemb)) hne]
    exact h.start q np' n' hq hn

theorem ForkInv.finish (h : ForkInv s) (hc : ControlInv s) (on : s.On c p) {np : Slot} {m : Nat}
    (hp : (s.pc p).child = some (np, m)) (hpc : t.pc = update s.pc p k)
    (hk : k.child = none) {st : ProcState} (hst : t.state = update s.state np st) : ForkInv t := by
  refine h.of_child fun q np' n' hq => ?_
  have hqp : q ≠ p := by
    rintro rfl
    rw [hpc, update_self, hk] at hq
    cases hq
  rw [hpc, update_of_ne hqp] at hq
  have hne : np' ≠ np := by
    rintro rfl
    exact hqp (h.inj q p np' n' m hq hp)
  have hemb := h.embryo q np' n' hq
  refine ⟨⟨n', hq⟩, by rw [hst, update_of_ne hne, hemb], fun hn => ?_⟩
  rw [hpc, update_of_ne (hc.ne_of_new on (Or.inr hemb))]
  exact h.start q np' n' hq hn

theorem woken_embryo {a b : Slot → ProcState} (h : Woken a b) {q : Slot} (hq : a q = .embryo) :
    b q = .embryo := by
  rcases h q with hs | ⟨hs, _⟩
  · exact hs.trans hq
  · rw [hq] at hs
    cases hs

theorem ForkInv.same (h : ForkInv s) (hst : t.state = s.state) (hpc : t.pc = s.pc) : ForkInv t := by
  refine ⟨?_, ?_, ?_⟩
  · rw [hst, hpc]
    exact h.embryo
  · rw [hpc]
    exact h.start
  · rw [hpc]
    exact h.inj

variable [DecidableEq C]

theorem forkInv_step {a : Act C} (hc : ControlInv s) (h : ForkInv s) (hstep : step s a = some t) :
    ForkInv t := by
  -- a process on a CPU is no embryo, whatever state it gives itself
  have own : ∀ {c p} (on : s.On c p) (st : ProcState) q, s.state q = .embryo →
      update s.state p st q = .embryo := fun on st q hq =>
    (update_of_ne (hc.ne_of_new on (Or.inr hq)) _ _).trans hq
  cases step_moves hstep with
  | start c p k on at_ =>
    exact h.move hc on rfl (fun x hx => by rw [k.entry_child] at hx; cases hx) fun _ => id
  | timer c p on free calm => exact h.move hc on rfl (fun _ => id) fun _ => id
  | acquire c ok p k on at_ =>
    exact h.move hc on rfl (by rw [Pc.acquires_child at_]; exact fun _ => id) fun _ => id
  | release c ok p k on at_ =>
    exact h.move hc on rfl (by rw [Pc.releases_child at_]; exact fun _ => id) fun _ => id
  | switch c ok p k on at_ =>
    exact h.move hc on rfl (by rw [Pc.switches_child at_]; exact fun _ => id) fun _ => id
  | returns c ok p v on | noSlot c ok p on | waitNone c ok p on | killNone c ok p pid on
  | waitResume c ok p on | sleepResume c ok p on =>
    exact h.move hc on rfl (fun x hx => by cases hx) fun _ => id
  | waitSleep c ok p on | sleepSet c ok p addr on =>
    exact h.move hc on rfl (fun x hx => by cases hx) (own on _)
  | yieldSet c ok p k on at_ =>
    exact h.move hc on rfl (by rw [at_]; exact fun _ => id) (own on _)
  | found c ok p np on at_ unused => exact h.found hc on unused rfl rfl
  | kalloc c ok p np on at_ =>
    have hp : (s.pc p).child = some (np, 0) := by rw [at_]; rfl
    have hne := hc.ne_of_new on (Or.inr (h.embryo p np 0 hp))
    refine h.stage hc on hp rfl (update_self ..) ?_ (fun q hqp hqn => ?_) rfl
    · exact (update_of_ne hne _ _).trans (update_self ..)
    · exact (update_of_ne hqp _ _).trans (update_of_ne hqn _ _)
  | copy c ok p np on at_ =>
    have hp : (s.pc p).child = some (np, 1) := by rw [at_]; rfl
    have hne := hc.ne_of_new on (Or.inr (h.embryo p np 1 hp))
    refine h.stage hc on hp rfl (update_self ..) ?_ (fun q hqp _ => ?_) rfl
    · exact (update_of_ne hne _ _).trans (h.start p np 1 hp (by decide))
    · exact update_of_ne hqp _ _
  | setParent c ok p np on at_ =>
    have hp : (s.pc p).child = some (np, 2) := by rw [at_]; rfl
    have hne := hc.ne_of_new on (Or.inr (h.embryo p np 2 hp))
    refine h.stage hc on hp rfl (update_self ..) ?_ (fun q hqp _ => ?_) rfl
    · exact (update_of_ne hne _ _).trans (h.start p np 2 hp (by decide))
    · exact update_of_ne hqp _ _
  | kallocFail c ok p np on at_ =>
    exact h.finish (m := 0) hc on (by rw [at_]; rfl) rfl rfl rfl
  | copyFail c ok p np on at_ =>
    exact h.finish (m := 1) hc on (by rw [at_]; rfl) rfl rfl rfl
  | setRunnable c ok p np pid on at_ =>
    exact h.finish (m := 3) hc on (by rw [at_]; rfl) rfl rfl rfl
  | reap c ok p q on at_ child zombie =>
    refine h.move hc on rfl (fun x hx => by cases hx) fun r hr => ?_
    have hne : r ≠ q := by
      rintro rfl
      rw [hr] at zombie
      cases zombie
    exact (update_of_ne hne _ _).trans hr
  | exit c ok p on at_ =>
    obtain ⟨parent, state, heq, _, hwoken, _⟩ := exit_spec s p
    rw [heq]
    refine h.move hc on rfl (fun x hx => by cases hx) fun r hr => ?_
    exact (update_of_ne (hc.ne_of_new on (Or.inr hr)) _ _).trans (woken_embryo hwoken hr)
  | wake c ok p addr on at_ =>
    exact h.move hc on rfl (fun x hx => by cases hx) fun _ => woken_embryo (woken_wakeup1 _ _ _)
  | kill c ok p q pid on at_ hit =>
    exact h.move hc on rfl (fun x hx => by cases hx) fun _ => woken_embryo (woken_kill _ _)
  | initExits | zombieExit | schedAcquire | schedSkip | schedRelease | schedBack =>
    exact h.same rfl rfl
  | dispatch c ok q at_ runnable =>
    refine h.of_child fun r np n hr => ⟨⟨n, hr⟩, ?_, h.start r np n hr⟩
    have hemb := h.embryo r np n hr
    have hne : np ≠ q := by
      rintro rfl
      rw [hemb] at runnable
      cases runnable
    exact (update_of_ne hne _ _).trans hemb

end

end BossOs.Proc
