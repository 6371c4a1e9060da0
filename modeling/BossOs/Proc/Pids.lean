import BossOs.Proc.Family

/-!
# Process ids

A pid is given out once, as long as `nextpid` does not wrap around, and `wait` takes it
out of the table for good.
-/

namespace BossOs.Proc

open Lib
open Function (update update_self update_of_ne)

section
variable {C : Type}

structure PidInv (s : State C) : Prop where
  next : s.nextpid = wrap (s.allocs + 1)
  range : ∀ q, s.pid q = 0 ∨ 1 ≤ s.pid q ∧ s.pid q ≤ s.allocs
  inj : ∀ q r, s.pid q = s.pid r → s.pid q ≠ 0 → q = r
  live : ∀ q, s.state q ≠ .unused → s.pid q ≠ 0
  past : ∀ r ∈ s.reaped, 1 ≤ r.pid ∧ r.pid ≤ s.allocs
  gone : ∀ r ∈ s.reaped, ∀ q, s.pid q ≠ r.pid
  nodup : (s.reaped.map Reap.pid).Nodup

theorem pidInv_boot : PidInv (boot C) where
  next := by
    change (2 : Int) = wrap 2
    decide
  range := fun q => by
    change update (fun _ => (0 : Int)) initproc 1 q = 0 ∨
      1 ≤ update (fun _ => (0 : Int)) initproc 1 q ∧
        update (fun _ => (0 : Int)) initproc 1 q ≤ 1
    by_cases hq : q = initproc
    · rw [hq, update_self]
      decide
    · exact Or.inl (update_of_ne hq ..)
  inj := fun q r he hne => by
    change update (fun _ => (0 : Int)) initproc 1 q =
      update (fun _ => (0 : Int)) initproc 1 r at he
    change update (fun _ => (0 : Int)) initproc 1 q ≠ 0 at hne
    by_cases hq : q = initproc
    · by_cases hr : r = initproc
      · rw [hq, hr]
      · rw [he, update_of_ne hr] at hne
        exact absurd rfl hne
    · rw [update_of_ne hq] at hne
      exact absurd rfl hne
  live := fun q hq => by
    change update (fun _ => ProcState.unused) initproc .runnable q ≠ .unused at hq
    change update (fun _ => (0 : Int)) initproc 1 q ≠ 0
    by_cases hqi : q = initproc
    · rw [hqi, update_self]
      decide
    · rw [update_of_ne hqi] at hq
      exact absurd rfl hq
  past := fun r hr => by cases hr
  gone := fun r hr => by cases hr
  nodup := List.nodup_nil

variable {s t : State C}

theorem PidInv.same (h : PidInv s) (hnext : t.nextpid = s.nextpid) (hall : t.allocs = s.allocs)
    (hpid : t.pid = s.pid) (hreap : t.reaped = s.reaped)
    (hst : ∀ q, t.state q ≠ .unused → s.state q ≠ .unused) : PidInv t := by
  refine ⟨?_, ?_, ?_, fun q hq => ?_, ?_, ?_, ?_⟩
  · rw [hnext, hall]
    exact h.next
  · rw [hpid, hall]
    exact h.range
  · rw [hpid]
    exact h.inj
  · rw [hpid]
    exact h.live q (hst q hq)
  · rw [hreap, hall]
    exact h.past
  · rw [hreap, hpid]
    exact h.gone
  · rw [hreap]
    exact h.nodup

theorem wrap_of_lt {n : Nat} (h : n < 2 ^ 31) : wrap n = n := by
  rw [wrap, Int.bmod_eq_of_le] <;> omega

theorem PidInv.found (h : PidInv s) {np : Slot} (hfew : s.allocs + 1 < 2 ^ 31)
    (hst : t.state = update s.state np .embryo) (hpid : t.pid = update s.pid np s.nextpid)
    (hnext : t.nextpid = wrap (s.nextpid + 1)) (hall : t.allocs = s.allocs + 1)
    (hreap : t.reaped = s.reaped) : PidInv t := by
  have hnew : s.nextpid = s.allocs + 1 := by
    rw [h.next]
    exact wrap_of_lt hfew
  have hself : t.pid np = s.allocs + 1 := by rw [hpid, update_self, hnew]
  have hother : ∀ q ≠ np, t.pid q = s.pid q := fun q hq => by
    rw [hpid, update_of_ne hq]
  have hle : ∀ q, s.pid q ≤ s.allocs := fun q => by
    rcases h.range q with h0 | h1 <;> omega
  refine ⟨?_, fun q => ?_, fun q r he hne => ?_, fun q hq => ?_, fun r hr => ?_, fun r hr q => ?_, ?_⟩
  · rw [hnext, hall, hnew]
    push_cast
    rfl
  · rw [hall]
    by_cases hq : q = np
    · rw [hq, hself]
      exact Or.inr ⟨by omega, by push_cast; omega⟩
    · rw [hother q hq]
      exact (h.range q).imp_right fun hr => ⟨hr.1, by push_cast; omega⟩
  · by_cases hq : q = np <;> by_cases hr : r = np
    · rw [hq, hr]
    · rw [hq, hself, hother r hr] at he
      have := hle r
      omega
    · rw [hr, hself, hother q hq] at he
      have := hle q
      omega
    · rw [hother q hq] at he hne
      rw [hother r hr] at he
      exact h.inj q r he hne
  · by_cases hqn : q = np
    · rw [hqn, hself]
      omega
    · rw [hother q hqn]
      rw [hst, update_of_ne hqn] at hq
      exact h.live q hq
  · rw [hreap] at hr
    have := h.past r hr
    rw [hall]
    push_cast
    omega
  · rw [hreap] at hr
    by_cases hq : q = np
    · have := h.past r hr
      rw [hq, hself]
      omega
    · rw [hother q hq]
      exact h.gone r hr q
  · rw [hreap]
    exact h.nodup

theorem PidInv.reap (h : PidInv s) {q : Slot} {r : Reap} (hr : r.pid = s.pid q)
    (hq : s.state q ≠ .unused) (hst : t.state = update s.state q .unused)
    (hpid : t.pid = update s.pid q 0) (hnext : t.nextpid = s.nextpid)
    (hall : t.allocs = s.allocs) (hreap : t.reaped = s.reaped ++ [r]) : PidInv t := by
  have hne := h.live q hq
  have hrange : 1 ≤ r.pid ∧ r.pid ≤ s.allocs := by
    rw [hr]
    exact (h.range q).resolve_left hne
  have hself : t.pid q = 0 := by rw [hpid, update_self]
  have hother : ∀ z ≠ q, t.pid z = s.pid z := fun z hz => by
    rw [hpid, update_of_ne hz]
  refine ⟨by rw [hnext, hall]; exact h.next, fun z => ?_, fun z w he hz => ?_, fun z hz => ?_,
    fun x hx => ?_, fun x hx z => ?_, ?_⟩
  · rw [hall]
    by_cases hz : z = q
    · rw [hz]
      exact Or.inl hself
    · rw [hother z hz]
      exact h.range z
  · have hzq : z ≠ q := fun e => hz (e ▸ hself)
    have hwq : w ≠ q := fun e => hz (he.trans (e ▸ hself))
    rw [hother z hzq] at he hz
    rw [hother w hwq] at he
    exact h.inj z w he hz
  · have hzq : z ≠ q := by
      rintro rfl
      rw [hst, update_self] at hz
      exact hz rfl
    rw [hst, update_of_ne hzq] at hz
    rw [hother z hzq]
    exact h.live z hz
  · rw [hall]
    rw [hreap] at hx
    rcases List.mem_append.mp hx with hx | hx
    · exact h.past x hx
    · rw [List.mem_singleton.mp hx]
      exact hrange
  · rw [hreap] at hx
    rcases List.mem_append.mp hx with hx | hx
    · by_cases hz : z = q
      · have := h.past x hx
        rw [hz, hself]
        omega
      · rw [hother z hz]
        exact h.gone x hx z
    · rw [List.mem_singleton.mp hx]
      by_cases hz : z = q
      · rw [hz, hself]
        omega
      · rw [hother z hz, hr]
        exact fun he => hz (h.inj z q he (by rw [he]; exact hne))
  · rw [hreap, List.map_append, List.map_singleton]
    refine List.nodup_append.mpr ⟨h.nodup, List.nodup_singleton _, ?_⟩
    rintro x hx y hy rfl
    obtain ⟨w, hw, hwx⟩ := List.mem_map.mp hx
    rw [List.mem_singleton.mp hy, hr] at hwx
    exact h.gone w hw q hwx.symm

theorem Woken.unused {a b : Slot → ProcState} (h : Woken a b) (q : Slot) (hq : b q ≠ .unused) :
    a q ≠ .unused := by
  rcases h q with hs | ⟨hs, _⟩
  · rwa [← hs]
  · rw [hs]
    simp

theorem unused_update {state : Slot → ProcState} {p : Slot} {st : ProcState}
    (h : state p ≠ .unused ∨ st = .unused) (q : Slot)
    (hq : update state p st q ≠ .unused) : state q ≠ .unused := by
  by_cases hqp : q = p
  · subst hqp
    rw [update_self] at hq
    exact h.resolve_right hq
  · rwa [update_of_ne hqp] at hq

variable [DecidableEq C]

theorem allocs_mono {a : Act C} (hstep : step s a = some t) : s.allocs ≤ t.allocs := by
  cases step_moves hstep with
  | found => exact Nat.le_succ _
  | _ => exact le_rfl

theorem pidInv_step {a : Act C} (hc : ControlInv s) (hf : ForkInv s) (h : PidInv s)
    (hfew : t.allocs < 2 ^ 31)
    (hstep : step s a = some t) : PidInv t := by
  cases step_moves hstep with
  | found c ok p np on at_ unused => exact h.found hfew rfl rfl rfl rfl rfl
  | reap c ok p q on at_ child zombie =>
    exact h.reap (r := ⟨p, q, s.pid q, s.kstack q, s.pgdir q⟩) rfl (by rw [zombie]; simp) rfl rfl rfl
      rfl rfl
  | exit c ok p on at_ =>
    obtain ⟨parent, state, heq, _, hwoken, _⟩ := exit_spec s p
    have hrun := hc.state_of on at_ rfl
    rw [heq]
    refine h.same rfl rfl rfl rfl fun q hq => hwoken.unused q (unused_update (Or.inl ?_) q hq)
    rcases hwoken p with hs | ⟨hs, _⟩
    · rw [hs, hrun]
      simp [Pc.here]
    · rw [hs] at hrun
      cases hrun
  | wake c ok p addr on at_ => exact h.same rfl rfl rfl rfl (woken_wakeup1 _ _ _).unused
  | kill c ok p q pid on at_ hit => exact h.same rfl rfl rfl rfl (woken_kill _ _).unused
  | waitSleep c ok p on at_ | sleepSet c ok p addr on at_ | yieldSet c ok p k on at_ =>
    refine h.same rfl rfl rfl rfl (unused_update (Or.inl ?_))
    rw [hc.state_of on at_ rfl]
    simp [Pc.here]
  | kallocFail c ok p np on at_ | copyFail c ok p np on at_ =>
    exact h.same rfl rfl rfl rfl (unused_update (Or.inr rfl))
  | setRunnable c ok p np pid on at_ =>
    refine h.same rfl rfl rfl rfl (unused_update (Or.inl ?_))
    rw [hf.embryo p np 3 (by rw [at_]; rfl)]
    simp
  | dispatch c ok q at_ runnable =>
    refine h.same rfl rfl rfl rfl (unused_update (Or.inl ?_))
    rw [runnable]
    simp
  | start | initExits | timer | acquire | release | returns | switch | noSlot | kalloc | copy
  | setParent | zombieExit | waitNone | waitResume | sleepResume | killNone | schedAcquire
  | schedSkip | schedRelease | schedBack =>
    exact h.same rfl rfl rfl rfl fun _ => id

end

end BossOs.Proc
