import BossOs.Log.Steps

/-!
# The admission protocol of `begin_op` and `end_op`

Who holds which lock, how `outstanding` counts the open operations, and why no
sleeper is forgotten: a process asleep on `&log` either still has to wait, or some
process is on its way to the `wakeup` and holds `log.lock` until then.
-/

namespace BossOs.Log

open Lib
open Function (update update_of_ne update_self)

variable {P : Type}

variable {k : Pc}

namespace Pc

def holdsLog : Pc → Bool
  | .beginTest | .beginRelease | .sleepAcquire | .sleepRelease | .logAppend _ | .logRelease _
  | .endCount | .endWakeAcquire | .endWake | .endRelease _
  | .doneClear | .doneWakeAcquire | .doneWake | .doneRelease => true
  | _ => false

def holdsPtable : Pc → Bool
  | .sleepRelease | .sleepSet | .sleepTidy | .endWake | .doneWake => true
  | _ => false

def inTrans : Pc → Bool
  | .beginRelease | .inOp | .logCheck _ | .logAcquire _ | .logAppend _ | .logRelease _
  | .endAcquire | .endCount => true
  | _ => false

def commits : Pc → Bool
  | .endRelease true | .commitTest | .writeLog _ | .writeHead | .installTrans _ | .clearN
  | .eraseHead | .doneAcquire | .doneClear => true
  | _ => false

def cleared : Pc → Bool
  | .eraseHead | .doneAcquire | .doneClear => true
  | _ => false

def dozing : Pc → Bool
  | .sleepAcquire | .sleepRelease => true
  | _ => false

def sleeps : Pc → Bool
  | .sleepSet | .asleep => true
  | _ => false

def waking : Pc → Bool
  | .endWakeAcquire | .endWake | .doneWakeAcquire | .doneWake => true
  | _ => false

theorem commits_of_cleared (h : k.cleared = true) : k.commits = true := by
  cases k <;> first | rfl | cases h

theorem holdsLog_of_dozing (h : k.dozing = true) : k.holdsLog = true := by
  cases k <;> first | rfl | cases h

theorem holdsLog_of_waking (h : k.waking = true) : k.holdsLog = true := by
  cases k <;> first | rfl | cases h

theorem holdsPtable_of_sleeps (h : k.sleeps = true) (ha : k ≠ .asleep) : k.holdsPtable = true := by
  cases k <;> first | exact absurd rfl ha | rfl | cases h

variable {k' : Pc}

theorem acquires_spec (h : k.acquires = some k') :
    k'.holdsLog = true ∧ k'.holdsPtable = k.holdsPtable ∧ k'.inTrans = k.inTrans ∧
      k'.commits = k.commits ∧ k'.cleared = k.cleared ∧ k'.dozing = false ∧ k'.sleeps = false ∧
      k.waking = false := by
  cases k <;> cases h <;> exact ⟨rfl, rfl, rfl, rfl, rfl, rfl, rfl, rfl⟩

theorem acquiresPtable_spec (h : k.acquiresPtable = some k') :
    k'.holdsLog = k.holdsLog ∧ k'.holdsPtable = true ∧ k'.inTrans = k.inTrans ∧
      k'.commits = k.commits ∧ k'.cleared = false ∧ k'.dozing = k.dozing ∧ k'.sleeps = false ∧
      k'.waking = k.waking := by
  cases k <;> cases h <;> exact ⟨rfl, rfl, rfl, rfl, rfl, rfl, rfl, rfl⟩

theorem releases_spec (h : k.releases = some k') :
    k.holdsLog = true ∧ k'.holdsLog = false ∧ k'.holdsPtable = k.holdsPtable ∧
      k'.inTrans = k.inTrans ∧ k'.commits = k.commits ∧ k'.cleared = false ∧ k'.dozing = false ∧
      k'.sleeps = k.dozing ∧ k.waking = false := by
  cases k with
  | endRelease c =>
    cases h
    cases c <;> exact ⟨rfl, rfl, rfl, rfl, rfl, rfl, rfl, rfl, rfl⟩
  | _ => cases h <;> exact ⟨rfl, rfl, rfl, rfl, rfl, rfl, rfl, rfl, rfl⟩

theorem releasesPtable_spec (h : k.releasesPtable = some k') :
    k'.holdsLog = k.holdsLog ∧ k.holdsPtable = true ∧ k'.holdsPtable = false ∧
      k'.inTrans = k.inTrans ∧ k'.commits = k.commits ∧ k'.cleared = false ∧ k'.dozing = false ∧
      k'.sleeps = k.sleeps ∧ k.waking = false := by
  cases k <;> cases h <;> exact ⟨rfl, rfl, rfl, rfl, rfl, rfl, rfl, rfl, rfl⟩

theorem wakes_spec (h : k.wakes = some k') :
    k'.holdsLog = k.holdsLog ∧ k.holdsPtable = true ∧ k'.holdsPtable = false ∧
      k'.inTrans = k.inTrans ∧ k'.commits = k.commits ∧ k'.cleared = false ∧ k'.dozing = false ∧
      k'.sleeps = false ∧ k ≠ .asleep := by
  cases k <;> cases h <;> exact ⟨rfl, rfl, rfl, rfl, rfl, rfl, rfl, rfl, by simp⟩

end Pc

theorem wakeup1_eq_map (pc : P → Pc) :
    wakeup1 pc = fun q => (fun k => if k = Pc.asleep then Pc.runnable else k) (pc q) := rfl

theorem wakeup1_agree {β : Type*} {at_ : Pc → β} (h : at_ .asleep = at_ .runnable) (k : Pc) :
    at_ (if k = Pc.asleep then Pc.runnable else k) = at_ k := by
  split
  · rename_i hk
    rw [hk, h]
  · rfl

variable {pc : P → Pc}

theorem holds_wakeup1 {holder : Option P} {at_ : Pc → Bool}
    (h : Holds holder at_ pc) (ha : at_ .asleep = at_ .runnable) : Holds holder at_ (wakeup1 pc) := by
  rw [wakeup1_eq_map]
  exact h.map _ (wakeup1_agree ha)

theorem counts_wakeup1 {n : Int} {at_ : Pc → Bool}
    (h : Counts n at_ pc) (ha : at_ .asleep = at_ .runnable) : Counts n at_ (wakeup1 pc) := by
  rw [wakeup1_eq_map]
  exact h.map _ (wakeup1_agree ha)

variable {p : P}

theorem wakeup1_apply_of_ne (h : pc p ≠ .asleep) : wakeup1 pc p = pc p := by
  simp [wakeup1, h]

structure Inv (s : State P) : Prop where
  lock : Holds s.lock Pc.holdsLog s.pc
  ptable : Holds s.ptable Pc.holdsPtable s.pc
  count : Counts s.outstanding Pc.inTrans s.pc
  commit : ∃ c : Option P, Holds c Pc.commits s.pc ∧ (s.committing = true ↔ c.isSome)
  quiet : s.committing = true → s.outstanding = 0
  empty : s.committing = false → s.outstanding = 0 → s.lh = []
  cleared : ∀ q, (s.pc q).cleared = true → s.lh = []
  dozing : ∀ q, (s.pc q).dozing = true → s.mustWait = true
  sleeps : ∀ q, (s.pc q).sleeps = true → s.mustWait = true ∨ ∃ r, (s.pc r).waking = true
  noPanic : s.stop ≠ some .logCommitting ∧ s.stop ≠ some .outsideTrans

theorem inv_init (d : Nat → Block) : Inv (init P d) where
  lock := fun q => by simp [init, Pc.holdsLog]
  ptable := fun q => by simp [init, Pc.holdsPtable]
  count := Counts.zero fun _ => rfl
  commit := ⟨none, fun q => by simp [init, Pc.commits], by simp [init]⟩
  quiet := fun h => by simp [init] at h
  empty := fun _ _ => rfl
  cleared := fun _ _ => rfl
  dozing := fun q h => by simp [init, Pc.dozing] at h
  sleeps := fun q h => by simp [init, Pc.sleeps] at h
  noPanic := by simp [init]

theorem committing_of_inTrans {s : State P} (hi : Inv s) (hp : (s.pc p).inTrans = true) :
    s.committing = false := by
  cases hc : s.committing with
  | false => rfl
  | true =>
    have h1 := hi.count.pos hp
    have h0 := hi.quiet hc
    omega

theorem committing_of_commits {s : State P} (hi : Inv s) (hp : (s.pc p).commits = true) :
    s.committing = true := by
  obtain ⟨c, hc, hcom⟩ := hi.commit
  rw [hcom, hc.eq_of_at hp]
  rfl

theorem mustWait_iff {s : State P} : s.mustWait = true ↔
    s.committing = true ∨ (s.lh.length : Int) + (s.outstanding + 1) * 10 > 30 := by
  rw [State.mustWait, Bool.or_eq_true, decide_eq_true_eq]
  rfl

theorem mustWait_mono {s t : State P} (hc : s.committing = true → t.committing = true)
    (hn : s.lh.length ≤ t.lh.length) (ho : s.outstanding ≤ t.outstanding)
    (h : s.mustWait = true) : t.mustWait = true := by
  rcases mustWait_iff.mp h with h | h
  · exact mustWait_iff.mpr (Or.inl (hc h))
  · exact mustWait_iff.mpr (Or.inr (by omega))

theorem mustWait_of_committing {s : State P} (h : s.committing = true) : s.mustWait = true := by
  exact mustWait_iff.mpr (Or.inl h)

theorem length_le_append (lh : List Nat) (b : Nat) :
    lh.length ≤ (if b ∈ lh then lh else lh ++ [b]).length := by
  split <;> simp

theorem mustWait_of_asleep {s : State P} (hi : Inv s) (hl : s.lock = none) {q : P}
    (hq : s.pc q = .asleep) :
    s.mustWait = true := by
  rcases hi.sleeps q (by rw [hq]; rfl) with h | ⟨r, hr⟩
  · exact h
  · have hnone := hi.lock
    rw [hl] at hnone
    have hr' := hnone.not_at r
    rw [Pc.holdsLog_of_waking hr] at hr'
    cases hr'

variable [DecidableEq P] {g : Geometry} {s t : State P} {a : Act P}

theorem at_wake {β : Type*} (at_ : Pc → β) (ha : at_ .asleep = at_ .runnable)
    (hne : pc p ≠ .asleep) (hk : at_ k = at_ (pc p)) (q : P) :
    at_ (update (wakeup1 pc) p k q) = at_ (pc q) := by
  have hk' : at_ k = at_ (wakeup1 pc p) := by rw [wakeup1_apply_of_ne hne, hk]
  rw [at_update at_ hk' q, wakeup1_eq_map]
  exact wakeup1_agree ha _

section
variable (hi : Inv s)
include hi

theorem lock_step (h : Moves g s a t) : Holds t.lock Pc.holdsLog t.pc := by
  cases h with
  | acquire p k at_ free =>
    have hl := hi.lock
    rw [free] at hl
    exact hl.take (Pc.acquires_spec at_).1
  | acquirePtable p k at_ => exact hi.lock.move (Pc.acquiresPtable_spec at_).1
  | release p k at_ =>
    obtain ⟨hp, hk, _⟩ := Pc.releases_spec at_
    exact hi.lock.drop hp hk
  | releasePtable p k at_ => exact hi.lock.move (Pc.releasesPtable_spec at_).1
  | wake p k at_ =>
    have hw := Pc.wakes_spec at_
    apply (holds_wakeup1 hi.lock rfl).move
    rw [wakeup1_apply_of_ne hw.2.2.2.2.2.2.2.2]
    exact hw.1
  | logRelease p b at_ => exact hi.lock.drop (by rw [at_]; rfl) rfl
  | tooBig | outsideTrans | overrun | logCommitting => exact hi.lock
  | begin p at_ | write p b v at_ | finish p at_ | kill p at_ | wait p at_ | enter p at_
  | check p b at_ | append p b at_ | last p at_ | notLast p at_ | commit p at_ | skip p at_
  | writeLog p tail at_ | logged p tail at_ | writeHead p at_ | install p tail at_
  | installed p tail at_ | clearN p at_ | eraseHead p at_ | doneClear p at_ =>
    exact hi.lock.move (by rw [at_]; rfl)

theorem ptable_step (h : Moves g s a t) : Holds t.ptable Pc.holdsPtable t.pc := by
  cases h with
  | acquirePtable p k at_ free =>
    have hl := hi.ptable
    rw [free] at hl
    exact hl.take (Pc.acquiresPtable_spec at_).2.1
  | acquire p k at_ => exact hi.ptable.move (Pc.acquires_spec at_).2.1
  | release p k at_ => exact hi.ptable.move (Pc.releases_spec at_).2.2.1
  | releasePtable p k at_ =>
    obtain ⟨_, hp, hk, _⟩ := Pc.releasesPtable_spec at_
    exact hi.ptable.drop hp hk
  | wake p k at_ =>
    obtain ⟨_, hp, hk, _, _, _, _, _, hne⟩ := Pc.wakes_spec at_
    apply (holds_wakeup1 hi.ptable rfl).drop _ hk
    rw [wakeup1_apply_of_ne hne]
    exact hp
  | tooBig | outsideTrans | overrun | logCommitting => exact hi.ptable
  | begin p at_ | write p b v at_ | finish p at_ | kill p at_ | wait p at_ | enter p at_
  | check p b at_ | append p b at_ | logRelease p b at_ | last p at_ | notLast p at_ | commit p at_
  | skip p at_ | writeLog p tail at_ | logged p tail at_ | writeHead p at_ | install p tail at_
  | installed p tail at_ | clearN p at_ | eraseHead p at_ | doneClear p at_ =>
    exact hi.ptable.move (by rw [at_]; rfl)

theorem count_step (h : Moves g s a t) : Counts t.outstanding Pc.inTrans t.pc := by
  cases h with
  | logCommitting p at_ com =>
    have hc := committing_of_inTrans hi (p := p) (by rw [at_]; rfl)
    rw [hc] at com
    cases com
  | tooBig | outsideTrans | overrun => exact hi.count
  | acquire p k at_ => exact hi.count.move (Pc.acquires_spec at_).2.2.1
  | acquirePtable p k at_ => exact hi.count.move (Pc.acquiresPtable_spec at_).2.2.1
  | release p k at_ => exact hi.count.move (Pc.releases_spec at_).2.2.2.1
  | releasePtable p k at_ => exact hi.count.move (Pc.releasesPtable_spec at_).2.2.2.1
  | wake p k at_ =>
    obtain ⟨_, _, _, hk, _, _, _, _, hne⟩ := Pc.wakes_spec at_
    apply (counts_wakeup1 hi.count rfl).move
    rw [wakeup1_apply_of_ne hne]
    exact hk
  | enter p at_ => exact hi.count.enter (by rw [at_]; rfl) rfl
  | last p at_ | notLast p at_ => exact hi.count.leave (by rw [at_]; rfl) rfl
  | begin p at_ | write p b v at_ | finish p at_ | kill p at_ | wait p at_ | check p b at_
  | append p b at_ | logRelease p b at_ | commit p at_ | skip p at_ | writeLog p tail at_
  | logged p tail at_ | writeHead p at_ | install p tail at_ | installed p tail at_ | clearN p at_
  | eraseHead p at_ | doneClear p at_ =>
    exact hi.count.move (by rw [at_]; rfl)

theorem commit_step (h : Moves g s a t) :
    ∃ c : Option P, Holds c Pc.commits t.pc ∧ (t.committing = true ↔ c.isSome) := by
  obtain ⟨c, hc, hcom⟩ := hi.commit
  cases h with
  | acquire p k at_ => exact ⟨c, hc.move (Pc.acquires_spec at_).2.2.2.1, hcom⟩
  | acquirePtable p k at_ => exact ⟨c, hc.move (Pc.acquiresPtable_spec at_).2.2.2.1, hcom⟩
  | release p k at_ => exact ⟨c, hc.move (Pc.releases_spec at_).2.2.2.2.1, hcom⟩
  | releasePtable p k at_ => exact ⟨c, hc.move (Pc.releasesPtable_spec at_).2.2.2.2.1, hcom⟩
  | wake p k at_ =>
    obtain ⟨_, _, _, _, hk, _, _, _, hne⟩ := Pc.wakes_spec at_
    refine ⟨c, (holds_wakeup1 hc rfl).move ?_, hcom⟩
    rw [wakeup1_apply_of_ne hne]
    exact hk
  | last p at_ com =>
    have hn : c = none := by
      cases c with
      | none => rfl
      | some q => simp [com] at hcom
    subst hn
    exact ⟨some p, hc.take rfl, by simp [State.goto]⟩
  | doneClear p at_ => exact ⟨none, hc.drop (by rw [at_]; rfl) rfl, by simp [State.goto]⟩
  | tooBig | outsideTrans | overrun | logCommitting => exact ⟨c, hc, hcom⟩
  | begin p at_ | write p b v at_ | finish p at_ | kill p at_ | wait p at_ | enter p at_
  | check p b at_ | append p b at_ | logRelease p b at_ | notLast p at_ | commit p at_ | skip p at_
  | writeLog p tail at_ | logged p tail at_ | writeHead p at_ | install p tail at_
  | installed p tail at_ | clearN p at_ | eraseHead p at_ =>
    exact ⟨c, hc.move (by rw [at_]; rfl), hcom⟩

theorem quiet_step (h : Moves g s a t) : t.committing = true → t.outstanding = 0 := by
  intro hc
  cases h with
  | enter p at_ may =>
    have hc' : s.committing = true := hc
    simp [State.mustWait, hc'] at may
  | last p at_ com one =>
    change s.outstanding - 1 = 0
    omega
  | notLast p at_ com =>
    have hc' : s.committing = true := hc
    rw [com] at hc'
    cases hc'
  | logCommitting p at_ com =>
    have hc' := committing_of_inTrans hi (p := p) (by rw [at_]; rfl)
    rw [com] at hc'
    cases hc'
  | doneClear p at_ => cases hc
  | _ => exact hi.quiet hc

theorem empty_step (h : Moves g s a t) :
    t.committing = false → t.outstanding = 0 → t.lh = [] := by
  intro hc h0
  cases h with
  | enter p at_ =>
    have hn := hi.count.nonneg
    have h0' : s.outstanding + 1 = 0 := h0
    omega
  | append p b at_ =>
    have hp := hi.count.pos (p := p) (by rw [at_]; rfl)
    have h0' : s.outstanding = 0 := h0
    omega
  | last p at_ com one => cases hc
  | notLast p at_ com more =>
    have h0' : s.outstanding - 1 = 0 := h0
    omega
  | logCommitting p at_ com =>
    have hc' : s.committing = false := hc
    rw [com] at hc'
    cases hc'
  | clearN => rfl
  | doneClear p at_ => exact hi.cleared p (by rw [at_]; rfl)
  | _ => exact hi.empty hc h0

theorem cleared_step (h : Moves g s a t) :
    ∀ q, (t.pc q).cleared = true → t.lh = [] := by
  cases h with
  | acquire p k at_ =>
    apply forall_at_update _ hi.cleared
    rw [(Pc.acquires_spec at_).2.2.2.2.1]
    exact hi.cleared p
  | acquirePtable p k at_ =>
    apply forall_at_update _ hi.cleared
    simp [(Pc.acquiresPtable_spec at_).2.2.2.2.1]
  | release p k at_ =>
    apply forall_at_update _ hi.cleared
    simp [(Pc.releases_spec at_).2.2.2.2.2.1]
  | releasePtable p k at_ =>
    apply forall_at_update _ hi.cleared
    simp [(Pc.releasesPtable_spec at_).2.2.2.2.2.1]
  | wake p k at_ =>
    apply forall_at_update
    · simp [(Pc.wakes_spec at_).2.2.2.2.2.1]
    · intro q hq
      rw [wakeup1_eq_map] at hq
      exact hi.cleared q ((wakeup1_agree rfl _).symm.trans hq)
  | append p b at_ =>
    -- the process that logs is counted, so nobody is committing
    have hnc := committing_of_inTrans hi (p := p) (by rw [at_]; rfl)
    refine forall_at_update (fun hk => by cases hk) fun q hq => ?_
    have hc := committing_of_commits hi (Pc.commits_of_cleared hq)
    rw [hnc] at hc
    cases hc
  | skip p at_ empty => exact fun _ _ => empty
  | clearN => exact fun _ _ => rfl
  | eraseHead p at_ => exact fun _ _ => hi.cleared p (by rw [at_]; rfl)
  | tooBig | outsideTrans | overrun | logCommitting => exact hi.cleared
  | _ => exact forall_at_update (by simp [Pc.cleared]) hi.cleared

theorem dozing_step (h : Moves g s a t) :
    ∀ q, (t.pc q).dozing = true → t.mustWait = true := by
  have holds : ∀ {p q : P}, (s.pc p).holdsLog = true → (s.pc p).dozing = false →
      (s.pc q).dozing = true → False := by
    intro p q hp hpd hq
    have hql : (s.pc q).holdsLog = true := Pc.holdsLog_of_dozing hq
    rw [hi.lock.unique hp hql, hq] at hpd
    cases hpd
  cases h with
  | acquire p k at_ =>
    exact forall_at_update (by simp [(Pc.acquires_spec at_).2.2.2.2.2.1]) hi.dozing
  | acquirePtable p k at_ =>
    refine forall_at_update ?_ hi.dozing
    rw [(Pc.acquiresPtable_spec at_).2.2.2.2.2.1]
    exact hi.dozing p
  | release p k at_ =>
    exact forall_at_update (by simp [(Pc.releases_spec at_).2.2.2.2.2.2.1]) hi.dozing
  | releasePtable p k at_ =>
    exact forall_at_update (by simp [(Pc.releasesPtable_spec at_).2.2.2.2.2.2.1]) hi.dozing
  | wake p k at_ =>
    refine forall_at_update (by simp [(Pc.wakes_spec at_).2.2.2.2.2.2.1]) fun q hq => ?_
    rw [wakeup1_eq_map] at hq
    exact hi.dozing q ((wakeup1_agree rfl _).symm.trans hq)
  | wait p at_ must => exact fun _ _ => must
  | enter p at_ =>
    refine forall_at_update (fun hk => by cases hk) fun q hq => ?_
    exact (holds (by rw [at_]; rfl) (by rw [at_]; rfl) hq).elim
  | append p b at_ =>
    refine forall_at_update (fun hk => by cases hk) fun q hq => ?_
    exact (holds (by rw [at_]; rfl) (by rw [at_]; rfl) hq).elim
  | last p at_ => exact fun _ _ => mustWait_of_committing rfl
  | notLast p at_ =>
    refine forall_at_update (fun hk => by cases hk) fun q hq => ?_
    exact (holds (by rw [at_]; rfl) (by rw [at_]; rfl) hq).elim
  | logCommitting p at_ com => exact fun _ _ => mustWait_of_committing com
  | clearN p at_ =>
    have hc := committing_of_commits hi (p := p) (by rw [at_]; rfl)
    exact fun _ _ => mustWait_of_committing hc
  | doneClear p at_ =>
    refine forall_at_update (fun hk => by cases hk) fun q hq => ?_
    exact (holds (by rw [at_]; rfl) (by rw [at_]; rfl) hq).elim
  | tooBig | outsideTrans | overrun => exact hi.dozing
  | _ => exact forall_at_update (fun hk => by cases hk) hi.dozing

theorem sleeps_move (hm : s.mustWait = true → t.mustWait = true)
    (hpc : t.pc = update s.pc p k) (hw : (s.pc p).waking = false ∨ k.waking = true)
    (hk : k.sleeps = true → s.mustWait = true ∨ (s.pc p).sleeps = true) :
    ∀ q, (t.pc q).sleeps = true → t.mustWait = true ∨ ∃ r, (t.pc r).waking = true := by
  have keep : (s.mustWait = true ∨ ∃ r, (s.pc r).waking = true) →
      t.mustWait = true ∨ ∃ r, (t.pc r).waking = true := by
    rintro (h | ⟨r, hr⟩)
    · exact Or.inl (hm h)
    · refine Or.inr ⟨r, ?_⟩
      rw [hpc]
      by_cases hrp : r = p
      · subst hrp
        rw [update_self]
        simpa [hr] using hw
      · rwa [update_of_ne hrp]
  rw [hpc]
  rw [hpc] at keep
  refine forall_at_update (fun h => keep ?_) fun q hq => keep (hi.sleeps q hq)
  rcases hk h with h | h
  · exact Or.inl h
  · exact hi.sleeps p h

theorem no_sleeper_of_wakes (at_ : (s.pc p).wakes = some k) (q : P) :
    (update (wakeup1 s.pc) p k q).sleeps = false := by
  obtain ⟨_, hp, _, _, _, _, _, hs, _⟩ := Pc.wakes_spec at_
  by_cases hqp : q = p
  · subst hqp
    rw [update_self, hs]
  · rw [update_of_ne hqp]
    by_cases ha : s.pc q = .asleep
    · simp [wakeup1, ha, Pc.sleeps]
    · rw [wakeup1_apply_of_ne ha]
      cases hq : (s.pc q).sleeps with
      | false => rfl
      | true => exact absurd (hi.ptable.unique (Pc.holdsPtable_of_sleeps hq ha) hp) hqp

theorem sleeps_step (h : Moves g s a t) :
    ∀ q, (t.pc q).sleeps = true → t.mustWait = true ∨ ∃ r, (t.pc r).waking = true := by
  cases h with
  | acquire p k at_ =>
    obtain ⟨_, _, _, _, _, _, hs, hw⟩ := Pc.acquires_spec at_
    exact sleeps_move hi id rfl (Or.inl hw) (by simp [hs])
  | acquirePtable p k at_ =>
    obtain ⟨_, _, _, _, _, _, hs, hw⟩ := Pc.acquiresPtable_spec at_
    refine sleeps_move hi id rfl ?_ (by simp [hs])
    rw [hw]
    exact (Bool.eq_false_or_eq_true _).symm
  | release p k at_ =>
    obtain ⟨_, _, _, _, _, _, _, hs, hw⟩ := Pc.releases_spec at_
    refine sleeps_move hi id rfl (Or.inl hw) fun hk => Or.inl (hi.dozing p ?_)
    rw [← hs]
    exact hk
  | releasePtable p k at_ =>
    obtain ⟨_, _, _, _, _, _, _, hs, hw⟩ := Pc.releasesPtable_spec at_
    refine sleeps_move hi id rfl (Or.inl hw) fun hk => Or.inr ?_
    rw [← hs]
    exact hk
  | wake p k at_ =>
    intro q hq
    have hno := no_sleeper_of_wakes hi at_ q
    change (update (wakeup1 s.pc) p k q).sleeps = true at hq
    rw [hno] at hq
    cases hq
  | enter p at_ =>
    refine sleeps_move hi (mustWait_mono id le_rfl ?_) rfl (Or.inl (by rw [at_]; rfl))
      (fun h => by cases h)
    change s.outstanding ≤ s.outstanding + 1
    omega
  | append p b at_ =>
    exact sleeps_move hi (mustWait_mono id (length_le_append _ _) le_rfl) rfl
      (Or.inl (by rw [at_]; rfl)) (fun h => by cases h)
  | last p at_ => exact fun _ _ => Or.inl (mustWait_of_committing rfl)
  | notLast p at_ => exact fun _ _ => Or.inr ⟨p, by simp [State.goto, Pc.waking]⟩
  | logCommitting p at_ com => exact fun _ _ => Or.inl (mustWait_of_committing com)
  | clearN p at_ =>
    have hc := committing_of_commits hi (p := p) (by rw [at_]; rfl)
    exact fun _ _ => Or.inl (mustWait_of_committing hc)
  | doneClear p at_ => exact fun _ _ => Or.inr ⟨p, by simp [State.goto, Pc.waking]⟩
  | tooBig | outsideTrans | overrun => exact hi.sleeps
  | begin p at_ | write p b v at_ | finish p at_ | kill p at_ | wait p at_ | check p b at_
  | logRelease p b at_ | commit p at_ | skip p at_ | writeLog p tail at_ | logged p tail at_
  | writeHead p at_ | install p tail at_ | installed p tail at_ | eraseHead p at_ =>
    exact sleeps_move hi id rfl (Or.inl (by rw [at_]; rfl)) (fun h => by cases h)

theorem noPanic_step (h : Moves g s a t) :
    t.stop ≠ some .logCommitting ∧ t.stop ≠ some .outsideTrans := by
  cases h with
  | tooBig | overrun => simp
  | outsideTrans p b at_ none_ =>
    have h1 := hi.count.pos (p := p) (by rw [at_]; rfl)
    omega
  | logCommitting p at_ com =>
    have hc := committing_of_inTrans hi (p := p) (by rw [at_]; rfl)
    rw [com] at hc
    cases hc
  | _ => exact hi.noPanic

theorem inv_step (h : step g s a = some t) : Inv t :=
  have hm := (step_moves h).2
  { lock := lock_step hi hm
    ptable := ptable_step hi hm
    count := count_step hi hm
    commit := commit_step hi hm
    quiet := quiet_step hi hm
    empty := empty_step hi hm
    cleared := cleared_step hi hm
    dozing := dozing_step hi hm
    sleeps := sleeps_step hi hm
    noPanic := noPanic_step hi hm }

end

def Reaches (g : Geometry) (d : Nat → Block) (acts : List (Act P)) (s : State P) : Prop :=
  Run (fun _ _ => True) (step g) (init P d) acts s

theorem inv_of_reaches {d : Nat → Block} {acts : List (Act P)} (h : Reaches g d acts s) : Inv s :=
  h.invariant (fun _ _ _ hi _ hs => inv_step hi hs) (inv_init d)

theorem admission_protocol {d : Nat → Block} {acts : List (Act P)} (h : Reaches g d acts s) :
    (s.committing = true → s.outstanding = 0 ∧ ∀ q, (s.pc q).inTrans = false) ∧
    s.stop ≠ some .logCommitting ∧ (s.outstanding = 0 → s.committing = false → s.lh = []) ∧
    (s.lock = none → ∀ q, s.pc q = .asleep → s.committing = true ∨
      (s.lh.length : Int) + (s.outstanding + 1) * MAXOPBLOCKS > LOGSIZE) ∧
    (s.lock = none → s.outstanding = 0 → s.committing = false → ∀ q, s.pc q ≠ .asleep) := by
  have hi := inv_of_reaches h
  refine ⟨fun hc => ⟨hi.quiet hc, ?_⟩, hi.noPanic.1, fun h0 hc => hi.empty hc h0, ?_, ?_⟩
  · have hcount := hi.count
    rw [hi.quiet hc] at hcount
    exact hcount.not_at
  · intro hl q hq
    exact mustWait_iff.mp (mustWait_of_asleep hi hl hq)
  · intro hl h0 hc q hq
    have hw := mustWait_iff.mp (mustWait_of_asleep hi hl hq)
    rw [hi.empty hc h0, hc, h0] at hw
    simp at hw

def threeAdmitted : List (Act (Fin 4)) :=
  [.begin 0, .run 0, .run 0, .run 0, .begin 1, .run 1, .run 1, .run 1,
    .begin 2, .run 2, .run 2, .run 2, .begin 3, .run 3, .run 3, .run 3, .run 3, .run 3]

theorem admission_protocol_fourth_sleeps : ∃ s : State (Fin 4),
    Reaches ⟨2, 30⟩ (fun _ => Bytes.zero) threeAdmitted s ∧ s.lock = none ∧ s.pc 3 = .asleep ∧
    (s.committing = true ∨ (s.lh.length : Int) + (s.outstanding + 1) * MAXOPBLOCKS > LOGSIZE) := by
  obtain ⟨s, hs, hf⟩ : ∃ s : State (Fin 4),
      Reaches ⟨2, 30⟩ (fun _ => Bytes.zero) threeAdmitted s ∧ (s.lock, s.pc 3) = (none, .asleep) :=
    Run.of_exec_map (by decide +kernel)
  simp only [Prod.mk.injEq] at hf
  exact ⟨s, hs, hf.1, hf.2, (admission_protocol hs).2.2.2.1 hf.1 3 hf.2⟩

end BossOs.Log
