import BossOs.Sync.Points

/-!
# Sleep-locks

`acquiresleep`, `releasesleep` and `holdingsleep` of `sleeplock.c` on one lock, called in
any order by any number of processes, except that only the process that has the lock
releases it. The inner spinlock `lk->lk` is the one lock of the code.
-/

namespace BossOs.Sync.SleepLock

open Lib
open Proc (ProcState)
open Function (update update_self update_of_ne)

structure Sleeplock where
  locked : Bool
  pid : Int
  deriving DecidableEq

def init : Sleeplock := ⟨false, 0⟩

def holdingsleep (lk : Sleeplock) (pid : Int) : Bool := lk.locked && decide (lk.pid = pid)

inductive Pc where
  | out | inside
  | acqAcquire (own : Bool) | acqTest (own : Bool) | acqSleep (own : Bool) | acqSet (own : Bool)
  | acqRelease
  | relAcquire | relSet | relWake | relRelease
  | holdAcquire (own : Bool) | holdRead (own : Bool) | holdRelease (own r : Bool)
  deriving DecidableEq

def Pc.back : Bool → Pc
  | true => .inside
  | false => .out

variable {P : Type} (pid : P → Int)

def instr (p : P) : Pc → Instr P Unit Unit Sleeplock Pc
  | .out | .inside => .idle
  | .acqAcquire own => .acquire (.of ()) (.acqTest own)
  | .acqTest own => .update fun lk => (if lk.locked then .acqSleep own else .acqSet own, lk)
  | .acqSleep own => .sleep () (.of ()) (.acqTest own)
  | .acqSet _ => .update fun _ => (.acqRelease, ⟨true, pid p⟩)
  | .acqRelease => .release (.of ()) .inside
  | .relAcquire => .acquire (.of ()) .relSet
  | .relSet => .update fun _ => (.relWake, ⟨false, 0⟩)
  | .relWake => .wakeup () .relRelease
  | .relRelease => .release (.of ()) .out
  | .holdAcquire own => .acquire (.of ()) (.holdRead own)
  | .holdRead own => .update fun lk => (.holdRelease own (holdingsleep lk (pid p)), lk)
  | .holdRelease own _ => .release (.of ()) (.back own)

def entries : Pc → List Pc
  | .out => [.acqAcquire false, .holdAcquire false]
  | .inside => [.acqAcquire true, .holdAcquire true, .relAcquire]
  | _ => []

def code : Code P Unit Unit Sleeplock Pc := ⟨instr pid, fun k k' => (entries k).contains k'⟩

def Pc.owns : Pc → Bool
  | .acqRelease | .inside | .relAcquire | .relSet => true
  | .acqAcquire own | .acqTest own | .acqSleep own | .acqSet own | .holdAcquire own
  | .holdRead own | .holdRelease own _ => own
  | .out | .relWake | .relRelease => false

def owns (s : State P Unit Unit Sleeplock Pc) (p : P) : Prop := (s.points p).owns = true

def Pc.locked : Pc → Bool
  | .out | .inside | .acqAcquire _ | .relAcquire | .holdAcquire _ => false
  | _ => true

def held (k : Pc) : Lock Unit → Bool := only () k.locked

def guard : Guard Unit Unit Sleeplock Pc where
  lk := ()
  knows
    | .acqSleep _, lk => lk.locked = true
    | .acqSet _, lk => lk.locked = false
    | _, _ => True
  waits _ lk := lk.locked = true
  owes
    | _, .relWake => true
    | _, _ => false

theorem entries_spec {k k' : Pc} (h : (entries k).contains k' = true) :
    held k' = held k ∧ (∀ lk, guard.knows k' lk) ∧ (∀ ch, guard.owes ch k = false) ∧
      k'.owns = k.owns ∧ ∀ own r, k' ≠ .holdRelease own r := by
  rw [List.contains_iff_mem] at h
  cases k with
  | out =>
    simp only [entries, List.mem_cons, List.not_mem_nil, or_false] at h
    rcases h with rfl | rfl <;>
      exact ⟨rfl, fun _ => trivial, fun _ => rfl, rfl, fun _ _ => Pc.noConfusion⟩
  | inside =>
    simp only [entries, List.mem_cons, List.not_mem_nil, or_false] at h
    rcases h with rfl | rfl | rfl <;>
      exact ⟨rfl, fun _ => trivial, fun _ => rfl, rfl, fun _ _ => Pc.noConfusion⟩
  | _ => cases h

theorem carries {k k' : Pc} (h : ∀ ch, guard.owes ch k = false) : guard.Carries k k' := by
  intro ch ho
  rw [h ch] at ho
  cases ho

theorem disciplined : Disciplined held (code pid) where
  instr := by
    intro p k
    cases k with
    | out | inside => trivial
    | acqAcquire | relAcquire | holdAcquire => exact disciplined_acquire rfl
    | acqRelease | relRelease => exact disciplined_release rfl
    | holdRelease own r => exact disciplined_release (by cases own <;> rfl)
    | acqSleep => exact disciplined_sleep rfl
    | relWake => exact disciplined_wakeup rfl
    | acqSet | relSet | holdRead => exact fun _ => rfl
    | acqTest own =>
      intro lk
      simp only
      split <;> rfl
  call := fun _ _ h => (entries_spec h).1

theorem guarded [DecidableEq P] : Guarded (fun _ _ => True) (code pid) held guard where
  disciplined := disciplined pid
  free := by
    intro k lk h
    cases k with
    | acqSleep | acqSet => cases h
    | _ => trivial
  call := fun _ _ h => ⟨(entries_spec h).2.1, carries (entries_spec h).2.2.1⟩
  sound := by
    intro s p k _ _ hk
    cases k with
    | out | inside => trivial
    | acqAcquire | relAcquire | holdAcquire =>
      exact ⟨fun _ => trivial, carries fun _ => rfl⟩
    | acqRelease | relRelease => exact ⟨trivial, carries fun _ => rfl⟩
    | holdRelease own r => exact ⟨by cases own <;> trivial, carries fun _ => rfl⟩
    | acqSleep own => exact ⟨rfl, hk, fun _ => trivial, carries fun _ => rfl⟩
    | relWake => exact ⟨trivial, fun _ _ => Or.inl rfl⟩
    | acqTest own =>
      refine ⟨rfl, ?_, carries fun _ => rfl, fun _ hw => Or.inl hw⟩
      simp only
      split
      · assumption
      · exact Bool.eq_false_of_not_eq_true ‹_›
    | acqSet own => exact ⟨rfl, trivial, carries fun _ => rfl, fun _ _ => Or.inl rfl⟩
    | relSet => exact ⟨rfl, trivial, carries fun _ => rfl, fun _ _ => Or.inr rfl⟩
    | holdRead own => exact ⟨rfl, trivial, carries fun _ => rfl, fun _ hw => Or.inl hw⟩

theorem prompt : Prompt (code pid) held guard where
  owes := by
    intro ch k h
    cases k with
    | relWake => rfl
    | _ => cases h
  wakeup := by
    intro p k ch k' h
    cases k with
    | relWake => rfl
    | _ => cases h
  sleep := by
    intro p k ch lk k' h ch'
    cases k with
    | acqSleep own =>
      cases h
      rfl
    | _ => cases h

variable {pid}

structure OwnerInv (pid : P → Int) (at_ : P → Pc) (lk : Sleeplock) : Prop where
  owner : ∀ p, (at_ p).owns = true → lk.locked = true ∧ lk.pid = pid p
  owned : lk.locked = true → ∃ p, (at_ p).owns = true
  told : ∀ p own r, at_ p = .holdRelease own r → r = own

section
variable {at_ : P → Pc} {lk : Sleeplock} (hpid : Function.Injective pid)
include hpid

theorem OwnerInv.holding (h : OwnerInv pid at_ lk) (p : P) :
    holdingsleep lk (pid p) = (at_ p).owns := by
  rw [Bool.eq_iff_iff]
  simp only [holdingsleep, Bool.and_eq_true, decide_eq_true_eq]
  constructor
  · rintro ⟨hl, hp⟩
    obtain ⟨q, hq⟩ := h.owned hl
    rwa [← hpid ((h.owner q hq).2.symm.trans hp)]
  · exact h.owner p

theorem OwnerInv.unique (h : OwnerInv pid at_ lk) {p q : P} (hp : (at_ p).owns = true)
    (hq : (at_ q).owns = true) : p = q :=
  hpid ((h.owner p hp).2.symm.trans (h.owner q hq).2)

end

section
variable [DecidableEq P] {at_ : P → Pc} {lk : Sleeplock} (hpid : Function.Injective pid)

theorem OwnerInv.move (h : OwnerInv pid at_ lk) {p : P} {k : Pc} (hk : k.owns = (at_ p).owns)
    (htold : ∀ own r, k = .holdRelease own r → r = own) : OwnerInv pid (update at_ p k) lk := by
  have howns := at_update Pc.owns hk
  refine ⟨fun q hq => h.owner q (howns q ▸ hq), fun hl => ?_, fun q own r hq => ?_⟩
  · obtain ⟨q, hq⟩ := h.owned hl
    exact ⟨q, (howns q).trans hq⟩
  · by_cases hqp : q = p
    · subst hqp
      rw [update_self] at hq
      exact htold own r hq
    · rw [update_of_ne hqp] at hq
      exact h.told q own r hq

theorem OwnerInv.set (h : OwnerInv pid at_ lk) {p : P} (hfree : lk.locked = false) :
    OwnerInv pid (update at_ p .acqRelease) ⟨true, pid p⟩ := by
  refine ⟨fun q hq => ?_, fun _ => ⟨p, by rw [update_self]; rfl⟩, fun q own r hq => ?_⟩
  · by_cases hqp : q = p
    · rw [hqp]
      exact ⟨rfl, rfl⟩
    · rw [update_of_ne hqp] at hq
      exact absurd ((h.owner q hq).1.symm.trans hfree) (by simp)
  · by_cases hqp : q = p
    · subst hqp
      rw [update_self] at hq
      cases hq
    · rw [update_of_ne hqp] at hq
      exact h.told q own r hq

include hpid in
theorem OwnerInv.clear (h : OwnerInv pid at_ lk) {p : P} (hp : (at_ p).owns = true) :
    OwnerInv pid (update at_ p .relWake) ⟨false, 0⟩ := by
  refine ⟨fun q hq => ?_, fun hl => Bool.noConfusion hl, fun q own r hq => ?_⟩ <;>
    by_cases hqp : q = p
  · subst hqp
    rw [update_self] at hq
    cases hq
  · rw [update_of_ne hqp] at hq
    exact absurd (h.unique hpid hq hp) hqp
  · subst hqp
    rw [update_self] at hq
    cases hq
  · rw [update_of_ne hqp] at hq
    exact h.told q own r hq

include hpid in
theorem ownerInv_step (h : OwnerInv pid at_ lk) {p : P} {b : Bool} {k k' : Pc} {lk' : Sleeplock}
    (hk : at_ p = k) (hknows : guard.knows k lk) (hl : Leads (code pid) p b k lk k' lk') :
    OwnerInv pid (update at_ p k') lk' := by
  have stay : ∀ {k'}, k'.owns = k.owns → (∀ own r, k' ≠ .holdRelease own r) →
      OwnerInv pid (update at_ p k') lk := fun ho hne =>
    h.move (ho.trans (congrArg Pc.owns hk.symm)) fun own r he => absurd he (hne own r)
  cases hl with
  | call k' at_ entry =>
    obtain ⟨-, -, -, ho, hne⟩ := entries_spec entry
    exact stay ho hne
  | acquire l k' at_ =>
    cases k with
    | acqAcquire | relAcquire | holdAcquire =>
      cases at_
      exact stay rfl fun _ _ => Pc.noConfusion
    | _ => cases at_
  | release l k' at_ =>
    cases k with
    | acqRelease | relRelease =>
      cases at_
      exact stay rfl fun _ _ => Pc.noConfusion
    | holdRelease own r =>
      cases at_
      cases own <;> exact stay rfl fun _ _ => Pc.noConfusion
    | _ => cases at_
  | sleep ch l k' at_ =>
    cases k with
    | acqSleep =>
      cases at_
      exact stay rfl fun _ _ => Pc.noConfusion
    | _ => cases at_
  | wakeup ch k' at_ =>
    cases k with
    | relWake =>
      cases at_
      exact stay rfl fun _ _ => Pc.noConfusion
    | _ => cases at_
  | wakeup1 ch k' at_ => cases k <;> cases at_
  | kill q k' at_ => cases k <;> cases at_
  | killed f at_ => cases k <;> cases at_
  | update f at_ =>
    cases k with
    | acqTest own =>
      cases at_
      simp only
      split <;> exact stay rfl fun _ _ => Pc.noConfusion
    | acqSet own =>
      cases at_
      exact h.set hknows
    | relSet =>
      cases at_
      exact h.clear hpid (by rw [hk]; rfl)
    | holdRead own =>
      cases at_
      refine h.move (by rw [hk]; rfl) fun own' r he => ?_
      cases he
      rw [h.holding hpid, hk]
      rfl
    | _ => cases at_

end

section
variable [DecidableEq P] {acts : List (Act P Pc)} {s : State P Unit Unit Sleeplock Pc}

theorem ownerInv_of_run (hpid : Function.Injective pid)
    (h : Run (fun _ _ => True) (step (code pid)) (start (fun _ => .out) init) acts s) :
    OwnerInv pid s.points s.data := by
  have hg : Guarded (fun _ _ => True) (code pid) held guard := guarded pid
  refine (Run.invariant (I := fun s => (SyncInv held s ∧ WakeInv guard s) ∧
    OwnerInv pid s.points s.data) ?_ h ⟨hg.initial (fun _ _ => rfl) init, ?_⟩).2
  · rintro s a t ⟨hw, ho⟩ hok hs
    refine ⟨hg.keeps hw hok hs, ?_⟩
    rcases points_step hs with ⟨hpt, hd⟩ | ⟨p, k, k', d', hp, hl, hpt, hd⟩
    · rwa [hpt, hd]
    · have hk := hw.2.relies p
      rw [hp] at hk
      rw [hpt, hd]
      exact ownerInv_step hpid ho (congrArg Thread.point hp) hk hl
  · exact ⟨fun _ h => Bool.noConfusion h, fun h => Bool.noConfusion h, fun _ _ _ h => Pc.noConfusion h⟩

theorem sleeplock_one_owner (hpid : Function.Injective pid)
    (h : Run (fun _ _ => True) (step (code pid)) (start (fun _ => .out) init) acts s) :
    (∀ p q, owns s p → owns s q → p = q) ∧ (∀ p, holdingsleep s.data (pid p) = true ↔ owns s p) ∧
    (∀ p own r, s.thread p = .run (.holdRelease own r) → (r = true ↔ owns s p)) ∧
    (∀ p, s.lock (.of ()) = none → s.state p = .sleeping → s.chan p = some () →
      s.data.locked = true) := by
  have hi := ownerInv_of_run hpid h
  refine ⟨fun p q => hi.unique hpid, fun p => ?_, fun p own r hp => ?_, fun p hfree hst hch => ?_⟩
  · rw [hi.holding hpid]
    rfl
  · have hpt : s.points p = .holdRelease own r := congrArg Thread.point hp
    rw [hi.told p own r hpt, owns, hpt]
    rfl
  · exact (guarded pid).asleep (prompt pid) (fun _ _ => rfl) h hfree hst hch

end

/-- `false` gets the lock, `true` sleeps for it, and `false` asks whether it has the lock. -/
def contended : List (Act Bool Pc) :=
  List.flatten [Act.calls false (.acqAcquire false) 4, Act.calls true (.acqAcquire false) 7,
    [.schedRelease], Act.calls false (.holdAcquire true) 2]

theorem sleeplock_one_owner_contended :
    ∃ s, Run (fun _ _ => True) (step (code fun b : Bool => if b then 5 else 4))
        (start (fun _ => .out) init) contended s ∧
      (s.data, s.state true, s.points false) = (⟨true, 4⟩, .sleeping, .holdRelease true true) ∧
      owns s false ∧ ¬ owns s true ∧ s.data.locked = true := by
  obtain ⟨s, hs, hf⟩ : ∃ s, Run (fun _ _ => True) (step (code fun b : Bool => if b then 5 else 4))
      (start (fun _ => .out) init) contended s ∧
      (s.data, s.state true, s.points false) = (⟨true, 4⟩, .sleeping, .holdRelease true true) :=
    Run.of_exec_map (by decide +kernel)
  have hpid : Function.Injective fun b : Bool => if b then (5 : Int) else 4 := by decide
  obtain ⟨hone, hholds, -⟩ := sleeplock_one_owner hpid hs
  have hd : s.data = ⟨true, 4⟩ := congrArg Prod.fst hf
  have hown : owns s false := (hholds false).mp (by rw [hd]; rfl)
  exact ⟨s, hs, hf, hown, fun h => absurd (hone _ _ h hown) (by decide), by rw [hd]⟩

end BossOs.Sync.SleepLock
