import BossOs.Proc.Fork

/-!
# Parents, children and `wait`

Every process but init has a parent that can still call `wait`, and no process sleeps
in `wait` beside a zombie child. `exit` changes both in one critical section: it
wakes the parent, hands the children to init and only then becomes a zombie.
-/

namespace BossOs.Proc

open Lib
open Function (update update_self update_of_ne)

def ProcState.alive : ProcState → Bool
  | .sleeping | .runnable | .running => true
  | _ => false

def ProcState.used : ProcState → Bool
  | .sleeping | .runnable | .running | .zombie => true
  | _ => false

variable {st : ProcState}

theorem ProcState.used_iff : st.used = true ↔ st.alive = true ∨ st = .zombie := by
  cases st <;> simp [used, alive]

theorem ProcState.not_used (h : st.used = false) : st.alive = false ∧ st ≠ .zombie := by
  cases st with
  | unused | embryo => exact ⟨rfl, by simp⟩
  | _ => cases h

variable {k : Pc}

namespace Pc

def waits : Pc → Bool
  | .waitSwitch | .waitResume => true
  | _ => false

def exits : Pc → Bool
  | .exitAcquire | .exitBody | .exitSwitch | .exited => true
  | .yield _ k => k.exits
  | _ => false

theorem acquires_family {k' : Pc} (h : k.acquires = some k') :
    k'.exits = k.exits ∧ k'.waits = false := by
  cases k with
  | yield y k =>
    cases y <;> cases h
    exact ⟨rfl, rfl⟩
  | _ => cases h <;> exact ⟨rfl, rfl⟩

theorem releases_family {k' : Pc} (h : k.releases = some k') : k'.exits = k.exits := by
  cases k with
  | yield y k =>
    cases y <;> cases h
    rfl
  | allocRelease np =>
    cases np <;> cases h
    rfl
  | _ => cases h <;> rfl

theorem switches_family {k' : Pc} (h : k.switches = some k') :
    k'.exits = k.exits ∧ k'.waits = k.waits := by
  cases k with
  | yield y k =>
    cases y <;> cases h
    exact ⟨rfl, rfl⟩
  | _ => cases h <;> exact ⟨rfl, rfl⟩

end Pc

theorem Call.entry_family (k : Call) : (k.entry.exits = true → k = .exit) := by
  cases k <;> simp [entry, Pc.exits]

section
variable {C : Type}

structure FamilyInv (s : State C) : Prop where
  init : (s.state initproc).alive = true
  root : s.parent initproc = none
  stays : (s.pc initproc).exits = false
  irrefl : ∀ q, s.parent q ≠ some q
  adopted : ∀ p np, (s.pc p).child = some (np, 3) → s.parent np = some p
  parents : ∀ q, (s.state q).used = true → q ≠ initproc →
    ∃ r, s.parent q = some r ∧ (s.state r).alive = true
  waiting : ∀ p, s.state p = .sleeping → (s.pc p).waits = true →
    s.chan p = some (.proc p) ∧ ∀ q, s.parent q = some p → s.state q ≠ .zombie

theorem familyInv_boot : FamilyInv (boot C) where
  init := by rfl
  root := rfl
  stays := rfl
  irrefl := fun q h => by cases h
  adopted := fun p np h => by cases h
  parents := fun q hq hne => by
    change (update (fun _ => ProcState.unused) initproc .runnable q).used = true at hq
    rw [update_of_ne hne] at hq
    cases hq
  waiting := fun p _ h => by cases h

variable {s t : State C} {c : C} {p : Slot}

theorem FamilyInv.calm (h : FamilyInv s) (hpar : t.parent = s.parent)
    (hal : ∀ q, (t.state q).alive = (s.state q).alive)
    (hz : ∀ q, t.state q = .zombie ↔ s.state q = .zombie)
    (hadopt : ∀ q np, (t.pc q).child = some (np, 3) → (s.pc q).child = some (np, 3))
    (hex : (t.pc initproc).exits = false)
    (hwait : ∀ q, t.state q = .sleeping → (t.pc q).waits = true →
      (s.state q = .sleeping ∧ (s.pc q).waits = true ∧ t.chan q = s.chan q) ∨
      (t.chan q = some (.proc q) ∧ ∀ z, s.parent z = some q → s.state z ≠ .zombie)) :
    FamilyInv t := by
  refine ⟨?_, ?_, hex, ?_, fun q np hq => ?_, fun q hq hne => ?_, fun q hsl hw => ?_⟩
  · rw [hal]
    exact h.init
  · rw [hpar]
    exact h.root
  · rw [hpar]
    exact h.irrefl
  · rw [hpar]
    exact h.adopted q np (hadopt q np hq)
  · rw [ProcState.used_iff, hal, hz, ← ProcState.used_iff] at hq
    obtain ⟨r, hr, hra⟩ := h.parents q hq hne
    exact ⟨r, by rw [hpar, hr], by rw [hal, hra]⟩
  · rw [hpar]
    rcases hwait q hsl hw with ⟨hs, hsw, hch⟩ | ⟨hch, hnone⟩
    · obtain ⟨hc, hnone⟩ := h.waiting q hs hsw
      exact ⟨hch.trans hc, fun z hzq => (hz z).not.mpr (hnone z hzq)⟩
    · exact ⟨hch, fun z hzq => (hz z).not.mpr (hnone z hzq)⟩

theorem FamilyInv.move (h : FamilyInv s) (hpc : t.pc = update s.pc p k)
    (hpar : t.parent = s.parent) (hal : ∀ q, (t.state q).alive = (s.state q).alive)
    (hz : ∀ q, t.state q = .zombie ↔ s.state q = .zombie)
    (hk : ∀ np, k.child = some (np, 3) → (s.pc p).child = some (np, 3))
    (hex : k.exits = true → (s.pc p).exits = true ∨ p ≠ initproc)
    (hother : ∀ q ≠ p, t.chan q = s.chan q ∧ (t.state q = .sleeping → s.state q = .sleeping))
    (hself : t.state p = .sleeping → k.waits = true →
      (s.state p = .sleeping ∧ (s.pc p).waits = true ∧ t.chan p = s.chan p) ∨
      (t.chan p = some (.proc p) ∧ ∀ z, s.parent z = some p → s.state z ≠ .zombie)) :
    FamilyInv t := by
  have hp : t.pc p = k := by rw [hpc, update_self]
  have hq : ∀ q ≠ p, t.pc q = s.pc q := fun q hne => by rw [hpc, update_of_ne hne]
  refine h.calm hpar hal hz (fun q np hc => ?_) ?_ fun q hsl hw => ?_
  · by_cases hqp : q = p
    · rw [hqp] at hc ⊢
      rw [hp] at hc
      exact hk np hc
    · rwa [hq q hqp] at hc
  · by_cases hip : initproc = p
    · rw [hip, hp]
      cases hkex : k.exits with
      | false => rfl
      | true =>
        rcases hex hkex with he | he
        · rw [← hip, h.stays] at he
          cases he
        · exact absurd hip.symm he
    · rw [hq initproc hip]
      exact h.stays
  · by_cases hqp : q = p
    · rw [hqp] at hsl hw ⊢
      rw [hp] at hw
      exact hself hsl hw
    · rw [hq q hqp] at hw
      exact Or.inl ⟨(hother q hqp).2 hsl, hw, (hother q hqp).1⟩

theorem Woken.alive {a b : Slot → ProcState} (h : Woken a b) (q : Slot) :
    (b q).alive = (a q).alive := by
  rcases h q with hs | ⟨hs, hr⟩
  · rw [hs]
  · rw [hs, hr]
    rfl

theorem Woken.sleeping {a b : Slot → ProcState} (h : Woken a b) {q : Slot}
    (hq : b q = .sleeping) : a q = .sleeping := by
  rcases h q with hs | ⟨hs, _⟩
  · exact hs.symm.trans hq
  · exact hs

section
variable (h : FamilyInv s)
include h

theorem FamilyInv.setParent (hf : ForkInv s) {np : Slot} (hne : np ≠ p)
    (hp : (s.pc p).child = some (np, 2)) (hpc : t.pc = update s.pc p k)
    (hk : k.child = some (np, 3)) (hkex : k.exits = false) (hkw : k.waits = false)
    (hpar : t.parent = update s.parent np (some p)) (hst : t.state = s.state)
    (hchan : t.chan = s.chan) : FamilyInv t := by
  have hemb := hf.embryo p np 2 hp
  have hother : ∀ q ≠ np, t.parent q = s.parent q := fun q hq => by
    rw [hpar, update_of_ne hq]
  have hpcq : ∀ q ≠ p, t.pc q = s.pc q := fun q hq => by rw [hpc, update_of_ne hq]
  have hnp : ∀ q, s.state q ≠ .embryo → q ≠ np := by
    rintro q hq rfl
    exact hq hemb
  have hinit : initproc ≠ np := hnp _ fun he => by
    have := h.init
    rw [he] at this
    cases this
  refine ⟨by rw [hst]; exact h.init, by rw [hother _ hinit]; exact h.root, ?_, fun q => ?_,
    fun q np' hq => ?_, fun q hq hqi => ?_, fun q hsl hw => ?_⟩
  · by_cases hip : initproc = p
    · rw [hip, hpc, update_self]
      exact hkex
    · rw [hpcq _ hip]
      exact h.stays
  · by_cases hqn : q = np
    · rw [hqn, hpar, update_self]
      exact fun he => hne (Option.some.inj he).symm
    · rw [hother q hqn]
      exact h.irrefl q
  · by_cases hqp : q = p
    · rw [hqp, hpc, update_self, hk] at hq
      cases hq
      rw [hqp, hpar, update_self]
    · rw [hpcq q hqp] at hq
      have hne' : np' ≠ np := by
        rintro rfl
        exact hqp (hf.inj q p np' 3 2 hq hp)
      rw [hother np' hne']
      exact h.adopted q np' hq
  · rw [hst] at hq ⊢
    rw [hother q (hnp q fun he => by rw [he] at hq; cases hq)]
    exact h.parents q hq hqi
  · rw [hst] at hsl ⊢
    have hqw : (s.pc q).waits = true := by
      by_cases hqp : q = p
      · rw [hqp, hpc, update_self, hkw] at hw
        cases hw
      · rwa [hpcq q hqp] at hw
    obtain ⟨hch, hnone⟩ := h.waiting q hsl hqw
    refine ⟨by rw [hchan, hch], fun z hz hzz => ?_⟩
    rw [hother z (hnp z fun he => by rw [he] at hzz; cases hzz)] at hz
    exact hnone z hz hzz

theorem FamilyInv.setRunnable (hf : ForkInv s) {np : Slot}
    (hne : np ≠ p) (hp : (s.pc p).child = some (np, 3)) (hrun : s.state p = .running)
    (hpc : t.pc = update s.pc p k) (hk : k.child = none) (hkex : k.exits = false)
    (hpar : t.parent = s.parent) (hst : t.state = update s.state np .runnable)
    (hchan : t.chan = s.chan) : FamilyInv t := by
  have hemb := hf.embryo p np 3 hp
  have hstq : ∀ q ≠ np, t.state q = s.state q := fun q hq => by
    rw [hst, update_of_ne hq]
  have hstn : t.state np = .runnable := by rw [hst, update_self]
  have hpcq : ∀ q ≠ p, t.pc q = s.pc q := fun q hq => by rw [hpc, update_of_ne hq]
  have hal : ∀ q, (s.state q).alive = true → (t.state q).alive = true := fun q hq => by
    by_cases hqn : q = np
    · rw [hqn, hstn]
      rfl
    · rwa [hstq q hqn]
  refine ⟨hal _ h.init, by rw [hpar]; exact h.root, ?_, by rw [hpar]; exact h.irrefl,
    fun q np' hq => ?_, fun q hq hqi => ?_, fun q hsl hw => ?_⟩
  · by_cases hip : initproc = p
    · rw [hip, hpc, update_self]
      exact hkex
    · rw [hpcq _ hip]
      exact h.stays
  · have hqp : q ≠ p := by
      rintro rfl
      rw [hpc, update_self, hk] at hq
      cases hq
    rw [hpcq q hqp] at hq
    rw [hpar]
    exact h.adopted q np' hq
  · rw [hpar]
    by_cases hqn : q = np
    · rw [hqn]
      refine ⟨p, h.adopted p np hp, ?_⟩
      rw [hstq p hne.symm, hrun]
      rfl
    · rw [hstq q hqn] at hq
      obtain ⟨r, hr, hra⟩ := h.parents q hq hqi
      exact ⟨r, hr, hal r hra⟩
  · have hqn : q ≠ np := by
      rintro rfl
      rw [hstn] at hsl
      cases hsl
    rw [hstq q hqn] at hsl
    have hqp : q ≠ p := by
      rintro rfl
      rw [hrun] at hsl
      cases hsl
    rw [hpcq q hqp] at hw
    obtain ⟨hch, hnone⟩ := h.waiting q hsl hw
    refine ⟨by rw [hchan, hch], fun z hz => ?_⟩
    rw [hpar] at hz
    by_cases hzn : z = np
    · rw [hzn, hstn]
      simp
    · rw [hstq z hzn]
      exact hnone z hz

theorem FamilyInv.reap (hf : ForkInv s) {q : Slot}
    (hrun : s.state p = .running) (hq : s.state q = .zombie)
    (hpc : t.pc = update s.pc p k) (hk : k.child = none) (hkex : k.exits = false)
    (hpar : t.parent = update s.parent q none)
    (hst : t.state = update s.state q .unused) (hchan : t.chan = s.chan) : FamilyInv t := by
  have hother : ∀ r ≠ q, t.parent r = s.parent r ∧ t.state r = s.state r := fun r hr =>
    ⟨by rw [hpar, update_of_ne hr], by rw [hst, update_of_ne hr]⟩
  have hself : t.parent q = none ∧ t.state q = .unused :=
    ⟨by rw [hpar, update_self], by rw [hst, update_self]⟩
  have hpcr : ∀ r ≠ p, t.pc r = s.pc r := fun r hr => by rw [hpc, update_of_ne hr]
  have hne : ∀ r, (s.state r).alive = true → r ≠ q := by
    rintro r hr rfl
    rw [hq] at hr
    cases hr
  have hal : ∀ r, (s.state r).alive = true → (t.state r).alive = true := fun r hr => by
    rw [(hother r (hne r hr)).2, hr]
  refine ⟨hal _ h.init, by rw [(hother _ (hne _ h.init)).1]; exact h.root, ?_, fun r => ?_,
    fun r np hr => ?_, fun r hr hri => ?_, fun r hsl hw => ?_⟩
  · by_cases hip : initproc = p
    · rw [hip, hpc, update_self]
      exact hkex
    · rw [hpcr _ hip]
      exact h.stays
  · by_cases hrq : r = q
    · rw [hrq, hself.1]
      simp
    · rw [(hother r hrq).1]
      exact h.irrefl r
  · have hrp : r ≠ p := by
      rintro rfl
      rw [hpc, update_self, hk] at hr
      cases hr
    rw [hpcr r hrp] at hr
    have hnq : np ≠ q := by
      rintro rfl
      rw [hf.embryo r np 3 hr] at hq
      cases hq
    rw [(hother np hnq).1]
    exact h.adopted r np hr
  · have hrq : r ≠ q := by
      rintro rfl
      rw [hself.2] at hr
      cases hr
    rw [(hother r hrq).2] at hr
    obtain ⟨w, hw, hwa⟩ := h.parents r hr hri
    exact ⟨w, by rw [(hother r hrq).1, hw], hal w hwa⟩
  · have hrq : r ≠ q := by
      rintro rfl
      rw [hself.2] at hsl
      cases hsl
    rw [(hother r hrq).2] at hsl
    have hrp : r ≠ p := by
      rintro rfl
      rw [hrun] at hsl
      cases hsl
    rw [hpcr r hrp] at hw
    obtain ⟨hch, hnone⟩ := h.waiting r hsl hw
    refine ⟨by rw [hchan, hch], fun z hz => ?_⟩
    have hzq : z ≠ q := by
      rintro rfl
      rw [hself.1] at hz
      cases hz
    rw [(hother z hzq).1] at hz
    rw [(hother z hzq).2]
    exact hnone z hz

theorem FamilyInv.exit (hp : (s.pc p).exits = true)
    (hrun : s.state p = .running) {state : Slot → ProcState}
    (hpc : t.pc = update s.pc p k) (hk : k.child = none)
    (hpar : ∀ q, t.parent q = if s.parent q = some p then some initproc else s.parent q)
    (hwoken : Woken s.state state) (hst : t.state = update state p .zombie)
    (hchan : t.chan = s.chan) (hup : Roused state s.chan ((s.parent p).map Chan.proc))
    (hdown : (∃ z, s.parent z = some p ∧ s.state z = .zombie) →
      Roused state s.chan (some (.proc initproc))) : FamilyInv t := by
  have hpi : initproc ≠ p := by
    rintro rfl
    rw [h.stays] at hp
    cases hp
  have hself : t.state p = .zombie := by rw [hst, update_self]
  have hstq : ∀ q ≠ p, t.state q = state q := fun q hq => by rw [hst, update_of_ne hq]
  have hpcq : ∀ q ≠ p, t.pc q = s.pc q := fun q hq => by rw [hpc, update_of_ne hq]
  have hsame : ∀ q, s.parent q ≠ some p → t.parent q = s.parent q := fun q hq => by
    rw [hpar q, if_neg hq]
  have hal : ∀ q ≠ p, (s.state q).alive = true → (t.state q).alive = true := fun q hqp hq => by
    rw [hstq q hqp, hwoken.alive, hq]
  refine ⟨hal _ hpi h.init, ?_, by rw [hpcq _ hpi]; exact h.stays, fun q => ?_, fun q np hq => ?_,
    fun q hq hqi => ?_, fun q hsl hw => ?_⟩
  · rw [hsame _ (by rw [h.root]; simp), h.root]
  · by_cases hq : s.parent q = some p
    · rw [hpar q, if_pos hq]
      intro he
      rw [← Option.some.inj he, h.root] at hq
      cases hq
    · rw [hsame q hq]
      exact h.irrefl q
  · have hqp : q ≠ p := by
      rintro rfl
      rw [hpc, update_self, hk] at hq
      cases hq
    rw [hpcq q hqp] at hq
    have hnp := h.adopted q np hq
    rw [hsame np (by rw [hnp]; exact fun he => hqp (Option.some.inj he)), hnp]
  · by_cases hqp : q = p
    · rw [hqp] at hqi ⊢
      obtain ⟨r, hr, hra⟩ := h.parents p (by rw [hrun]; rfl) hqi
      have hrp : r ≠ p := fun he => h.irrefl p (he ▸ hr)
      exact ⟨r, by rw [hsame p (h.irrefl p), hr], hal r hrp hra⟩
    · have hused : (s.state q).used = true := by
        rw [hstq q hqp, ProcState.used_iff, hwoken.alive, hwoken.zombie, ← ProcState.used_iff] at hq
        exact hq
      obtain ⟨r, hr, hra⟩ := h.parents q hused hqi
      by_cases hrp : r = p
      · exact ⟨initproc, by rw [hpar q, hr, if_pos (by rw [hrp])], hal _ hpi h.init⟩
      · refine ⟨r, ?_, hal r hrp hra⟩
        rw [hsame q (by rw [hr]; exact fun he => hrp (Option.some.inj he)), hr]
  · have hqp : q ≠ p := by
      rintro rfl
      rw [hself] at hsl
      cases hsl
    rw [hstq q hqp] at hsl
    rw [hpcq q hqp] at hw
    obtain ⟨hch, hnone⟩ := h.waiting q (hwoken.sleeping hsl) hw
    refine ⟨by rw [hchan, hch], fun z hz hzz => ?_⟩
    by_cases hzp : z = p
    · -- the caller's parent has been woken
      rw [hzp, hsame p (h.irrefl p)] at hz
      exact hup q hsl (by rw [hch, hz]; rfl)
    · rw [hstq z hzp, hwoken.zombie] at hzz
      by_cases hzc : s.parent z = some p
      · -- so has init, if it was given a zombie
        rw [hpar z, if_pos hzc] at hz
        exact hdown ⟨z, hzc, hzz⟩ q hsl (by rw [hch, Option.some.inj hz])
      · rw [hsame z hzc] at hz
        exact hnone z hz hzz

theorem FamilyInv.run (hrun : s.state p = .running)
    (hpc : t.pc = update s.pc p k) (hpar : t.parent = s.parent) (hwoken : Woken s.state t.state)
    (hk : ∀ np, k.child = some (np, 3) → (s.pc p).child = some (np, 3))
    (hex : k.exits = true → (s.pc p).exits = true ∨ p ≠ initproc)
    (hchan : ∀ q ≠ p, t.chan q = s.chan q) : FamilyInv t := by
  refine h.move hpc hpar hwoken.alive (fun q => hwoken.zombie) hk hex
    (fun q hq => ⟨hchan q hq, hwoken.sleeping⟩) fun hsl => ?_
  rw [hwoken.sleeping hsl] at hrun
  cases hrun

theorem FamilyInv.slot (hrun : s.state p = .running) {np : Slot}
    (hnp : (s.state np).used = false) (hst : st.used = false)
    (hpc : t.pc = update s.pc p k) (hpar : t.parent = s.parent)
    (hstate : t.state = update s.state np st)
    (hk : ∀ np', k.child = some (np', 3) → (s.pc p).child = some (np', 3))
    (hex : k.exits = false) (hchan : t.chan = s.chan) : FamilyInv t := by
  have hold := ProcState.not_used hnp
  have hnew := ProcState.not_used hst
  have hcase : ∀ q, t.state q = s.state q ∨ q = np ∧ t.state q = st := fun q => by
    rw [hstate]
    by_cases hq : q = np
    · subst hq
      exact Or.inr ⟨rfl, update_self ..⟩
    · exact Or.inl (update_of_ne hq ..)
  have hsl : ∀ q, t.state q = .sleeping → s.state q = .sleeping := fun q hq => by
    rcases hcase q with hs | ⟨_, hs⟩
    · exact hs.symm.trans hq
    · rw [← hs, hq] at hst
      cases hst
  refine h.move hpc hpar (fun q => ?_) (fun q => ?_) hk (by rw [hex]; simp)
    (fun q _ => ⟨by rw [hchan], hsl q⟩) fun hs => ?_
  · rcases hcase q with hs | ⟨rfl, hs⟩
    · rw [hs]
    · rw [hs, hnew.1, hold.1]
  · rcases hcase q with hs | ⟨rfl, hs⟩
    · rw [hs]
    · rw [hs]
      exact iff_of_false hnew.2 hold.2
  · rw [hsl p hs] at hrun
    cases hrun

theorem FamilyInv.own (hrun : s.state p = .running)
    (hst : st.alive = true) (hpc : t.pc = update s.pc p k) (hpar : t.parent = s.parent)
    (hstate : t.state = update s.state p st)
    (hk : ∀ np, k.child = some (np, 3) → (s.pc p).child = some (np, 3))
    (hex : k.exits = true → (s.pc p).exits = true) (hchan : ∀ q ≠ p, t.chan q = s.chan q)
    (hself : k.waits = true →
      t.chan p = some (.proc p) ∧ ∀ z, s.parent z = some p → s.state z ≠ .zombie) :
    FamilyInv t := by
  have hother : ∀ q ≠ p, t.state q = s.state q := fun q hq => by
    rw [hstate, update_of_ne hq]
  have hp : t.state p = st := by rw [hstate, update_self]
  refine h.move hpc hpar (fun q => ?_) (fun q => ?_) hk (fun he => Or.inl (hex he))
    (fun q hq => ⟨hchan q hq, fun hs => (hother q hq).symm.trans hs⟩) fun _ hw => Or.inr (hself hw)
  · by_cases hq : q = p
    · rw [hq, hp, hst, hrun]
      rfl
    · rw [hother q hq]
  · by_cases hq : q = p
    · rw [hq, hp, hrun]
      refine iff_of_false (fun he => ?_) (by simp)
      rw [he] at hst
      cases hst
    · rw [hother q hq]

theorem FamilyInv.kalloc {np : Slot}
    (hpc : t.pc = update (update s.pc np .forkret) p k)
    (hk : ∀ np', k.child ≠ some (np', 3)) (hex : k.exits = false) (hw : k.waits = false)
    (hpar : t.parent = s.parent) (hst : t.state = s.state) (hchan : t.chan = s.chan) :
    FamilyInv t := by
  have hcase : ∀ q, t.pc q = k ∨ t.pc q = .forkret ∨ t.pc q = s.pc q := fun q => by
    rw [hpc]
    by_cases hq : q = p
    · exact Or.inl (hq ▸ update_self ..)
    · rw [update_of_ne hq]
      by_cases hqn : q = np
      · exact Or.inr (Or.inl (hqn ▸ update_self ..))
      · exact Or.inr (Or.inr (update_of_ne hqn ..))
  refine h.calm hpar (fun q => by rw [hst]) (fun q => by rw [hst]) (fun q np' hq => ?_) ?_
    fun q hsl hqw => ?_
  · rcases hcase q with hc | hc | hc <;> rw [hc] at hq
    · exact absurd hq (hk np')
    · cases hq
    · exact hq
  · rcases hcase initproc with hc | hc | hc <;> rw [hc]
    · exact hex
    · rfl
    · exact h.stays
  · rw [hst] at hsl
    rcases hcase q with hc | hc | hc <;> rw [hc] at hqw
    · rw [hw] at hqw
      cases hqw
    · cases hqw
    · exact Or.inl ⟨hsl, hqw, by rw [hchan]⟩

theorem FamilyInv.dispatch {q : Slot} (hq : s.state q = .runnable)
    (hpc : t.pc = s.pc) (hpar : t.parent = s.parent)
    (hst : t.state = update s.state q .running) (hchan : t.chan = s.chan) : FamilyInv t := by
  have hother : ∀ r ≠ q, t.state r = s.state r := fun r hr => by
    rw [hst, update_of_ne hr]
  have hself : t.state q = .running := by rw [hst, update_self]
  refine h.calm hpar (fun r => ?_) (fun r => ?_) (fun r np hr => ?_) ?_ fun r hsl hw => ?_
  · by_cases hr : r = q
    · rw [hr, hself, hq]
      rfl
    · rw [hother r hr]
  · by_cases hr : r = q
    · rw [hr, hself, hq]
      simp
    · rw [hother r hr]
  · rwa [hpc] at hr
  · rw [hpc]
    exact h.stays
  · have hr : r ≠ q := by
      rintro rfl
      rw [hself] at hsl
      cases hsl
    rw [hother r hr] at hsl
    rw [hpc] at hw
    exact Or.inl ⟨hsl, hw, by rw [hchan]⟩

end

theorem Woken.refl (a : Slot → ProcState) : Woken a a := fun _ => Or.inl rfl

variable [DecidableEq C]

theorem familyInv_step {a : Act C} (hc : ControlInv s) (hf : ForkInv s) (h : FamilyInv s)
    (hstep : step s a = some t) : FamilyInv t := by
  cases step_moves hstep with
  | start c p k on at_ ex =>
    refine h.run (hc.state_of on at_ rfl) rfl rfl (.refl _) (fun np hnp => ?_)
      (fun he => Or.inr fun hpi => ex hpi (k.entry_family he)) fun _ _ => rfl
    rw [k.entry_child] at hnp
    cases hnp
  | timer c p on free calm =>
    have hrun := (hc.running c p on).trans (Pc.here_of_not_holding free)
    exact h.run hrun rfl rfl (.refl _) (fun _ => id) Or.inl fun _ _ => rfl
  | acquire c ok p k on at_ =>
    have hrun := (hc.running c p on).trans (Pc.here_of_not_holding (Pc.acquires_control at_).1)
    refine h.run hrun rfl rfl (.refl _) ?_ ?_ fun _ _ => rfl
    · rw [Pc.acquires_child at_]
      exact fun _ => id
    · rw [(Pc.acquires_family at_).1]
      exact Or.inl
  | release c ok p k on at_ =>
    have hrun := (hc.running c p on).trans (Pc.releases_control at_ (hc.inner p)).2.2.1
    refine h.run hrun rfl rfl (.refl _) ?_ ?_ fun _ _ => rfl
    · rw [Pc.releases_child at_]
      exact fun _ => id
    · rw [Pc.releases_family at_]
      exact Or.inl
  | returns c ok p v on at_ =>
    have hrun := (hc.running c p on).trans (Pc.returns_control at_).2
    exact h.run (k := .user) hrun rfl rfl (.refl _) (fun _ hnp => by cases hnp)
      (fun he => by cases he) fun _ _ => rfl
  | switch c ok p k on at_ =>
    refine h.move rfl rfl (fun _ => rfl) (fun _ => Iff.rfl) ?_ ?_ (fun _ _ => ⟨rfl, id⟩) ?_
    · rw [Pc.switches_child at_]
      exact fun _ => id
    · rw [(Pc.switches_family at_).1]
      exact Or.inl
    · rw [(Pc.switches_family at_).2]
      exact fun hsl hw => Or.inl ⟨hsl, hw, rfl⟩
  | noSlot c ok p on at_ | waitNone c ok p on at_ | killNone c ok p pid on at_
  | copy c ok p np on at_ =>
    exact h.run (hc.state_of on at_ rfl) rfl rfl (.refl _) (fun _ hnp => by cases hnp)
      (fun he => by cases he) fun _ _ => rfl
  | waitResume c ok p on at_ | sleepResume c ok p on at_ =>
    exact h.run (hc.state_of on at_ rfl) rfl rfl (.refl _) (fun _ hnp => by cases hnp)
      (fun he => by cases he) fun _ hq => update_of_ne hq ..
  | wake c ok p addr on at_ =>
    exact h.run (hc.state_of on at_ rfl) rfl rfl (woken_wakeup1 _ _ _) (fun _ hnp => by cases hnp)
      (fun he => by cases he) fun _ _ => rfl
  | kill c ok p q pid on at_ hit =>
    exact h.run (hc.state_of on at_ rfl) rfl rfl (woken_kill _ _) (fun _ hnp => by cases hnp)
      (fun he => by cases he) fun _ _ => rfl
  | kalloc c ok p np on at_ =>
    exact h.kalloc rfl (fun _ hnp => by cases hnp) rfl rfl rfl rfl rfl
  | found c ok p np on at_ unused =>
    exact h.slot (hc.state_of on at_ rfl) (by rw [unused]; rfl) rfl rfl rfl rfl
      (fun _ hnp => by cases hnp) rfl rfl
  | kallocFail c ok p np on at_ | copyFail c ok p np on at_ =>
    have hemb := hf.embryo p np _ (by rw [at_]; rfl)
    exact h.slot (k := .user) (hc.state_of on at_ rfl) (by rw [hemb]; rfl) rfl rfl rfl rfl
      (fun _ hnp => by cases hnp) rfl rfl
  | setParent c ok p np on at_ =>
    have hp : (s.pc p).child = some (np, 2) := by rw [at_]; rfl
    exact h.setParent hf (hc.ne_of_new on (Or.inr (hf.embryo p np 2 hp))) hp rfl rfl rfl rfl rfl rfl
      rfl
  | setRunnable c ok p np pid on at_ =>
    have hp : (s.pc p).child = some (np, 3) := by rw [at_]; rfl
    exact h.setRunnable hf (hc.ne_of_new on (Or.inr (hf.embryo p np 3 hp))) hp
      (hc.state_of on at_ rfl) rfl rfl rfl rfl rfl rfl
  | reap c ok p q on at_ child zombie =>
    exact h.reap hf (hc.state_of on at_ rfl) zombie rfl rfl rfl rfl rfl rfl
  | exit c ok p on at_ =>
    obtain ⟨parent, state, heq, hpar, hwoken, hup, hdown⟩ := exit_spec s p
    rw [heq]
    exact h.exit (by rw [at_]; rfl) (hc.state_of on at_ rfl) rfl rfl hpar hwoken rfl rfl hup hdown
  | waitSleep c ok p on at_ none_ =>
    exact h.own (hc.state_of on at_ rfl) rfl rfl rfl rfl (fun _ hnp => by cases hnp)
      (fun he => by cases he) (fun _ hq => update_of_ne hq ..)
      fun _ => ⟨update_self .., none_⟩
  | sleepSet c ok p addr on at_ =>
    exact h.own (hc.state_of on at_ rfl) rfl rfl rfl rfl (fun _ hnp => by cases hnp)
      (fun he => by cases he) (fun _ hq => update_of_ne hq ..) fun hw => by cases hw
  | yieldSet c ok p k on at_ =>
    exact h.own (hc.state_of on at_ rfl) rfl rfl rfl rfl (by rw [at_]; exact fun _ => id)
      (by rw [at_]; exact id) (fun _ _ => rfl) fun hw => by cases hw
  | dispatch c ok q at_ runnable => exact h.dispatch runnable rfl rfl rfl rfl
  | initExits | zombieExit | schedAcquire | schedSkip | schedRelease | schedBack =>
    exact ⟨h.init, h.root, h.stays, h.irrefl, h.adopted, h.parents, h.waiting⟩

end

end BossOs.Proc
