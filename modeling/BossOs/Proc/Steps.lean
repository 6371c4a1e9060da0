import BossOs.Lib.Discipline
import BossOs.Proc.Model

/-!
# What one step of the process table can do

`Moves` lists the outcomes of `step`, guards included; the step functions are unfolded
here and nowhere else.
-/

namespace BossOs.Proc

open Lib
open Function (update update_self update_of_ne)

namespace Pc

def acquires : Pc → Option Pc
  | .allocAcquire => some .allocFind
  | .forkAcquire np pid => some (.forkSet np pid)
  | .exitAcquire => some .exitBody
  | .waitAcquire => some .waitScan
  | .sleepAcquire addr => some (.sleepSet addr)
  | .wakeAcquire addr => some (.wakeBody addr)
  | .killAcquire pid => some (.killBody pid)
  | .yield .acquire k => some (.yield .set k)
  | _ => none

def releases : Pc → Option Pc
  | .forkret | .sleepRelease | .wakeRelease => some .user
  | .allocRelease (some np) => some (.forkKalloc np)
  | .yield .release k => some k
  | _ => none

def returns : Pc → Option Int
  | .allocRelease none => some (-1)
  | .forkRelease pid => some pid
  | .waitRelease v | .killRelease v => some v
  | _ => none

def switches : Pc → Option Pc
  | .exitSwitch => some .exited
  | .waitSwitch => some .waitResume
  | .sleepSwitch => some .sleepResume
  | .yield .switch k => some (.yield .release k)
  | _ => none

def calm : Pc → Bool
  | .yield _ _ => false
  | _ => true

end Pc

def Woken (state state' : Slot → ProcState) : Prop :=
  ∀ q, state' q = state q ∨ (state q = .sleeping ∧ state' q = .runnable)

variable {a b : Slot → ProcState}

theorem Woken.trans {c : Slot → ProcState} (hab : Woken a b) (hbc : Woken b c) : Woken a c := by
  intro q
  rcases hbc q with hq | ⟨hq, hr⟩
  · rw [hq]
    exact hab q
  · rcases hab q with ha | ⟨_, ha⟩
    · exact Or.inr ⟨ha.symm.trans hq, hr⟩
    · rw [ha] at hq
      cases hq

theorem woken_wakeup1 (state : Slot → ProcState) (chan : Slot → Option Chan) (ch : Option Chan) :
    Woken state (wakeup1 state chan ch) := by
  intro q
  unfold wakeup1
  split
  · rename_i h
    exact Or.inr ⟨h.1, rfl⟩
  · exact Or.inl rfl

theorem woken_kill (state : Slot → ProcState) (q : Slot) : Woken state
    (if state q = .sleeping then update state q .runnable else state) := by
  intro r
  split
  · rename_i hq
    by_cases hr : r = q
    · subst hr
      exact Or.inr ⟨hq, update_self _ _ _⟩
    · exact Or.inl (update_of_ne hr _ _)
  · exact Or.inl rfl

theorem Woken.zombie (h : Woken a b) {q : Slot} : b q = .zombie ↔ a q = .zombie := by
  rcases h q with hq | ⟨ha, hb⟩
  · rw [hq]
  · rw [ha, hb]
    simp

def Roused (state : Slot → ProcState) (chan : Slot → Option Chan) (ch : Option Chan) : Prop :=
  ∀ q, state q = .sleeping → chan q ≠ ch

theorem roused_wakeup1 (state : Slot → ProcState) (chan : Slot → Option Chan) (ch : Option Chan) :
    Roused (wakeup1 state chan ch) chan ch := by
  intro q hq hch
  unfold wakeup1 at hq
  split at hq
  · cases hq
  · rename_i h
    exact h ⟨hq, hch⟩

theorem Roused.mono {chan : Slot → Option Chan} {ch : Option Chan}
    (h : Roused a chan ch) (hab : Woken a b) : Roused b chan ch := by
  intro q hq
  rcases hab q with hs | ⟨_, hr⟩
  · exact h q (hs.symm.trans hq)
  · rw [hr] at hq
    cases hq

theorem passChildren_prefix (chan : Slot → Option Chan) (p : Slot) (parent : Slot → Option Slot)
    (state : Slot → ProcState) (l : List Slot) (hl : l.Nodup) :
    let t := l.foldl (passChild chan p) (parent, state)
    (∀ q, t.1 q = if q ∈ l ∧ parent q = some p then some initproc else parent q) ∧
    Woken state t.2 ∧
    ((∃ z ∈ l, parent z = some p ∧ state z = .zombie) →
      Roused t.2 chan (some (.proc initproc))) := by
  induction l using List.reverseRecOn with
  | nil => exact ⟨fun q => by simp, fun q => Or.inl rfl, fun ⟨z, hz, _⟩ => by cases hz⟩
  | append_singleton l r ih =>
    obtain ⟨hl, _, hr⟩ := List.nodup_append.mp hl
    have hrl : r ∉ l := fun hm => hr r hm r (List.mem_singleton_self r) rfl
    obtain ⟨hpar, hwoken, hroused⟩ := ih hl
    simp only [List.foldl_append, List.foldl_cons, List.foldl_nil]
    generalize l.foldl (passChild chan p) (parent, state) = t at hpar hwoken hroused
    have hr1 : t.1 r = parent r := by rw [hpar r, if_neg fun h => hrl h.1]
    unfold passChild
    by_cases hchild : parent r = some p
    · rw [if_pos (hr1.trans hchild)]
      refine ⟨fun q => ?_, ?_, ?_⟩
      · by_cases hq : q = r
        · subst hq
          simp [hchild]
        · simp [hpar q, hq]
      · dsimp only
        split
        · exact hwoken.trans (woken_wakeup1 _ _ _)
        · exact hwoken
      · rintro ⟨z, hz, hzp, hzz⟩
        dsimp only
        split
        · exact roused_wakeup1 _ _ _
        · rename_i hnot
          rcases List.mem_append.mp hz with hz | hz
          · exact hroused ⟨z, hz, hzp, hzz⟩
          · rw [List.mem_singleton.mp hz] at hzz
            exact absurd (hwoken.zombie.mpr hzz) hnot
    · rw [if_neg (by rw [hr1]; exact hchild)]
      refine ⟨fun q => ?_, hwoken, ?_⟩
      · rw [hpar q]
        by_cases hq : q = r
        · subst hq
          simp [hchild]
        · simp [hq]
      · rintro ⟨z, hz, hzp, hzz⟩
        rcases List.mem_append.mp hz with hz | hz
        · exact hroused ⟨z, hz, hzp, hzz⟩
        · rw [List.mem_singleton.mp hz] at hzp
          exact absurd hzp hchild

theorem passChildren_spec (chan : Slot → Option Chan) (p : Slot) (parent : Slot → Option Slot)
    (state : Slot → ProcState) :
    let t := passChildren chan p (parent, state)
    (∀ q, t.1 q = if parent q = some p then some initproc else parent q) ∧
    Woken state t.2 ∧
    ((∃ z, parent z = some p ∧ state z = .zombie) → Roused t.2 chan (some (.proc initproc))) := by
  obtain ⟨hpar, hwoken, hroused⟩ := passChildren_prefix chan p parent state
    (List.finRange NPROC) (List.nodup_finRange _)
  refine ⟨fun q => ?_, hwoken, fun ⟨z, hz⟩ => hroused ⟨z, List.mem_finRange z, hz⟩⟩
  rw [passChildren, hpar q]
  simp

theorem exit_spec {C : Type} (s : State C) (p : Slot) : ∃ parent state, s.exit p = { s with
      parent := parent
      state := update state p .zombie }.goto p .exitSwitch ∧
    (∀ q, parent q = if s.parent q = some p then some initproc else s.parent q) ∧
    Woken s.state state ∧
    Roused state s.chan ((s.parent p).map Chan.proc) ∧
    ((∃ z, s.parent z = some p ∧ s.state z = .zombie) →
      Roused state s.chan (some (.proc initproc))) := by
  have hw := woken_wakeup1 s.state s.chan ((s.parent p).map Chan.proc)
  obtain ⟨hpar, hwoken, hroused⟩ := passChildren_spec s.chan p s.parent
    (wakeup1 s.state s.chan ((s.parent p).map Chan.proc))
  refine ⟨_, _, rfl, hpar, hw.trans hwoken, (roused_wakeup1 _ _ _).mono hwoken, fun ⟨z, hz⟩ => ?_⟩
  exact hroused ⟨z, hz.1, hw.zombie.mpr hz.2⟩

section
variable {C : Type} [DecidableEq C]

inductive Moves (s : State C) : Act C → State C → Prop where
  | start (c : C) (p : Slot) (k : Call) (on : s.On c p) (at_ : s.pc p = .user)
      (ex : p = initproc → k ≠ .exit) : Moves s (.call c k) (s.goto p k.entry)
  | initExits (c : C) (on : s.On c initproc) : Moves s (.call c .exit) { s with panicked := true }
  | timer (c : C) (p : Slot) (on : s.On c p) (free : (s.pc p).holding = false)
      (calm : (s.pc p).calm = true) : Moves s (.timer c) (s.goto p (.yield .acquire (s.pc p)))
  | acquire (c : C) (ok : Bool) (p : Slot) (k : Pc) (on : s.On c p)
      (at_ : (s.pc p).acquires = some k) (free : s.lock = none) :
      Moves s (.run c ok) ({ s with lock := some c }.goto p k)
  | release (c : C) (ok : Bool) (p : Slot) (k : Pc) (on : s.On c p)
      (at_ : (s.pc p).releases = some k) : Moves s (.run c ok) (s.release p k)
  | returns (c : C) (ok : Bool) (p : Slot) (v : Int) (on : s.On c p)
      (at_ : (s.pc p).returns = some v) : Moves s (.run c ok) ({ s with lock := none }.ret p v)
  | switch (c : C) (ok : Bool) (p : Slot) (k : Pc) (on : s.On c p)
      (at_ : (s.pc p).switches = some k) : Moves s (.run c ok) (s.sched c p k)
  | noSlot (c : C) (ok : Bool) (p : Slot) (on : s.On c p) (at_ : s.pc p = .allocFind)
      (none_ : ∀ q, s.state q ≠ .unused) :
      Moves s (.run c ok) (s.goto p (.allocRelease none))
  | found (c : C) (ok : Bool) (p np : Slot) (on : s.On c p) (at_ : s.pc p = .allocFind)
      (unused : s.state np = .unused) : Moves s (.run c ok) ({ s with
        state := update s.state np .embryo
        pid := update s.pid np s.nextpid
        nextpid := wrap (s.nextpid + 1)
        allocs := s.allocs + 1 }.goto p (.allocRelease (some np)))
  | kalloc (c : C) (ok : Bool) (p np : Slot) (on : s.On c p) (at_ : s.pc p = .forkKalloc np) :
      Moves s (.run c ok) ({ s with
        kstack := update s.kstack np (some s.pages)
        pages := s.pages + 1
        pc := update s.pc np .forkret }.goto p (.forkCopy np))
  | kallocFail (c : C) (ok : Bool) (p np : Slot) (on : s.On c p) (at_ : s.pc p = .forkKalloc np) :
      Moves s (.run c ok) ({ s with
        kstack := update s.kstack np none
        state := update s.state np .unused }.ret p (-1))
  | copy (c : C) (ok : Bool) (p np : Slot) (on : s.On c p) (at_ : s.pc p = .forkCopy np) :
      Moves s (.run c ok) ({ s with
        pgdir := update s.pgdir np (some s.pages)
        pages := s.pages + 1 }.goto p (.forkParent np))
  | copyFail (c : C) (ok : Bool) (p np : Slot) (on : s.On c p) (at_ : s.pc p = .forkCopy np) :
      Moves s (.run c ok) ({ s with
        pgdir := update s.pgdir np none
        freed := s.freed ++ (s.kstack np).toList
        kstack := update s.kstack np none
        state := update s.state np .unused }.ret p (-1))
  | setParent (c : C) (ok : Bool) (p np : Slot) (on : s.On c p) (at_ : s.pc p = .forkParent np) :
      Moves s (.run c ok) ({ s with parent := update s.parent np (some p) }.goto p
        (.forkAcquire np (s.pid np)))
  | setRunnable (c : C) (ok : Bool) (p np : Slot) (pid : Int) (on : s.On c p)
      (at_ : s.pc p = .forkSet np pid) : Moves s (.run c ok)
        ({ s with state := update s.state np .runnable }.goto p (.forkRelease pid))
  | exit (c : C) (ok : Bool) (p : Slot) (on : s.On c p) (at_ : s.pc p = .exitBody) :
      Moves s (.run c ok) (s.exit p)
  | zombieExit (c : C) (ok : Bool) (p : Slot) (on : s.On c p) (at_ : s.pc p = .exited) :
      Moves s (.run c ok) { s with panicked := true }
  | reap (c : C) (ok : Bool) (p q : Slot) (on : s.On c p) (at_ : s.pc p = .waitScan)
      (child : s.parent q = some p) (zombie : s.state q = .zombie) : Moves s (.run c ok) ({ s with
        freed := s.freed ++ (s.kstack q).toList ++ (s.pgdir q).toList
        kstack := update s.kstack q none
        pid := update s.pid q 0
        parent := update s.parent q none
        killed := update s.killed q false
        state := update s.state q .unused
        reaped := s.reaped ++ [Reap.mk p q (s.pid q) (s.kstack q) (s.pgdir q)] }.goto p
          (.waitRelease (s.pid q)))
  | waitNone (c : C) (ok : Bool) (p : Slot) (on : s.On c p) (at_ : s.pc p = .waitScan)
      (none_ : ∀ q, s.parent q = some p → s.state q ≠ .zombie)
      (leave : (∀ q, s.parent q ≠ some p) ∨ s.killed p = true) : Moves s (.run c ok)
        (s.goto p (.waitRelease (-1)))
  | waitSleep (c : C) (ok : Bool) (p : Slot) (on : s.On c p) (at_ : s.pc p = .waitScan)
      (none_ : ∀ q, s.parent q = some p → s.state q ≠ .zombie) : Moves s (.run c ok) ({ s with
        chan := update s.chan p (some (.proc p))
        state := update s.state p .sleeping }.goto p .waitSwitch)
  | waitResume (c : C) (ok : Bool) (p : Slot) (on : s.On c p) (at_ : s.pc p = .waitResume) :
      Moves s (.run c ok) ({ s with chan := update s.chan p none }.goto p .waitScan)
  | sleepSet (c : C) (ok : Bool) (p : Slot) (addr : Nat) (on : s.On c p)
      (at_ : s.pc p = .sleepSet addr) : Moves s (.run c ok) ({ s with
        chan := update s.chan p (some (.other addr))
        state := update s.state p .sleeping }.goto p .sleepSwitch)
  | sleepResume (c : C) (ok : Bool) (p : Slot) (on : s.On c p) (at_ : s.pc p = .sleepResume) :
      Moves s (.run c ok) ({ s with chan := update s.chan p none }.goto p .sleepRelease)
  | wake (c : C) (ok : Bool) (p : Slot) (addr : Nat) (on : s.On c p)
      (at_ : s.pc p = .wakeBody addr) : Moves s (.run c ok)
        ({ s with state := wakeup1 s.state s.chan (some (.other addr)) }.goto p .wakeRelease)
  | kill (c : C) (ok : Bool) (p q : Slot) (pid : Int) (on : s.On c p)
      (at_ : s.pc p = .killBody pid) (hit : s.pid q = pid) : Moves s (.run c ok) ({ s with
        killed := update s.killed q true
        state := if s.state q = ProcState.sleeping then update s.state q .runnable
          else s.state }.goto p (.killRelease 0))
  | killNone (c : C) (ok : Bool) (p : Slot) (pid : Int) (on : s.On c p)
      (at_ : s.pc p = .killBody pid) (none_ : ∀ q, s.pid q ≠ pid) :
      Moves s (.run c ok) (s.goto p (.killRelease (-1)))
  | yieldSet (c : C) (ok : Bool) (p : Slot) (k : Pc) (on : s.On c p)
      (at_ : s.pc p = .yield .set k) : Moves s (.run c ok)
        ({ s with state := update s.state p .runnable }.goto p (.yield .switch k))
  | schedAcquire (c : C) (ok : Bool) (at_ : (s.cpu c).pc = .idle) (free : s.lock = none) :
      Moves s (.run c ok)
        { s with lock := some c, cpu := update s.cpu c ⟨none, .scan 0⟩ }
  | schedSkip (c : C) (ok : Bool) (i : Nat) (at_ : (s.cpu c).pc = .scan i) : Moves s (.run c ok)
      { s with cpu := update s.cpu c ⟨none, .scan (i + 1)⟩ }
  | dispatch (c : C) (ok : Bool) (q : Slot) (at_ : (s.cpu c).pc = .scan q)
      (runnable : s.state q = .runnable) : Moves s (.run c ok) { s with
        cpu := update s.cpu c ⟨some q, .proc⟩
        state := update s.state q .running }
  | schedRelease (c : C) (ok : Bool) (i : Nat) (at_ : (s.cpu c).pc = .scan i) :
      Moves s (.run c ok) { s with lock := none, cpu := update s.cpu c ⟨none, .idle⟩ }
  | schedBack (c : C) (ok : Bool) (i : Nat) (at_ : (s.cpu c).pc = .back) : Moves s (.run c ok)
      { s with cpu := update s.cpu c ⟨none, .scan i⟩ }

variable {s : State C} {ok : Bool} {p : Slot}

variable {c : C}

theorem allocproc_moves (on : s.On c p)
    (at_ : s.pc p = .allocFind) : Moves s (.run c ok) (s.allocproc p) := by
  unfold State.allocproc
  split
  · rename_i hfind
    refine .noSlot c ok p on at_ fun q hq => ?_
    have := List.find?_eq_none.mp hfind q (List.mem_finRange q)
    simp [hq] at this
  · rename_i np hfind
    have := List.find?_some hfind
    exact .found c ok p np on at_ (by simpa using this)

theorem findZombie_none {parent : Slot → Option Slot} {state : Slot → ProcState}
    (h : findZombie parent state p = none) (q : Slot) (hq : parent q = some p) :
    state q ≠ .zombie := by
  have := List.find?_eq_none.mp h q (List.mem_finRange q)
  simpa [hq] using this

theorem haveKids_false {parent : Slot → Option Slot} (h : haveKids parent p = false)
    (q : Slot) : parent q ≠ some p := by
  have := List.any_eq_false.mp h q (List.mem_finRange q)
  simpa using this

theorem wait_moves (on : s.On c p) (at_ : s.pc p = .waitScan) : Moves s (.run c ok) (s.wait p) := by
  unfold State.wait
  split
  · rename_i q hfind
    have := List.find?_some hfind
    simp only [Bool.decide_and, Bool.and_eq_true, decide_eq_true_eq] at this
    exact .reap c ok p q on at_ this.1 this.2
  · rename_i hfind
    split
    · rename_i hleave
      exact .waitNone c ok p on at_ (findZombie_none hfind) (hleave.imp_left haveKids_false)
    · exact .waitSleep c ok p on at_ (findZombie_none hfind)

theorem kill_moves {pid : Int} (on : s.On c p)
    (at_ : s.pc p = .killBody pid) : Moves s (.run c ok) (s.kill p pid) := by
  unfold State.kill
  split
  · rename_i q hfind
    have := List.find?_some hfind
    exact .kill c ok p q pid on at_ (by simpa using this)
  · rename_i hfind
    refine .killNone c ok p pid on at_ fun q hq => ?_
    have := List.find?_eq_none.mp hfind q (List.mem_finRange q)
    simp [hq] at this

theorem kalloc_moves {np : Slot} (on : s.On c p)
    (at_ : s.pc p = .forkKalloc np) : Moves s (.run c ok) (s.kalloc p np ok) := by
  unfold State.kalloc
  split
  · exact .kalloc c ok p np on at_
  · exact .kallocFail c ok p np on at_

theorem copyuvm_moves {np : Slot} (on : s.On c p)
    (at_ : s.pc p = .forkCopy np) : Moves s (.run c ok) (s.copyuvm p np ok) := by
  unfold State.copyuvm
  split
  · exact .copy c ok p np on at_
  · exact .copyFail c ok p np on at_

variable {t : State C}

theorem acquire_moves {k : Pc} (on : s.On c p)
    (at_ : (s.pc p).acquires = some k) (h : s.acquire c p k = some t) : Moves s (.run c ok) t := by
  unfold State.acquire at h
  split at h
  · rename_i hl
    cases h
    exact .acquire c ok p k on at_ hl
  · cases h

theorem runProc_moves (on : s.On c p) (h : runProc s c p ok = some t) : Moves s (.run c ok) t := by
  unfold runProc at h
  generalize hpc : s.pc p = k at h
  cases k with
  | yield y k =>
    cases y with
    | acquire => exact acquire_moves on (by rw [hpc]; rfl) h
    | set =>
      cases h
      exact .yieldSet c ok p k on hpc
    | switch =>
      cases h
      exact .switch c ok p _ on (by rw [hpc]; rfl)
    | release =>
      cases h
      exact .release c ok p _ on (by rw [hpc]; rfl)
  | user => cases h
  | allocAcquire | forkAcquire | exitAcquire | waitAcquire | sleepAcquire | wakeAcquire
  | killAcquire =>
    exact acquire_moves on (by rw [hpc]; rfl) h
  | forkret | sleepRelease | wakeRelease =>
    cases h
    exact .release c ok p _ on (by rw [hpc]; rfl)
  | allocRelease np =>
    cases np with
    | none =>
      cases h
      exact .returns c ok p _ on (by rw [hpc]; rfl)
    | some np =>
      cases h
      exact .release c ok p _ on (by rw [hpc]; rfl)
  | forkRelease | waitRelease | killRelease =>
    cases h
    exact .returns c ok p _ on (by rw [hpc]; rfl)
  | exitSwitch | waitSwitch | sleepSwitch =>
    cases h
    exact .switch c ok p _ on (by rw [hpc]; rfl)
  | allocFind =>
    cases h
    exact allocproc_moves on hpc
  | forkKalloc np =>
    cases h
    exact kalloc_moves on hpc
  | forkCopy np =>
    cases h
    exact copyuvm_moves on hpc
  | forkParent np =>
    cases h
    exact .setParent c ok p np on hpc
  | forkSet np pid =>
    cases h
    exact .setRunnable c ok p np pid on hpc
  | exitBody =>
    cases h
    exact .exit c ok p on hpc
  | exited =>
    cases h
    exact .zombieExit c ok p on hpc
  | waitScan =>
    cases h
    exact wait_moves on hpc
  | waitResume =>
    cases h
    exact .waitResume c ok p on hpc
  | sleepSet addr =>
    cases h
    exact .sleepSet c ok p addr on hpc
  | sleepResume =>
    cases h
    exact .sleepResume c ok p on hpc
  | wakeBody addr =>
    cases h
    exact .wake c ok p addr on hpc
  | killBody pid =>
    cases h
    exact kill_moves on hpc

theorem runScheduler_moves (h : runScheduler s c = some t) : Moves s (.run c ok) t := by
  unfold runScheduler at h
  split at h
  · rename_i hpc
    split at h <;> cases h
    exact .schedAcquire c ok hpc (by assumption)
  · rename_i i hpc
    split at h
    · rename_i hi
      split at h <;> cases h
      · exact .dispatch c ok ⟨i, hi⟩ hpc (by assumption)
      · exact .schedSkip c ok i hpc
    · cases h
      exact .schedRelease c ok i hpc
  · rename_i hpc
    split at h <;> cases h
    exact .schedBack c ok _ hpc
  · cases h

theorem step_moves {a : Act C} (h : step s a = some t) : Moves s a t := by
  cases a with
  | run c ok =>
    simp only [step] at h
    split at h
    · cases h
    · split at h
      · rename_i p hon
        exact runProc_moves hon h
      · exact runScheduler_moves h
  | call c k =>
    simp only [step] at h
    split at h
    · cases h
    · split at h
      · rename_i p hon
        split at h
        · rename_i hpc
          split at h
          · split at h <;> cases h
            · rename_i hp
              subst hp
              exact .initExits c hon
            · rename_i hp
              exact .start c p .exit hon hpc fun he => absurd he hp
          · rename_i hk
            cases h
            exact .start c p k hon hpc fun _ => hk
        · cases h
      · cases h
  | timer c =>
    simp only [step] at h
    split at h
    · cases h
    · split at h
      · rename_i p hon
        split at h
        · cases h
        · rename_i hcalm
          split at h <;> cases h
          rename_i hfree
          refine .timer c p hon (by simpa using hfree) ?_
          cases hpc : s.pc p with
          | yield y k => exact absurd hpc (hcalm y k)
          | _ => rfl
      · cases h

end

end BossOs.Proc
