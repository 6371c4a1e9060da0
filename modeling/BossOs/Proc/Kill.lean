import BossOs.Proc.Exclusive

/-!
# Whom `kill` hits

`kill` looks for its argument in `p->pid` of every slot, used or not. A slot that is
UNUSED may still hold a pid: 0 before its first use and after `wait`, the pid of the
last process where `fork` failed. `killed` is cleared by `wait` only, so a flag set on
such a slot, or on a process whose `fork` then fails, stays for the next process.
-/

namespace BossOs.Proc

open Lib
open Function (update update_self update_of_ne)

section
variable {C : Type}

/-- The process table, and for each slot whether `kill` was called with its pid since
that pid was assigned. -/
structure Watched (C : Type) where
  table : State C
  named : Slot → Bool

def State.pcOn (s : State C) (c : C) : Option Pc :=
  match s.cpu c with
  | ⟨some p, .proc⟩ => some (s.pc p)
  | _ => none

def assigns (s t : State C) (q : Slot) : Bool := s.state q = .unused ∧ t.state q = .embryo

def names (s : State C) (a : Act C) (q : Slot) : Bool :=
  match a with
  | .run c _ =>
    match s.pcOn c with
    | some (.killBody pid) => s.pid q = pid
    | _ => false
  | _ => false

/-- Steps at which `killed` cannot go astray: `kill` is not given the pid of an UNUSED
slot, and no `fork` fails after its child was killed. -/
def killOk (s : State C) : Act C → Bool
  | .run c ok =>
    match s.pcOn c with
    | some (.killBody pid) => decide (∀ q, s.pid q = pid → s.state q ≠ .unused)
    | some (.forkKalloc np) | some (.forkCopy np) => ok || !s.killed np
    | _ => true
  | _ => true

variable [DecidableEq C]

def watch (w : Watched C) (a : Act C) : Option (Watched C) :=
  (step w.table a).map fun t =>
    ⟨t, fun q => !assigns w.table t q && (w.named q || names w.table a q)⟩

def Watched.boot (C : Type) : Watched C := ⟨Proc.boot C, fun _ => false⟩

variable {s t : State C} {c : C} {p q : Slot} {ok : Bool}

omit [DecidableEq C] in
theorem State.On.pcOn (on : s.On c p) : s.pcOn c = some (s.pc p) := by
  rw [State.On] at on
  rw [State.pcOn, on]

omit [DecidableEq C] in
theorem names_kill {pid : Int} (on : s.On c p) (at_ : s.pc p = .killBody pid) (hq : s.pid q = pid) :
    names s (.run c ok) q = true := by
  simp only [names, on.pcOn, at_, hq, decide_true]

theorem fork_failed {np : Slot} (on : s.On c p) (at_ : s.pc p = .forkKalloc np ∨ s.pc p = .forkCopy np)
    (h : step s (.run c ok) = some t) (hs : s.state np = .embryo) (ht : t.state np = .unused) :
    ok = false := by
  rw [State.On] at on
  cases ok with
  | false => rfl
  | true =>
    rcases at_ with at_ | at_ <;> simp only [step, on, runProc, at_] at h <;> split at h <;> cases h
    · simp [State.kalloc, State.goto, hs] at ht
    · simp [State.copyuvm, State.goto, hs] at ht

/-- A slot that is UNUSED or EMBRYO after a step: it was before, or was just found by
`allocproc`, or was given back by `fork` or by `wait`. -/
inductive Fresh (s : State C) (a : Act C) (t : State C) (q : Slot) : Prop where
  | same (st : t.state q = s.state q) (flag : t.killed q = s.killed q ∨ names s a q = true)
  | found (st : s.state q = .unused) (st' : t.state q = .embryo) (flag : t.killed q = s.killed q)
  | failed (c : C) (p : Slot) (act : a = .run c false) (on : s.On c p)
      (at_ : s.pc p = .forkKalloc q ∨ s.pc p = .forkCopy q) (flag : t.killed q = s.killed q)
  | reaped (flag : t.killed q = false)

def Settled (state state' : Slot → ProcState) : Prop :=
  ∀ q, state' q = state q ∨ state' q ≠ .unused ∧ state' q ≠ .embryo

theorem Woken.settled {a b : Slot → ProcState} (h : Woken a b) : Settled a b := by
  intro q
  refine (h q).imp_right fun ⟨_, hb⟩ => ?_
  rw [hb]
  exact ⟨ProcState.noConfusion, ProcState.noConfusion⟩

theorem settled_update {a b : Slot → ProcState} (h : Settled a b) {p : Slot} {st : ProcState}
    (h1 : st ≠ .unused) (h2 : st ≠ .embryo) : Settled a (update b p st) := by
  intro q
  by_cases hq : q = p
  · subst hq
    rw [update_self]
    exact Or.inr ⟨h1, h2⟩
  · rw [update_of_ne hq]
    exact h q

variable {a : Act C}

theorem fresh_step (hf : ForkInv s) (h : step s a = some t) {q : Slot}
    (hq : t.state q = .unused ∨ t.state q = .embryo) : Fresh s a t q := by
  have old : t.killed = s.killed → Settled s.state t.state → Fresh s a t q := by
    intro hk hst
    refine .same ?_ (Or.inl (congrFun hk q))
    rcases hst q with he | ⟨h1, h2⟩
    · exact he
    · exact (hq.elim h1 h2).elim
  have fail : ∀ c ok p np, a = .run c ok → s.On c p →
      (s.pc p = .forkKalloc np ∨ s.pc p = .forkCopy np) → t.killed = s.killed →
      t.state = update s.state np .unused → Fresh s a t q := by
    rintro c ok p np rfl on at_ hk hst
    by_cases hqn : q = np
    · subst hqn
      have hs : s.state q = .embryo := by
        rcases at_ with at_ | at_
        · exact hf.embryo p q 0 (by rw [at_]; rfl)
        · exact hf.embryo p q 1 (by rw [at_]; rfl)
      obtain rfl := fork_failed on at_ h hs (by rw [hst, update_self])
      exact .failed c p rfl on at_ (congrFun hk q)
    · refine .same ?_ (Or.inl (congrFun hk q))
      rw [hst, update_of_ne hqn]
  cases step_moves h with
  | found c ok p np on at_ unused =>
    by_cases hqn : q = np
    · subst hqn
      exact .found unused (update_self ..) rfl
    · exact .same (update_of_ne hqn ..) (Or.inl rfl)
  | kallocFail c ok p np on at_ => exact fail c ok p np rfl on (Or.inl at_) rfl rfl
  | copyFail c ok p np on at_ => exact fail c ok p np rfl on (Or.inr at_) rfl rfl
  | reap c ok p z on at_ child zombie =>
    by_cases hqz : q = z
    · subst hqz
      exact .reaped (update_self ..)
    · exact .same (update_of_ne hqz ..) (Or.inl (update_of_ne hqz ..))
  | kill c ok p z pid on at_ hit =>
    have hst := ((woken_kill s.state z).settled q).resolve_right fun hne => hq.elim hne.1 hne.2
    by_cases hqz : q = z
    · subst hqz
      exact .same hst (Or.inr (names_kill on at_ hit))
    · exact .same hst (Or.inl (update_of_ne hqz ..))
  | exit c ok p on at_ =>
    obtain ⟨parent, state, heq, _, hwoken, _⟩ := exit_spec s p
    rw [heq] at hq old ⊢
    exact old rfl (settled_update hwoken.settled ProcState.noConfusion ProcState.noConfusion)
  | wake c ok p addr on at_ => exact old rfl (woken_wakeup1 _ _ _).settled
  | setRunnable c ok p np pid on at_ | waitSleep c ok p on at_ | sleepSet c ok p addr on at_
  | yieldSet c ok p k on at_ | dispatch c ok q at_ runnable =>
    exact old rfl (settled_update (fun _ => Or.inl rfl) ProcState.noConfusion ProcState.noConfusion)
  | _ => exact old rfl fun _ => Or.inl rfl

omit [DecidableEq C] in
theorem used_of_names (hok : killOk s a = true) (hq : names s a q = true) :
    s.state q ≠ .unused := by
  cases a with
  | run c ok =>
    simp only [names] at hq
    split at hq
    · rename_i pid hpc
      simp only [killOk, hpc, decide_eq_true_eq] at hok
      exact hok q (of_decide_eq_true hq)
    · cases hq
  | call c k => cases hq
  | timer c => cases hq

omit [DecidableEq C] in
theorem unkilled_of_failed (hok : killOk s (.run c false) = true) (on : s.On c p)
    (at_ : s.pc p = .forkKalloc q ∨ s.pc p = .forkCopy q) : s.killed q = false := by
  rcases at_ with at_ | at_ <;> simpa [killOk, on.pcOn, at_] using hok

structure KillInv (w : Watched C) : Prop where
  unused : ∀ q, w.table.state q = .unused → w.table.killed q = false
  embryo : ∀ q, w.table.state q = .embryo → w.table.killed q = true → w.named q = true

omit [DecidableEq C] in
theorem killInv_boot : KillInv (Watched.boot C) := ⟨fun _ _ => rfl, fun _ _ h => by cases h⟩

theorem killInv_step {w w' : Watched C} (hf : ForkInv w.table) (h : KillInv w)
    (hok : killOk w.table a = true) (hstep : watch w a = some w') : KillInv w' := by
  obtain ⟨t, ht, rfl⟩ := Option.map_eq_some_iff.mp hstep
  constructor
  · intro q hq
    rcases fresh_step hf ht (Or.inl hq) with ⟨st, flag⟩ | ⟨-, st', -⟩ | ⟨c, p, rfl, on, at_, flag⟩ |
      flag
    · have hs : w.table.state q = .unused := st.symm.trans hq
      rcases flag with flag | hname
      · exact flag.trans (h.unused q hs)
      · exact absurd hs (used_of_names hok hname)
    · rw [hq] at st'
      cases st'
    · exact flag.trans (unkilled_of_failed hok on at_)
    · exact flag
  · intro q hq hk
    have unkilled : t.killed q = false → False := fun hn => by
      rw [hk] at hn
      cases hn
    rcases fresh_step hf ht (Or.inr hq) with ⟨st, flag⟩ | ⟨st, -, flag⟩ | ⟨c, p, rfl, on, at_, flag⟩ |
      flag
    · have hs : w.table.state q = .embryo := st.symm.trans hq
      have hname : (w.named q || names w.table a q) = true := by
        rcases flag with flag | hname
        · rw [h.embryo q hs (flag.symm.trans hk), Bool.true_or]
        · rw [hname, Bool.or_true]
      simp only [assigns, hs, hname, reduceCtorEq, false_and, decide_false, Bool.not_false,
        Bool.and_true]
    · exact (unkilled (flag.trans (h.unused q st))).elim
    · exact (unkilled (flag.trans (unkilled_of_failed hok on at_))).elim
    · exact (unkilled flag).elim

theorem killInv_of_run {acts : List (Act C)} {w : Watched C}
    (h : Run (fun w a => killOk w.table a = true) watch (Watched.boot C) acts w) :
    (ControlInv w.table ∧ ForkInv w.table) ∧ KillInv w := by
  refine Run.invariant (I := fun w => (ControlInv w.table ∧ ForkInv w.table) ∧ KillInv w) ?_ h
    ⟨⟨controlInv_boot, forkInv_boot⟩, killInv_boot⟩
  rintro w a w' ⟨⟨hc, hf⟩, hk⟩ hok hs
  have hk' := killInv_step hf hk hok hs
  obtain ⟨t, ht, rfl⟩ := Option.map_eq_some_iff.mp hs
  exact ⟨⟨controlInv_step hc hf ht, forkInv_step hc hf ht⟩, hk'⟩

theorem killed_step (h : step s a = some t) (q : Slot) :
    t.killed q = s.killed q ∨ names s a q = true ∨ t.killed q = false := by
  cases step_moves h with
  | kill c ok p z pid on at_ hit =>
    by_cases hqz : q = z
    · subst hqz
      exact Or.inr (Or.inl (names_kill on at_ hit))
    · exact Or.inl (update_of_ne hqz ..)
  | reap c ok p z on at_ child zombie =>
    by_cases hqz : q = z
    · subst hqz
      exact Or.inr (Or.inr (update_self ..))
    · exact Or.inl (update_of_ne hqz ..)
  | _ => exact Or.inl rfl

theorem kill_found {pid : Int} (on : s.On c p) (at_ : s.pc p = .killBody pid)
    (h : step s (.run c ok) = some t) (h0 : t.pc p = .killRelease 0) : ∃ q, s.pid q = pid := by
  by_contra hno
  rw [State.On] at on
  simp only [step, on, runProc, at_, State.kill] at h
  split at h
  · cases h
  · split at h
    · rename_i q hq
      have hf := List.find?_some hq
      exact hno ⟨q, by simpa using hf⟩
    · cases h
      simp [State.goto] at h0

theorem kill_hits_its_process {acts : List (Act C)} {w w' : Watched C} {a : Act C}
    (h : Run (fun w a => killOk w.table a = true) watch (Watched.boot C) acts w)
    (hok : killOk w.table a = true) (hstep : watch w a = some w') :
    (∀ c ok p pid, a = .run c ok → w.table.On c p → w.table.pc p = .killBody pid →
      w'.table.pc p = .killRelease 0 → ∃ q, w.table.state q ≠ .unused ∧ w.table.pid q = pid) ∧
    ∀ q, w.table.state q = .embryo → w'.table.state q = .runnable →
      w'.table.killed q = false ∨ w'.named q = true := by
  obtain ⟨-, hinv⟩ := killInv_of_run h
  obtain ⟨t, ht, rfl⟩ := Option.map_eq_some_iff.mp hstep
  constructor
  · rintro c ok p pid rfl on at_ h0
    obtain ⟨q, hq⟩ := kill_found on at_ ht h0
    exact ⟨q, used_of_names hok (names_kill on at_ hq), hq⟩
  · intro q hs hr
    rw [or_iff_not_imp_left, Bool.not_eq_false]
    intro hk
    have hname : (w.named q || names w.table a q) = true := by
      rcases killed_step ht q with hsame | hname | hclear
      · rw [hinv.embryo q hs (hsame.symm.trans hk), Bool.true_or]
      · rw [hname, Bool.or_true]
      · rw [hk] at hclear
        cases hclear
    simp only [assigns, hs, hname, reduceCtorEq, false_and, decide_false, Bool.not_false, Bool.and_true]

end

def killChild : List (Act Unit) :=
  List.replicate 3 (.run () true) ++ [.call () .fork] ++ List.replicate 9 (.run () true) ++
    [.call () (.kill 2), .run () true]

theorem kill_hits_its_process_child : ∃ w w' : Watched Unit,
    Run (fun w a => killOk w.table a = true) watch (Watched.boot Unit) killChild w ∧
    watch w (.run () true) = some w' ∧ w'.table.pc initproc = .killRelease 0 ∧
    ∃ q, w.table.state q ≠ .unused ∧ w.table.pid q = 2 := by
  obtain ⟨w, hw, hf⟩ : ∃ w : Watched Unit,
      Run (fun w a => killOk w.table a = true) watch (Watched.boot Unit) killChild w ∧
      (w.table.cpu (), w.table.pc initproc, killOk w.table (.run () true),
        (watch w (.run () true)).map fun w' => w'.table.pc initproc) =
      (⟨some initproc, .proc⟩, .killBody 2, true, some (.killRelease 0)) :=
    Run.of_exec_map (by decide +kernel)
  simp only [Prod.mk.injEq, Option.map_eq_some_iff] at hf
  obtain ⟨hon, hpc, hok, w', hw', h0⟩ := hf
  exact ⟨w, w', hw, hw', h0,
    (kill_hits_its_process hw hok hw').1 () true initproc 2 rfl hon hpc h0⟩

def killZero : List (Act Unit) :=
  List.replicate 3 (.run () true) ++ [.call () (.kill 0), .run () true]

/-- `kill(0)` returns 0 although no process has that pid, and the next child of init is
killed from the start, although its pid was never named. -/
theorem kill_zero_hits_next_child :
    (∃ w w' : Watched Unit, Run (fun _ _ => True) watch (Watched.boot Unit) killZero w ∧
      w.table.On () initproc ∧ w.table.pc initproc = .killBody 0 ∧
      watch w (.run () true) = some w' ∧ w'.table.pc initproc = .killRelease 0 ∧
      ∀ q, w.table.state q ≠ .unused → w.table.pid q ≠ 0) ∧
    ∃ w w' : Watched Unit, Run (fun _ _ => True) watch (Watched.boot Unit)
        (killZero ++ List.replicate 2 (.run () true) ++ [.call () .fork] ++
          List.replicate 7 (.run () true)) w ∧
      watch w (.run () true) = some w' ∧ w.table.state firstChild = .embryo ∧
      w'.table.state firstChild = .runnable ∧ w'.table.killed firstChild = true ∧
      w'.named firstChild = false := by
  constructor
  · obtain ⟨w, hw, hf⟩ : ∃ w : Watched Unit,
        Run (fun _ _ => True) watch (Watched.boot Unit) killZero w ∧
        (w.table.cpu (), w.table.pc initproc,
          (watch w (.run () true)).map fun w' => w'.table.pc initproc,
          decide (∀ q, w.table.state q ≠ .unused → w.table.pid q ≠ 0)) =
        (⟨some initproc, .proc⟩, .killBody 0, some (.killRelease 0), true) :=
      Run.of_exec_map (by decide +kernel)
    simp only [Prod.mk.injEq, Option.map_eq_some_iff, decide_eq_true_eq] at hf
    obtain ⟨hon, hpc, ⟨w', hw', h0⟩, hno⟩ := hf
    exact ⟨w, w', hw, hon, hpc, hw', h0, hno⟩
  · obtain ⟨w, hw, hf⟩ : ∃ w : Watched Unit, Run (fun _ _ => True) watch (Watched.boot Unit)
          (killZero ++ List.replicate 2 (.run () true) ++ [.call () .fork] ++
            List.replicate 7 (.run () true)) w ∧
        (w.table.state firstChild, (watch w (.run () true)).map fun w' =>
          (w'.table.state firstChild, w'.table.killed firstChild, w'.named firstChild)) =
        (.embryo, some (.runnable, true, false)) :=
      Run.of_exec_map (by decide +kernel)
    simp only [Prod.mk.injEq, Option.map_eq_some_iff] at hf
    obtain ⟨hs, w', hw', hr, hk, hn⟩ := hf
    exact ⟨w, w', hw, hw', hs, hr, hk, hn⟩

end BossOs.Proc
