import BossOs.Lib.Transition
import BossOs.Params
import Mathlib.Data.Finset.Card
import Mathlib.Data.Fintype.Card

/-!
# Interrupts and spin locks

`acquire`, `release`, `holding`, `pushcli` and `popcli` of `spinlock.c` on one CPU, statement by
statement: interrupts are off or on between any two of them. `pcs` and `name`, which are there
for debugging, are left out.
-/

namespace BossOs.Spinlock

open Lib
open Function (update update_self update_of_ne)

abbrev Lock := Fin (2 ^ 32 / 52)

abbrev Cpu := Fin NCPU

structure State where
  /-- `FL_IF` of the CPU's `eflags`. -/
  interruptible : Bool
  ncli : Int32
  intena : Bool
  locked : Lock → Bool
  cpu : Lock → Option Cpu
  /-- The locks that this CPU has set and not yet cleared. -/
  held : Finset Lock
  /-- The variable of `pushcli`. -/
  eflags : Bool
  /-- What `holding` returns. -/
  r : Bool

inductive Stuck where
  | acquire
  | release
  | popcliInterruptible
  | popcli
  | mycpu
  /-- `xchg` finds the lock set by another CPU. -/
  | spins
  deriving DecidableEq

inductive Stmt where
  | readeflags
  | cli
  | saveIntena
  | incNcli
  | checkIf
  | decNcli
  | sti
  | look (lk : Lock)
  | panicIfHolding
  | panicUnlessHolding
  | xchg (lk : Lock)
  | setCpu (lk : Lock)
  | clearCpu (lk : Lock)
  | unlock (lk : Lock)

def pushcli : List Stmt := [.readeflags, .cli, .saveIntena, .incNcli]

def popcli : List Stmt := [.checkIf, .decNcli, .sti]

def holding (lk : Lock) : List Stmt := pushcli ++ (.look lk :: popcli)

def acquire (lk : Lock) : List Stmt :=
  pushcli ++ (holding lk ++ [.panicIfHolding, .xchg lk, .setCpu lk])

def release (lk : Lock) : List Stmt :=
  holding lk ++ (.panicUnlessHolding :: .clearCpu lk :: .unlock lk :: popcli)

def mycpu (s t : State) : Except Stuck State :=
  if s.interruptible then .error .mycpu else .ok t

def exec (me : Cpu) (s : State) : Stmt → Except Stuck State
  | .readeflags => .ok { s with eflags := s.interruptible }
  | .cli => .ok { s with interruptible := false }
  | .saveIntena => mycpu s { s with intena := if s.ncli = 0 then s.eflags else s.intena }
  | .incNcli => mycpu s { s with ncli := s.ncli + 1 }
  | .checkIf => if s.interruptible then .error .popcliInterruptible else .ok s
  | .decNcli =>
    if s.ncli - 1 < 0 then .error .popcli else mycpu s { s with ncli := s.ncli - 1 }
  | .sti => mycpu s { s with interruptible := s.interruptible || (s.ncli = 0 && s.intena) }
  | .look lk => mycpu s { s with r := s.locked lk && s.cpu lk = some me }
  | .panicIfHolding => if s.r then .error .acquire else .ok s
  | .panicUnlessHolding => if s.r then .ok s else .error .release
  | .xchg lk =>
    if s.locked lk then .error .spins
    else .ok { s with locked := update s.locked lk true, held := insert lk s.held }
  | .setCpu lk => mycpu s { s with cpu := update s.cpu lk (some me) }
  | .clearCpu lk => .ok { s with cpu := update s.cpu lk none }
  | .unlock lk =>
    .ok { s with locked := update s.locked lk false, held := s.held.erase lk }

def run (me : Cpu) : List Stmt → State → Except Stuck State
  | [], s => .ok s
  | c :: cs, s => (exec me s c).bind (run me cs)

section Along

variable {me : Cpu} {P Q : State → Prop} {s t : State} {c : Stmt} {cs ds : List Stmt}

/-- The code runs to its end, where `Q` holds; `P` holds before and after each statement. -/
def Along (me : Cpu) (P Q : State → Prop) : List Stmt → State → Prop
  | [], s => P s ∧ Q s
  | c :: cs, s => P s ∧ ∃ t, exec me s c = .ok t ∧ Along me P Q cs t

theorem Along.cons (hs : P s) (hc : exec me s c = .ok t) (h : Along me P Q cs t) :
    Along me P Q (c :: cs) s :=
  ⟨hs, t, hc, h⟩

theorem Along.append (h : Along me P (Along me P Q ds) cs s) : Along me P Q (cs ++ ds) s := by
  induction cs generalizing s with
  | nil => exact h.2
  | cons c cs ih =>
    obtain ⟨hs, t, hc, ht⟩ := h
    exact .cons hs hc (ih ht)

theorem Along.run_take (h : Along me P Q cs s) (n : Nat) :
    ∃ t, run me (cs.take n) s = .ok t ∧ P t := by
  induction cs generalizing s n with
  | nil =>
    rw [List.take_nil]
    exact ⟨s, rfl, h.1⟩
  | cons c cs ih =>
    obtain ⟨hs, t, hc, ht⟩ := h
    cases n with
    | zero => exact ⟨s, rfl, hs⟩
    | succ n =>
      rw [List.take_succ_cons, run, hc]
      exact ih ht n

theorem Along.run_all (h : Along me P Q cs s) : ∃ t, run me cs s = .ok t ∧ Q t := by
  induction cs generalizing s with
  | nil => exact ⟨s, rfl, h.2⟩
  | cons c cs ih =>
    obtain ⟨-, t, hc, ht⟩ := h
    rw [run, hc]
    exact ih ht

end Along

/-- `k` calls of `pushcli` are open, and interrupts were as in `b` before the first of them. -/
structure Nested (b : Bool) (k : Nat) (s : State) : Prop where
  ncli : s.ncli = Int32.ofNat k
  lt : k < 2 ^ 31
  outermost : k = 0 → s.interruptible = b
  off : 0 < k → s.interruptible = false
  intena : 0 < k → s.intena = b

def Quiet (s : State) : Prop := s.held.Nonempty → s.interruptible = false

def State.pushed (s : State) : State :=
  { s with eflags := s.interruptible, interruptible := false, ncli := s.ncli + 1,
           intena := if s.ncli = 0 then s.interruptible else s.intena }

def State.popped (s : State) : State :=
  { s with ncli := s.ncli - 1, interruptible := s.ncli - 1 = 0 && s.intena }

theorem ofNat_eq_zero {k : Nat} (h : k < 2 ^ 31) : Int32.ofNat k = 0 ↔ k = 0 := by
  rw [← Int32.toInt_inj, Int32.toInt_ofNat_of_lt h, Int32.toInt_zero]
  omega

theorem ofNat_succ_sub (k : Nat) : Int32.ofNat (k + 1) - 1 = Int32.ofNat k := by
  rw [Int32.ofNat_add]
  exact Int32.add_sub_cancel ..

theorem not_ofNat_neg {k : Nat} (h : k < 2 ^ 31) : ¬ Int32.ofNat k < 0 := by
  rw [Int32.lt_iff_toInt_lt, Int32.toInt_ofNat_of_lt h, Int32.toInt_zero]
  omega

section Nested

variable {me : Cpu} {Q : State → Prop} {s : State} {b : Bool} {k : Nat}

theorem Nested.quiet (h : Nested b k s) (hk : 0 < k) : Quiet s := fun _ => h.off hk

theorem Nested.quiet_of_card (h : Nested b k s) (hk : s.held.card ≤ k) : Quiet s :=
  fun hne => h.off (Nat.lt_of_lt_of_le hne.card_pos hk)

theorem Nested.pushed (h : Nested b k s) (hk : k + 1 < 2 ^ 31) : Nested b (k + 1) s.pushed := by
  refine ⟨?_, hk, fun h0 => by omega, fun _ => rfl, fun _ => ?_⟩
  · rw [Int32.ofNat_add, ← h.ncli]
    rfl
  · change (if s.ncli = 0 then s.interruptible else s.intena) = b
    rw [h.ncli]
    simp only [ofNat_eq_zero h.lt]
    split
    · exact h.outermost ‹_›
    · exact h.intena (Nat.pos_of_ne_zero ‹_›)

theorem Nested.popped (h : Nested b (k + 1) s) : Nested b k s.popped := by
  have hlt : k < 2 ^ 31 := Nat.lt_of_succ_lt h.lt
  have hncli : s.ncli - 1 = Int32.ofNat k := by rw [h.ncli, ofNat_succ_sub]
  have hintena : s.intena = b := h.intena (Nat.succ_pos k)
  refine ⟨hncli, hlt, ?_, ?_, fun _ => hintena⟩
  · rintro rfl
    change (decide (s.ncli - 1 = 0) && s.intena) = b
    rw [hncli, hintena]
    rfl
  · intro hk
    change (decide (s.ncli - 1 = 0) && s.intena) = false
    rw [hncli, decide_eq_false (by rw [ofNat_eq_zero hlt]; omega)]
    rfl

theorem along_pushcli (hs : Quiet s) (hQ : Q s.pushed) : Along me Quiet Q pushcli s :=
  .cons hs rfl (.cons hs rfl (.cons (fun _ => rfl) rfl (.cons (fun _ => rfl) rfl
    ⟨fun _ => rfl, hQ⟩)))

theorem along_popcli (h : Nested b (k + 1) s) (hk : s.held.card ≤ k) (hQ : Q s.popped) :
    Along me Quiet Q popcli s := by
  have hoff : s.interruptible = false := h.off (Nat.succ_pos k)
  have hquiet : Quiet s := h.quiet (Nat.succ_pos k)
  have hsub : ¬ s.ncli - 1 < 0 := by
    rw [h.ncli, ofNat_succ_sub]
    exact not_ofNat_neg (Nat.lt_of_succ_lt h.lt)
  refine .cons hquiet (t := s) ?_ (.cons hquiet (t := { s with ncli := s.ncli - 1 }) ?_
    (.cons hquiet (t := s.popped) ?_ ⟨h.popped.quiet_of_card hk, hQ⟩))
  · rw [exec, hoff]
    rfl
  · rw [exec, if_neg hsub, mycpu, hoff]
    rfl
  · rw [exec, mycpu, hoff]
    rfl

theorem along_holding {lk : Lock} (h : Nested b k s) (hk : s.held.card ≤ k) (hlt : k + 1 < 2 ^ 31)
    (hQ : ∀ t, Nested b k t → t.held = s.held → t.locked = s.locked → t.cpu = s.cpu →
      t.r = (s.locked lk && s.cpu lk = some me) → Q t) : Along me Quiet Q (holding lk) s := by
  apply Along.append
  apply along_pushcli (h.quiet_of_card hk)
  have hpush := h.pushed hlt
  refine .cons (hpush.quiet (Nat.succ_pos k)) rfl ?_
  have hlook : Nested b (k + 1) { s.pushed with r := s.locked lk && s.cpu lk = some me } :=
    ⟨hpush.ncli, hpush.lt, hpush.outermost, hpush.off, hpush.intena⟩
  exact along_popcli hlook hk (hQ _ hlook.popped rfl rfl rfl rfl)

end Nested

inductive Call where
  | acquire (lk : Lock)
  | release (lk : Lock)
  deriving DecidableEq

def body : Call → List Stmt
  | .acquire lk => acquire lk
  | .release lk => release lk

def step (me : Cpu) (s : State) (c : Call) : Option State := (run me (body c) s).toOption

def Balanced (s : State) : Call → Prop
  | .acquire lk => lk ∉ s.held ∧ s.locked lk = false
  | .release lk => lk ∈ s.held

instance (s : State) (c : Call) : Decidable (Balanced s c) :=
  match c with
  | .acquire lk => inferInstanceAs (Decidable (lk ∉ s.held ∧ s.locked lk = false))
  | .release lk => inferInstanceAs (Decidable (lk ∈ s.held))

structure Inv (me : Cpu) (b : Bool) (s : State) : Prop where
  nested : Nested b s.held.card s
  mine : ∀ lk, lk ∈ s.held → s.locked lk = true ∧ s.cpu lk = some me

section Calls

variable {me : Cpu} {s : State} {b : Bool}

theorem card_held (s : State) : s.held.card + 2 < 2 ^ 31 := by
  have hcard := Finset.card_le_univ s.held
  rw [Fintype.card_fin] at hcard
  omega

theorem Inv.acquire {lk : Lock} (h : Inv me b s) (hlk : lk ∉ s.held) (hfree : s.locked lk = false) :
    Along me Quiet (Inv me b) (acquire lk) s := by
  have hcard := card_held s
  apply Along.append
  apply along_pushcli (h.nested.quiet_of_card (Nat.le_refl _))
  have hpush := h.nested.pushed (by omega)
  apply Along.append
  refine along_holding hpush (Nat.le_succ _) (by omega) ?_
  rintro t ht hheld hlocked hcpu hr
  have hr' : t.r = false := by
    rw [hr]
    change (s.locked lk && _) = false
    rw [hfree, Bool.false_and]
  have hquiet := ht.quiet (Nat.succ_pos _)
  have hfree' : t.locked lk = false := by
    rw [hlocked]
    exact hfree
  have hcard' : (insert lk t.held).card = s.held.card + 1 := by
    rw [hheld]
    exact Finset.card_insert_of_notMem hlk
  refine .cons hquiet (t := t) ?_ (.cons hquiet (t := { t with
    locked := update t.locked lk true, held := insert lk t.held }) ?_ ?_)
  · rw [exec, hr']
    rfl
  · rw [exec, hfree']
    rfl
  refine .cons (fun _ => ht.off (Nat.succ_pos _)) (t := { t with
    locked := update t.locked lk true, held := insert lk t.held,
    cpu := update t.cpu lk (some me) }) ?_ ⟨fun _ => ht.off (Nat.succ_pos _), ?_, ?_⟩
  · rw [exec, mycpu]
    change (if t.interruptible = true then _ else _) = _
    rw [ht.off (Nat.succ_pos _)]
    rfl
  · rw [hcard']
    exact ⟨ht.ncli, ht.lt, ht.outermost, ht.off, ht.intena⟩
  · intro l hl
    change update t.locked lk true l = true ∧ update t.cpu lk (some me) l = some me
    by_cases hl' : l = lk
    · subst hl'
      rw [update_self, update_self]
      exact ⟨rfl, rfl⟩
    · rw [update_of_ne hl', update_of_ne hl', hlocked, hcpu]
      rw [hheld] at hl
      exact h.mine l (Finset.mem_of_mem_insert_of_ne hl hl')

theorem Inv.release {lk : Lock} (h : Inv me b s) (hlk : lk ∈ s.held) :
    Along me Quiet (Inv me b) (release lk) s := by
  have hcard := card_held s
  apply Along.append
  refine along_holding h.nested (Nat.le_refl _) (by omega) ?_
  rintro t ht hheld hlocked hcpu hr
  obtain ⟨hset, hme⟩ := h.mine lk hlk
  have hr' : t.r = true := by
    rw [hr, hset, hme]
    simp
  obtain ⟨k, hk⟩ : ∃ k, s.held.card = k + 1 :=
    Nat.exists_eq_succ_of_ne_zero (Finset.card_ne_zero_of_mem hlk)
  rw [hk] at ht
  have hquiet := ht.quiet (Nat.succ_pos k)
  have hcard' : (t.held.erase lk).card = k := by
    rw [hheld, Finset.card_erase_of_mem hlk, hk]
    rfl
  refine .cons hquiet (t := t) ?_ (.cons hquiet (t := { t with cpu := update t.cpu lk none }) rfl
    (.cons hquiet rfl ?_))
  · rw [exec, hr']
    rfl
  have hopen : Nested b (k + 1) { t with
      cpu := update t.cpu lk none, locked := update t.locked lk false,
      held := t.held.erase lk } :=
    ⟨ht.ncli, ht.lt, ht.outermost, ht.off, ht.intena⟩
  refine along_popcli hopen (Nat.le_of_eq hcard') ⟨?_, ?_⟩
  · rw [show State.held _ = t.held.erase lk from rfl, hcard']
    exact hopen.popped
  · intro l hl
    change update t.locked lk false l = true ∧ update t.cpu lk none l = some me
    obtain ⟨hne, hl⟩ := Finset.mem_erase.mp hl
    rw [update_of_ne hne, update_of_ne hne, hlocked, hcpu]
    rw [hheld] at hl
    exact h.mine l hl

theorem Inv.call {c : Call} (h : Inv me b s) (hc : Balanced s c) :
    Along me Quiet (Inv me b) (body c) s := by
  cases c with
  | acquire lk => exact h.acquire hc.1 hc.2
  | release lk => exact h.release hc

structure Start (s : State) : Prop where
  ncli : s.ncli = 0
  held : s.held = ∅

/-- Between calls `ncli` counts the locks held, interrupts are off if there is one and as at the
start if there is none; the next call does not panic, and interrupts are off whenever a lock is
held in it. -/
theorem interrupts_restored {s₀ s : State} {calls : List Call} (h₀ : Start s₀)
    (h : Run Balanced (step me) s₀ calls s) :
    s.ncli.toInt = s.held.card ∧ (s.held.Nonempty → s.interruptible = false) ∧
    (s.held = ∅ → s.interruptible = s₀.interruptible) ∧
    ∀ c, Balanced s c → (step me s c).isSome ∧ ∀ n, ∃ t, run me ((body c).take n) s = .ok t ∧
      (t.held.Nonempty → t.interruptible = false) := by
  have hinit : Inv me s₀.interruptible s₀ := by
    refine ⟨?_, fun lk hlk => ?_⟩
    · rw [h₀.held]
      exact ⟨h₀.ncli, by decide, fun _ => rfl, fun hk => absurd hk (Nat.lt_irrefl 0),
        fun hk => absurd hk (Nat.lt_irrefl 0)⟩
    · rw [h₀.held] at hlk
      exact absurd hlk (Finset.notMem_empty lk)
  have hinv : Inv me s₀.interruptible s := by
    refine h.invariant ?_ hinit
    intro s c t hs hc hstep
    obtain ⟨u, hrun, hu⟩ := (hs.call hc).run_all
    rw [step, hrun] at hstep
    cases hstep
    exact hu
  refine ⟨?_, hinv.nested.quiet_of_card (Nat.le_refl _), ?_, ?_⟩
  · rw [hinv.nested.ncli]
    exact Int32.toInt_ofNat_of_lt hinv.nested.lt
  · intro hno
    exact hinv.nested.outermost (Finset.card_eq_zero.mpr hno)
  · intro c hc
    obtain ⟨u, hrun, -⟩ := (hinv.call hc).run_all
    refine ⟨?_, (hinv.call hc).run_take⟩
    rw [step, hrun]
    rfl

end Calls

def startState : State := ⟨true, 0, false, fun _ => false, fun _ => none, ∅, false, false⟩

def cpu0 : Cpu := ⟨0, by decide⟩
def lock1 : Lock := ⟨1, by decide⟩
def lock2 : Lock := ⟨2, by decide⟩

theorem interrupts_restored_crossed : ∃ s, Run Balanced (step cpu0) startState
      [.acquire lock1, .acquire lock2, .release lock1] s ∧
    (s.ncli, s.intena) = (1, true) ∧ s.ncli.toInt = s.held.card := by
  have hexec : (Lib.exec Balanced (step cpu0) startState
      [.acquire lock1, .acquire lock2, .release lock1]).map (fun s => (s.ncli, s.intena)) =
      some (1, true) := by decide +kernel
  obtain ⟨s, hrun, hs⟩ := Run.of_exec_map hexec
  exact ⟨s, hrun, hs, (interrupts_restored ⟨rfl, rfl⟩ hrun).1⟩

end BossOs.Spinlock
