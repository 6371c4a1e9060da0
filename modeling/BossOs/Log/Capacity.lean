import Mathlib.Data.Set.Card
import BossOs.Log.Absorb

/-!
# The capacity of the log

`log_write` compares `log.lh.n` with `log.size - 1` before it takes `log.lock`, and
it does so even for a block that is already listed. `begin_op` reserves room for
`LOGSIZE` blocks, one more than `log.size - 1` when `log.size` is `LOGSIZE`.
-/

namespace BossOs.Log

open Lib
open Function (update update_self update_of_ne)

variable {P : Type}

def State.used (s : State P) (o : Nat) : List Nat :=
  ((s.cur.filter fun w => w.op = o).map Write.blockno).dedup

/-- No operation logs more than `n` distinct blocks, however often it logs them. -/
def Moderate (n : Nat) (s : State P) : Act P → Prop
  | .write p b _ => b ∉ s.used (s.op p) → (s.used (s.op p)).length < n
  | _ => True

instance (n : Nat) (s : State P) (a : Act P) : Decidable (Moderate n s a) :=
  match a with
  | .write p b _ => inferInstanceAs (Decidable (b ∉ s.used (s.op p) → _ < n))
  | .begin _ | .finish _ | .run _ | .kill _ => .isTrue trivial

def Pc.checks : Pc → Bool
  | .logCheck _ => true
  | _ => false

variable {p : P}

def enter (p : Fin 3) : List (Act (Fin 3)) := [.begin p, .run p, .run p, .run p]

def logBlocks (p : Fin 3) (b n : Nat) : List (Act (Fin 3)) :=
  (List.range n).flatMap fun i => [.write p (b + i) Bytes.zero, .run p, .run p, .run p, .run p]

variable {a : Act P}

section TooBig
variable [DecidableEq P] {g : Geometry} {d : Nat → Block} {s t : State P}

theorem tooBig_of_step (h : step g s a = some t) (ht : t.stop = some .tooBig) :
    ∃ p b, a = .run p ∧ s.pc p = .logCheck b ∧
      (s.lh.length ≥ LOGSIZE ∨ s.lh.length ≥ g.size - 1) := by
  obtain ⟨hs, hm⟩ := step_moves h
  cases hm with
  | tooBig p b at_ full => exact ⟨p, b, rfl, at_, full⟩
  | outsideTrans | overrun | logCommitting => cases ht
  | _ =>
    change s.stop = _ at ht
    rw [hs] at ht
    cases ht

end TooBig

/-- Twenty-nine blocks are logged, ten by each of two operations and nine by the third. -/
def twentyNine : List (Act (Fin 3)) :=
  enter 0 ++ enter 1 ++ enter 2 ++ logBlocks 0 100 10 ++ logBlocks 1 110 10 ++ logBlocks 2 120 9

theorem tenth_block_stops : ∃ s : State (Fin 3), Run (Moderate MAXOPBLOCKS) (step ⟨2, LOGSIZE⟩)
    (init (Fin 3) fun _ => Bytes.zero) (twentyNine ++ [.write 2 129 Bytes.zero, .run 2]) s ∧
    s.stop = some .tooBig :=
  Run.of_exec_map (f := State.stop) (by decide +kernel)

/-- The third operation may not log its tenth block, nor any block a second time. -/
theorem reservation_one_short : (∃ s : State (Fin 3), Run (Moderate MAXOPBLOCKS) (step ⟨2, LOGSIZE⟩)
      (init (Fin 3) fun _ => Bytes.zero) (twentyNine ++ [.write 2 129 Bytes.zero, .run 2]) s ∧
      s.stop = some .tooBig) ∧ ∃ s : State (Fin 3), Run (Moderate MAXOPBLOCKS) (step ⟨2, LOGSIZE⟩)
      (init (Fin 3) fun _ => Bytes.zero) (twentyNine ++ [.write 2 128 Bytes.zero, .run 2]) s ∧
      s.stop = some .tooBig :=
  ⟨tenth_block_stops, Run.of_exec_map (f := State.stop) (by decide +kernel)⟩

variable {k : Pc}

namespace Pc

def checked : Pc → Option Nat
  | .logAcquire b | .logAppend b => some b
  | _ => none

variable {k' : Pc}

theorem acquires_checked (h : k.acquires = some k') : k'.checked = k.checked := by
  cases k <;> cases h <;> rfl

theorem acquiresPtable_checked (h : k.acquiresPtable = some k') : k'.checked = k.checked := by
  cases k <;> cases h <;> rfl

theorem releases_checked (h : k.releases = some k') : k'.checked = none := by
  cases k with
  | endRelease c =>
    cases h
    cases c <;> rfl
  | _ => cases h <;> rfl

theorem releasesPtable_checked (h : k.releasesPtable = some k') : k'.checked = none := by
  cases k <;> cases h <;> rfl

theorem wakes_checked (h : k.wakes = some k') : k'.checked = none := by
  cases k <;> cases h <;> rfl

end Pc

def State.claimed (s : State P) : Set Nat :=
  {b | b ∈ s.lh ∨ ∃ q, (s.pc q).checked = some b}

/-- A `log_write` that passes its check finds room for its block beside every block
claimed before. -/
def Reserved (g : Geometry) (s : State P) : Act P → Prop
  | .run p => ∀ b, s.pc p = .logCheck b → s.lh.length < g.size - 1 →
      (insert b s.claimed).encard ≤ (g.size - 1 : Nat)
  | _ => True

def Alone (s : State P) : Act P → Prop
  | .run p => (s.pc p).checks = true → ∀ q, (s.pc q).checked = none
  | _ => True

section Overflow
variable {g : Geometry} {d : Nat → Block} {s t : State P}

theorem length_lh_le_of_claimed (hl : LhInv s) {n : Nat} (h : s.claimed.encard ≤ n) :
    s.lh.length ≤ n := by
  have hsub : ((s.lh.toFinset : Finset Nat) : Set Nat) ⊆ s.claimed := fun b hb => by
    rw [Finset.mem_coe, List.mem_toFinset] at hb
    exact Or.inl hb
  have hle := (Set.encard_le_encard hsub).trans h
  rw [Set.encard_coe_eq_coe_finsetCard, List.toFinset_card_of_nodup hl.nodup] at hle
  exact_mod_cast hle

theorem reserved_of_alone (h : Alone s a) : Reserved g s a := by
  cases a with
  | run p =>
    intro b at_ hlt
    have hnone := h (by rw [at_]; rfl)
    have hsub : insert b s.claimed ⊆ (((b :: s.lh).toFinset : Finset Nat) : Set Nat) := by
      rintro c (rfl | hc | ⟨q, hq⟩)
      · simp
      · simp [hc]
      · rw [hnone q] at hq
        cases hq
    refine (Set.encard_le_encard hsub).trans ?_
    rw [Set.encard_coe_eq_coe_finsetCard]
    have hcard := List.toFinset_card_le (b :: s.lh)
    rw [List.length_cons] at hcard
    exact_mod_cast hcard.trans hlt
  | begin | write | finish | kill => trivial

variable [DecidableEq P]

theorem claimed_move (hlh : t.lh ⊆ s.lh) (hpc : t.pc = update s.pc p k)
    (hk : ∀ b, k.checked = some b → (s.pc p).checked = some b) : t.claimed ⊆ s.claimed := by
  rintro b (hb | ⟨q, hq⟩)
  · exact Or.inl (hlh hb)
  · refine Or.inr ⟨q, ?_⟩
    rw [hpc] at hq
    by_cases hqp : q = p
    · subst hqp
      rw [update_self] at hq
      exact hk b hq
    · rwa [update_of_ne hqp] at hq

theorem claimed_wake (hk : k.checked = none) :
    ({ s with pc := wakeup1 s.pc }.releasePtable p k).claimed ⊆ s.claimed := by
  rintro b (hb | ⟨q, hq⟩)
  · exact Or.inl hb
  · change (update (wakeup1 s.pc) p k q).checked = some b at hq
    refine Or.inr ⟨q, ?_⟩
    by_cases hqp : q = p
    · subst hqp
      rw [update_self, hk] at hq
      cases hq
    · rw [update_of_ne hqp, wakeup1] at hq
      split at hq
      · cases hq
      · exact hq

theorem claimed_check {b : Nat} : (s.goto p (.logAcquire b)).claimed ⊆ insert b s.claimed := by
  rintro c (hc | ⟨q, hq⟩)
  · exact Or.inr (Or.inl hc)
  · change (update s.pc p (.logAcquire b) q).checked = some c at hq
    by_cases hqp : q = p
    · subst hqp
      rw [update_self] at hq
      cases hq
      exact Or.inl rfl
    · rw [update_of_ne hqp] at hq
      exact Or.inr (Or.inr ⟨q, hq⟩)

theorem claimed_append {b : Nat} (at_ : s.pc p = .logAppend b) {ws : List Write} :
    ({ s with lh := if b ∈ s.lh then s.lh else s.lh ++ [b], cur := ws }.goto p
      (.logRelease b)).claimed ⊆ s.claimed := by
  rintro c (hc | ⟨q, hq⟩)
  · rcases mem_absorb.mp hc with hc | rfl
    · exact Or.inl hc
    · exact Or.inr ⟨p, by rw [at_]; rfl⟩
  · change (update s.pc p (.logRelease b) q).checked = some c at hq
    refine Or.inr ⟨q, ?_⟩
    by_cases hqp : q = p
    · subst hqp
      rw [update_self] at hq
      cases hq
    · rwa [update_of_ne hqp] at hq

theorem claimed_step (hok : Reserved g s a) (h : step g s a = some t)
    (hs : s.claimed.encard ≤ (g.size - 1 : Nat)) : t.claimed.encard ≤ (g.size - 1 : Nat) := by
  have sub : t.claimed ⊆ s.claimed → t.claimed.encard ≤ (g.size - 1 : Nat) :=
    fun hsub => (Set.encard_le_encard hsub).trans hs
  cases (step_moves h).2 with
  | check p b at_ room room' =>
    exact (Set.encard_le_encard claimed_check).trans (hok b at_ room')
  | append p b at_ fits => exact sub (claimed_append at_)
  | wake p k at_ => exact sub (claimed_wake (Pc.wakes_checked at_))
  | acquire p k at_ =>
    exact sub (claimed_move (fun _ => id) rfl fun b hb => (Pc.acquires_checked at_).symm.trans hb)
  | acquirePtable p k at_ =>
    exact sub (claimed_move (fun _ => id) rfl fun b hb =>
      (Pc.acquiresPtable_checked at_).symm.trans hb)
  | release p k at_ =>
    refine sub (claimed_move (fun _ => id) rfl fun b hb => ?_)
    rw [Pc.releases_checked at_] at hb
    cases hb
  | releasePtable p k at_ =>
    refine sub (claimed_move (fun _ => id) rfl fun b hb => ?_)
    rw [Pc.releasesPtable_checked at_] at hb
    cases hb
  | tooBig | outsideTrans | overrun | logCommitting => exact hs
  | clearN p at_ => exact sub (claimed_move (List.nil_subset _) rfl fun b hb => by cases hb)
  | begin p at_ | write p b v at_ | finish p at_ | kill p at_ | wait p at_ | enter p at_
  | logRelease p b at_ | last p at_ | notLast p at_ | commit p at_ | skip p at_
  | writeLog p tail at_ | logged p tail at_ | writeHead p at_ | install p tail at_
  | installed p tail at_ | eraseHead p at_ | doneClear p at_ =>
    exact sub (claimed_move (fun _ => id) rfl fun b hb => by cases hb)

/-- Where every check counts the blocks claimed by others, `write_log` stays in the log. -/
theorem write_log_in_log {acts : List (Act P)} (h : Run (Reserved g) (step g) (init P d) acts s) :
    s.lh.length ≤ g.size - 1 ∧ ∀ p tail t, s.pc p = .writeLog tail → step g s (.run p) = some t →
      ∀ b, t.dev.disk b ≠ s.dev.disk b → g.start + 1 ≤ b ∧ b < g.start + g.size := by
  have hinv : (Inv s ∧ LhInv s) ∧ s.claimed.encard ≤ (g.size - 1 : Nat) := by
    refine h.invariant
      (I := fun s => (Inv s ∧ LhInv s) ∧ s.claimed.encard ≤ (g.size - 1 : Nat)) ?_
      ⟨⟨inv_init d, lhInv_init d⟩, ?_⟩
    · rintro s a t ⟨⟨hi, hl⟩, hc⟩ hok hs
      exact ⟨⟨inv_step hi hs, lhInv_step hi hl hs⟩, claimed_step hok hs hc⟩
    · have hempty : (init P d).claimed = ∅ := by
        ext b
        simp [State.claimed, init, Pc.checked]
      rw [hempty]
      simp
  have hn := length_lh_le_of_claimed hinv.1.2 hinv.2
  refine ⟨hn, fun p tail t at_ hs b hb => ?_⟩
  simp only [step, runStep, at_] at hs
  split at hs
  · split at hs <;> cases hs
    · rename_i hlt
      by_cases hbt : b = g.start + tail + 1
      · omega
      · exact absurd (update_of_ne hbt _ _) hb
    · exact absurd rfl hb
  · cases hs

end Overflow

instance (s : State (Fin 3)) (a : Act (Fin 3)) : Decidable (Alone s a) :=
  match a with
  | .run p => inferInstanceAs (Decidable ((s.pc p).checks = true → ∀ q, (s.pc q).checked = none))
  | .begin _ | .write _ _ _ | .finish _ | .kill _ => .isTrue trivial

theorem write_log_in_log_two_blocks : ∃ s : State (Fin 3),
    Run (Reserved ⟨2, LOGSIZE⟩) (step ⟨2, LOGSIZE⟩) (init (Fin 3) fun _ => Bytes.zero)
      (enter 0 ++ logBlocks 0 100 2) s ∧ s.lh = [100, 101] ∧ s.lh.length ≤ LOGSIZE - 1 := by
  obtain ⟨s, hs, hf⟩ : ∃ s : State (Fin 3), Run Alone (step ⟨2, LOGSIZE⟩)
      (init (Fin 3) fun _ => Bytes.zero) (enter 0 ++ logBlocks 0 100 2) s ∧ s.lh = [100, 101] :=
    Run.of_exec_map (by decide +kernel)
  have hr := hs.mono fun _ _ => reserved_of_alone (g := ⟨2, LOGSIZE⟩)
  exact ⟨s, hr, hf, (write_log_in_log hr).1⟩

def twoAtOnce : List (Act (Fin 3)) :=
  enter 0 ++ enter 1 ++ enter 2 ++ logBlocks 0 100 10 ++ logBlocks 1 110 9 ++ logBlocks 2 120 9 ++
    [.write 1 119 Bytes.zero, .write 2 129 Bytes.zero, .run 1, .run 2] ++
    [.run 1, .run 1, .run 1, .run 2, .run 2, .run 2]

/-- The log lists as many blocks as `log.size`, which counts the header too. -/
theorem checks_together_overfill : ∃ s : State (Fin 3),
    Run (Moderate MAXOPBLOCKS) (step ⟨2, LOGSIZE⟩) (init (Fin 3) fun _ => Bytes.zero) twoAtOnce s ∧
    s.lh.length = LOGSIZE :=
  Run.of_exec_map (f := fun s : State (Fin 3) => s.lh.length) (by decide +kernel)

end BossOs.Log
