import Mathlib.Data.Nat.Basic
import Mathlib.Tactic.Basic

/-!
# Loops that may not end

The body of a loop either asks for another round or leaves with a result. `Loop.run` plays a
given number of rounds, `Loop.Exits` says which result the loop leaves with, if any.
-/

namespace BossOs.Lib

inductive Round (σ ρ : Type) where
  | again (s : σ)
  | leave (r : ρ)
  deriving DecidableEq

namespace Loop

variable {σ ρ : Type} {body : σ → Round σ ρ} {s t : σ} {r : ρ}

def run (body : σ → Round σ ρ) : Nat → σ → Option ρ
  | 0, _ => none
  | n + 1, s =>
    match body s with
    | .again t => run body n t
    | .leave r => some r

inductive Exits (body : σ → Round σ ρ) : σ → ρ → Prop where
  | leave {s : σ} {r : ρ} : body s = .leave r → Exits body s r
  | again {s t : σ} {r : ρ} : body s = .again t → Exits body t r → Exits body s r

theorem run_again {n : Nat} (h : body s = .again t) : run body (n + 1) s = run body n t := by
  rw [run, h]

theorem run_leave {n : Nat} (h : body s = .leave r) : run body (n + 1) s = some r := by
  rw [run, h]

theorem exits_of_run {n : Nat} (h : run body n s = some r) : Exits body s r := by
  induction n generalizing s with
  | zero => cases h
  | succ n ih =>
    cases hb : body s with
    | again t =>
      rw [run_again hb] at h
      exact .again hb (ih h)
    | leave r' =>
      rw [run_leave hb] at h
      cases h
      exact .leave hb

theorem Exits.run (h : Exits body s r) : ∃ n, run body n s = some r := by
  induction h with
  | leave hb => exact ⟨1, run_leave hb⟩
  | again hb _ ih =>
    obtain ⟨n, hn⟩ := ih
    exact ⟨n + 1, (run_again hb).trans hn⟩

theorem not_exits {I : σ → Prop} (step : ∀ s, I s → ∃ t, body s = .again t ∧ I t) (hs : I s) :
    ¬ Exits body s r := by
  intro h
  induction h with
  | leave hb =>
    obtain ⟨t, ht, -⟩ := step _ hs
    rw [hb] at ht
    cases ht
  | again hb _ ih =>
    obtain ⟨t, ht, hI⟩ := step _ hs
    rw [hb] at ht
    cases ht
    exact ih hI

end Loop

end BossOs.Lib
