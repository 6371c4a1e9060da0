import Mathlib.Data.List.Basic

/-!
# Guarded runs of a transition function

`step s a` is the state after action `a`, or `none` where `a` is not enabled in `s`.
A run may be restricted by a guard on the state and the action before each step;
safety proofs are one application of `Run.invariant`.
-/

namespace BossOs.Lib

universe u v
variable {σ : Type u} {α : Type v}

/-- A run from the first state to the second, every step of which meets `ok`. -/
inductive Run (ok : σ → α → Prop) (step : σ → α → Option σ) : σ → List α → σ → Prop where
  | nil (s : σ) : Run ok step s [] s
  | cons {s t u : σ} {a : α} {as : List α} :
      ok s a → step s a = some t → Run ok step t as u → Run ok step s (a :: as) u

namespace Run

variable {ok : σ → α → Prop} {step : σ → α → Option σ} {s t u : σ} {as bs : List α}

theorem mono {ok' : σ → α → Prop} (h : ∀ s a, ok s a → ok' s a) (hst : Run ok step s as t) :
    Run ok' step s as t := by
  induction hst with
  | nil => exact .nil _
  | cons hok hstep _ ih => exact .cons (h _ _ hok) hstep ih

theorem invariant {I : σ → Prop} (preserved : ∀ s a t, I s → ok s a → step s a = some t → I t)
    (hst : Run ok step s as t) (hs : I s) : I t := by
  induction hst with
  | nil => exact hs
  | cons hok hstep _ ih => exact ih (preserved _ _ _ hs hok hstep)

end Run

def observed {β : Type*} (obs : σ → α → Option β) (step : σ → α → Option σ) :
    σ → List α → List β
  | _, [] => []
  | s, a :: as => (obs s a).toList ++ (step s a).elim [] fun t => observed obs step t as

theorem Run.observe {β : Type*} {obs : σ → α → Option β} {ok : σ → α → Prop}
    {step : σ → α → Option σ} {s t : σ} {as : List α} {I : σ → List β → Prop}
    (preserved : ∀ s a t bs, I s bs → ok s a → step s a = some t → I t (bs ++ (obs s a).toList))
    (hst : Run ok step s as t) {bs : List β} (hs : I s bs) : I t (bs ++ observed obs step s as) := by
  induction hst generalizing bs with
  | nil =>
    rw [observed, List.append_nil]
    exact hs
  | cons hok hstep _ ih =>
    rw [observed, hstep, Option.elim_some, ← List.append_assoc]
    exact ih (preserved _ _ _ _ hs hok hstep)

def exec (ok : σ → α → Prop) [∀ s a, Decidable (ok s a)] (step : σ → α → Option σ) :
    σ → List α → Option σ
  | s, [] => some s
  | s, a :: as => if ok s a then (step s a).bind fun t => exec ok step t as else none

section Exec
variable {ok : σ → α → Prop} [∀ s a, Decidable (ok s a)] {step : σ → α → Option σ}

theorem Run.of_exec {s t : σ} {as : List α} (h : exec ok step s as = some t) :
    Run ok step s as t := by
  induction as generalizing s with
  | nil =>
    cases h
    exact .nil _
  | cons a as ih =>
    simp only [exec] at h
    split at h
    · rename_i hok
      obtain ⟨u, hu, hut⟩ := Option.bind_eq_some_iff.mp h
      exact .cons hok hu (ih hut)
    · cases h

theorem Run.of_exec_map {β : Type*} {f : σ → β} {b : β} {s : σ} {as : List α}
    (h : (exec ok step s as).map f = some b) : ∃ t, Run ok step s as t ∧ f t = b := by
  obtain ⟨t, ht, hf⟩ := Option.map_eq_some_iff.mp h
  exact ⟨t, .of_exec ht, hf⟩

end Exec

end BossOs.Lib
