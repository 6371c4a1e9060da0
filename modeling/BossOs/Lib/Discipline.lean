import Mathlib.Data.Finset.Card
import Mathlib.Logic.Function.Basic

/-!
# Locks and counters over program counters

Each process `p` stands at `pc p : K`. A lock is described by the set of points at
which it is held, a counter by the set of points at which a process is counted. One
rule for each way a step can move one process keeps the description true.
-/

namespace BossOs.Lib

open Function (update update_self update_of_ne)

universe u v
variable {P : Type u} {K : Type v}

theorem at_update {β : Type*} [DecidableEq P] (at_ : K → β) {pc : P → K} {p : P} {k : K}
    (hk : at_ k = at_ (pc p)) (q : P) : at_ (update pc p k q) = at_ (pc q) := by
  by_cases hq : q = p
  · subst hq
    rw [update_self, hk]
  · rw [update_of_ne hq]

theorem forall_at_update [DecidableEq P] {at_ : K → Bool} {pc : P → K} {p : P} {k : K} {Φ : Prop}
    (hk : at_ k = true → Φ) (h : ∀ q, at_ (pc q) = true → Φ) :
    ∀ q, at_ (update pc p k q) = true → Φ := by
  intro q hq
  by_cases hqp : q = p
  · subst hqp
    rw [update_self] at hq
    exact hk hq
  · rw [update_of_ne hqp] at hq
    exact h q hq

def Holds (holder : Option P) (at_ : K → Bool) (pc : P → K) : Prop :=
  ∀ q, holder = some q ↔ at_ (pc q) = true

namespace Holds
variable {holder : Option P} {at_ : K → Bool} {pc : P → K} {p q : P} {k : K}

theorem eq_of_at (h : Holds holder at_ pc) (hp : at_ (pc p) = true) : holder = some p := (h p).mpr hp

theorem unique (h : Holds holder at_ pc) (hp : at_ (pc p) = true) (hq : at_ (pc q) = true) : p = q := by
  have hpq := (h.eq_of_at hp).symm.trans (h.eq_of_at hq)
  exact Option.some.inj hpq

theorem not_at (h : Holds none at_ pc) (q : P) : at_ (pc q) = false := by
  have hq := (h q).not.mp (by simp)
  simpa using hq

theorem map (h : Holds holder at_ pc) (f : K → K) (hf : ∀ k, at_ (f k) = at_ k) :
    Holds holder at_ (fun q => f (pc q)) := by
  intro q
  rw [hf]
  exact h q

variable [DecidableEq P]

theorem move (h : Holds holder at_ pc) (hk : at_ k = at_ (pc p)) :
    Holds holder at_ (update pc p k) := by
  intro q
  by_cases hq : q = p
  · subst hq
    rw [update_self, hk]
    exact h q
  · rw [update_of_ne hq]
    exact h q

theorem take (h : Holds none at_ pc) (hk : at_ k = true) : Holds (some p) at_ (update pc p k) := by
  intro q
  by_cases hq : q = p
  · subst hq
    rw [update_self, hk]
    simp
  · have hne : some p ≠ some q := fun he => hq (Option.some.inj he).symm
    rw [update_of_ne hq, h.not_at q]
    simpa using hne

theorem drop (h : Holds holder at_ pc) (hp : at_ (pc p) = true) (hk : at_ k = false) :
    Holds none at_ (update pc p k) := by
  intro q
  by_cases hq : q = p
  · subst hq
    rw [update_self, hk]
    simp
  · have hne : at_ (pc q) ≠ true := fun hat => hq (h.unique hat hp)
    rw [update_of_ne hq]
    simpa using hne

end Holds

def Counts (n : Int) (at_ : K → Bool) (pc : P → K) : Prop :=
  ∃ A : Finset P, (∀ q, q ∈ A ↔ at_ (pc q) = true) ∧ n = A.card

namespace Counts
variable {n : Int} {at_ : K → Bool} {pc : P → K} {p : P} {k : K}

theorem zero (h : ∀ q, at_ (pc q) = false) : Counts 0 at_ pc :=
  ⟨∅, fun q => by simp [h q], by simp⟩

theorem nonneg (h : Counts n at_ pc) : 0 ≤ n := by
  obtain ⟨A, _, rfl⟩ := h
  exact Int.natCast_nonneg _

theorem pos (h : Counts n at_ pc) (hp : at_ (pc p) = true) : 1 ≤ n := by
  obtain ⟨A, hA, rfl⟩ := h
  have hc : 0 < A.card := Finset.card_pos.mpr ⟨p, (hA p).mpr hp⟩
  omega

theorem not_at (h : Counts 0 at_ pc) (q : P) : at_ (pc q) = false := by
  cases hq : at_ (pc q) with
  | false => rfl
  | true =>
    have := h.pos hq
    omega

theorem map (h : Counts n at_ pc) (f : K → K) (hf : ∀ k, at_ (f k) = at_ k) :
    Counts n at_ (fun q => f (pc q)) := by
  obtain ⟨A, hA, hn⟩ := h
  exact ⟨A, fun q => by rw [hf]; exact hA q, hn⟩

variable [DecidableEq P]

theorem move (h : Counts n at_ pc) (hk : at_ k = at_ (pc p)) : Counts n at_ (update pc p k) := by
  obtain ⟨A, hA, hn⟩ := h
  refine ⟨A, fun q => ?_, hn⟩
  by_cases hq : q = p
  · subst hq
    rw [update_self, hk]
    exact hA q
  · rw [update_of_ne hq]
    exact hA q

theorem enter (h : Counts n at_ pc) (hp : at_ (pc p) = false) (hk : at_ k = true) :
    Counts (n + 1) at_ (update pc p k) := by
  obtain ⟨A, hA, rfl⟩ := h
  have hpA : p ∉ A := fun hm => by
    have := (hA p).mp hm
    rw [hp] at this
    cases this
  refine ⟨insert p A, fun q => ?_, by rw [Finset.card_insert_of_notMem hpA]; push_cast; rfl⟩
  by_cases hq : q = p
  · subst hq
    rw [update_self, hk]
    simp
  · rw [update_of_ne hq, Finset.mem_insert]
    simpa [hq] using hA q

theorem leave (h : Counts n at_ pc) (hp : at_ (pc p) = true) (hk : at_ k = false) :
    Counts (n - 1) at_ (update pc p k) := by
  have hpos := h.pos hp
  obtain ⟨A, hA, rfl⟩ := h
  have hpA : p ∈ A := (hA p).mpr hp
  refine ⟨A.erase p, fun q => ?_, by rw [Finset.card_erase_of_mem hpA]; omega⟩
  by_cases hq : q = p
  · subst hq
    rw [update_self, hk]
    simp
  · rw [update_of_ne hq, Finset.mem_erase]
    simpa [hq] using hA q

end Counts

end BossOs.Lib
