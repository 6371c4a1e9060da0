import Mathlib.Data.Nat.Basic
import Mathlib.Tactic.Basic

/-!
# Ownership of allocated units

A pool of units numbered `lo`, …, `hi - 1` with a mark on each unit in use, and a
set of places each of which refers to one unit or, with the value 0, to none.
`Owned` says that the marked units are exactly those referred to, and that no two
places refer to the same unit.
-/

namespace BossOs.Lib

variable {ρ : Type}

structure Owned (val : ρ → Nat) (mark : Nat → Bool) (lo hi : Nat) : Prop where
  range : ∀ r, val r ≠ 0 → lo ≤ val r ∧ val r < hi
  inj : ∀ r r', val r ≠ 0 → val r = val r' → r = r'
  marked : ∀ u, lo ≤ u → u < hi → (mark u = true ↔ ∃ r, val r = u)

namespace Owned

variable {val val' : ρ → Nat} {mark mark' : Nat → Bool} {lo hi : Nat}

section
variable (h : Owned val mark lo hi)
include h

theorem congr (hval : ∀ r, val' r = val r)
    (hmark : ∀ u, lo ≤ u → u < hi → mark' u = mark u) : Owned val' mark' lo hi := by
  obtain rfl : val' = val := funext hval
  exact ⟨h.range, h.inj, fun u hu hu' => by rw [hmark u hu hu']; exact h.marked u hu hu'⟩

theorem mark_of_val {r : ρ} (hr : val r ≠ 0) : mark (val r) = true := by
  obtain ⟨h1, h2⟩ := h.range r hr
  exact (h.marked _ h1 h2).mpr ⟨r, rfl⟩

theorem give (r₀ : ρ) {u : Nat} (hlo : 0 < lo) (hu : lo ≤ u)
    (hu' : u < hi) (hfree : mark u = false) (hr₀ : val r₀ = 0)
    (hself : val' r₀ = u) (hval : ∀ r ≠ r₀, val' r = val r)
    (hmark : ∀ c, lo ≤ c → c < hi → mark' c = (mark c || decide (c = u))) :
    Owned val' mark' lo hi := by
  have hne : ∀ r, val r ≠ u := by
    intro r hr
    have := (h.marked u hu hu').mpr ⟨r, hr⟩
    rw [hfree] at this
    cases this
  refine ⟨?_, ?_, ?_⟩
  · intro r hr
    by_cases hrr : r = r₀
    · subst hrr
      rw [hself]
      exact ⟨hu, hu'⟩
    · rw [hval r hrr] at hr ⊢
      exact h.range r hr
  · intro r r' hr heq
    by_cases hrr : r = r₀ <;> by_cases hrr' : r' = r₀
    · rw [hrr, hrr']
    · rw [hrr, hself, hval r' hrr'] at heq
      exact absurd heq.symm (hne r')
    · rw [hrr', hself, hval r hrr] at heq
      exact absurd heq (hne r)
    · rw [hval r hrr] at hr heq
      rw [hval r' hrr'] at heq
      exact h.inj r r' hr heq
  · intro c hc hc'
    rw [hmark c hc hc', Bool.or_eq_true, decide_eq_true_iff, h.marked c hc hc']
    constructor
    · rintro (⟨r, hr⟩ | rfl)
      · refine ⟨r, ?_⟩
        rw [hval r, hr]
        rintro rfl
        omega
      · exact ⟨r₀, hself⟩
    · rintro ⟨r, hr⟩
      by_cases hrr : r = r₀
      · subst hrr
        exact Or.inr (hr.symm.trans hself)
      · rw [hval r hrr] at hr
        exact Or.inl ⟨r, hr⟩

theorem take (r₀ : ρ) (hlo : 0 < lo) (hr₀ : val r₀ ≠ 0)
    (hself : val' r₀ = 0) (hval : ∀ r ≠ r₀, val' r = val r)
    (hmark : ∀ c, lo ≤ c → c < hi → mark' c = (mark c && decide (c ≠ val r₀))) :
    Owned val' mark' lo hi := by
  refine ⟨?_, ?_, ?_⟩
  · intro r hr
    have hrr : r ≠ r₀ := by
      rintro rfl
      exact hr hself
    rw [hval r hrr] at hr ⊢
    exact h.range r hr
  · intro r r' hr heq
    have hrr : r ≠ r₀ := by
      rintro rfl
      exact hr hself
    have hrr' : r' ≠ r₀ := by
      rintro rfl
      exact hr (heq.trans hself)
    rw [hval r hrr] at hr heq
    rw [hval r' hrr'] at heq
    exact h.inj r r' hr heq
  · intro c hc hc'
    rw [hmark c hc hc', Bool.and_eq_true, decide_eq_true_iff, h.marked c hc hc']
    constructor
    · rintro ⟨⟨r, hr⟩, hne⟩
      refine ⟨r, ?_⟩
      rw [hval r, hr]
      rintro rfl
      exact hne hr.symm
    · rintro ⟨r, hr⟩
      have hrr : r ≠ r₀ := by
        rintro rfl
        omega
      rw [hval r hrr] at hr
      refine ⟨⟨r, hr⟩, ?_⟩
      rintro rfl
      exact hrr (h.inj r r₀ (by omega) hr)

end

end Owned

end BossOs.Lib
