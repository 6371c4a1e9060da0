import Mathlib.Data.Nat.Basic
import Mathlib.Tactic.Basic

/-!
# Imperative programs that can stop

`Prog ε σ α` is a program over a state `σ` that either returns a value or stops
for a reason `ε` in the state it had reached (a panic, a deadlock). `Outcome.Sat`
is its weakest precondition at one state: a specification of `m` is a statement
`(m.run s).Sat Q E`, with the state `s` it starts from in scope of `Q`.
-/

namespace BossOs.Lib

inductive Outcome (ε σ α : Type) where
  | ok (a : α) (s : σ)
  | stop (e : ε) (s : σ)

structure Prog (ε σ α : Type) where
  run : σ → Outcome ε σ α

variable {ε σ τ α β : Type}

namespace Outcome

def Sat (r : Outcome ε σ α) (Q : α → σ → Prop) (E : ε → σ → Prop) : Prop :=
  match r with
  | ok a s => Q a s
  | stop e s => E e s

@[simp] theorem sat_ok (a : α) (s : σ) (Q : α → σ → Prop) (E : ε → σ → Prop) :
    (ok a s : Outcome ε σ α).Sat Q E = Q a s := rfl

@[simp] theorem sat_stop (e : ε) (s : σ) (Q : α → σ → Prop) (E : ε → σ → Prop) :
    (stop e s : Outcome ε σ α).Sat Q E = E e s := rfl

variable {r : Outcome ε σ α}

variable {Q' : α → σ → Prop}

theorem Sat.mono {Q : α → σ → Prop} {E E' : ε → σ → Prop}
    (h : r.Sat Q E) (hQ : ∀ a s, Q a s → Q' a s) (hE : ∀ e s, E e s → E' e s) : r.Sat Q' E' := by
  cases r with
  | ok a s => exact hQ a s h
  | stop e s => exact hE e s h

theorem Sat.imp {Q : α → σ → Prop} {E : ε → σ → Prop}
    (h : r.Sat Q E) (hQ : ∀ a s, Q a s → Q' a s) : r.Sat Q' E :=
  h.mono hQ fun _ _ he => he

theorem Sat.and {Q : α → σ → Prop} {E E' : ε → σ → Prop} (h : r.Sat Q E) (h' : r.Sat Q' E') :
    r.Sat (fun a s => Q a s ∧ Q' a s) (fun e s => E e s ∧ E' e s) := by
  cases r with
  | ok a s => exact ⟨h, h'⟩
  | stop e s => exact ⟨h, h'⟩

theorem Sat.exists_ok {Q : α → σ → Prop} (h : r.Sat Q fun _ _ => False) :
    ∃ a s, r = .ok a s ∧ Q a s := by
  cases r with
  | ok a s => exact ⟨a, s, rfl, h⟩
  | stop e s => exact h.elim

theorem Sat.returns {Q : α → σ → Prop} {E : ε → σ → Prop} (h : r.Sat Q E)
    (hE : ∀ e s, ¬ E e s) : ∃ a s, r = .ok a s ∧ Q a s :=
  (h.mono (fun _ _ hQ => hQ) hE).exists_ok

theorem eq_ok_of_sat {a : α} {s : σ}
    (h : r.Sat (fun b t => b = a ∧ t = s) fun _ _ => False) : r = .ok a s := by
  obtain ⟨b, t, hr, rfl, rfl⟩ := h.exists_ok
  exact hr

def stopped : Outcome ε σ α → Option ε
  | ok _ _ => none
  | stop e _ => some e

def view (f : α → σ → β) : Outcome ε σ α → Option β
  | ok a s => some (f a s)
  | stop _ _ => none

theorem of_view {f : α → σ → β} {b : β} (h : r.view f = some b) :
    ∃ a s, r = .ok a s ∧ f a s = b := by
  cases r with
  | ok a s => exact ⟨a, s, rfl, Option.some.inj h⟩
  | stop e s => cases h

end Outcome

namespace Prog

instance : Monad (Prog ε σ) where
  pure a := ⟨fun s => .ok a s⟩
  bind m f := ⟨fun s =>
    match m.run s with
    | .ok a t => (f a).run t
    | .stop e t => .stop e t⟩

def fail (e : ε) : Prog ε σ α := ⟨fun s => .stop e s⟩

def get : Prog ε σ σ := ⟨fun s => .ok s s⟩

def modify (f : σ → σ) : Prog ε σ Unit := ⟨fun s => .ok () (f s)⟩

def zoom (part : σ → τ) (put : τ → σ → σ) (m : Prog ε τ α) : Prog ε σ α := ⟨fun s =>
  match m.run (part s) with
  | .ok a t => .ok a (put t s)
  | .stop e t => .stop e (put t s)⟩

def loop (body : Nat → Prog ε σ Unit) : Nat → Nat → Prog ε σ Unit
  | 0, _ => pure ()
  | n + 1, i => do
    body i
    loop body n (i + 1)

section Rules

variable {s : σ} {Q : α → σ → Prop} {E : ε → σ → Prop}

@[simp] theorem sat_pure (a : α) : ((pure a : Prog ε σ α).run s).Sat Q E = Q a s := rfl

@[simp] theorem sat_bind (m : Prog ε σ β) (f : β → Prog ε σ α) :
    ((m >>= f).run s).Sat Q E = (m.run s).Sat (fun b t => ((f b).run t).Sat Q E) E := by
  change Outcome.Sat (match m.run s with
    | .ok a t => (f a).run t
    | .stop e t => .stop e t) Q E = _
  cases m.run s with
  | ok b t => rfl
  | stop e t => rfl

@[simp] theorem sat_fail (e : ε) : ((fail e : Prog ε σ α).run s).Sat Q E = E e s := rfl

@[simp] theorem sat_get {Q : σ → σ → Prop} : ((get : Prog ε σ σ).run s).Sat Q E = Q s s := rfl

@[simp] theorem sat_modify (f : σ → σ) {Q : Unit → σ → Prop} :
    ((modify f : Prog ε σ Unit).run s).Sat Q E = Q () (f s) := rfl

theorem sat_zoom (part : σ → τ) (put : τ → σ → σ) (m : Prog ε τ α) :
    ((zoom part put m).run s).Sat Q E =
      (m.run (part s)).Sat (fun a t => Q a (put t s)) (fun e t => E e (put t s)) := by
  change Outcome.Sat (match m.run (part s) with
    | .ok a t => .ok a (put t s)
    | .stop e t => .stop e (put t s)) Q E = _
  cases m.run (part s) with
  | ok a t => rfl
  | stop e t => rfl

theorem sat_ite {c : Prop} [Decidable c] {m m' : Prog ε σ α} (h : c → (m.run s).Sat Q E)
    (h' : ¬ c → (m'.run s).Sat Q E) : ((if c then m else m').run s).Sat Q E := by
  split
  · exact h ‹_›
  · exact h' ‹_›

theorem sat_loop {f : Nat → Prog ε σ Unit} {I : Nat → σ → Prop} {n : Nat} {i : Nat}
    (h : ∀ j t, i ≤ j → j < i + n → I j t → ((f j).run t).Sat (fun _ u => I (j + 1) u) E)
    (hs : I i s) : ((loop f n i).run s).Sat (fun _ t => I (i + n) t) E := by
  induction n generalizing i s with
  | zero => exact hs
  | succ n ih =>
    rw [loop, sat_bind]
    refine (h i s (Nat.le_refl i) (by omega) hs).imp fun _ t ht => ?_
    refine (ih (fun j u hj hn hI => h j u (by omega) (by omega) hI) ht).imp fun _ u hu => ?_
    rw [show i + (n + 1) = i + 1 + n by omega]
    exact hu

end Rules

def Refines (p q : Prog ε σ α) : Prop := ∀ ⦃s a t⦄, p.run s = .ok a t → q.run s = .ok a t

variable {f : β → Prog ε σ α} {m : Prog ε σ β}

theorem run_bind_ok {s t : σ} {a : α} :
    (m >>= f).run s = .ok a t ↔ ∃ b u, m.run s = .ok b u ∧ (f b).run u = .ok a t := by
  change (match m.run s with
    | .ok a t => (f a).run t
    | .stop e t => .stop e t) = _ ↔ _
  cases m.run s with
  | ok b u =>
    constructor
    · intro h
      exact ⟨b, u, rfl, h⟩
    · rintro ⟨_, _, hb, h⟩
      cases hb
      exact h
  | stop e u =>
    constructor
    · intro h
      cases h
    · rintro ⟨_, _, hb, -⟩
      cases hb

theorem run_bind_of_ok {s t : σ} {b : β}
    (h : m.run s = .ok b t) : (m >>= f).run s = (f b).run t := by
  change (match m.run s with
    | .ok a t => (f a).run t
    | .stop e t => .stop e t) = _
  rw [h]

theorem run_bind_of_stop {s t : σ} {e : ε}
    (h : m.run s = .stop e t) : (m >>= f).run s = .stop e t := by
  change (match m.run s with
    | .ok a t => (f a).run t
    | .stop e t => .stop e t) = _
  rw [h]

theorem run_bind_congr {m' : Prog ε σ β} {g : β → Prog ε σ α} {s : σ}
    (hm : m.run s = m'.run s) (h : ∀ b t, m.run s = .ok b t → (f b).run t = (g b).run t) :
    (m >>= f).run s = (m' >>= g).run s := by
  cases hr : m.run s with
  | ok b t => rw [run_bind_of_ok hr, run_bind_of_ok (hm.symm.trans hr), h b t hr]
  | stop e t => rw [run_bind_of_stop hr, run_bind_of_stop (hm.symm.trans hr)]

theorem run_bind_assoc {γ : Type} (x : Prog ε σ α) (f : α → Prog ε σ β) (g : β → Prog ε σ γ)
    (s : σ) : ((x >>= f) >>= g).run s = (x >>= fun a => f a >>= g).run s := by
  cases hx : x.run s with
  | ok a t =>
    rw [run_bind_of_ok hx]
    cases hf : (f a).run t with
    | ok b u => rw [run_bind_of_ok ((run_bind_of_ok hx).trans hf), run_bind_of_ok hf]
    | stop e u => rw [run_bind_of_stop ((run_bind_of_ok hx).trans hf), run_bind_of_stop hf]
  | stop e t => rw [run_bind_of_stop (run_bind_of_stop hx), run_bind_of_stop hx]

theorem Refines.refl (p : Prog ε σ α) : Refines p p := fun _ _ _ h => h

theorem Refines.bind {p q : Prog ε σ β} {g : β → Prog ε σ α} (h : Refines p q)
    (hf : ∀ b, Refines (f b) (g b)) : Refines (p >>= f) (q >>= g) := by
  intro s a t hrun
  obtain ⟨b, u, hb, ha⟩ := run_bind_ok.mp hrun
  exact run_bind_ok.mpr ⟨b, u, h hb, hf b ha⟩

theorem Refines.ite {c : Prop} [Decidable c] {p p' q q' : Prog ε σ α} (h : Refines p q)
    (h' : Refines p' q') : Refines (if c then p else p') (if c then q else q') := by
  split
  · exact h
  · exact h'

theorem Refines.sat {p q : Prog ε σ α} (h : Refines p q) {s : σ} {Q : α → σ → Prop}
    {E : ε → σ → Prop} (hp : (p.run s).Sat Q fun _ _ => False) : (q.run s).Sat Q E := by
  obtain ⟨a, t, hrun, hQ⟩ := hp.exists_ok
  rw [h hrun, Outcome.sat_ok]
  exact hQ

end Prog

attribute [irreducible] Outcome.Sat

def firstFrom (p : Nat → Bool) : Nat → Nat → Option Nat
  | 0, _ => none
  | n + 1, i => if p i then some i else firstFrom p n (i + 1)

theorem firstFrom_some {p : Nat → Bool} {n i j : Nat} (h : firstFrom p n i = some j) :
    i ≤ j ∧ j < i + n ∧ p j = true ∧ ∀ k, i ≤ k → k < j → p k = false := by
  induction n generalizing i with
  | zero => cases h
  | succ n ih =>
    rw [firstFrom] at h
    by_cases hp : p i = true
    · rw [if_pos hp] at h
      cases h
      exact ⟨Nat.le_refl _, by omega, hp, fun k hk hk' => by omega⟩
    · rw [if_neg hp] at h
      obtain ⟨h1, h2, h3, h4⟩ := ih h
      refine ⟨by omega, by omega, h3, fun k hk hk' => ?_⟩
      rcases Nat.eq_or_lt_of_le hk with rfl | hlt
      · simpa using hp
      · exact h4 k hlt hk'

theorem firstFrom_none {p : Nat → Bool} {n i : Nat} (h : firstFrom p n i = none) {k : Nat}
    (hk : i ≤ k) (hk' : k < i + n) : p k = false := by
  induction n generalizing i with
  | zero => omega
  | succ n ih =>
    rw [firstFrom] at h
    by_cases hp : p i = true
    · rw [if_pos hp] at h
      cases h
    · rw [if_neg hp] at h
      rcases Nat.eq_or_lt_of_le hk with rfl | hlt
      · simpa using hp
      · exact ih h hlt (by omega)

end BossOs.Lib
