import BossOs.Bio.Model
import BossOs.Lib.Links
import BossOs.Lib.Refs

/-!
# The buffer cache with its pointers

`binit`, `bget` and `brelse` with the links of `bio.c`, called by any number of processes
in any order, while the flags of the buffers change in any way. A buffer has as many
references as users.
-/

namespace BossOs.Bio

open Lib
open Function (update update_self update_of_ne)

/-- Where a process stands: outside, before `acquiresleep` in `bget`, or in `brelse` after
`releasesleep`. -/
inductive Phase where
  | idle
  | lock (i : Slot)
  | unref (i : Slot)
  deriving DecidableEq

structure Cache (P : Type) where
  buf : Slot → Buf P
  links : Links Slot
  phase : P → Phase
  stop : Option Stop
  /-- History: how often a buffer has lost its last user, and for each buffer this number
  before the last time. -/
  clock : Nat
  freed : Slot → Option Nat

inductive Event (P : Type) where
  | bget (p : P) (dev b : Nat)
  | lock (p : P)
  | brelse (p : P) (i : Slot)
  | unref (p : P)
  /-- `bread`, `bwrite`, `log_write` or the disk driver set the flags of a buffer. -/
  | flags (i : Slot) (valid dirty : Bool)

def Buf.Is {P : Type} (v : Buf P) (dev b : Nat) : Prop := v.dev = dev ∧ v.blockno = b

instance {P : Type} (v : Buf P) (dev b : Nat) : Decidable (v.Is dev b) :=
  inferInstanceAs (Decidable (_ ∧ _))

def Buf.Unused {P : Type} (v : Buf P) : Prop := v.refcnt = 0 ∧ v.dirty = false

instance {P : Type} (v : Buf P) : Decidable v.Unused := inferInstanceAs (Decidable (_ ∧ _))

namespace Cache

variable {P : Type} (c : Cache P)

def lookup (dev b : Nat) : Option Slot :=
  Links.search c.links.next (fun i => decide ((c.buf i).Is dev b)) (NBUF + 1) (c.links.next none)

def unused : Option Slot :=
  Links.search c.links.prev (fun i => decide (c.buf i).Unused) (NBUF + 1) (c.links.prev none)

def setBuf (i : Slot) (v : Buf P) : Cache P := { c with buf := update c.buf i v }

variable [DecidableEq P]

def goto (p : P) (ph : Phase) : Cache P := { c with phase := update c.phase p ph }

def recycle (p : P) (i : Slot) (dev b : Nat) : Cache P :=
  (c.setBuf i { c.buf i with
    dev := dev, blockno := b, valid := false, dirty := false, refcnt := 1 }).goto p (.lock i)

def bget (p : P) (dev b : Nat) : Cache P :=
  match c.lookup dev b with
  | some i => (c.setBuf i { c.buf i with refcnt := (c.buf i).refcnt + 1 }).goto p (.lock i)
  | none =>
    match c.unused with
    | some i => c.recycle p i dev b
    | none => { c with stop := some .noBuffers }

def brelse (p : P) (i : Slot) : Cache P :=
  if (c.buf i).lock ≠ some p then { c with stop := some .notHeld }
  else (c.setBuf i { c.buf i with lock := none }).goto p (.unref i)

def unref (p : P) (i : Slot) : Cache P :=
  let n := (c.buf i).refcnt - 1
  let c' := (c.setBuf i { c.buf i with refcnt := n }).goto p .idle
  if n = 0 then
    { c' with
      links := c.links.moveFront i
      clock := c.clock + 1
      freed := update c.freed i (some c.clock) }
  else c'

def next (c : Cache P) : Event P → Option (Cache P)
  | .bget p dev b => if c.phase p = .idle then some (c.bget p dev b) else none
  | .lock p =>
    match c.phase p with
    | .lock i =>
      if (c.buf i).lock = none then
        some ((c.setBuf i { c.buf i with lock := some p }).goto p .idle)
      else none
    | _ => none
  | .brelse p i => if c.phase p = .idle then some (c.brelse p i) else none
  | .unref p =>
    match c.phase p with
    | .unref i => some (c.unref p i)
    | _ => none
  | .flags i valid dirty => some (c.setBuf i { c.buf i with valid := valid, dirty := dirty })

def step (c : Cache P) (e : Event P) : Option (Cache P) :=
  if c.stop = none then c.next e else none

end Cache

def Cache.init (P : Type) : Cache P where
  buf := fun _ => ⟨false, false, 0, 0, none, 0, .zero⟩
  links := (List.finRange NBUF).foldl Links.pushFront Links.empty
  phase := fun _ => .idle
  stop := none
  clock := 0
  freed := fun _ => none

def Phase.refs (i : Slot) : Phase → Nat
  | .idle => 0
  | .lock j | .unref j => if j = i then 1 else 0

section Users
variable {P : Type} [DecidableEq P]

def Cache.uses (c : Cache P) (i : Slot) (p : P) : Nat :=
  (if (c.buf i).lock = some p then 1 else 0) + (c.phase p).refs i

def Counted (c : Cache P) : Prop := ∀ i, Refs (c.buf i).refcnt (c.uses i)

variable {c c' : Cache P}

variable {p : P} {i : Slot}

theorem Counted.step {v : Buf P} {ph : Phase} (h : Counted c)
    (hbuf : c'.buf = update c.buf i v) (hphase : c'.phase = update c.phase p ph)
    (hlock : ∀ q ≠ p, (v.lock = some q ↔ (c.buf i).lock = some q))
    (hkeep : ∀ j ≠ i, ph.refs j = (c.phase p).refs j) (hrefs : v.refcnt = (c.buf i).refcnt ∧
        (if v.lock = some p then 1 else 0) + ph.refs i = c.uses i p ∨
      v.refcnt = (c.buf i).refcnt + 1 ∧
        (if v.lock = some p then 1 else 0) + ph.refs i = c.uses i p + 1 ∨
      v.refcnt = (c.buf i).refcnt - 1 ∧
        c.uses i p = (if v.lock = some p then 1 else 0) + ph.refs i + 1) : Counted c' := by
  intro j
  by_cases hj : j = i
  · subst hj
    have mine : c'.uses j p = (if v.lock = some p then 1 else 0) + ph.refs j := by
      simp only [Cache.uses, hbuf, hphase, update_self]
    have theirs : ∀ q ≠ p, c'.uses j q = c.uses j q := by
      intro q hq
      simp only [Cache.uses, hbuf, hphase, update_self, update_of_ne hq,
        hlock q hq]
    rw [hbuf, update_self]
    rcases hrefs with ⟨hn, hu⟩ | ⟨hn, hu⟩ | ⟨hn, hu⟩
    · rw [hn]
      apply (h j).congr
      intro q
      by_cases hq : q = p
      · rw [hq, mine, hu]
      · exact theirs q hq
    · rw [hn]
      exact (h j).add p (mine.trans hu) theirs
    · rw [hn]
      exact (h j).drop (hu.trans (congrArg (· + 1) mine.symm)) theirs
  · rw [hbuf, update_of_ne hj]
    apply (h j).congr
    intro q
    by_cases hq : q = p
    · subst hq
      simp only [Cache.uses, hbuf, hphase, update_self, update_of_ne hj,
        hkeep j hj]
    · simp only [Cache.uses, hbuf, hphase, update_of_ne hq, update_of_ne hj]

omit [DecidableEq P] in
theorem Cache.unused_of_some (h : c.unused = some i) : (c.buf i).Unused := by
  have hi := Links.search_some (show Links.search _ _ _ _ = some i from h)
  simpa using hi

section
variable (h : Counted c)
include h

theorem Counted.take {v : Buf P} (hp : c.phase p = .idle)
    (hlock : v.lock = (c.buf i).lock) (hcnt : v.refcnt = (c.buf i).refcnt + 1) :
    Counted ((c.setBuf i v).goto p (.lock i)) := by
  refine h.step rfl rfl (fun _ _ => by rw [hlock]) ?_ (Or.inr (Or.inl ⟨hcnt, ?_⟩))
  · intro j hj
    rw [hp]
    exact if_neg hj.symm
  · simp only [Cache.uses, hp, hlock, Phase.refs, if_true]

theorem Counted.bget (hp : c.phase p = .idle) (dev b : Nat) :
    Counted (c.bget p dev b) := by
  rw [Cache.bget]
  split
  · exact h.take hp rfl rfl
  · split
    · rename_i i hi
      refine h.take hp rfl ?_
      rw [(Cache.unused_of_some hi).1]
    · exact h

theorem Counted.brelse (hp : c.phase p = .idle) (i : Slot) :
    Counted (c.brelse p i) := by
  rw [Cache.brelse]
  split
  · exact h
  · rename_i hl
    have hl : (c.buf i).lock = some p := not_not.mp hl
    refine h.step rfl rfl ?_ ?_ (Or.inl ⟨rfl, ?_⟩)
    · intro q hq
      simp [hl, hq.symm]
    · intro j hj
      rw [hp]
      exact if_neg hj.symm
    · simp [Cache.uses, hp, hl, Phase.refs]

theorem Counted.lock (hp : c.phase p = .lock i) (hl : (c.buf i).lock = none) :
    Counted ((c.setBuf i { c.buf i with lock := some p }).goto p .idle) := by
  refine h.step rfl rfl ?_ ?_ (Or.inl ⟨rfl, ?_⟩)
  · intro q hq
    simp [hl, hq.symm]
  · intro j hj
    rw [hp]
    exact (if_neg hj.symm).symm
  · simp [Cache.uses, hp, hl, Phase.refs]

theorem Counted.pos (hp : c.phase p = .unref i) : (c.buf i).refcnt ≠ 0 := by
  apply (h i).pos (p := p)
  rw [Cache.uses, hp, Phase.refs, if_pos rfl]
  exact Nat.succ_ne_zero _

theorem Counted.unref (hp : c.phase p = .unref i) : Counted (c.unref p i) := by
  have hstep : Counted ((c.setBuf i { c.buf i with refcnt := (c.buf i).refcnt - 1 }).goto p
      .idle) := by
    refine h.step rfl rfl (fun _ _ => Iff.rfl) ?_ (Or.inr (Or.inr ⟨rfl, ?_⟩))
    · intro j hj
      rw [hp]
      exact (if_neg hj.symm).symm
    · simp [Cache.uses, hp, Phase.refs]
  rw [Cache.unref]
  split
  · exact hstep
  · exact hstep

theorem Counted.flags (i : Slot) (valid dirty : Bool) :
    Counted (c.setBuf i { c.buf i with valid := valid, dirty := dirty }) := by
  intro j
  have hj : (update c.buf i { c.buf i with valid := valid, dirty := dirty } j).refcnt =
      (c.buf j).refcnt ∧
      (update c.buf i { c.buf i with valid := valid, dirty := dirty } j).lock =
        (c.buf j).lock := by
    by_cases hj : j = i
    · subst hj
      rw [update_self]
      exact ⟨rfl, rfl⟩
    · rw [update_of_ne hj]
      exact ⟨rfl, rfl⟩
  rw [Cache.setBuf, hj.1]
  apply (h j).congr
  intro q
  rw [Cache.uses, Cache.uses, hj.2]

end

end Users

end BossOs.Bio
