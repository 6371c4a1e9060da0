import BossOs.Bio.Links

/-!
# The order of the buffers

The list is the buffers in the order in which they lost their last user, so `bget` recycles
the one that has been unused for longest.
-/

namespace BossOs.Bio

open Lib

def Older (freed : Slot → Option Nat) (i j : Slot) : Prop :=
  match freed i, freed j with
  | none, none => i < j
  | none, some _ => True
  | some _, none => False
  | some m, some n => m < n

/-- The list from the head on is `xs`: all buffers, the last one used first. -/
structure Listed {P : Type} (c : Cache P) (xs : List Slot) : Prop where
  ring : c.links.Ring xs
  complete : ∀ i, i ∈ xs
  sorted : xs.Pairwise fun i j => Older c.freed j i
  past : ∀ i n, c.freed i = some n → n < c.clock

section Order
variable {P : Type} {c c' : Cache P} {xs : List Slot}

theorem Listed.congr (h : Listed c xs) (hlinks : c'.links = c.links) (hclock : c'.clock = c.clock)
    (hfreed : c'.freed = c.freed) : Listed c' xs := by
  refine ⟨?_, h.complete, ?_, ?_⟩
  · rw [hlinks]
    exact h.ring
  · rw [hfreed]
    exact h.sorted
  · rw [hfreed, hclock]
    exact h.past

theorem length_of_ring {l : Links Slot} (h : l.Ring xs) (hall : ∀ i, i ∈ xs) :
    xs.length = NBUF := by
  have hperm : xs.Perm (List.finRange NBUF) := by
    apply (List.perm_ext_iff_of_nodup h.nodup (List.nodup_finRange NBUF)).mpr
    exact fun i => ⟨fun _ => List.mem_finRange i, fun _ => hall i⟩
  rw [hperm.length_eq, List.length_finRange]

theorem Listed.length (h : Listed c xs) : xs.length = NBUF := length_of_ring h.ring h.complete

theorem Listed.lookup (h : Listed c xs) (dev b : Nat) :
    c.lookup dev b = xs.find? fun i => decide ((c.buf i).Is dev b) :=
  h.ring.search _ (by rw [h.length]; exact Nat.lt_succ_self _)

theorem Listed.unused (h : Listed c xs) :
    c.unused = xs.reverse.find? fun i => decide (c.buf i).Unused :=
  h.ring.search_prev _ (by rw [h.length]; exact Nat.lt_succ_self _)

theorem mem_toFront (hall : ∀ i, i ∈ xs) (i j : Slot) : j ∈ i :: xs.erase i := by
  by_cases hj : j = i
  · exact List.mem_cons.mpr (Or.inl hj)
  · exact List.mem_cons_of_mem i ((List.mem_erase_of_ne hj).mpr (hall j))

theorem Listed.moveFront (h : Listed c xs) (i : Slot) (hlinks : c'.links = c.links.moveFront i)
    (hclock : c'.clock = c.clock + 1)
    (hfreed : c'.freed = Function.update c.freed i (some c.clock)) :
    Listed c' (i :: xs.erase i) := by
  refine ⟨?_, ?_, ?_, ?_⟩
  · rw [hlinks]
    exact h.ring.moveFront (h.complete i)
  · exact mem_toFront h.complete i
  · rw [hfreed]
    apply List.pairwise_cons.mpr
    constructor
    · intro j hj
      have hne : j ≠ i := ((h.ring.nodup.mem_erase_iff).mp hj).1
      simp only [Older, Function.update_self, Function.update_of_ne hne]
      cases hf : c.freed j with
      | none => trivial
      | some n => exact h.past j n hf
    · have hrest := h.sorted.sublist (List.erase_sublist (a := i))
      apply hrest.imp_of_mem
      intro j k hj hk hold
      have hj : j ≠ i := ((h.ring.nodup.mem_erase_iff).mp hj).1
      have hk : k ≠ i := ((h.ring.nodup.mem_erase_iff).mp hk).1
      simpa only [Older, Function.update_of_ne hj, Function.update_of_ne hk] using hold
  · intro j n hj
    rw [hclock]
    rw [hfreed] at hj
    by_cases hji : j = i
    · subst hji
      rw [Function.update_self] at hj
      cases hj
      exact Nat.lt_succ_self _
    · rw [Function.update_of_ne hji] at hj
      exact Nat.lt_succ_of_lt (h.past j n hj)

theorem Listed.oldest (h : Listed c xs) {i : Slot} (hi : c.unused = some i) {j : Slot}
    (hj : (c.buf j).Unused) (hne : j ≠ i) : Older c.freed i j := by
  rw [h.unused] at hi
  obtain ⟨-, as, bs, hsplit, has⟩ := List.find?_eq_some_iff_append.mp hi
  have hmem : j ∈ as ++ i :: bs := by
    rw [← hsplit]
    exact List.mem_reverse.mpr (h.complete j)
  have hsorted : (as ++ i :: bs).Pairwise (Older c.freed) := by
    rw [← hsplit]
    exact List.pairwise_reverse.mpr h.sorted
  rcases List.mem_append.mp hmem with hin | hin
  · exact absurd hj (by simpa using has j hin)
  · rcases List.mem_cons.mp hin with heq | hin
    · exact absurd heq hne
    · exact (List.pairwise_cons.mp (List.pairwise_append.mp hsorted).2.1).1 j hin

theorem Listed.unused_none (h : Listed c xs) (hi : c.unused = none) (j : Slot) :
    ¬ (c.buf j).Unused := by
  rw [h.unused] at hi
  simpa using List.find?_eq_none.mp hi j (List.mem_reverse.mpr (h.complete j))

theorem Listed.lookup_eq_none (h : Listed c xs) {dev b : Nat} :
    c.lookup dev b = none ↔ ∀ i, ¬ (c.buf i).Is dev b := by
  rw [h.lookup, List.find?_eq_none]
  constructor
  · intro hall i
    simpa using hall i (h.complete i)
  · intro hall i _
    simpa using hall i

theorem ring_foldl (xs : List Slot) {ys : List Slot} {l : Links Slot} (h : l.Ring ys)
    (hnodup : xs.Nodup) (hdisj : ∀ x ∈ xs, x ∉ ys) :
    (xs.foldl Links.pushFront l).Ring (xs.reverse ++ ys) := by
  induction xs generalizing ys l with
  | nil => exact h
  | cons x xs ih =>
    obtain ⟨hx, hnodup⟩ := List.nodup_cons.mp hnodup
    rw [List.foldl_cons, List.reverse_cons, List.append_assoc]
    apply ih (h.pushFront (hdisj x List.mem_cons_self)) hnodup
    intro y hy hmem
    rcases List.mem_cons.mp hmem with rfl | hmem
    · exact hx hy
    · exact hdisj y (List.mem_cons_of_mem x hy) hmem

theorem listed_init : Listed (Cache.init P) (List.finRange NBUF).reverse := by
  refine ⟨?_, ?_, ?_, ?_⟩
  · have h := ring_foldl (List.finRange NBUF) Links.Ring.empty (List.nodup_finRange NBUF)
      fun _ _ => List.not_mem_nil
    rwa [List.append_nil] at h
  · exact fun i => List.mem_reverse.mpr (List.mem_finRange i)
  · exact List.pairwise_reverse.mpr (List.pairwise_lt_finRange NBUF)
  · intro i n h
    cases h

structure Cyclic (l : Links Slot) : Prop where
  once : ∀ i, ∃! k, k < NBUF ∧ l.next^[k + 1] none = some i
  close : l.next^[NBUF + 1] none = none
  prev_next : ∀ a, l.prev (l.next a) = a
  next_prev : ∀ a, l.next (l.prev a) = a

theorem Listed.cyclic {xs : List Slot} (h : Listed c xs) : Cyclic c.links := by
  refine ⟨?_, ?_, h.ring.prev_next h.complete, h.ring.next_prev h.complete⟩
  · intro i
    have hi := h.ring.existsUnique (h.complete i)
    rwa [h.length] at hi
  · have hlen := h.length
    rw [← hlen, h.ring.seg.iterate (Nat.le_refl _)]
    exact List.getElem?_eq_none (Nat.le_refl _)

end Order

section Runs
variable {P : Type} [DecidableEq P] {c c' : Cache P}

structure RecencyInv (c : Cache P) : Prop where
  counted : Counted c
  listed : ∃ xs, Listed c xs

theorem RecencyInv.init : RecencyInv (Cache.init P) where
  counted := fun _ => Refs.zero.congr fun _ => rfl
  listed := ⟨_, listed_init⟩

theorem bget_listed {p : P} {dev b : Nat} {xs : List Slot} (h : Listed c xs) :
    Listed (c.bget p dev b) xs := by
  rw [Cache.bget]
  split
  · exact h.congr rfl rfl rfl
  · split
    · exact h.congr rfl rfl rfl
    · exact h.congr rfl rfl rfl

theorem unref_listed {p : P} {i : Slot} {xs : List Slot} (h : Listed c xs) :
    ∃ ys, Listed (c.unref p i) ys := by
  rw [Cache.unref]
  split
  · exact ⟨_, h.moveFront i rfl rfl rfl⟩
  · exact ⟨xs, h.congr rfl rfl rfl⟩

theorem RecencyInv.step (h : RecencyInv c) {e : Event P} (hstep : c.step e = some c') :
    RecencyInv c' := by
  obtain ⟨hc, xs, hl⟩ := h
  rw [Cache.step] at hstep
  split at hstep
  · cases e with
    | bget p dev b =>
      simp only [Cache.next] at hstep
      split at hstep
      · rename_i hp
        cases hstep
        exact ⟨hc.bget hp dev b, xs, bget_listed hl⟩
      · cases hstep
    | lock p =>
      simp only [Cache.next] at hstep
      split at hstep
      · rename_i i hp
        split at hstep
        · rename_i hlock
          cases hstep
          exact ⟨hc.lock hp hlock, xs, hl.congr rfl rfl rfl⟩
        · cases hstep
      · cases hstep
    | brelse p i =>
      simp only [Cache.next] at hstep
      split at hstep
      · rename_i hp
        cases hstep
        refine ⟨hc.brelse hp i, xs, ?_⟩
        rw [Cache.brelse]
        split
        · exact hl.congr rfl rfl rfl
        · exact hl.congr rfl rfl rfl
      · cases hstep
    | unref p =>
      simp only [Cache.next] at hstep
      split at hstep
      · rename_i i hp
        cases hstep
        exact ⟨hc.unref hp, unref_listed hl⟩
      · cases hstep
    | flags i valid dirty =>
      cases hstep
      exact ⟨hc.flags i valid dirty, xs, hl.congr rfl rfl rfl⟩
  · cases hstep

theorem RecencyInv.run {es : List (Event P)}
    (hrun : Run (fun _ _ => True) Cache.step (Cache.init P) es c) : RecencyInv c :=
  hrun.invariant (fun _ _ _ h _ hstep => h.step hstep) .init

/-- After any calls of `bget` and `brelse` the list is one ring of all buffers. `bget` of a block
that is not in the cache recycles the buffer that has been unused for longest, and panics only
if every buffer is in use or dirty. -/
theorem bget_recycles_oldest {es : List (Event P)}
    (hrun : Run (fun _ _ => True) Cache.step (Cache.init P) es c) :
    Cyclic c.links ∧ (∀ p i, c.phase p = .unref i → 0 < (c.buf i).refcnt) ∧ ∀ p dev b,
        ((∀ i, ¬ (c.buf i).Is dev b) → (∃ i, (c.buf i).Unused) →
          ∃ i, c.bget p dev b = c.recycle p i dev b ∧ (c.buf i).Unused ∧
            ∀ j, (c.buf j).Unused → j ≠ i → Older c.freed i j) ∧ ((c.bget p dev b).stop ≠ c.stop →
          (∀ i, ¬ (c.buf i).Is dev b) ∧ ∀ i, ¬ (c.buf i).Unused) := by
  obtain ⟨hc, xs, hl⟩ := RecencyInv.run hrun
  refine ⟨hl.cyclic, fun p i hp => Nat.pos_of_ne_zero (hc.pos hp), ?_⟩
  intro p dev b
  constructor
  · rintro hmiss ⟨j, hj⟩
    have hnone := hl.lookup_eq_none.mpr hmiss
    cases hi : c.unused with
    | none => exact absurd hj (hl.unused_none hi j)
    | some i =>
      refine ⟨i, ?_, Cache.unused_of_some hi, fun j hj hne => hl.oldest hi hj hne⟩
      simp only [Cache.bget, hnone, hi]
  · intro hstop
    cases hlook : c.lookup dev b with
    | some i =>
      simp only [Cache.bget, hlook] at hstop
      exact absurd rfl hstop
    | none =>
      refine ⟨hl.lookup_eq_none.mp hlook, ?_⟩
      cases hi : c.unused with
      | none => exact hl.unused_none hi
      | some i =>
        simp only [Cache.bget, hlook, hi] at hstop
        exact absurd rfl hstop

end Runs

/-- Block 5 was read into the first buffer and released, so block 6 goes to the second. -/
theorem bget_recycles_oldest_second :
    ∃ c : Cache Unit, Run (fun _ _ => True) Cache.step (Cache.init Unit)
        [.bget () 1 5, .lock (), .brelse () 0, .unref ()] c ∧ c.freed 0 = some 0 ∧
      ∃ i, c.bget () 1 6 = c.recycle () i 1 6 ∧ ∀ j, (c.buf j).Unused → j ≠ i → Older c.freed i j := by
  have hexec : (exec (fun _ _ => True) Cache.step (Cache.init Unit)
      [.bget () 1 5, .lock (), .brelse () 0, .unref ()]).map (fun c =>
        (decide (∀ i, ¬ (c.buf i).Is 1 6), decide (c.buf 1).Unused, c.freed 0)) =
      some (true, true, some 0) := by decide +kernel
  obtain ⟨c, hrun, hview⟩ := Run.of_exec_map hexec
  simp only [Prod.mk.injEq, decide_eq_true_eq] at hview
  obtain ⟨hmiss, hunused, hfreed⟩ := hview
  obtain ⟨-, -, hget⟩ := bget_recycles_oldest hrun
  obtain ⟨i, hi, -, hold⟩ := (hget () 1 6).1 hmiss ⟨1, hunused⟩
  exact ⟨c, hrun, hfreed, i, hi, hold⟩

structure Linked {P : Type} (c : Cache P) (s : State P) : Prop where
  buf : c.buf = s.buf
  stop : c.stop = s.stop
  ring : c.links.Ring s.order
  complete : ∀ i, i ∈ s.order

namespace Linked

variable {P : Type} {c : Cache P} {s : State P}

theorem init (d : Nat → Block) : Linked (Cache.init P) (binit P d) :=
  ⟨rfl, rfl, (listed_init (P := P)).ring, (listed_init (P := P)).complete⟩

theorem lookup (h : Linked c s) (b : Nat) : c.lookup ROOTDEV b = s.lookup b := by
  have hlen : s.order.length < NBUF + 1 := by
    rw [length_of_ring h.ring h.complete]
    exact Nat.lt_succ_self _
  rw [Cache.lookup, h.ring.search _ hlen, State.lookup, h.buf]
  rfl

theorem unused (h : Linked c s) : c.unused = s.unused := by
  have hlen : s.order.length < NBUF + 1 := by
    rw [length_of_ring h.ring h.complete]
    exact Nat.lt_succ_self _
  have htest : (fun i => decide (c.buf i).Unused) =
      fun i => decide ((s.buf i).refcnt = 0) && !(s.buf i).dirty := by
    funext i
    rw [h.buf, Bool.eq_iff_iff, decide_eq_true_iff]
    simp [Buf.Unused]
  rw [Cache.unused, h.ring.search_prev _ hlen, State.unused, htest]

variable [DecidableEq P]

theorem bget (h : Linked c s) (p : P) (b : Nat) (k : Slot → Prog) :
    Linked (c.bget p ROOTDEV b) (s.bget p b k) := by
  have hunused := h.unused
  have hlookup := h.lookup b
  obtain ⟨hbuf, hstop, hring, hall⟩ := h
  rw [Cache.bget, State.bget, hlookup]
  cases hl : s.lookup b with
  | some i =>
    refine ⟨?_, hstop, hring, hall⟩
    simp only [Cache.goto, Cache.setBuf, State.goto, State.setBuf, hbuf]
  | none =>
    rw [hunused]
    cases hu : s.unused with
    | some i =>
      refine ⟨?_, hstop, hring, hall⟩
      simp only [Cache.recycle, Cache.goto, Cache.setBuf, State.goto, State.setBuf, hbuf]
    | none => exact ⟨hbuf, rfl, hring, hall⟩

theorem unref (h : Linked c s) (p : P) (i : Slot) (k : Prog) :
    Linked (c.unref p i) (s.unref p i k) := by
  obtain ⟨hbuf, hstop, hring, hall⟩ := h
  rw [Cache.unref, State.unref, hbuf]
  by_cases hn : (s.buf i).refcnt - 1 = 0
  · rw [if_pos hn, if_pos hn]
    refine ⟨?_, hstop, hring.moveFront (hall i), mem_toFront hall i⟩
    simp only [Cache.goto, Cache.setBuf, State.goto, State.setBuf, hbuf]
  · rw [if_neg hn, if_neg hn]
    refine ⟨?_, hstop, hring, hall⟩
    simp only [Cache.goto, Cache.setBuf, State.goto, State.setBuf, hbuf]

end Linked

end BossOs.Bio
