import BossOs.Bio.Cache
import Mathlib.Logic.Relation
import Mathlib.Data.Fintype.Card

/-!
# The buffer cache in the hands of one process

The calls of `bio.c` made by a process while no other uses a buffer: which buffers it holds, and
which blocks are dirty.
-/

namespace BossOs.Bio

open Function (update_idem update_of_ne update_self)
open Lib

variable {P : Type} [DecidableEq P] {size : Nat} {p : P}

def Alone (size : Nat) (p : P) : State P → State P → Prop :=
  Relation.ReflTransGen fun s t => step size s (.run p) = some t

section Steps
variable {s t : State P}

theorem step_thread (hstop : s.stop = none) : step size s (.run p) = runThread size s p := by
  simp only [step, hstop, if_true]

theorem Alone.of_thread (hstop : s.stop = none) (hstep : runThread size s p = some t) :
    Alone size p s t :=
  .single ((step_thread hstop).trans hstep)

theorem Alone.of_prog (hstop : s.stop = none) {c : Prog} (hth : s.thread p = .prog c)
    (hstep : runProg s p c = some t) : Alone size p s t := by
  apply Alone.of_thread hstop
  simp only [runThread, hth, hstep]

theorem Alone.trans {u : State P} (h : Alone size p s t) (h' : Alone size p t u) :
    Alone size p s u :=
  Relation.ReflTransGen.trans h h'

theorem Alone.stop_eq_none (h : Alone size p s t) (hstop : t.stop = none)
    (hend : t.thread p = .prog .ret) {u : State P} (hu : Alone size p s u) : u.stop = none := by
  have hunique : Relator.RightUnique fun s t : State P => step size s (.run p) = some t :=
    fun _ _ _ h h' => Option.some.inj (h.symm.trans h')
  rcases Relation.ReflTransGen.total_of_right_unique hunique h hu with htu | hut
  · rcases Relation.ReflTransGen.cases_head htu with rfl | ⟨w, hw, -⟩
    · exact hstop
    · rw [step_thread hstop, runThread, hend] at hw
      cases hw
  · rcases Relation.ReflTransGen.cases_head hut with rfl | ⟨w, hw, -⟩
    · exact hstop
    · rw [step] at hw
      split at hw
      · assumption
      · cases hw

end Steps

structure Buf.Taken (p : P) (u v : Buf P) : Prop where
  valid : v.valid = true
  lock : v.lock = some p
  dirty : v.dirty = u.dirty
  dev : v.dev = u.dev
  blockno : v.blockno = u.blockno
  refcnt : v.refcnt = u.refcnt

/-- Two states that differ in the buffer `i` and in what `p` does next. -/
structure Near (p : P) (i : Slot) (v : Buf P) (th : Thread) (s t : State P) : Prop where
  buf : t.buf = Function.update s.buf i v
  thread : t.thread p = th
  order : t.order = s.order
  stop : t.stop = none
  lh : t.lh = s.lh

section Driver
variable {s : State P} {i : Slot} (hlock : (s.buf i).lock = some p)
  (hdev : (s.buf i).dev = ROOTDEV) (hno : (s.buf i).blockno < size)
include hlock hdev hno

theorem iderw_clean (hclean : (s.buf i).dirty = false) (hv : (s.buf i).valid = false)
    (th : Thread) : s.iderw size p i th =
      (s.setBuf i { s.buf i with data := s.disk (s.buf i).blockno, valid := true }).goto p th := by
  have hdev' : (s.buf i).dev = 1 := hdev
  simp [State.iderw, hlock, hv, hclean, hdev', hno]

theorem iderw_dirty (hdirty : (s.buf i).dirty = true) (th : Thread) : s.iderw size p i th =
    ({ s with disk := Function.update s.disk (s.buf i).blockno (s.buf i).data }.setBuf i
      { s.buf i with dirty := false, valid := true }).goto p th := by
  have hdev' : (s.buf i).dev = 1 := hdev
  simp [State.iderw, hlock, hdirty, hdev', hno]

end Driver

variable (size) in
theorem alone_lock {s : State P} {b : Nat} {i : Slot} {k : Slot → Prog} (hstop : s.stop = none)
    (hth : s.thread p = .lock b i k) (hlock : (s.buf i).lock = none)
    (hdev : (s.buf i).dev = ROOTDEV) (hno : (s.buf i).blockno < size)
    (hdirty : (s.buf i).dirty = true → (s.buf i).valid = true) :
    ∃ t v, Alone size p s t ∧ Near p i v (.prog (k i)) s t ∧ (s.buf i).Taken p v := by
  obtain ⟨w, hw⟩ : ∃ w : Buf P, w = { s.buf i with lock := some p } := ⟨_, rfl⟩
  obtain ⟨s₁, hs₁⟩ : ∃ s₁, s₁ = (s.setBuf i w).goto p (.check b i k) := ⟨_, rfl⟩
  have hstep₁ : Alone size p s s₁ := by
    apply Alone.of_thread hstop
    simp only [runThread, hth, hlock, if_true, hs₁, hw]
  have hbuf : s₁.buf i = w := by
    rw [hs₁]
    exact update_self ..
  have hth₁ : s₁.thread p = .check b i k := by
    rw [hs₁]
    exact update_self ..
  have hstop₁ : s₁.stop = none := by
    rw [hs₁]
    exact hstop
  have hback : ∀ u : State P, u.stop = none → u.thread p = .back b i k →
      Alone size p u (u.goto p (.prog (k i))) := by
    intro u hu hthu
    apply Alone.of_thread hu
    simp only [runThread, hthu]
  cases hv : (s.buf i).valid with
  | true =>
    refine ⟨(s₁.goto p (.back b i k)).goto p (.prog (k i)), w,
      hstep₁.trans (.trans (t := s₁.goto p (.back b i k)) ?_ (hback _ hstop₁ ?_)), ?_, ?_⟩
    · apply Alone.of_thread hstop₁
      simp only [runThread, hth₁, hbuf, hw, hv, if_true]
    · exact update_self ..
    · rw [hs₁]
      exact ⟨rfl, update_self .., rfl, hstop, rfl⟩
    · rw [hw]
      exact ⟨hv, rfl, rfl, rfl, rfl, rfl⟩
  | false =>
    have hclean : (s.buf i).dirty = false := by
      apply Bool.eq_false_of_not_eq_true
      intro hd
      rw [hdirty hd] at hv
      cases hv
    obtain ⟨v, hvw⟩ : ∃ v : Buf P, v = { w with data := s.disk w.blockno, valid := true } := ⟨_, rfl⟩
    refine ⟨((((s₁.goto p (.fill b i k)).setBuf i v).goto p (.back b i k)).goto p (.prog (k i))), v,
      hstep₁.trans (.trans (t := s₁.goto p (.fill b i k)) ?_ (.trans
        (t := ((s₁.goto p (.fill b i k)).setBuf i v).goto p (.back b i k)) ?_ (hback _ hstop₁ ?_))),
      ?_, ?_⟩
    · apply Alone.of_thread hstop₁
      simp [runThread, hth₁, hbuf, hw, hv]
    · have hbuf' : (s₁.goto p (.fill b i k)).buf i = w := hbuf
      have hdisk : s₁.disk = s.disk := by
        rw [hs₁]
        rfl
      apply Alone.of_thread (by exact hstop₁)
      have hread : runThread size (s₁.goto p (.fill b i k)) p =
          some ((s₁.goto p (.fill b i k)).iderw size p i (.back b i k)) := by
        simp only [runThread, State.goto, update_self]
      rw [hread, iderw_clean]
      · rw [hbuf', hvw, ← hdisk]
        rfl
      · rw [hbuf', hw]
      · rw [hbuf', hw]
        exact hdev
      · rw [hbuf', hw]
        exact hno
      · rw [hbuf', hw]
        exact hclean
      · rw [hbuf', hw]
        exact hv
    · exact update_self ..
    · rw [hs₁]
      refine ⟨?_, update_self .., rfl, hstop, rfl⟩
      exact update_idem ..
    · rw [hvw, hw]
      exact ⟨rfl, rfl, rfl, rfl, rfl, rfl⟩

/-- Only `p` uses buffers, those of `held`; the dirty ones are those of the blocks of `todo`. -/
structure Quiet (size : Nat) (p : P) (held : List Slot) (todo : List Nat) (s : State P) : Prop where
  stop : s.stop = none
  complete : ∀ i, i ∈ s.order
  unique : ∀ i j, (s.buf i).dev = ROOTDEV → (s.buf j).dev = ROOTDEV →
    (s.buf i).blockno = (s.buf j).blockno → i = j
  lock : ∀ i, (s.buf i).lock = if i ∈ held then some p else none
  refcnt : ∀ i, (s.buf i).refcnt = if i ∈ held then 1 else 0
  mine : ∀ i ∈ held, (s.buf i).dev = ROOTDEV ∧ (s.buf i).blockno < size
  dirty : ∀ i, (s.buf i).dirty = true →
    (s.buf i).valid = true ∧ (s.buf i).dev = ROOTDEV ∧ (s.buf i).blockno ∈ todo
  pinned : ∀ b ∈ todo, ∃ i, (s.buf i).dirty = true ∧ (s.buf i).dev = ROOTDEV ∧
    (s.buf i).blockno = b

namespace Quiet

variable {s t : State P} {held held' : List Slot} {todo todo' : List Nat} {i : Slot} {v : Buf P}

omit [DecidableEq P] in
theorem update (h : Quiet size p held todo s) (hbuf : t.buf = Function.update s.buf i v)
    (hstop : t.stop = none) (hall : ∀ j, j ∈ t.order) (hheld : ∀ j ≠ i, (j ∈ held' ↔ j ∈ held))
    (hdev : v.dev = ROOTDEV) (hno : v.blockno < size)
    (hother : ∀ j ≠ i, (s.buf j).dev = ROOTDEV → (s.buf j).blockno ≠ v.blockno)
    (hlock : v.lock = if i ∈ held' then some p else none)
    (hcnt : v.refcnt = if i ∈ held' then 1 else 0)
    (hdirty : v.dirty = true → v.valid = true ∧ v.blockno ∈ todo')
    (htodo : ∀ b ≠ v.blockno, (b ∈ todo' ↔ b ∈ todo))
    (hclean : (s.buf i).dirty = true → (s.buf i).blockno = v.blockno)
    (hpin : v.blockno ∈ todo' → v.dirty = true) : Quiet size p held' todo' t := by
  have own : t.buf i = v := by rw [hbuf, update_self]
  have off : ∀ j ≠ i, t.buf j = s.buf j := fun j hj => by
    rw [hbuf, update_of_ne hj]
  refine ⟨hstop, hall, ?_, ?_, ?_, ?_, ?_, ?_⟩
  · intro j k hj hk he
    by_cases hji : j = i <;> by_cases hki : k = i
    · rw [hji, hki]
    · subst hji
      rw [own, off k hki] at he
      rw [off k hki] at hk
      exact absurd he.symm (hother k hki hk)
    · subst hki
      rw [own, off j hji] at he
      rw [off j hji] at hj
      exact absurd he (hother j hji hj)
    · rw [off j hji] at hj he
      rw [off k hki] at hk he
      exact h.unique j k hj hk he
  · intro j
    by_cases hji : j = i
    · rw [hji, own, hlock]
    · rw [off j hji, h.lock j]
      simp only [hheld j hji]
  · intro j
    by_cases hji : j = i
    · rw [hji, own, hcnt]
    · rw [off j hji, h.refcnt j]
      simp only [hheld j hji]
  · intro j hj
    by_cases hji : j = i
    · rw [hji, own]
      exact ⟨hdev, hno⟩
    · rw [off j hji]
      exact h.mine j ((hheld j hji).mp hj)
  · intro j hj
    by_cases hji : j = i
    · subst hji
      rw [own] at hj ⊢
      exact ⟨(hdirty hj).1, hdev, (hdirty hj).2⟩
    · rw [off j hji] at hj ⊢
      obtain ⟨hv, hd, hb⟩ := h.dirty j hj
      exact ⟨hv, hd, (htodo _ (hother j hji hd)).mpr hb⟩
  · intro b hb
    by_cases hbv : b = v.blockno
    · refine ⟨i, ?_⟩
      rw [own]
      exact ⟨hpin (hbv ▸ hb), hdev, hbv.symm⟩
    · obtain ⟨j, hj, hd, hjb⟩ := h.pinned b ((htodo b hbv).mp hb)
      have hji : j ≠ i := by
        rintro rfl
        exact hbv (hjb.symm.trans (hclean hj))
      refine ⟨j, ?_⟩
      rw [off j hji]
      exact ⟨hj, hd, hjb⟩

omit [DecidableEq P] in
theorem exists_unused (h : Quiet size p held todo s) (hroom : todo.length + held.length < NBUF) :
    ∃ i, s.unused = some i := by
  cases hu : s.unused with
  | some i => exact ⟨i, rfl⟩
  | none =>
    exfalso
    have hall : ∀ i, i ∈ held ∨ (s.buf i).dirty = true := by
      intro i
      have hi := List.find?_eq_none.mp hu i (List.mem_reverse.mpr (h.complete i))
      rw [h.refcnt i] at hi
      by_cases hheld : i ∈ held
      · exact Or.inl hheld
      · right
        simpa [hheld] using hi
    have hcover : (Finset.univ : Finset Slot) ⊆
        held.toFinset ∪ Finset.univ.filter fun i => (s.buf i).dirty = true := by
      intro i _
      rcases hall i with hi | hi
      · exact Finset.mem_union_left _ (List.mem_toFinset.mpr hi)
      · exact Finset.mem_union_right _ (Finset.mem_filter.mpr ⟨Finset.mem_univ i, hi⟩)
    -- dirty buffers stand for different blocks of `todo`
    have hdirty : (Finset.univ.filter fun i => (s.buf i).dirty = true).card ≤
        todo.toFinset.card := by
      apply Finset.card_le_card_of_injOn fun i => (s.buf i).blockno
      · intro i hi
        exact List.mem_toFinset.mpr (h.dirty i (Finset.mem_filter.mp hi).2).2.2
      · intro i hi j hj he
        have hi := h.dirty i (Finset.mem_filter.mp hi).2
        have hj := h.dirty j (Finset.mem_filter.mp hj).2
        exact h.unique i j hi.2.1 hj.2.1 he
    have hcard := (Finset.card_le_card hcover).trans (Finset.card_union_le _ _)
    have hheld := held.toFinset_card_le
    have htodo := todo.toFinset_card_le
    rw [Finset.card_univ, Fintype.card_fin] at hcard
    omega

theorem bget (h : Quiet size p held todo s) {b : Nat} (k : Slot → Prog)
    (hfree : ∀ j ∈ held, (s.buf j).blockno ≠ b)
    (hroom : b ∈ todo ∨ todo.length + held.length < NBUF) :
    ∃ i w, s.bget p b k = (s.setBuf i w).goto p (.lock b i k) ∧ i ∉ held ∧
      (w.lock = none ∧ w.dev = ROOTDEV ∧ w.blockno = b ∧ w.refcnt = 1) ∧
      (w.dirty = true → w.valid = true) ∧ (w.dirty = true ↔ b ∈ todo) ∧
      (∀ j ≠ i, (s.buf j).dev = ROOTDEV → (s.buf j).blockno ≠ b) ∧
      ((s.buf i).dirty = true → (s.buf i).blockno = b) := by
  cases hl : s.lookup b with
  | some i =>
    obtain ⟨hdev, hno⟩ := lookup_some hl
    have hi : i ∉ held := fun hi => hfree i hi hno
    have hother : ∀ j ≠ i, (s.buf j).dev = ROOTDEV → (s.buf j).blockno ≠ b :=
      fun j hj hd he => hj (h.unique j i hd hdev (he.trans hno.symm))
    refine ⟨i, { s.buf i with refcnt := (s.buf i).refcnt + 1 }, ?_, hi, ⟨?_, hdev, hno, ?_⟩,
      fun hd => (h.dirty i hd).1, ⟨fun hd => ?_, fun hb => ?_⟩, hother, fun _ => hno⟩
    · simp only [State.bget, hl]
    · exact (h.lock i).trans (if_neg hi)
    · simp only [h.refcnt i, if_neg hi]
    · rw [← hno]
      exact (h.dirty i hd).2.2
    · obtain ⟨j, hj, hd, hjb⟩ := h.pinned b hb
      rw [h.unique i j hdev hd (hno.trans hjb.symm)]
      exact hj
  | none =>
    have hmiss := lookup_none h.complete hl
    have hb : b ∉ todo := by
      intro hb
      obtain ⟨j, -, hd, hjb⟩ := h.pinned b hb
      exact hmiss j ⟨hd, hjb⟩
    obtain ⟨i, hu⟩ := h.exists_unused (hroom.resolve_left hb)
    obtain ⟨hcnt, hclean⟩ := unused_some hu
    have hi : i ∉ held := by
      intro hi
      rw [h.refcnt i, if_pos hi] at hcnt
      cases hcnt
    refine ⟨i, { s.buf i with
      dev := ROOTDEV, blockno := b, valid := false, dirty := false, refcnt := 1 }, ?_, hi,
      ⟨?_, rfl, rfl, rfl⟩, fun hd => ?_, ⟨fun hd => ?_, fun h => absurd h hb⟩,
      fun j _ hd he => hmiss j ⟨hd, he⟩, fun hd => ?_⟩
    · simp only [State.bget, hl, hu]
    · exact (h.lock i).trans (if_neg hi)
    · cases hd
    · cases hd
    · rw [hclean] at hd
      cases hd

theorem bread (h : Quiet size p held todo s) {b : Nat} {k : Slot → Prog}
    (hth : s.thread p = .prog (.bread b k)) (hb : b < size)
    (hfree : ∀ j ∈ held, (s.buf j).blockno ≠ b)
    (hroom : b ∈ todo ∨ todo.length + held.length < NBUF) :
    ∃ t i, Alone size p s t ∧ t.thread p = .prog (k i) ∧ Quiet size p (i :: held) todo t ∧
      (t.buf i).blockno = b ∧ i ∉ held ∧ (∀ j ∈ held, t.buf j = s.buf j) ∧ t.lh = s.lh := by
  obtain ⟨i, w, hget, hi, ⟨hlock, hdev, hno, hcnt⟩, hvalid, htodo, hother, hclean⟩ :=
    h.bget k hfree hroom
  have hself : ((s.setBuf i w).goto p (.lock b i k)).buf i = w := update_self ..
  have hstep : Alone size p s ((s.setBuf i w).goto p (.lock b i k)) := by
    apply Alone.of_prog h.stop hth
    rw [runProg, hget]
  obtain ⟨t, v, hrun, hnear, htaken⟩ := alone_lock size
    (s := (s.setBuf i w).goto p (.lock b i k)) h.stop (update_self ..)
    (by rw [hself]; exact hlock) (by rw [hself]; exact hdev) (by rw [hself, hno]; exact hb)
    (by rw [hself]; exact hvalid)
  rw [hself] at htaken
  have hbuf : t.buf = Function.update s.buf i v := hnear.buf.trans (update_idem ..)
  have hvno : v.blockno = b := htaken.blockno.trans hno
  refine ⟨t, i, hstep.trans hrun, hnear.thread, ?_, ?_, hi, ?_, hnear.lh⟩
  · apply h.update hbuf hnear.stop
    · intro j
      rw [hnear.order]
      exact h.complete j
    · intro j hj
      simp [hj]
    · exact htaken.dev.trans hdev
    · rwa [hvno]
    · rwa [hvno]
    · simp [htaken.lock]
    · simp [htaken.refcnt, hcnt]
    · intro hd
      rw [hvno]
      exact ⟨htaken.valid, htodo.mp (htaken.dirty ▸ hd)⟩
    · exact fun _ _ => Iff.rfl
    · rwa [hvno]
    · intro hmem
      rw [hvno] at hmem
      rw [htaken.dirty]
      exact htodo.mpr hmem
  · rw [hbuf, update_self]
    exact hvno
  · intro j hj
    have hji : j ≠ i := by
      rintro rfl
      exact hi hj
    rw [hbuf, update_of_ne hji]

end Quiet

/-- Calls of `p` that end before `k`, with these buffers held and these blocks left. -/
structure Calls (size : Nat) (p : P) (held : List Slot) (todo : List Nat) (k : Prog)
    (s t : State P) : Prop where
  alone : Alone size p s t
  thread : t.thread p = .prog k
  quiet : Quiet size p held todo t
  blocks : ∀ j, (t.buf j).blockno = (s.buf j).blockno
  lh : t.lh = s.lh

namespace Quiet

variable {s t : State P} {held held' : List Slot} {todo todo' : List Nat} {i : Slot} {k : Prog}
  {v : Buf P}

omit [DecidableEq P] in
theorem dirty_of_mem (h : Quiet size p held todo s) (hdev : (s.buf i).dev = ROOTDEV)
    (hb : (s.buf i).blockno ∈ todo) : (s.buf i).dirty = true := by
  obtain ⟨j, hj, hd, hjb⟩ := h.pinned _ hb
  rw [← h.unique j i hd hdev hjb]
  exact hj

theorem calls (h : Quiet size p held todo s) (hi : i ∈ held) (halone : Alone size p s t)
    (hth : t.thread p = .prog k) (hbuf : t.buf = Function.update s.buf i v)
    (hstop : t.stop = none) (hall : ∀ j, j ∈ t.order) (hlh : t.lh = s.lh)
    (hdev : v.dev = (s.buf i).dev) (hno : v.blockno = (s.buf i).blockno)
    (hheld : ∀ j ≠ i, (j ∈ held' ↔ j ∈ held))
    (hlock : v.lock = if i ∈ held' then some p else none)
    (hcnt : v.refcnt = if i ∈ held' then 1 else 0)
    (hdirty : v.dirty = true → v.valid = true ∧ (s.buf i).blockno ∈ todo')
    (htodo : ∀ b ≠ (s.buf i).blockno, (b ∈ todo' ↔ b ∈ todo))
    (hpin : (s.buf i).blockno ∈ todo' → v.dirty = true) : Calls size p held' todo' k s t := by
  obtain ⟨hroot, hsize⟩ := h.mine i hi
  refine ⟨halone, hth, ?_, ?_, hlh⟩
  · apply h.update hbuf hstop hall hheld
    · rw [hdev, hroot]
    · rwa [hno]
    · intro j hj hd he
      exact hj (h.unique j i hd hroot (he.trans hno))
    · exact hlock
    · exact hcnt
    · rwa [hno]
    · rwa [hno]
    · exact fun _ => hno.symm
    · rwa [hno]
  · intro j
    by_cases hj : j = i
    · rw [hbuf, hj, update_self, hno]
    · rw [hbuf, update_of_ne hj]

theorem header (h : Quiet size p held todo s) {k : List Nat → Prog}
    (hth : s.thread p = .prog (.header k)) : ∃ t, Calls size p held todo (k s.lh) s t := by
  refine ⟨s.goto p (.prog (k s.lh)), .of_prog h.stop hth rfl, update_self .., ?_,
    fun _ => rfl, rfl⟩
  exact ⟨h.stop, h.complete, h.unique, h.lock, h.refcnt, h.mine, h.dirty, h.pinned⟩

theorem move (h : Quiet size p held todo s) {dst src : Slot} {f : Block → Block}
    (hdst : dst ∈ held) (hth : s.thread p = .prog (.read src fun v => .modify dst (f v) k)) :
    ∃ t, Calls size p held todo k s t := by
  obtain ⟨s₁, hs₁⟩ : ∃ s₁, s₁ = s.goto p (.prog (.modify dst (f (s.buf src).data) k)) := ⟨_, rfl⟩
  have hread : Alone size p s s₁ := by
    apply Alone.of_prog h.stop hth
    rw [hs₁]
    rfl
  have hth₁ : s₁.thread p = .prog (.modify dst (f (s.buf src).data) k) := by
    rw [hs₁]
    exact update_self ..
  have hstop : s₁.stop = none := by
    rw [hs₁]
    exact h.stop
  refine ⟨_, h.calls hdst (hread.trans (.of_prog hstop hth₁ rfl)) (update_self ..)
    (v := { s.buf dst with data := f (s.buf src).data }) ?_ hstop ?_ ?_ rfl rfl
    (fun _ _ => Iff.rfl) (h.lock dst) (h.refcnt dst) ?_ (fun _ _ => Iff.rfl) ?_⟩
  · rw [hs₁]
    rfl
  · rw [hs₁]
    exact h.complete
  · rw [hs₁]
    rfl
  · exact fun hd => ⟨(h.dirty dst hd).1, (h.dirty dst hd).2.2⟩
  · exact h.dirty_of_mem (h.mine dst hdst).1

theorem bwrite (h : Quiet size p held todo s) (hnodup : todo.Nodup) (hi : i ∈ held)
    (hth : s.thread p = .prog (.bwrite i k)) :
    ∃ t, Calls size p held (todo.erase (s.buf i).blockno) k s t := by
  have hlock : (s.buf i).lock = some p := by rw [h.lock i, if_pos hi]
  obtain ⟨hdev, hno⟩ := h.mine i hi
  obtain ⟨w, hw⟩ : ∃ w : Buf P, w = { s.buf i with dirty := true } := ⟨_, rfl⟩
  obtain ⟨s₁, hs₁⟩ : ∃ s₁, s₁ = ((s.setBuf i w).setChanged i false).goto p (.write i k) :=
    ⟨_, rfl⟩
  have hbuf : s₁.buf = Function.update s.buf i w := by
    rw [hs₁]
    rfl
  have hself : s₁.buf i = w := by rw [hbuf, update_self]
  have hstop : s₁.stop = none := by
    rw [hs₁]
    exact h.stop
  have hmark : Alone size p s s₁ := by
    apply Alone.of_prog h.stop hth
    simp only [runProg, hlock, hs₁, hw, ne_eq, not_true_eq_false, if_false]
  have hwrite : runThread size s₁ p = some (s₁.iderw size p i (.prog k)) := by
    simp only [runThread, hs₁, State.goto, update_self]
  rw [iderw_dirty (by rw [hself, hw]; exact hlock) (by rw [hself, hw]; exact hdev)
    (by rw [hself, hw]; exact hno) (by rw [hself, hw]), hself] at hwrite
  refine ⟨_, h.calls hi (hmark.trans (.of_thread hstop hwrite)) (update_self ..)
    (v := { w with dirty := false, valid := true }) ?_ hstop ?_ ?_ ?_ ?_
    (fun _ _ => Iff.rfl) ?_ ?_ ?_ ?_ ?_⟩
  · change Function.update s₁.buf i _ = _
    rw [hbuf, update_idem]
  · rw [hs₁]
    exact h.complete
  · rw [hs₁]
    rfl
  · rw [hw]
  · rw [hw]
  · rw [hw]
    exact h.lock i
  · rw [hw]
    exact h.refcnt i
  · intro hd
    cases hd
  · intro b hb
    exact List.mem_erase_of_ne hb
  · intro hb
    exact absurd hb hnodup.not_mem_erase

theorem brelse (h : Quiet size p held todo s) (hnodup : held.Nodup) (hi : i ∈ held)
    (hth : s.thread p = .prog (.brelse i k)) : ∃ t, Calls size p (held.erase i) todo k s t := by
  have hlock : (s.buf i).lock = some p := by rw [h.lock i, if_pos hi]
  have hcnt : (s.buf i).refcnt = 1 := by rw [h.refcnt i, if_pos hi]
  obtain ⟨w, hw⟩ : ∃ w : Buf P, w = { s.buf i with lock := none } := ⟨_, rfl⟩
  obtain ⟨s₁, hs₁⟩ : ∃ s₁, s₁ = (s.setBuf i w).goto p (.unref i k) := ⟨_, rfl⟩
  have hbuf : s₁.buf = Function.update s.buf i w := by
    rw [hs₁]
    rfl
  have hstop : s₁.stop = none := by
    rw [hs₁]
    exact h.stop
  have hunlock : Alone size p s s₁ := by
    apply Alone.of_prog h.stop hth
    simp only [runProg, hlock, hs₁, hw, ne_eq, not_true_eq_false, if_false]
  have hunref : runThread size s₁ p = some (s₁.unref p i k) := by
    simp only [runThread, hs₁, State.goto, update_self]
  have hzero : (s₁.buf i).refcnt - 1 = 0 := by
    rw [hbuf, update_self, hw, hcnt]
  rw [State.unref, if_pos hzero, hzero] at hunref
  have hgone : i ∉ held.erase i := hnodup.not_mem_erase
  refine ⟨_, h.calls hi (hunlock.trans (.of_thread hstop hunref)) (update_self ..)
    (v := { w with refcnt := 0 }) ?_ hstop ?_ ?_ ?_ ?_ ?_ ?_ ?_ ?_ (fun _ _ => Iff.rfl) ?_⟩
  · change Function.update s₁.buf i _ = _
    rw [hbuf, update_idem, update_self]
  · intro j
    have horder : s₁.order = s.order := by
      rw [hs₁]
      rfl
    change j ∈ i :: s₁.order.erase i
    rw [horder]
    by_cases hj : j = i
    · exact List.mem_cons.mpr (Or.inl hj)
    · exact List.mem_cons_of_mem i ((List.mem_erase_of_ne hj).mpr (h.complete j))
  · change s₁.lh = s.lh
    rw [hs₁]
    rfl
  · rw [hw]
  · rw [hw]
  · intro j hj
    exact List.mem_erase_of_ne hj
  · rw [hw, if_neg hgone]
  · rw [if_neg hgone]
  · rw [hw]
    exact fun hd => ⟨(h.dirty i hd).1, (h.dirty i hd).2.2⟩
  · rw [hw]
    exact h.dirty_of_mem (h.mine i hi).1

end Quiet

end BossOs.Bio
