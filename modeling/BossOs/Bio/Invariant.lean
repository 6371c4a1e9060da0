import BossOs.Bio.Model
import BossOs.Lib.Refs

/-!
# Invariants of the buffer cache

At most one buffer stands for a block, and a clean one has the contents of the disk. The
reference count of a buffer is the number of its users, and only the holder of its lock
changes it.
-/

namespace BossOs.Bio

open Lib
open Function (update update_self update_of_ne update_eq_self)

variable {P : Type}

structure BlockInv (s : State P) : Prop where
  unique : ∀ i j, (s.buf i).dev = ROOTDEV → (s.buf j).dev = ROOTDEV →
    (s.buf i).blockno = (s.buf j).blockno → i = j
  root : ∀ i, (s.buf i).valid = true ∨ (s.buf i).refcnt ≠ 0 → (s.buf i).dev = ROOTDEV
  loaded : ∀ i, (s.buf i).dirty = true ∨ s.changed i = true → (s.buf i).valid = true
  stored : ∀ i, (s.buf i).valid = true → (s.buf i).dirty = false → s.changed i = false →
    (s.buf i).data = s.disk (s.buf i).blockno
  cached : ∀ i, (s.buf i).valid = true → s.latest (s.buf i).blockno = (s.buf i).data
  uncached : ∀ b, (∀ i, (s.buf i).dev = ROOTDEV → (s.buf i).blockno = b → (s.buf i).valid = false) →
    s.latest b = s.disk b

variable {i : Slot}

variable {v : Buf P}

namespace BlockInv

variable {s s' : State P}

theorem keep (h : BlockInv s) {c : Bool}
    (hbuf : s'.buf = update s.buf i v) (hch : s'.changed = update s.changed i c)
    (hdev : (s.buf i).dev = ROOTDEV) (hdev' : v.dev = ROOTDEV) (hno : v.blockno = (s.buf i).blockno)
    (hrest : ∀ b ≠ v.blockno, s'.disk b = s.disk b ∧ s'.latest b = s.latest b)
    (hloaded : v.dirty = true ∨ c = true → v.valid = true)
    (hstored : v.valid = true → v.dirty = false → c = false → v.data = s'.disk v.blockno)
    (hcached : v.valid = true → s'.latest v.blockno = v.data)
    (huncached : v.valid = false → s'.latest v.blockno = s'.disk v.blockno) : BlockInv s' := by
  have own : s'.buf i = v ∧ s'.changed i = c := by
    rw [hbuf, hch]
    exact ⟨update_self .., update_self ..⟩
  have off : ∀ j ≠ i, s'.buf j = s.buf j ∧ s'.changed j = s.changed j := fun j hj => by
    rw [hbuf, hch]
    exact ⟨update_of_ne hj .., update_of_ne hj ..⟩
  have place : ∀ j, (s'.buf j).dev = (s.buf j).dev ∧ (s'.buf j).blockno = (s.buf j).blockno := by
    intro j
    by_cases hj : j = i
    · subst hj
      rw [own.1]
      exact ⟨hdev'.trans hdev.symm, hno⟩
    · rw [(off j hj).1]
      exact ⟨rfl, rfl⟩
  -- a valid buffer other than `i` stands for another block
  have apart : ∀ j ≠ i, (s.buf j).valid = true → (s.buf j).blockno ≠ v.blockno :=
    fun j hj hv he => hj (h.unique j i (h.root j (Or.inl hv)) hdev (he.trans hno))
  refine ⟨fun j k hj hk he => ?_, fun j hj => ?_, fun j hj => ?_, fun j hv hd hc => ?_,
    fun j hv => ?_, fun b hb => ?_⟩
  · rw [(place j).1] at hj
    rw [(place k).1] at hk
    rw [(place j).2, (place k).2] at he
    exact h.unique j k hj hk he
  · by_cases hji : j = i
    · rw [hji, own.1]
      exact hdev'
    · rw [(off j hji).1] at hj ⊢
      exact h.root j hj
  · by_cases hji : j = i
    · subst hji
      rw [own.1, own.2] at hj
      rw [own.1]
      exact hloaded hj
    · rw [(off j hji).1, (off j hji).2] at hj
      rw [(off j hji).1]
      exact h.loaded j hj
  · by_cases hji : j = i
    · subst hji
      rw [own.1] at hv hd ⊢
      rw [own.2] at hc
      exact hstored hv hd hc
    · rw [(off j hji).1] at hv hd ⊢
      rw [(off j hji).2] at hc
      rw [(hrest _ (apart j hji hv)).1]
      exact h.stored j hv hd hc
  · by_cases hji : j = i
    · subst hji
      rw [own.1] at hv ⊢
      exact hcached hv
    · rw [(off j hji).1] at hv ⊢
      rw [(hrest _ (apart j hji hv)).2]
      exact h.cached j hv
  · by_cases hbi : b = v.blockno
    · subst hbi
      have hv := hb i
      rw [own.1] at hv
      exact huncached (hv hdev' rfl)
    · rw [(hrest b hbi).1, (hrest b hbi).2]
      refine h.uncached b fun j hj he => ?_
      have hji : j ≠ i := by
        rintro rfl
        exact hbi (he.symm.trans hno.symm)
      have hj' := hb j
      rw [(off j hji).1] at hj'
      exact hj' hj he

theorem latest_of_invalid (h : BlockInv s) (hdev : (s.buf i).dev = ROOTDEV)
    (hv : (s.buf i).valid = false) : s.latest (s.buf i).blockno = s.disk (s.buf i).blockno := by
  refine h.uncached _ fun j hj he => ?_
  rw [h.unique j i hj hdev he]
  exact hv

theorem same (h : BlockInv s) (hdev : (s.buf i).dev = ROOTDEV) {n : Nat} {l : Option P}
    (hbuf : s'.buf = update s.buf i { s.buf i with refcnt := n, lock := l })
    (hch : s'.changed = s.changed) (hdisk : s'.disk = s.disk) (hlatest : s'.latest = s.latest) :
    BlockInv s' := by
  refine h.keep hbuf (hch.trans (update_eq_self i _).symm) hdev hdev rfl
    (fun b _ => by rw [hdisk, hlatest]; exact ⟨rfl, rfl⟩) (h.loaded i) ?_ ?_ ?_
  · rw [hdisk]
    exact h.stored i
  · rw [hlatest]
    exact h.cached i
  · rw [hdisk, hlatest]
    exact h.latest_of_invalid hdev

theorem recycle (h : BlockInv s) {b : Nat}
    (hnew : ∀ j, ¬ ((s.buf j).dev = ROOTDEV ∧ (s.buf j).blockno = b))
    (hdirty : (s.buf i).dirty = false) (hchanged : s.changed i = false) {l : Option P} {v : Block}
    (hbuf : s'.buf = update s.buf i ⟨false, false, ROOTDEV, b, l, 1, v⟩)
    (hch : s'.changed = s.changed) (hdisk : s'.disk = s.disk) (hlatest : s'.latest = s.latest) :
    BlockInv s' := by
  have off : ∀ j, s'.buf j = s.buf j ∨ j = i ∧ s'.buf j = ⟨false, false, ROOTDEV, b, l, 1, v⟩ := by
    intro j
    rw [hbuf]
    by_cases hj : j = i
    · subst hj
      exact Or.inr ⟨rfl, update_self ..⟩
    · exact Or.inl (update_of_ne hj ..)
  refine ⟨fun j k hj hk he => ?_, fun j hj => ?_, fun j hj => ?_, fun j hv hd hc => ?_,
    fun j hv => ?_, fun n hn => ?_⟩
  · rcases off j with hj' | ⟨rfl, hj'⟩ <;> rcases off k with hk' | ⟨rfl, hk'⟩
    · rw [hj'] at hj he
      rw [hk'] at hk he
      exact h.unique j k hj hk he
    · rw [hj'] at hj he
      rw [hk'] at he
      exact absurd ⟨hj, he⟩ (hnew j)
    · rw [hk'] at hk he
      rw [hj'] at he
      exact absurd ⟨hk, he.symm⟩ (hnew k)
    · rfl
  · rcases off j with hj' | ⟨rfl, hj'⟩
    · rw [hj'] at hj ⊢
      exact h.root j hj
    · rw [hj']
  · rw [hch] at hj
    rcases off j with hj' | ⟨rfl, hj'⟩
    · rw [hj'] at hj ⊢
      exact h.loaded j hj
    · rw [hj', hchanged] at hj
      simp at hj
  · rw [hch] at hc
    rw [hdisk]
    rcases off j with hj' | ⟨rfl, hj'⟩
    · rw [hj'] at hv hd ⊢
      exact h.stored j hv hd hc
    · rw [hj'] at hv
      cases hv
  · rw [hlatest]
    rcases off j with hj' | ⟨rfl, hj'⟩
    · rw [hj'] at hv ⊢
      exact h.cached j hv
    · rw [hj'] at hv
      cases hv
  · rw [hdisk, hlatest]
    by_cases hin : ∃ j, (s.buf j).dev = ROOTDEV ∧ (s.buf j).blockno = n ∧ (s.buf j).valid = true
    · obtain ⟨j, hj, rfl, hv⟩ := hin
      rcases off j with hj' | ⟨rfl, -⟩
      · have hf := hn j (by rw [hj']; exact hj) (by rw [hj'])
        rw [hj', hv] at hf
        cases hf
      · -- what the buffer held is on the disk
        rw [h.cached j hv, h.stored j hv hdirty hchanged]
    · refine h.uncached n fun j hj he => ?_
      exact Bool.eq_false_of_not_eq_true fun hv => hin ⟨j, hj, he, hv⟩

end BlockInv

def State.view [DecidableEq P] (s : State P) (p : P) (i : Slot) : Option Bool :=
  if (s.buf i).lock = some p then some (s.changed i) else none

namespace Thread

def Clean (held : Slot → Option Bool) : Thread → Prop
  | .prog c => c.Clean held
  | .lock b _ k => (Prog.bread b k).Clean held
  | .check _ i k | .fill _ i k | .back _ i k => held i = some false ∧ (k i).Clean held
  | .write i k => held i = some false ∧ k.Clean held
  | .unref _ k => k.Clean held

def At (buf : Slot → Buf P) : Thread → Prop
  | .lock b i _ | .check b i _ => (buf i).dev = ROOTDEV ∧ (buf i).blockno = b
  | .fill b i _ => ((buf i).dev = ROOTDEV ∧ (buf i).blockno = b) ∧ (buf i).valid = false
  | .back b i _ => ((buf i).dev = ROOTDEV ∧ (buf i).blockno = b) ∧ (buf i).valid = true
  | .write i _ => (buf i).dirty = true
  | _ => True

def busy (i : Slot) : Thread → Prop
  | .check _ j _ | .fill _ j _ | .back _ j _ | .write j _ => j = i
  | _ => False

def refs (i : Slot) : Thread → Nat
  | .lock _ j _ | .unref j _ => if j = i then 1 else 0
  | _ => 0

def loading (i : Slot) : Thread → Prop
  | .check _ j _ | .fill _ j _ => j = i
  | _ => False

theorem At.off {t : Thread} {buf : Slot → Buf P} (ht : t.At buf) (hbusy : ¬ t.busy i)
    (hwait : t.refs i = 0 ∨ v.dev = (buf i).dev ∧ v.blockno = (buf i).blockno) :
    t.At (update buf i v) := by
  cases t with
  | prog | unref => trivial
  | check b j k | fill b j k | back b j k | write j k =>
    simpa only [At, update_of_ne hbusy] using ht
  | lock b j k =>
    by_cases hj : j = i
    · subst hj
      rcases hwait with hz | ⟨hdev, hno⟩
      · simp [refs] at hz
      · simpa only [At, update_self, hdev, hno] using ht
    · simpa only [At, update_of_ne hj] using ht

theorem At.same {t : Thread} {buf : Slot → Buf P} (ht : t.At buf)
    (hdev : v.dev = (buf i).dev) (hno : v.blockno = (buf i).blockno)
    (hvalid : v.valid = (buf i).valid) (hdirty : v.dirty = (buf i).dirty) :
    t.At (update buf i v) := by
  cases t with
  | prog | unref => trivial
  | lock b j k | check b j k | fill b j k | back b j k | write j k =>
    by_cases hj : j = i
    · subst hj
      simpa only [At, update_self, hdev, hno, hvalid, hdirty] using ht
    · simpa only [At, update_of_ne hj] using ht

end Thread

section
variable [DecidableEq P]

def State.uses (s : State P) (i : Slot) (p : P) : Nat :=
  (if (s.buf i).lock = some p then 1 else 0) + (s.thread p).refs i

structure UseInv (s : State P) : Prop where
  clean : ∀ p, (s.thread p).Clean (s.view p)
  at_ : ∀ p, (s.thread p).At s.buf
  idle : ∀ i, (s.buf i).lock = none → s.changed i = false
  refs : ∀ i, Refs (s.buf i).refcnt (s.uses i)
  valid : ∀ i p, (s.buf i).lock = some p → (s.buf i).valid = true ∨ (s.thread p).loading i

variable {p : P}

theorem lock_of_view {s : State P} (h : s.view p i ≠ none) : (s.buf i).lock = some p := by
  rw [State.view] at h
  split at h
  · assumption
  · exact absurd rfl h

theorem changed_of_view {s : State P} {c : Bool} (h : s.view p i = some c) : s.changed i = c := by
  rw [State.view] at h
  split at h
  · exact Option.some.inj h
  · cases h

namespace UseInv

variable {s : State P}

theorem unused (h : UseInv s) (hi : (s.buf i).refcnt = 0) (p : P) :
    (s.buf i).lock ≠ some p ∧ (s.thread p).refs i = 0 := by
  have hu := h.refs i
  rw [hi] at hu
  have hp := hu.eq_zero p
  rw [State.uses] at hp
  constructor
  · intro hl
    rw [if_pos hl] at hp
    omega
  · omega

theorem lock_of_busy (h : UseInv s) (hb : (s.thread p).busy i) : (s.buf i).lock = some p := by
  have hc := h.clean p
  refine lock_of_view (p := p) fun hn => ?_
  cases ht : s.thread p with
  | check b j k | fill b j k | back b j k | write j k =>
    rw [ht] at hb hc
    cases hb
    exact absurd (hc.1.symm.trans hn) (by simp)
  | _ =>
    rw [ht] at hb
    exact hb

theorem valid_of_view (h : UseInv s) (hv : s.view p i ≠ none)
    (hl : ¬ (s.thread p).loading i) : (s.buf i).valid = true :=
  (h.valid i p (lock_of_view hv)).resolve_right hl

theorem at_of_held (h : UseInv s) (hl : (s.buf i).lock = some p)
    (hdev : v.dev = (s.buf i).dev) (hno : v.blockno = (s.buf i).blockno) (q : P) (hq : q ≠ p) :
    (s.thread q).At (update s.buf i v) := by
  refine (h.at_ q).off (fun hb => hq ?_) (Or.inr ⟨hdev, hno⟩)
  exact Option.some.inj ((h.lock_of_busy hb).symm.trans hl)

theorem step {s' : State P} {t : Thread} {c : Bool} (h : UseInv s)
    (hth : s'.thread = update s.thread p t)
    (hbuf : s'.buf = update s.buf i v) (hch : s'.changed = update s.changed i c)
    (hlock : ∀ q ≠ p, (v.lock = some q ↔ (s.buf i).lock = some q))
    (hheld : ∀ q ≠ p, (s.buf i).lock = some q → c = s.changed i ∧ v.valid = (s.buf i).valid)
    (hat : ∀ q ≠ p, (s.thread q).At (update s.buf i v))
    (hclean : t.Clean (update (s.view p) i (if v.lock = some p then some c else none)))
    (hown : t.At (update s.buf i v)) (hidle : v.lock = none → c = false)
    (hrefs : v.refcnt = (s.buf i).refcnt ∧
        (if v.lock = some p then 1 else 0) + t.refs i = s.uses i p ∨
      v.refcnt = (s.buf i).refcnt + 1 ∧
        (if v.lock = some p then 1 else 0) + t.refs i = s.uses i p + 1 ∨
      v.refcnt = (s.buf i).refcnt - 1 ∧
        s.uses i p = (if v.lock = some p then 1 else 0) + t.refs i + 1)
    (hkeep : ∀ j ≠ i, t.refs j = (s.thread p).refs j ∧ ¬ (s.thread p).loading j)
    (hvalid : v.lock = some p → v.valid = true ∨ t.loading i) : UseInv s' := by
  have other : ∀ q ≠ p, s'.thread q = s.thread q := fun q hq => by
    rw [hth, update_of_ne hq]
  have own : s'.thread p = t := by rw [hth, update_self]
  have off : ∀ j ≠ i, s'.buf j = s.buf j ∧ s'.changed j = s.changed j := fun j hj => by
    rw [hbuf, hch]
    exact ⟨update_of_ne hj .., update_of_ne hj ..⟩
  have at_i : s'.buf i = v ∧ s'.changed i = c := by
    rw [hbuf, hch]
    exact ⟨update_self .., update_self ..⟩
  refine ⟨fun q => ?_, fun q => ?_, fun j hj => ?_, fun j => ?_, fun j q hj => ?_⟩
  · by_cases hq : q = p
    · subst hq
      rw [own]
      refine cast (congrArg (fun held => t.Clean held) (funext fun j => ?_)) hclean
      by_cases hj : j = i
      · subst hj
        rw [update_self, State.view, at_i.1, at_i.2]
      · rw [update_of_ne hj, State.view, State.view, (off j hj).1, (off j hj).2]
    · rw [other q hq]
      refine cast (congrArg (fun held => (s.thread q).Clean held) (funext fun j => ?_)) (h.clean q)
      by_cases hj : j = i
      · subst hj
        rw [State.view, State.view, at_i.1, at_i.2]
        by_cases hl : (s.buf j).lock = some q
        · rw [if_pos hl, if_pos ((hlock q hq).mpr hl), (hheld q hq hl).1]
        · rw [if_neg hl, if_neg fun h => hl ((hlock q hq).mp h)]
      · rw [State.view, State.view, (off j hj).1, (off j hj).2]
  · rw [hbuf]
    by_cases hq : q = p
    · subst hq
      rwa [own]
    · rw [other q hq]
      exact hat q hq
  · by_cases hji : j = i
    · subst hji
      rw [at_i.1] at hj
      rw [at_i.2]
      exact hidle hj
    · rw [(off j hji).1] at hj
      rw [(off j hji).2]
      exact h.idle j hj
  · have mine : s'.uses i p = (if v.lock = some p then 1 else 0) + t.refs i := by
      rw [State.uses, own, at_i.1]
    have theirs : ∀ q ≠ p, s'.uses i q = s.uses i q := fun q hq => by
      rw [State.uses, State.uses, other q hq, at_i.1]
      simp only [hlock q hq]
    by_cases hji : j = i
    · subst hji
      rw [at_i.1]
      rcases hrefs with ⟨hn, hu⟩ | ⟨hn, hu⟩ | ⟨hn, hu⟩
      · rw [hn]
        refine (h.refs j).congr fun q => ?_
        by_cases hq : q = p
        · rw [hq, mine, hu]
        · exact theirs q hq
      · rw [hn]
        exact (h.refs j).add p (mine.trans hu) theirs
      · rw [hn]
        exact (h.refs j).drop (hu.trans (congrArg (· + 1) mine.symm)) theirs
    · rw [(off j hji).1]
      refine (h.refs j).congr fun q => ?_
      rw [State.uses, State.uses, (off j hji).1]
      by_cases hq : q = p
      · subst hq
        rw [own, (hkeep j hji).1]
      · rw [other q hq]
  · by_cases hji : j = i
    · subst hji
      rw [at_i.1] at hj ⊢
      by_cases hq : q = p
      · subst hq
        rw [own]
        exact hvalid hj
      · rw [other q hq]
        have hl := (hlock q hq).mp hj
        rw [(hheld q hq hl).2]
        exact h.valid j q hl
    · rw [(off j hji).1] at hj ⊢
      rcases h.valid j q hj with hv | hl
      · exact Or.inl hv
      · have hq : q ≠ p := by
          rintro rfl
          exact (hkeep j hji).2 hl
        rw [other q hq]
        exact Or.inr hl

end UseInv

end

end BossOs.Bio
