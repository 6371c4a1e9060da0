import BossOs.Bio.Invariant

/-!
# The buffer cache is transparent

A buffer in use is not recycled, because it has a reference, and a logged one is not,
because it is dirty. So what is lost with a recycled buffer is on the disk, and the cache
with the disk behind it is an array of blocks.
-/

namespace BossOs.Bio

open Lib
open Function (update update_self update_of_ne update_eq_self)

variable {P : Type} [DecidableEq P]

structure CacheInv (s : State P) : Prop where
  block : BlockInv s
  use : UseInv s
  complete : ∀ i, i ∈ s.order

variable {b : Nat} {i : Slot}

section Lookup
variable {s : State P}

omit [DecidableEq P] in
theorem lookup_some (h : s.lookup b = some i) :
    (s.buf i).dev = ROOTDEV ∧ (s.buf i).blockno = b := by
  have hi := List.find?_some h
  simpa using hi

omit [DecidableEq P] in
theorem lookup_none (hc : ∀ i, i ∈ s.order) (h : s.lookup b = none) (j : Slot) :
    ¬ ((s.buf j).dev = ROOTDEV ∧ (s.buf j).blockno = b) := by
  have hj := List.find?_eq_none.mp h j (hc j)
  simpa using hj

omit [DecidableEq P] in
theorem unused_some (h : s.unused = some i) : (s.buf i).refcnt = 0 ∧ (s.buf i).dirty = false := by
  have hi := List.find?_some h
  simpa using hi

end Lookup

variable {k : Slot → Prog}

namespace CacheInv

variable {s s' : State P} {p : P}

section
variable (h : CacheInv s)
include h

theorem pass {t : Thread} (i : Slot) (hth : s'.thread = update s.thread p t)
    (hbuf : s'.buf = s.buf) (hch : s'.changed = s.changed) (hdisk : s'.disk = s.disk)
    (hlatest : s'.latest = s.latest) (horder : s'.order = s.order)
    (hclean : t.Clean (s.view p)) (hown : t.At s.buf) (hrefs : ∀ j, t.refs j = (s.thread p).refs j)
    (hload : ∀ j, (s.thread p).loading j → j = i ∧ (t.loading j ∨ (s.buf j).valid = true)) :
    CacheInv s' := by
  have hb : update s.buf i (s.buf i) = s.buf := update_eq_self ..
  refine ⟨⟨?_, ?_, ?_, ?_, ?_, ?_⟩, h.use.step hth (hbuf.trans hb.symm)
    (hch.trans (update_eq_self i s.changed).symm) (fun _ _ => Iff.rfl) (fun _ _ _ => ⟨rfl, rfl⟩)
    (fun q _ => by rw [hb]; exact h.use.at_ q) ?_ (by rwa [hb]) (h.use.idle i)
    (Or.inl ⟨rfl, by rw [State.uses, hrefs]⟩) (fun j hj => ⟨hrefs j, fun hl => hj (hload j hl).1⟩) ?_,
    by rw [horder]; exact h.complete⟩
  · rw [hbuf]
    exact h.block.unique
  · rw [hbuf]
    exact h.block.root
  · rw [hbuf, hch]
    exact h.block.loaded
  · rw [hbuf, hch, hdisk]
    exact h.block.stored
  · rw [hbuf, hlatest]
    exact h.block.cached
  · rw [hbuf, hdisk, hlatest]
    exact h.block.uncached
  · change t.Clean (update (s.view p) i (s.view p i))
    rwa [update_eq_self]
  · intro hl
    rcases h.use.valid i p hl with hv | hl'
    · exact Or.inl hv
    · exact (hload i hl').2.symm

theorem hit (ht : s.thread p = .prog (.bread b k)) (hi : s.lookup b = some i) :
    CacheInv ((s.setBuf i { s.buf i with refcnt := (s.buf i).refcnt + 1 }).goto p (.lock b i k)) := by
  obtain ⟨hdev, hno⟩ := lookup_some hi
  have hc := h.use.clean p
  rw [ht] at hc
  refine ⟨h.block.same hdev rfl rfl rfl rfl, h.use.step rfl rfl (update_eq_self i s.changed).symm
    (fun _ _ => Iff.rfl) (fun _ _ _ => ⟨rfl, rfl⟩) (fun q _ => (h.use.at_ q).same rfl rfl rfl rfl)
    ?_ ?_ (h.use.idle i) (Or.inr (Or.inl ⟨rfl, ?_⟩)) (fun j hj => ?_) ?_, h.complete⟩
  · change Thread.Clean (update (s.view p) i (s.view p i)) (.lock b i k)
    rwa [update_eq_self]
  · simpa only [Thread.At, update_self] using ⟨hdev, hno⟩
  · rw [State.uses, ht]
    simp [Thread.refs]
  · rw [ht]
    exact ⟨if_neg hj.symm, id⟩
  · intro hl
    have hv := h.use.valid i p hl
    rw [ht] at hv
    exact Or.inl (hv.resolve_right id)

theorem recycle
    (ht : s.thread p = .prog (.bread b k)) (hnone : s.lookup b = none) (hi : s.unused = some i) :
    CacheInv ((s.setBuf i { s.buf i with
      dev := ROOTDEV, blockno := b, valid := false, dirty := false, refcnt := 1 }).goto p
        (.lock b i k)) := by
  obtain ⟨href, hdirty⟩ := unused_some hi
  have hfree := h.use.unused href
  have hlock : (s.buf i).lock = none := by
    rw [Option.eq_none_iff_forall_ne_some]
    exact fun q => (hfree q).1
  have hc := h.use.clean p
  rw [ht] at hc
  have hview : s.view p i = none := if_neg (hfree p).1
  refine ⟨h.block.recycle (lookup_none h.complete hnone) hdirty (h.use.idle i hlock) rfl rfl rfl rfl,
    h.use.step rfl rfl (update_eq_self i s.changed).symm
    (fun _ _ => Iff.rfl) (fun q _ hl => absurd hl (hfree q).1) (fun q _ => ?_)
    ?_ ?_ (h.use.idle i) (Or.inr (Or.inl ⟨by rw [href], ?_⟩)) (fun j hj => ?_) ?_, h.complete⟩
  · exact (h.use.at_ q).off (fun hb => (hfree q).1 (h.use.lock_of_busy hb)) (Or.inl (hfree q).2)
  · rw [if_neg (hfree p).1, ← hview, update_eq_self]
    exact hc
  · simp [Thread.At]
  · rw [State.uses, ht]
    simp [Thread.refs]
  · rw [ht]
    exact ⟨if_neg hj.symm, id⟩
  · exact fun hl => absurd hl (hfree p).1

theorem acquire (ht : s.thread p = .lock b i k) (hfree : (s.buf i).lock = none) :
    CacheInv ((s.setBuf i { s.buf i with lock := some p }).goto p (.check b i k)) := by
  have hc := h.use.clean p
  have ha := h.use.at_ p
  rw [ht] at hc ha
  have hview : s.view p i = none := if_neg (by simp [hfree])
  refine ⟨h.block.same ha.1 rfl rfl rfl rfl, h.use.step rfl rfl (update_eq_self i s.changed).symm
    (fun q hq => ?_) (fun q _ hl => ?_) (fun q _ => (h.use.at_ q).same rfl rfl rfl rfl)
    ?_ ?_ (fun hl => by cases hl) (Or.inl ⟨rfl, ?_⟩) (fun j hj => ?_) (fun _ => Or.inr rfl), h.complete⟩
  · rw [hfree]
    simp [hq.symm]
  · rw [hfree] at hl
    cases hl
  · rw [if_pos rfl, h.use.idle i hfree]
    exact ⟨update_self .., hc i hview⟩
  · simpa only [Thread.At, update_self] using ha
  · rw [State.uses, ht, hfree]
    simp [Thread.refs]
  · rw [ht]
    exact ⟨(if_neg hj.symm).symm, id⟩

theorem held {c : Prog} (ht : s.thread p = .prog c) (hv : s.view p i ≠ none) :
    (s.buf i).lock = some p ∧ (s.buf i).valid = true ∧ (s.buf i).dev = ROOTDEV := by
  have hvalid := h.use.valid_of_view hv (by rw [ht]; exact id)
  exact ⟨lock_of_view hv, hvalid, h.block.root i (Or.inl hvalid)⟩

theorem write {t : Thread} {v : Buf P} {c : Bool}
    (hl : (s.buf i).lock = some p) (hblock : BlockInv s')
    (hth : s'.thread = update s.thread p t) (hbuf : s'.buf = update s.buf i v)
    (hch : s'.changed = update s.changed i c) (horder : s'.order = s.order)
    (hdev : v.dev = (s.buf i).dev) (hno : v.blockno = (s.buf i).blockno)
    (hlock : v.lock = (s.buf i).lock) (hrefcnt : v.refcnt = (s.buf i).refcnt)
    (hvalid : v.valid = true) (hclean : t.Clean (update (s.view p) i (some c)))
    (hown : t.At (update s.buf i v)) (hrefs : ∀ j, t.refs j = (s.thread p).refs j)
    (hload : ∀ j, (s.thread p).loading j → j = i) : CacheInv s' := by
  refine ⟨hblock, h.use.step hth hbuf hch (fun q _ => by rw [hlock]) (fun q hq hq' => ?_)
    (h.use.at_of_held hl hdev hno) (by rwa [hlock, if_pos hl]) hown (fun hn => ?_)
    (Or.inl ⟨hrefcnt, by rw [State.uses, hlock, hrefs]⟩)
    (fun j hj => ⟨hrefs j, fun hlj => hj (hload j hlj)⟩) (fun _ => Or.inl hvalid),
    by rw [horder]; exact h.complete⟩
  · exact absurd (Option.some.inj (hq'.symm.trans hl)) hq
  · rw [hlock, hl] at hn
    cases hn

theorem modify {v : Block} {k : Prog} (ht : s.thread p = .prog (.modify i v k)) :
    CacheInv ((({ s with latest := update s.latest (s.buf i).blockno v }.setBuf i
      { s.buf i with data := v }).setChanged i true).goto p (.prog k)) := by
  have hc := h.use.clean p
  rw [ht] at hc
  obtain ⟨hl, hvalid, hdev⟩ := h.held ht hc.1
  refine h.write hl (h.block.keep rfl rfl hdev hdev rfl (fun b hb => ?_) (fun _ => hvalid)
    (fun _ _ hf => by cases hf) (fun _ => update_self ..) (fun hf => ?_)) rfl rfl rfl rfl rfl rfl
    rfl rfl hvalid hc.2 trivial (fun j => by rw [ht]; rfl) (fun j hj => by rw [ht] at hj; exact hj.elim)
  · exact ⟨rfl, update_of_ne hb ..⟩
  · exact absurd (hvalid.symm.trans hf) (by simp)

theorem mark {c : Prog} {t : Thread} (ht : s.thread p = .prog c)
    (hv : s.view p i ≠ none) (hth : s'.thread = update s.thread p t)
    (hbuf : s'.buf = update s.buf i { s.buf i with dirty := true })
    (hch : s'.changed = update s.changed i false) (hdisk : s'.disk = s.disk)
    (hlatest : s'.latest = s.latest) (horder : s'.order = s.order)
    (hclean : t.Clean (update (s.view p) i (some false)))
    (hown : t.At (update s.buf i { s.buf i with dirty := true }))
    (hrefs : ∀ j, t.refs j = 0) : CacheInv s' := by
  obtain ⟨hl, hvalid, hdev⟩ := h.held ht hv
  refine h.write hl (h.block.keep hbuf hch hdev hdev rfl
    (fun b _ => by rw [hdisk, hlatest]; exact ⟨rfl, rfl⟩) (fun _ => hvalid)
    (fun _ hf => by cases hf) (fun _ => ?_) (fun hf => ?_)) hth hbuf hch horder rfl rfl
    rfl rfl hvalid hclean hown (fun j => by rw [ht, hrefs j]; rfl)
    (fun j hj => by rw [ht] at hj; exact hj.elim)
  · rw [hlatest]
    exact h.block.cached i hvalid
  · exact absurd (hvalid.symm.trans hf) (by simp)

theorem flush {k : Prog} (ht : s.thread p = .write i k) :
    CacheInv (({ s with disk := update s.disk (s.buf i).blockno (s.buf i).data }.setBuf i
      { s.buf i with dirty := false, valid := true }).goto p (.prog k)) := by
  have hc := h.use.clean p
  have ha := h.use.at_ p
  rw [ht] at hc ha
  have hl := h.use.lock_of_busy (i := i) (p := p) (by rw [ht]; rfl)
  have hvalid := h.block.loaded i (Or.inl ha)
  have hdev := h.block.root i (Or.inl hvalid)
  refine h.write hl (h.block.keep rfl (update_eq_self i s.changed).symm hdev hdev rfl
    (fun b hb => ⟨update_of_ne hb .., rfl⟩) (fun _ => rfl)
    (fun _ _ _ => (update_self (s.buf i).blockno (s.buf i).data s.disk).symm)
    (fun _ => h.block.cached i hvalid) (fun hf => by cases hf)) rfl rfl
      (update_eq_self i s.changed).symm rfl rfl rfl rfl rfl rfl
    ?_ trivial (fun j => by rw [ht]; rfl) (fun j hj => by rw [ht] at hj; exact hj.elim)
  rw [changed_of_view hc.1, ← hc.1, update_eq_self]
  exact hc.2

theorem fill (ht : s.thread p = .fill b i k) :
    CacheInv ((s.setBuf i { s.buf i with data := s.disk (s.buf i).blockno, valid := true }).goto p
      (.back b i k)) := by
  have hc := h.use.clean p
  have ha := h.use.at_ p
  rw [ht] at hc ha
  obtain ⟨⟨hdev, hno⟩, hinvalid⟩ := ha
  have hl := h.use.lock_of_busy (i := i) (p := p) (by rw [ht]; rfl)
  have hlatest := h.block.latest_of_invalid hdev hinvalid
  refine h.write hl (h.block.keep rfl (update_eq_self i s.changed).symm hdev hdev rfl
    (fun b hb => ⟨rfl, rfl⟩) (fun _ => rfl) (fun _ _ _ => rfl) (fun _ => hlatest) (fun _ => hlatest))
    rfl rfl (update_eq_self i s.changed).symm rfl rfl rfl rfl rfl rfl ?_ ?_
    (fun j => by rw [ht]; rfl) (fun j hj => by rw [ht] at hj; exact hj.symm)
  · rw [changed_of_view hc.1, ← hc.1, update_eq_self]
    exact hc
  · simpa [Thread.At] using ⟨hdev, hno⟩

theorem unlock {k : Prog} (ht : s.thread p = .prog (.brelse i k)) :
    CacheInv ((s.setBuf i { s.buf i with lock := none }).goto p (.unref i k)) := by
  have hc := h.use.clean p
  rw [ht] at hc
  obtain ⟨hl, hvalid, hdev⟩ := h.held ht (by rw [hc.1]; simp)
  refine ⟨h.block.same hdev rfl rfl rfl rfl, h.use.step rfl rfl (update_eq_self i s.changed).symm
    (fun q hq => ?_) (fun q hq hq' => ?_) (fun q _ => (h.use.at_ q).same rfl rfl rfl rfl)
    (by rw [if_neg (by simp)]; exact hc.2) trivial (fun _ => changed_of_view hc.1)
      (Or.inl ⟨rfl, ?_⟩) (fun j hj => ?_)
    (fun hn => by cases hn), h.complete⟩
  · rw [hl]
    simp [hq.symm]
  · exact absurd (Option.some.inj (hq'.symm.trans hl)) hq
  · rw [State.uses, ht, hl]
    simp [Thread.refs]
  · rw [ht]
    exact ⟨if_neg hj.symm, id⟩

theorem unref {k : Prog} (ht : s.thread p = .unref i k) :
    CacheInv (s.unref p i k) := by
  have hc := h.use.clean p
  rw [ht] at hc
  have huse : s.uses i p ≠ 0 := by
    rw [State.uses, ht]
    simp [Thread.refs]
  have hdev := h.block.root i (Or.inr ((h.use.refs i).pos huse))
  have hblock : BlockInv ((s.setBuf i { s.buf i with refcnt := (s.buf i).refcnt - 1 }).goto p
      (.prog k)) := h.block.same hdev rfl rfl rfl rfl
  have huse : UseInv ((s.setBuf i { s.buf i with refcnt := (s.buf i).refcnt - 1 }).goto p
      (.prog k)) := by
    refine h.use.step rfl rfl (update_eq_self i s.changed).symm (fun _ _ => Iff.rfl)
      (fun _ _ _ => ⟨rfl, rfl⟩) (fun q _ => (h.use.at_ q).same rfl rfl rfl rfl) ?_ trivial
      (h.use.idle i) (Or.inr (Or.inr ⟨rfl, ?_⟩)) (fun j hj => ?_) (fun hl => ?_)
    · change k.Clean (update (s.view p) i (s.view p i))
      rw [update_eq_self]
      exact hc
    · rw [State.uses, ht]
      simp [Thread.refs]
    · rw [ht]
      exact ⟨(if_neg hj.symm).symm, id⟩
    · have hv := h.use.valid i p hl
      rw [ht] at hv
      exact Or.inl (hv.resolve_right id)
  unfold State.unref
  simp only
  split
  · refine ⟨⟨hblock.unique, hblock.root, hblock.loaded, hblock.stored, hblock.cached,
      hblock.uncached⟩, ⟨huse.clean, huse.at_, huse.idle, huse.refs, huse.valid⟩, fun j => ?_⟩
    by_cases hj : j = i
    · rw [hj]
      exact List.mem_cons_self
    · exact List.mem_cons_of_mem _ ((List.mem_erase_of_ne hj).mpr (h.complete j))
  · exact ⟨hblock, huse, h.complete⟩

theorem panic (e : Stop) : CacheInv (s.panic e) :=
  ⟨⟨h.block.unique, h.block.root, h.block.loaded, h.block.stored, h.block.cached, h.block.uncached⟩,
    ⟨h.use.clean, h.use.at_, h.use.idle, h.use.refs, h.use.valid⟩, h.complete⟩

end

end CacheInv

theorem cacheInv_binit (d : Nat → Block) : CacheInv (binit P d) where
  block := by
    have hdev : ∀ i, ((binit P d).buf i).dev ≠ ROOTDEV := fun _ => show (0 : Nat) ≠ 1 by decide
    exact ⟨fun i _ hi => absurd hi (hdev i), fun i hi => by simp [binit] at hi,
      fun i hi => by simp [binit] at hi, (fun i hv => by cases hv), (fun i hv => by cases hv),
      fun _ _ => rfl⟩
  use := by
    refine ⟨fun p i => rfl, fun p => trivial, fun i _ => rfl, fun i => Refs.zero.congr fun p => rfl,
      fun i p hl => by cases hl⟩
  complete := fun i => by simp [binit]

section
variable {size : Nat} {s s' : State P} {p : P}

section
variable (h : CacheInv s)
include h

theorem cacheInv_write {k : Prog} (ht : s.thread p = .write i k) :
    CacheInv (s.iderw size p i (.prog k)) := by
  have ha := h.use.at_ p
  rw [ht] at ha
  unfold State.iderw
  simp only
  split_ifs
  · exact h.panic _
  · exact h.panic _
  · exact h.panic _
  · exact h.panic _
  · exact h.flush ht
  · exact absurd ha ‹_›

theorem cacheInv_fill
    (ht : s.thread p = .fill b i k) : CacheInv (s.iderw size p i (.back b i k)) := by
  have ha := h.use.at_ p
  rw [ht] at ha
  unfold State.iderw
  simp only
  split_ifs
  · exact h.panic _
  · exact h.panic _
  · exact h.panic _
  · exact h.panic _
  · have hv := h.block.loaded i (Or.inl ‹_›)
    exact absurd (ha.2.symm.trans hv) (by simp)
  · exact h.fill ht

theorem cacheInv_bget
    (ht : s.thread p = .prog (.bread b k)) : CacheInv (s.bget p b k) := by
  unfold State.bget
  split
  · exact h.hit ht ‹_›
  · split
    · exact h.recycle ht ‹_› ‹_›
    · exact h.panic _

theorem cacheInv_prog {c : Prog} (ht : s.thread p = .prog c)
    (hs : runProg s p c = some s') : CacheInv s' := by
  have hc := h.use.clean p
  rw [ht] at hc
  have noload : ∀ j, (s.thread p).loading j → ∀ {Φ : Prop}, Φ := fun j hj => by
    rw [ht] at hj
    exact hj.elim
  have norefs : ∀ j, 0 = (s.thread p).refs j := fun j => by
    rw [ht]
    rfl
  cases c with
  | ret => cases hs
  | bread b k =>
    cases hs
    exact cacheInv_bget h ht
  | read i k =>
    cases hs
    exact h.pass i rfl rfl rfl rfl rfl rfl (hc.2 _) trivial norefs fun j hj => noload j hj
  | modify i v k =>
    cases hs
    exact h.modify ht
  | bwrite i k =>
    simp only [runProg] at hs
    split at hs
    · cases hs
      exact h.panic _
    · cases hs
      refine h.mark ht hc.1 rfl rfl rfl rfl rfl rfl ⟨update_self .., hc.2⟩ ?_ fun _ => rfl
      simp [Thread.At]
  | logWrite i k =>
    cases hs
    exact h.mark ht hc.1 rfl rfl rfl rfl rfl rfl hc.2 trivial fun _ => rfl
  | brelse i k =>
    simp only [runProg] at hs
    split at hs
    · cases hs
      exact h.panic _
    · cases hs
      exact h.unlock ht
  | header k =>
    cases hs
    exact h.pass 0 rfl rfl rfl rfl rfl rfl (hc _) trivial norefs fun j hj => noload j hj
  | clear k =>
    cases hs
    exact h.pass 0 rfl rfl rfl rfl rfl rfl hc trivial norefs fun j hj => noload j hj

theorem cacheInv_thread (hs : runThread size s p = some s') : CacheInv s' := by
  have hc := h.use.clean p
  have ha := h.use.at_ p
  unfold runThread at hs
  cases ht : s.thread p with
  | prog c =>
    rw [ht] at hs
    exact cacheInv_prog h ht hs
  | lock b i k =>
    simp only [ht] at hs
    split at hs
    · cases hs
      exact h.acquire ht ‹_›
    · cases hs
  | check b i k =>
    simp only [ht] at hs
    cases hs
    rw [ht] at hc ha
    cases hv : (s.buf i).valid with
    | true =>
      exact h.pass i rfl rfl rfl rfl rfl rfl hc ⟨ha, hv⟩ (fun j => by rw [ht]; rfl) fun j hj => by
        rw [ht] at hj
        cases hj
        exact ⟨rfl, Or.inr hv⟩
    | false =>
      exact h.pass i rfl rfl rfl rfl rfl rfl hc ⟨ha, hv⟩ (fun j => by rw [ht]; rfl) fun j hj => by
        rw [ht] at hj
        cases hj
        exact ⟨rfl, Or.inl rfl⟩
  | fill b i k =>
    simp only [ht] at hs
    cases hs
    exact cacheInv_fill h ht
  | back b i k =>
    simp only [ht] at hs
    cases hs
    rw [ht] at hc
    exact h.pass i rfl rfl rfl rfl rfl rfl hc.2 trivial (fun j => by rw [ht]; rfl) fun j hj => by
      rw [ht] at hj
      exact hj.elim
  | write i k =>
    simp only [ht] at hs
    cases hs
    exact cacheInv_write h ht
  | unref i k =>
    simp only [ht] at hs
    cases hs
    exact h.unref ht

theorem cacheInv_step {a : Act P} (hs : step size s a = some s') : CacheInv s' := by
  cases a with
  | run p =>
    simp only [step] at hs
    split at hs
    · exact cacheInv_thread h hs
    · cases hs
  | call p c =>
    simp only [step] at hs
    split at hs
    · rename_i ht
      split at hs
      · cases hs
        have hc := h.use.clean p
        rw [ht] at hc
        refine h.pass 0 rfl rfl rfl rfl rfl rfl ?_ trivial (fun j => by rw [ht]; rfl) fun j hj => by
          rw [ht] at hj
          exact hj.elim
        change c.1.Clean (s.view p)
        rw [show s.view p = fun _ => none from funext hc]
        exact c.2
      · cases hs
    · cases hs

end

end

end BossOs.Bio
