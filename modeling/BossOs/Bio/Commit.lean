import BossOs.Bio.Quiet

/-!
# Committing with a full cache

`commit` run by a process when nobody uses a buffer. The logged blocks are pinned in dirty
buffers, at most all but one of the cache.
-/

namespace BossOs.Bio

open Lib

variable {P : Type} [DecidableEq P] {size : Nat} {p : P}

/-- The state before a call of `commit` that is made without a buffer in hand. -/
structure Between (size : Nat) (p : P) (todo lh : List Nat) (k : Prog) (s : State P) : Prop where
  thread : s.thread p = .prog k
  quiet : Quiet size p [] todo s
  lh : s.lh = lh

/-- The log is full at most: its area is on the disk, and has room for the logged blocks, which
lie outside. -/
structure LogOk (size : Nat) (g : Log.Geometry) (lh : List Nat) : Prop where
  gsize : g.size = LOGSIZE
  room : lh.length ≤ g.size - 1
  nodup : lh.Nodup
  home : ∀ b ∈ lh, ¬ g.InLog b ∧ b < size
  disk : g.start + g.size ≤ size

section Turns

variable {g : Log.Geometry} {s : State P} {todo lh : List Nat}

theorem LogOk.length_lt (h : LogOk size g lh) : lh.length < NBUF := by
  have hroom := h.room
  rw [h.gsize] at hroom
  have hn : NBUF = 30 := rfl
  have hl : LOGSIZE = 30 := rfl
  omega

theorem LogOk.log_block (h : LogOk size g lh) {n : Nat} (hn : n ≤ lh.length) :
    g.start + n < size ∧ g.start + n ∉ lh := by
  have hroom := h.room
  have hdisk := h.disk
  have hsize : g.size = 30 := h.gsize
  refine ⟨by omega, ?_⟩
  intro hmem
  exact (h.home _ hmem).1 ⟨by omega, by omega⟩

theorem Between.header {k : List Nat → Prog} (h : Between size p todo lh (.header k) s) :
    ∃ t, Alone size p s t ∧ Between size p todo lh (k lh) t := by
  obtain ⟨t, ht⟩ := h.quiet.header h.thread
  exact ⟨t, ht.alone, h.lh ▸ ht.thread, ht.quiet, ht.lh.trans h.lh⟩

theorem Between.clear {k : Prog} (h : Between size p todo lh (.clear k) s) :
    ∃ t, Alone size p s t ∧ Between size p todo [] k t := by
  obtain ⟨hth, hq, -⟩ := h
  refine ⟨_, .of_prog hq.stop hth rfl, ?_⟩
  exact ⟨Function.update_self .., ⟨hq.stop, hq.complete, hq.unique, hq.lock, hq.refcnt, hq.mine,
    hq.dirty, hq.pinned⟩, rfl⟩

theorem Between.pair {b c : Nat} {k : Slot → Slot → Prog}
    (h : Between size p todo lh (.bread b fun x => .bread c fun y => k x y) s)
    (hb : b < size) (hroom : todo.length < NBUF) (hc : c ∈ todo) (hcs : c < size) (hne : b ≠ c) :
    ∃ t x y, Alone size p s t ∧ t.thread p = .prog (k x y) ∧ Quiet size p [y, x] todo t ∧
      y ≠ x ∧ (t.buf x).blockno = b ∧ (t.buf y).blockno = c ∧ t.lh = lh := by
  obtain ⟨t, x, hrun, hth, hq, hx, -, -, hlh⟩ := h.quiet.bread h.thread hb
    (fun _ hj => absurd hj List.not_mem_nil) (Or.inr hroom)
  obtain ⟨u, y, hrun', hth', hq', hy, hyx, hkeep, hlh'⟩ := hq.bread hth hcs
    (fun j hj => by rw [List.mem_singleton.mp hj, hx]; exact hne) (Or.inl hc)
  refine ⟨u, x, y, hrun.trans hrun', hth', hq', ?_, ?_, hy, hlh'.trans (hlh.trans h.lh)⟩
  · exact fun hxy => hyx (List.mem_singleton.mpr hxy)
  · rw [hkeep x (List.mem_singleton.mpr rfl)]
    exact hx

theorem Between.logTurn (hok : LogOk size g lh) {tail : Nat} (ht : tail < lh.length) {k : Prog}
    (h : Between size p lh lh (.bread (g.start + tail + 1) fun dst =>
      .bread (lh.getD tail 0) fun src =>
        .memmove dst src (.bwrite dst (.brelse src (.brelse dst k)))) s) :
    ∃ t, Alone size p s t ∧ Between size p lh lh k t := by
  obtain ⟨hlog, hout⟩ : g.start + tail + 1 < size ∧ g.start + tail + 1 ∉ lh := hok.log_block ht
  have hmem : lh.getD tail 0 ∈ lh := by
    rw [List.getD_eq_getElem _ _ ht]
    exact List.getElem_mem ht
  have hne : g.start + tail + 1 ≠ lh.getD tail 0 := fun he => hout (he ▸ hmem)
  obtain ⟨s₁, dst, src, hrun, hth, hq, hsd, hdst, -, hlh⟩ :=
    h.pair hlog hok.length_lt hmem (hok.home _ hmem).2 hne
  have hnodup : [src, dst].Nodup := by simp [hsd]
  obtain ⟨s₂, h₂⟩ := hq.move (f := fun v => v) (by simp) hth
  obtain ⟨s₃, h₃⟩ := h₂.quiet.bwrite hok.nodup (by simp) h₂.thread
  rw [h₂.blocks, hdst, List.erase_of_not_mem hout] at h₃
  obtain ⟨s₄, h₄⟩ := h₃.quiet.brelse hnodup (by simp) h₃.thread
  rw [List.erase_cons_head] at h₄
  obtain ⟨s₅, h₅⟩ := h₄.quiet.brelse (List.nodup_singleton dst) (by simp) h₄.thread
  rw [List.erase_cons_head] at h₅
  refine ⟨s₅, hrun.trans (h₂.alone.trans (h₃.alone.trans (h₄.alone.trans h₅.alone))),
     h₅.thread, h₅.quiet, ?_⟩
  rw [h₅.lh, h₄.lh, h₃.lh, h₂.lh, hlh]

theorem Between.installTurn (hok : LogOk size g lh) {tail : Nat} (ht : tail < lh.length) {k : Prog}
    (h : Between size p (lh.drop tail) lh (.bread (g.start + tail + 1) fun lbuf =>
      .bread (lh.getD tail 0) fun dbuf =>
        .memmove dbuf lbuf (.bwrite dbuf (.brelse lbuf (.brelse dbuf k)))) s) :
    ∃ t, Alone size p s t ∧ Between size p (lh.drop (tail + 1)) lh k t := by
  obtain ⟨hlog, hout⟩ : g.start + tail + 1 < size ∧ g.start + tail + 1 ∉ lh := hok.log_block ht
  have hdrop : lh.drop tail = lh.getD tail 0 :: lh.drop (tail + 1) := by
    rw [List.getD_eq_getElem _ _ ht]
    exact List.drop_eq_getElem_cons ht
  have hmem : lh.getD tail 0 ∈ lh.drop tail := by
    rw [hdrop]
    exact List.mem_cons_self
  have hmem' := List.mem_of_mem_drop hmem
  have hne : g.start + tail + 1 ≠ lh.getD tail 0 := fun he => hout (he ▸ hmem')
  have hroom : (lh.drop tail).length < NBUF := by
    rw [List.length_drop]
    exact Nat.lt_of_le_of_lt (Nat.sub_le _ _) hok.length_lt
  obtain ⟨s₁, lbuf, dbuf, hrun, hth, hq, hne', -, hdbuf, hlh⟩ :=
    h.pair hlog hroom hmem (hok.home _ hmem').2 hne
  have hnodup : [dbuf, lbuf].Nodup := by simp [hne']
  obtain ⟨s₂, h₂⟩ := hq.move (f := fun v => v) (by simp) hth
  obtain ⟨s₃, h₃⟩ := h₂.quiet.bwrite (hok.nodup.drop) (by simp) h₂.thread
  rw [h₂.blocks, hdbuf, hdrop, List.erase_cons_head] at h₃
  obtain ⟨s₄, h₄⟩ := h₃.quiet.brelse hnodup (by simp) h₃.thread
  rw [List.erase_cons_tail (by simpa using hne'), List.erase_cons_head] at h₄
  obtain ⟨s₅, h₅⟩ := h₄.quiet.brelse (List.nodup_singleton dbuf) (by simp) h₄.thread
  rw [List.erase_cons_head] at h₅
  refine ⟨s₅, hrun.trans (h₂.alone.trans (h₃.alone.trans (h₄.alone.trans h₅.alone))),
     h₅.thread, h₅.quiet, ?_⟩
  rw [h₅.lh, h₄.lh, h₃.lh, h₂.lh, hlh]

theorem Between.writeHead (hsize : g.start < size) (hout : g.start ∉ todo)
    (hnodup : todo.Nodup) (hroom : todo.length < NBUF) {k : Prog}
    (h : Between size p todo lh (.writeHead g k) s) :
    ∃ t, Alone size p s t ∧ Between size p todo lh k t := by
  obtain ⟨s₁, buf, hrun, hth, hq, hbuf, -, -, hlh⟩ := h.quiet.bread h.thread hsize
    (fun _ hj => absurd hj List.not_mem_nil) (Or.inr hroom)
  obtain ⟨s₂, h₂⟩ := hq.header hth
  obtain ⟨s₃, h₃⟩ := h₂.quiet.move (by simp) h₂.thread
  obtain ⟨s₄, h₄⟩ := h₃.quiet.bwrite hnodup (by simp) h₃.thread
  rw [h₃.blocks, h₂.blocks, hbuf, List.erase_of_not_mem hout] at h₄
  obtain ⟨s₅, h₅⟩ := h₄.quiet.brelse (List.nodup_singleton buf) (by simp) h₄.thread
  rw [List.erase_cons_head] at h₅
  refine ⟨s₅, hrun.trans (h₂.alone.trans (h₃.alone.trans (h₄.alone.trans h₅.alone))),
    h₅.thread, h₅.quiet, ?_⟩
  rw [h₅.lh, h₄.lh, h₃.lh, h₂.lh, hlh, h.lh]

end Turns

section Loops

variable {g : Log.Geometry} {s : State P} {lh : List Nat} {k : Prog}

theorem Between.writeLog (hok : LogOk size g lh) {n : Nat} (hn : n ≤ LOGSIZE)
    (h : Between size p lh lh (.writeLog g k n) s) :
    ∃ t, Alone size p s t ∧ Between size p lh lh k t := by
  induction n generalizing s with
  | zero => exact ⟨s, .refl, h⟩
  | succ n ih =>
    obtain ⟨t, hrun, h⟩ := h.header
    simp only at h
    split at h
    · rename_i ht
      obtain ⟨u, hrun', h⟩ := h.logTurn hok ht
      obtain ⟨w, hrun'', h⟩ := ih (Nat.le_of_succ_le hn) h
      exact ⟨w, hrun.trans (hrun'.trans hrun''), h⟩
    · exact ⟨t, hrun, h⟩

theorem Between.installTrans (hok : LogOk size g lh) {n : Nat} (hn : n ≤ LOGSIZE)
    (h : Between size p (lh.drop (LOGSIZE - n)) lh (.installTrans g k n) s) :
    ∃ t, Alone size p s t ∧ Between size p [] lh k t := by
  induction n generalizing s with
  | zero =>
    have hlen : lh.length ≤ LOGSIZE := Nat.le_of_lt hok.length_lt
    rw [Nat.sub_zero, List.drop_eq_nil_of_le hlen] at h
    exact ⟨s, .refl, h⟩
  | succ n ih =>
    obtain ⟨t, hrun, h⟩ := h.header
    simp only at h
    split at h
    · rename_i ht
      obtain ⟨u, hrun', h⟩ := h.installTurn hok ht
      rw [show LOGSIZE - (n + 1) + 1 = LOGSIZE - n by omega] at h
      obtain ⟨w, hrun'', h⟩ := ih (Nat.le_of_succ_le hn) h
      exact ⟨w, hrun.trans (hrun'.trans hrun''), h⟩
    · rename_i ht
      rw [List.drop_eq_nil_of_le (Nat.le_of_not_lt ht)] at h
      exact ⟨t, hrun, h⟩

end Loops

/-- Nobody uses a buffer, and exactly the logged blocks are in dirty buffers. -/
structure Ready (s : State P) : Prop where
  complete : ∀ i, i ∈ s.order
  unique : ∀ i j, (s.buf i).dev = ROOTDEV → (s.buf j).dev = ROOTDEV →
    (s.buf i).blockno = (s.buf j).blockno → i = j
  free : ∀ i, (s.buf i).lock = none ∧ (s.buf i).refcnt = 0
  dirty : ∀ i, (s.buf i).dirty = true →
    (s.buf i).valid = true ∧ (s.buf i).dev = ROOTDEV ∧ (s.buf i).blockno ∈ s.lh
  pinned : ∀ b ∈ s.lh, ∃ i, (s.buf i).dirty = true ∧ (s.buf i).dev = ROOTDEV ∧
    (s.buf i).blockno = b

omit [DecidableEq P] in
variable (size) in
theorem Ready.between {s : State P} (h : Ready s) {k : Prog} (hstop : s.stop = none)
    (hth : s.thread p = .prog k) : Between size p s.lh s.lh k s where
  thread := hth
  quiet := ⟨hstop, h.complete, h.unique, fun i => (h.free i).1, fun i => (h.free i).2,
    fun _ hi => absurd hi List.not_mem_nil, h.dirty, h.pinned⟩
  lh := rfl

theorem commit_ends {g : Log.Geometry} {s : State P} (hstop : s.stop = none)
    (hth : s.thread p = .prog (Prog.commit g)) (hready : Ready s) (hlog : LogOk size g s.lh) :
    ∃ t, Alone size p s t ∧ Between size p [] [] .ret t := by
  obtain ⟨t₁, h₁, hb⟩ := (hready.between size hstop hth).header
  by_cases hn : 0 < s.lh.length
  · rw [if_pos hn] at hb
    obtain ⟨hsize, hout⟩ : g.start < size ∧ g.start ∉ s.lh := hlog.log_block (Nat.zero_le _)
    obtain ⟨t₂, h₂, hb⟩ := hb.writeLog hlog (Nat.le_refl _)
    obtain ⟨t₃, h₃, hb⟩ := hb.writeHead hsize hout hlog.nodup hlog.length_lt
    obtain ⟨t₄, h₄, hb⟩ := Between.installTrans (n := LOGSIZE) hlog (Nat.le_refl _) (by
      rwa [Nat.sub_self, List.drop_zero])
    obtain ⟨t₅, h₅, hb⟩ := hb.clear
    obtain ⟨t₆, h₆, hb⟩ := hb.writeHead hsize List.not_mem_nil List.nodup_nil (by decide)
    exact ⟨t₆, h₁.trans (h₂.trans (h₃.trans (h₄.trans (h₅.trans h₆)))), hb⟩
  · rw [if_neg hn] at hb
    have hnil : s.lh = [] := List.eq_nil_of_length_eq_zero (by omega)
    rw [hnil] at hb
    exact ⟨t₁, h₁, hb⟩

/-- `commit` with at most `log.size - 1` pinned blocks and no other user of the cache finds a
buffer for every block it reads, and returns when no buffer is dirty. -/
theorem commit_finds_buffers {g : Log.Geometry} {s : State P} (hstop : s.stop = none)
    (hth : s.thread p = .prog (Prog.commit g)) (hready : Ready s) (hlog : LogOk size g s.lh) :
    (∀ t, Alone size p s t → t.stop = none) ∧
      ∃ t, Alone size p s t ∧ t.thread p = .prog .ret ∧ ∀ i, (t.buf i).dirty = false := by
  obtain ⟨t, hrun, h⟩ := commit_ends hstop hth hready hlog
  refine ⟨fun u hu => hrun.stop_eq_none h.quiet.stop h.thread hu, t, hrun, h.thread, ?_⟩
  intro i
  apply Bool.eq_false_of_not_eq_true
  intro hd
  exact absurd (h.quiet.dirty i hd).2.2 List.not_mem_nil

/-- Every buffer holds a block; three of the blocks are in the log. -/
def threeLogged : State Unit :=
  { binit Unit (fun _ => .zero) with
    buf := fun i => ⟨true, i.val < 3, ROOTDEV, 40 + i.val, none, 0, .zero⟩
    lh := [40, 41, 42]
    thread := fun _ => .prog (Prog.commit ⟨2, LOGSIZE⟩) }

theorem commit_finds_buffers_three :
    ∃ t, Alone 1000 () threeLogged t ∧ t.thread () = .prog .ret ∧ ∀ i, (t.buf i).dirty = false := by
  have hready : Ready threeLogged :=
    ⟨by decide +kernel, by decide +kernel, by decide +kernel, by decide +kernel, by decide +kernel⟩
  have hlog : LogOk 1000 ⟨2, LOGSIZE⟩ threeLogged.lh :=
    ⟨rfl, by decide, by decide, by decide, by decide⟩
  exact (commit_finds_buffers (p := ()) rfl rfl hready hlog).2

end BossOs.Bio
