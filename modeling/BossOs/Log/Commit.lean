import BossOs.Log.Absorb
import BossOs.Log.Recovery

/-!
# The phases of `commit`

What the committer knows about log blocks, header and home blocks at each of its
four phases, and that each of its disk writes carries it to the next point.
-/

namespace BossOs.Log

open Lib
open Function (update update_self update_of_ne)

def contents (d : Nat → Block) (ws : List Write) : Nat → Block :=
  ws.foldl (fun m w => update m w.blockno w.data) d

theorem contents_append (d : Nat → Block) (ws vs : List Write) :
    contents d (ws ++ vs) = contents (contents d ws) vs := List.foldl_append

theorem contents_snoc (d : Nat → Block) (ws : List Write) (w : Write) :
    contents d (ws ++ [w]) = update (contents d ws) w.blockno w.data := by
  rw [contents_append]
  rfl

theorem contents_of_notMem (d : Nat → Block) {ws : List Write} {b : Nat}
    (h : b ∉ ws.map Write.blockno) : contents d ws b = d b := by
  induction ws generalizing d with
  | nil => rfl
  | cons w ws ih =>
    simp only [List.map_cons, List.mem_cons, not_or] at h
    rw [contents, List.foldl_cons]
    exact (ih _ h.2).trans (update_of_ne h.1 _ _)

/-- The part of the state that the disk and the group history depend on. -/
structure Core where
  dev : Dev
  lh : List Nat
  cur : List Write
  groups : List (List Write)
  committed : Nat

def State.core {P : Type} (s : State P) : Core := ⟨s.dev, s.lh, s.cur, s.groups, s.committed⟩

/-- `log.lh` lists the blocks of the group last handed to `commit`. -/
structure Handed (g : Geometry) (c : Core) : Prop where
  cur : c.cur = []
  room : c.lh.length ≤ g.size - 1
  some_ : c.lh ≠ []
  blocks : ∀ grp ∈ c.groups.getLast?, ∀ w ∈ grp, w.blockno ∈ c.lh

def LoggedTo (g : Geometry) (c : Core) (tail : Nat) : Prop :=
  ∀ i (hi : i < c.lh.length), i < tail → c.dev.disk (g.start + i + 1) = c.dev.cache c.lh[i]

/-- Before the header write: the disk does not know of the last group. -/
structure Before (g : Geometry) (d : Nat → Block) (c : Core) : Prop where
  handed : Handed g c
  one : c.groups.length = c.committed + 1
  clean : (c.dev.disk g.start).word 0 = 0
  settled : Settled g c.dev.disk (contents d (c.groups.take c.committed).flatten)

/-- After it: the disk is on its way to the contents after all groups. -/
structure After (g : Geometry) (d : Nat → Block) (c : Core) : Prop where
  handed : Handed g c
  all : c.groups.length = c.committed
  header : getHead (c.dev.disk g.start) = c.lh
  disk : Recoverable g c.dev.disk (contents d c.groups.flatten)

/-- The home blocks are in place and the header is about to be erased. -/
structure Erasing (g : Geometry) (d : Nat → Block) (c : Core) : Prop where
  cur : c.cur = []
  lh : c.lh = []
  all : c.groups.length = c.committed
  inLog : g.InLog g.start
  disk : Recoverable g c.dev.disk (contents d c.groups.flatten)
  settled : Settled g c.dev.disk (contents d c.groups.flatten)

def Phase (g : Geometry) (d : Nat → Block) (c : Core) : Pc → Prop
  | .writeLog tail => Before g d c ∧ LoggedTo g c tail
  | .writeHead => Before g d c ∧ LoggedTo g c c.lh.length
  | .installTrans tail => After g d c ∧
      InstalledTo c.dev.disk (contents d c.groups.flatten) c.lh tail
  | .clearN => After g d c ∧ Settled g c.dev.disk (contents d c.groups.flatten)
  | .eraseHead => Erasing g d c
  | _ => True

structure Calm (g : Geometry) (d : Nat → Block) (c : Core) : Prop where
  all : c.groups.length = c.committed
  clean : (c.dev.disk g.start).word 0 = 0
  settled : Settled g c.dev.disk (contents d c.groups.flatten)

structure CoreInv (g : Geometry) (c : Core) : Prop where
  cacheLog : ∀ b, g.InLog b → c.dev.cache b = c.dev.disk b
  home : ∀ b ∈ c.lh, ¬ g.InLog b ∧ b < 2 ^ 32

/-- What holds of the core while the committer stands at `k`. -/
structure Good (g : Geometry) (d : Nat → Block) (c : Core) (k : Pc) : Prop where
  core : CoreInv g c
  cache : ∀ b, ¬ g.InLog b → c.dev.cache b = contents d (c.groups.flatten ++ c.cur) b
  phase : Phase g d c k
  calm : k.late = false → Calm g d c

theorem phase_of_not_late {g : Geometry} {d : Nat → Block} {c : Core} {k : Pc}
    (h : k.late = false) : Phase g d c k := by
  cases k <;> trivial

section Committer
variable {g : Geometry} {d : Nat → Block} {c : Core}

theorem good_commit (h : Good g d c .commitTest) (hne : c.lh ≠ [])
    (hroom : c.lh.length ≤ g.size - 1) (hblocks : ∀ w ∈ c.cur, w.blockno ∈ c.lh) :
    Good g d { c with groups := c.groups ++ [c.cur], cur := [] } (.writeLog 0) := by
  have hcalm := h.calm rfl
  have htake : (c.groups ++ [c.cur]).take c.committed = c.groups := by
    rw [← hcalm.all, List.take_left]
  refine ⟨⟨h.core.cacheLog, h.core.home⟩, fun b hb => ?_,
    ⟨⟨⟨rfl, hroom, hne, ?_⟩, by simp [hcalm.all], hcalm.clean, ?_⟩, fun i _ hi0 => by omega⟩,
    fun hl => by cases hl⟩
  · simpa using h.cache b hb
  · intro grp hgrp w hw
    have hgrp' : grp = c.cur := by simpa using hgrp.symm
    subst hgrp'
    exact hblocks w hw
  · simp only [htake]
    exact hcalm.settled

theorem Handed.inLog (h : Handed g c) {i : Nat} (hi : i < c.lh.length) :
    g.InLog g.start ∧ g.InLog (g.start + i + 1) := by
  have hr := h.room
  exact ⟨⟨by omega, by omega⟩, ⟨by omega, by omega⟩⟩

theorem Handed.start_inLog (h : Handed g c) : g.InLog g.start :=
  (h.inLog (List.length_pos_iff.mpr h.some_)).1

theorem update_log_of_home {m : Nat → Block} {b x : Nat} (v : Block) (hb : g.InLog b)
    (hx : ¬ g.InLog x) : update m b v x = m x := by
  apply update_of_ne
  rintro rfl
  exact hx hb

theorem CoreInv.bwrite (h : CoreInv g c) (b : Nat) (v : Block) {n : Nat} :
    CoreInv g { c with dev := c.dev.bwrite b v, committed := n } := by
  refine ⟨fun x hx => ?_, h.home⟩
  simp only [Dev.bwrite]
  by_cases hxb : x = b
  · rw [hxb, update_self, update_self]
  · rw [update_of_ne hxb, update_of_ne hxb]
    exact h.cacheLog x hx

variable {tail : Nat}

theorem good_writeLog (h : Good g d c (.writeLog tail)) (hlt : tail < c.lh.length) :
    Good g d { c with dev := writeLogStep g c.lh tail c.dev } (.writeLog (tail + 1)) := by
  obtain ⟨hbefore, hlogged⟩ := h.phase
  have hin := (hbefore.handed.inLog hlt).2
  have hne : g.start ≠ g.start + tail + 1 := by omega
  refine ⟨h.core.bwrite _ _, fun b hb => (update_log_of_home _ hin hb).trans (h.cache b hb),
    ⟨⟨⟨hbefore.handed.cur, hbefore.handed.room, hbefore.handed.some_, hbefore.handed.blocks⟩,
      hbefore.one, ?_, fun b hb => (update_log_of_home _ hin hb).trans (hbefore.settled b hb)⟩,
      fun i hi hi1 => ?_⟩, fun hl => by cases hl⟩
  · simp only [writeLogStep, Dev.bwrite]
    rw [update_of_ne hne]
    exact hbefore.clean
  · have hhome := (h.core.home _ (List.getElem_mem hi)).1
    simp only [writeLogStep, Dev.bwrite, Dev.bread]
    rw [update_log_of_home _ hin hhome, List.getD_eq_getElem _ _ hlt]
    by_cases hit : i = tail
    · subst hit
      rw [update_self]
    · rw [update_of_ne (by omega)]
      exact hlogged i hi (by omega)

theorem good_logged (h : Good g d c (.writeLog tail)) (hge : c.lh.length ≤ tail) :
    Good g d c .writeHead :=
  ⟨h.core, h.cache, ⟨h.phase.1, fun i hi _ => h.phase.2 i hi (by omega)⟩, fun hl => by cases hl⟩

theorem contents_take_eq (hb : Before g d c) {b : Nat} (hnot : b ∉ c.lh) :
    contents d (c.groups.take c.committed).flatten b = contents d c.groups.flatten b := by
  have hlen := hb.one
  obtain ⟨gs, grp, hgs⟩ : ∃ gs grp, c.groups = gs ++ [grp] := by
    refine ⟨c.groups.dropLast, c.groups.getLast (by rintro h; simp [h] at hlen), ?_⟩
    exact (List.dropLast_append_getLast _).symm
  have hcom : c.committed = gs.length := by
    rw [hgs] at hlen
    simpa using hlen.symm
  rw [hgs, hcom, List.take_left, List.flatten_append, contents_append]
  simp only [List.flatten_cons, List.flatten_nil, List.append_nil]
  refine (contents_of_notMem _ fun hm => hnot ?_).symm
  obtain ⟨w, hw, rfl⟩ := List.mem_map.mp hm
  exact hb.handed.blocks grp (by simp [hgs]) w hw

theorem good_writeHead (h : Good g d c .writeHead) (hshort : c.lh.length ≤ LOGSIZE) :
    Good g d { c with dev := writeHead g c.lh c.dev, committed := c.committed + 1 }
      (.installTrans 0) := by
  obtain ⟨hbefore, hlogged⟩ := h.phase
  have hstart := hbefore.handed.start_inLog
  have hget : getHead (setHead (c.dev.cache g.start) c.lh) = c.lh :=
    getHead_setHead _ hshort fun b hb => (h.core.home b hb).2
  have hhead : update c.dev.disk g.start (setHead (c.dev.cache g.start) c.lh) g.start =
      setHead (c.dev.cache g.start) c.lh := update_self _ _ _
  have hcur := hbefore.handed.cur
  refine ⟨h.core.bwrite _ _, fun b hb => (update_log_of_home _ hstart hb).trans (h.cache b hb),
    ⟨⟨⟨hcur, hbefore.handed.room, hbefore.handed.some_, hbefore.handed.blocks⟩, hbefore.one,
      ?_, ?_⟩, fun i _ hi0 => by omega⟩, fun hl => by cases hl⟩
  · simp only [writeHead, Dev.bwrite, Dev.bread]
    rw [hhead, hget]
  · simp only [writeHead, Dev.bwrite, Dev.bread]
    refine ⟨?_, ?_, ?_, ?_, ?_⟩
    · rw [hhead, hget, word_setHead _ hshort]
    · rw [hhead, hget]
      exact hbefore.handed.room
    · rw [hhead, hget]
      exact fun b hb => (h.core.home b hb).1
    · simp only [hhead, hget]
      intro i hi
      have hhome := (h.core.home _ (List.getElem_mem hi)).1
      have hcache := h.cache _ hhome
      rw [hcur, List.append_nil] at hcache
      rw [update_of_ne (by omega), hlogged i hi hi, hcache]
    · rw [hhead, hget]
      intro b hb hnot
      rw [update_log_of_home _ hstart hb, hbefore.settled b hb]
      exact contents_take_eq hbefore hnot

theorem good_install (h : Good g d c (.installTrans tail)) (hlt : tail < c.lh.length) :
    Good g d { c with dev := installStep g c.lh tail c.dev } (.installTrans (tail + 1)) := by
  obtain ⟨hafter, hall⟩ := h.phase
  have hhome := (h.core.home _ (List.getElem_mem hlt)).1
  obtain ⟨hstart, hin⟩ := hafter.handed.inLog hlt
  have hlt' : tail < (getHead (c.dev.disk g.start)).length := by rw [hafter.header]; exact hlt
  have hinst := hafter.disk.install hlt'
  have hcopy := hafter.disk.copy tail hlt'
  simp only [hafter.header] at hinst hcopy
  have hv : c.dev.cache (g.start + tail + 1) = c.dev.disk (g.start + tail + 1) :=
    h.core.cacheLog _ hin
  have hdev : installStep g c.lh tail c.dev =
      c.dev.bwrite c.lh[tail] (c.dev.disk (g.start + tail + 1)) := by
    rw [installStep, Dev.bread, hv, List.getD_eq_getElem _ _ hlt]
  rw [hdev]
  refine ⟨h.core.bwrite _ _, fun b hb => ?_,
    ⟨⟨⟨hafter.handed.cur, hafter.handed.room, hafter.handed.some_, hafter.handed.blocks⟩,
      hafter.all, ?_, hinst⟩, hall.step hlt hcopy⟩, fun hl => by cases hl⟩
  · simp only [Dev.bwrite]
    by_cases hbt : b = c.lh[tail]
    · subst hbt
      rw [update_self, hcopy, hafter.handed.cur, List.append_nil]
    · rw [update_of_ne hbt]
      exact h.cache b hb
  · simp only [Dev.bwrite]
    rw [update_home_of_inLog _ _ hhome hstart]
    exact hafter.header

theorem good_installed (h : Good g d c (.installTrans tail))
    (hge : c.lh.length ≤ tail) : Good g d c .clearN := by
  obtain ⟨hafter, hall⟩ := h.phase
  refine ⟨h.core, h.cache, ⟨hafter, ?_⟩, fun hl => by cases hl⟩
  rw [← hafter.header] at hall hge
  exact hafter.disk.settled hall hge

theorem good_clearN (h : Good g d c .clearN) : Good g d { c with lh := [] } .eraseHead := by
  obtain ⟨hafter, hs⟩ := h.phase
  exact ⟨⟨h.core.cacheLog, fun b hb => by cases hb⟩, h.cache,
    ⟨hafter.handed.cur, rfl, hafter.all, hafter.handed.start_inLog, hafter.disk, hs⟩,
    fun hl => by cases hl⟩

theorem good_eraseHead (h : Good g d c .eraseHead) :
    Good g d { c with dev := writeHead g c.lh c.dev } .doneAcquire := by
  have he : Erasing g d c := h.phase
  have hdev : writeHead g c.lh c.dev = c.dev.bwrite g.start (setHead (c.dev.disk g.start) []) := by
    rw [writeHead, Dev.bread, h.core.cacheLog _ he.inLog, he.lh]
  rw [hdev]
  refine ⟨h.core.bwrite _ _,
    fun b hb => (update_log_of_home _ he.inLog hb).trans (h.cache b hb), trivial, fun _ => ?_⟩
  refine ⟨he.all, ?_, he.disk.erase he.settled⟩
  simp only [Dev.bwrite]
  rw [update_self, word_setHead _ (by simp)]
  rfl

end Committer

end BossOs.Log
