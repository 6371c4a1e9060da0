import BossOs.Fs.Entries
import Mathlib.Order.Interval.Finset.Nat
import Mathlib.Tactic.IntervalCases

/-!
# A new file system

The smallest file system that a layout allows: the root directory with its two entries, in
the first block of the data area. It shows that the invariants of these modules can be met.
-/

namespace BossOs.Fs

open Lib

variable {sb : Superblock}

/-- No inode is in use; the free map, of one block, has the blocks before the data. -/
def blankBlk (sb : Superblock) (ops : Nat) : Blk :=
  ⟨Function.update (fun _ => Bytes.zero) sb.bmapstart (Bytes.lowBits sb.datastart), [], ops, [], [],
    false, 0⟩

def rootEntries : List UInt8 :=
  (newDirent dot ROOTINO).encode ++ (newDirent dotdot ROOTINO).encode

def rootBlank : Dinode := { Dinode.fresh T_DIR with nlink := 1 }

def rootDin (sb : Superblock) : Dinode :=
  { rootBlank.setAddr 0 sb.datastart with size := UInt32.ofNat rootEntries.length }

def rootNode : Node := (Node.mk T_DIR 0 0 1 0 fun _ => 0).write 0 rootEntries

def newFs (sb : Superblock) (ops : Nat) : Blk :=
  ⟨((((blankBlk sb ops).put sb ROOTINO rootBlank).alloc sb sb.datastart).store sb.datastart
    (Bytes.zero.splice 0 rootEntries)).put sb ROOTINO (rootDin sb) |>.disk, [], ops, [], [], false, 0⟩

structure Formats (sb : Superblock) : Prop where
  wf : sb.Wf
  map : sb.size < BPB
  room : sb.datastart < sb.size

section Formatted

variable (h : Formats sb) (ops : Nat)
include h

theorem Formats.used_blank {b : Nat} (hb : b < sb.size) :
    used sb (blankBlk sb ops).disk b = decide (b < sb.datastart) := by
  have hdiv : b / BPB = 0 := Nat.div_eq_of_lt (Nat.lt_trans hb h.map)
  have hmod : b % BPB = b := Nat.mod_eq_of_lt (Nat.lt_trans hb h.map)
  have hbb : sb.bblock b = sb.bmapstart := by
    unfold Superblock.bblock
    rw [hdiv, Nat.zero_add]
  have hlt : b < 8 * BSIZE := Nat.lt_trans hb h.map
  unfold used
  rw [hbb, hmod]
  simp only [blankBlk, Function.update_self]
  exact Bytes.bit_lowBits _ hlt

theorem Formats.blank_type {i : Nat} (hi : i < sb.ninodes) :
    (ino sb (blankBlk sb ops).disk i).type = 0 := by
  have hne : sb.iblock i ≠ sb.bmapstart := Nat.ne_of_lt (h.wf.iblock_lt hi)
  unfold ino
  simp only [blankBlk]
  rw [Function.update_of_ne hne]
  exact type_zero i

theorem Formats.diskOk_blank : DiskOk sb (blankBlk sb ops).disk :=
  Fs.diskOk_blank h.wf.data (fun _ hi => h.blank_type ops hi) fun _ hb => h.used_blank ops hb

def blankRoot (sb : Superblock) (ops : Nat) : Blk := (blankBlk sb ops).put sb ROOTINO rootBlank

theorem Formats.diskOk_blankRoot : DiskOk sb (blankRoot sb ops).disk :=
  diskOk_put h.wf h.wf.root (h.diskOk_blank ops)
    (fun hne => absurd (h.blank_type ops h.wf.root) hne) rfl rfl

omit h in
theorem ino_blankRoot : ino sb (blankRoot sb ops).disk ROOTINO = rootBlank := ino_put_self ..

theorem Formats.newFs_spec :
    DiskOk sb (newFs sb ops).disk ∧ node sb (newFs sb ops).disk ROOTINO = rootNode ∧
      ∀ i < sb.ninodes, i ≠ ROOTINO → node sb (newFs sb ops).disk i = Node.free := by
  have hroot := h.wf.root
  obtain ⟨s, hs⟩ : ∃ s, s = blankRoot sb ops := ⟨_, rfl⟩
  have hblank := h.diskOk_blank ops
  have hown := hblank.owns
  rw [← tabOf_ino sb _ ROOTINO] at hown
  have hoth₀ := others_put (blankBlk sb ops) ROOTINO rootBlank h.wf hroot hown
  have hdisk : DiskOk sb s.disk := by
    rw [hs]
    exact h.diskOk_blankRoot ops
  have hino : ino sb s.disk ROOTINO = rootBlank := by
    rw [hs]
    exact ino_blankRoot ops
  have htype : rootBlank.type ≠ 0 := by decide
  have hopen : Open sb s ROOTINO rootBlank 0 (NDIRECT < 0) := by
    have howns := hdisk.owns
    rw [← tabOf_ino sb _ ROOTINO, hino] at howns
    exact ⟨hroot, htype, howns, (shaped_blank s.disk rfl rfl).extent⟩
  have hfresh : Fresh sb s sb.datastart := by
    refine ⟨Nat.le_refl _, h.room, ?_⟩
    rw [hs, blankRoot, used_put _ _ _ h.wf hroot, h.used_blank ops h.room]
    exact decide_eq_false (Nat.lt_irrefl _)
  have hg := grown_direct h.wf hopen (by decide) hfresh
  have hzero : (s.alloc sb sb.datastart).disk sb.datastart = Bytes.zero := hg.zero
  have hw : Written sb ROOTINO (blocks rootBlank.size.toNat) 0 rootEntries s rootBlank
      (max (blocks rootBlank.size.toNat) (blocks (0 + rootEntries.length)))
      ((s.alloc sb sb.datastart).store sb.datastart
        (((s.alloc sb sb.datastart).disk sb.datastart).splice 0 rootEntries))
      (rootBlank.setAddr 0 sb.datastart) :=
    Written.of_mapped h.wf (Mapped.of_grown hg hopen (by decide)) (by decide) (by decide) (by decide)
  rw [hzero, ← hino] at hw
  obtain ⟨hok, hnode, hoth, -⟩ := hw.put_size (rootDin sb) h.wf hdisk (Nat.zero_le _)
    (by decide) (by rw [hino]; decide) (by rw [hino]; exact htype) (by rw [hino]; rfl)
  have hnew : (newFs sb ops).disk = (Blk.put sb ((s.alloc sb sb.datastart).store sb.datastart
      (Bytes.zero.splice 0 rootEntries)) ROOTINO (rootDin sb)).disk := by
    rw [hs]
    rfl
  rw [hnew]
  refine ⟨hok, ?_, ?_⟩
  · rw [hnode, node, hino, nodeOf_of_type _ htype]
    rfl
  · intro i hi hne
    rw [hdisk.node_of_others hoth hi hne, hs, blankRoot, hblank.node_of_others hoth₀ hi hne, node]
    exact if_pos (h.blank_type ops hi)

end Formatted

def rootEntry : Entry := ⟨0, by decide⟩

def rootAt (u : Blk) (d : Dinode) (locked : Bool) : State :=
  ⟨u, Function.update (fun _ => ⟨0, 0, false, false, Dinode.fresh 0⟩) rootEntry
    ⟨ROOTINO, 1, locked, true, d⟩, []⟩

section RootAt

variable {u : Blk} {d : Dinode} {locked : Bool}

theorem rootAt_self : (rootAt u d locked).icache rootEntry = ⟨ROOTINO, 1, locked, true, d⟩ := by
  simp only [rootAt, Function.update_self]

theorem rootAt_of_ne {e : Entry} (h : e ≠ rootEntry) :
    (rootAt u d locked).icache e = ⟨0, 0, false, false, Dinode.fresh 0⟩ := by
  simp only [rootAt, Function.update_of_ne h]

theorem rootAt_ref {e : Entry} (h : 0 < ((rootAt u d locked).icache e).ref) : e = rootEntry := by
  by_contra hne
  rw [rootAt_of_ne hne] at h
  exact absurd h (by decide)

theorem rootAt_good (hroot : ROOTINO < sb.ninodes) (hdisk : DiskOk sb u.disk) (hheld : u.held = [])
    (hino : ino sb u.disk ROOTINO = d) (ht : d.type ≠ 0) : Good sb (rootAt u d locked) := by
  refine ⟨hdisk, hheld, ?_, ?_, ?_, ?_⟩
  · intro e e' he he' _
    rw [rootAt_ref he, rootAt_ref he']
  · intro e he _
    rw [rootAt_ref he, rootAt_self]
    exact hroot
  · intro e he _
    rw [rootAt_ref he, rootAt_self]
    exact hino.symm
  · intro e he _
    rw [rootAt_ref he, rootAt_self]
    exact ht

end RootAt

def rootOpen (sb : Superblock) (locked : Bool) : State := rootAt (newFs sb 1) (rootDin sb) locked

section RootOpen

variable {locked : Bool}

theorem rootOpen_entry :
    (rootOpen sb locked).icache rootEntry = ⟨ROOTINO, 1, locked, true, rootDin sb⟩ := rootAt_self

theorem rootOpen_of_ne {e : Entry} (h : e ≠ rootEntry) :
    (rootOpen sb locked).icache e = ⟨0, 0, false, false, Dinode.fresh 0⟩ := rootAt_of_ne h

theorem rootOpen_node (locked : Bool) (h : Formats sb) :
    (rootOpen sb locked).nodeAt sb rootEntry = rootNode := by
  rw [State.nodeAt, rootOpen_entry]
  exact (h.newFs_spec 1).2.1

theorem rootOpen_type (h : Formats sb) {i : Nat} (hi : i < sb.ninodes)
    (ht : ((rootOpen sb locked).node sb i).type ≠ 0) : i = ROOTINO := by
  by_contra hne
  rw [State.node] at ht
  exact ht (congrArg Node.type ((h.newFs_spec 1).2.2 i hi hne))

theorem rootOpen_good (h : Formats sb) : Good sb (rootOpen sb locked) :=
  rootAt_good h.wf.root (h.newFs_spec 1).1 rfl (ino_put_self ..) (show T_DIR ≠ 0 by decide)

theorem rootNode_dirent {k : Nat} (hk : k < rootNode.slots) : (rootNode.dirent k).inum = ROOTINO := by
  have h2 : rootNode.slots = 2 := by decide
  rw [h2] at hk
  interval_cases k
  · decide
  · decide

theorem rootOpen_cached (locked : Bool) (h : Formats sb) :
    Cached sb {rootEntry} (if locked then [rootEntry] else []) (rootOpen sb locked) := by
  refine ⟨rootOpen_good h, ?_, ?_, ?_, ?_, ?_⟩
  · intro i hi ht
    have hne : ((rootOpen sb locked).node sb i).type ≠ 0 := by
      rw [ht]
      decide
    obtain rfl := rootOpen_type h hi hne
    have hnode := rootOpen_node locked h
    rw [State.nodeAt, rootOpen_entry] at hnode
    rw [hnode]
    refine ⟨by decide, fun k hk => ?_⟩
    rw [rootNode_dirent hk]
    exact h.wf.root
  · intro e he
    rw [Multiset.mem_singleton.mp he, rootOpen_entry]
    exact h.wf.root
  · intro e
    by_cases he : e = rootEntry
    · rw [he, rootOpen_entry, Multiset.count_singleton_self]
      rfl
    · rw [rootOpen_of_ne he, Multiset.count_eq_zero.mpr (by simpa using he)]
      rfl
  · intro e
    by_cases he : e = rootEntry
    · rw [he, rootOpen_entry]
      cases locked <;> simp
    · rw [rootOpen_of_ne he]
      cases locked <;> simp [he]
  · intro e he
    have heq : e = rootEntry := by
      cases locked
      · exact absurd he List.not_mem_nil
      · exact List.mem_singleton.mp he
    rw [heq, rootOpen_entry]
    exact ⟨Multiset.mem_singleton_self _, rfl⟩

end RootOpen

def tiny : Superblock :=
  { size := 47, nblocks := 12, ninodes := 8, nlog := LOGSIZE, logstart := 2, inodestart := 32,
    bmapstart := 34 }

theorem tiny_formats : Formats tiny := by
  refine ⟨⟨?_, ?_, ?_, ?_, ?_⟩, ?_, ?_⟩ <;> decide

end BossOs.Fs
