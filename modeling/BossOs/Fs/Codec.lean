import BossOs.Fs.Iput
import BossOs.Mkfs.Append

/-!
# Inodes on disk

The block of an inode and its place there are computed by `iupdate`, `ilock` and `ialloc` in the
kernel, and by `winode` and `rinode` in `mkfs`. Nothing here depends on where the regions of
the disk lie, so the superblock is arbitrary.
-/

namespace BossOs.Fs

open Lib
open Function (update update_self update_of_ne)

variable {sb : Superblock} {i : Nat} {d : Dinode}

def InSlot (sb : Superblock) (i b k : Nat) : Prop :=
  b = sb.iblock i ∧ inodeOff i ≤ k ∧ k < inodeOff i + 64

/-- Inode `i` has become `d`, and no other byte has changed. -/
structure Stored (sb : Superblock) (i : Nat) (d : Dinode) (D D' : Nat → Block) : Prop where
  self : ino sb D' i = d
  others : ∀ j, j ≠ i → ino sb D' j = ino sb D j
  bytes : ∀ b k, k < BSIZE → ¬ InSlot sb i b k → (D' b).get k = (D b).get k

theorem get_putDinode (bp : Block) {k : Nat} (hk : k < BSIZE)
    (hout : ¬ (inodeOff i ≤ k ∧ k < inodeOff i + 64)) : (putDinode bp i d).get k = bp.get k := by
  rw [putDinode, Bytes.get_splice _ _ _ hk]
  split
  · rename_i hle
    rw [List.getElem?_eq_none (by rw [Dinode.length_encode]; omega)]
    rfl
  · rfl

theorem stored_put (u : Blk) (i : Nat) (d : Dinode) : Stored sb i d u.disk (u.put sb i d).disk := by
  refine ⟨ino_put_self u i d, fun j hne => ino_put_of_ne u i d hne, ?_⟩
  intro b k hk hout
  change (update u.disk (sb.iblock i) _ b).get k = _
  by_cases hb : b = sb.iblock i
  · subst hb
    rw [update_self]
    exact get_putDinode _ hk fun hin => hout ⟨rfl, hin⟩
  · rw [update_of_ne hb]

/-- An entry of the cache that stands for inode `i` and has not been read. -/
structure Unread (s : State) (e : Entry) (i : Nat) : Prop where
  inum : (s.icache e).inum = i
  ref : 0 < (s.icache e).ref
  locked : ¬ (s.icache e).locked = true
  valid : ¬ (s.icache e).valid = true

theorem ilock_unread {u : State} {e : Entry} (h : Unread u e i) (hh : u.blk.held = []) :
    ((ilock sb e).run u).Sat
      (fun _ v => (v.icache e).din = ino sb u.blk.disk i ∧ (v.icache e).valid = true)
      (fun x _ => x = .panic .noType ∧ (ino sb u.blk.disk i).type = 0) := by
  have hload : ((u.loaded sb e).icache e).din = ino sb u.blk.disk i := by
    rw [State.loaded, set_icache_self, h.inum]
  refine sat_ilock_invalid hh h.ref h.locked h.valid ?_ ?_
  · intro h0
    rw [h.inum] at h0
    exact ⟨rfl, h0⟩
  · intro _
    refine ⟨hload, ?_⟩
    rw [State.loaded, set_icache_self]

theorem mkfs_inode {m : Mkfs.Img} {u : Blk} (hlen : m.len = FSSIZE) (hm : m.sector = u.disk)
    (hi : i < Mkfs.NINODES) :
    ((Mkfs.rinode i).run m).Sat (fun d _ => d = ino Mkfs.sb u.disk i) (fun _ _ => False) ∧
    ((Mkfs.winode i d).run m).Sat (fun _ m' => m'.sector = (u.put Mkfs.sb i d).disk)
      (fun _ _ => False) := by
  have hsec : Mkfs.sb.iblock i < FSSIZE := by
    have hstart : Mkfs.sb.inodestart = 32 := rfl
    have hIPB : IPB = 8 := rfl
    have hmax : Mkfs.NINODES = 200 := rfl
    have hsize : FSSIZE = 1000 := rfl
    rw [Superblock.iblock, hstart, hIPB]
    omega
  constructor
  · rw [Mkfs.rinode, Prog.sat_bind, Mkfs.sat_rsect hlen hsec, Prog.sat_pure, hm]
    rfl
  · rw [Mkfs.winode, Prog.sat_bind, Mkfs.sat_rsect hlen hsec, Mkfs.sat_wsect hlen hsec, hm]
    change update m.sector _ _ = update u.disk _ _
    rw [hm]

/-- What one function stores as inode `i`, the others read as inode `i`, and no function touches
a byte of another inode. -/
theorem inode_codec {s : State} {j : Nat} (hi : i < sb.ninodes) (hij : i ≠ j)
    (hh : s.blk.held = []) (hop : 1 ≤ s.blk.outstanding) :
    (∀ e, (s.icache e).inum = i → ((iupdate sb e).run s).Sat
      (fun _ t => Stored sb i (s.icache e).din s.blk.disk t.blk.disk ∧
        ino sb t.blk.disk j = ino sb s.blk.disk j ∧
        ∀ (u : State) e', u.blk = t.blk → Unread u e' i → ((ilock sb e').run u).Sat
          (fun _ v => (v.icache e').din = (s.icache e).din)
          (fun x _ => x = .panic .noType ∧ (s.icache e).din.type = 0)) (fun _ _ => False)) ∧
    (∀ type, ((ialloc sb type).run s).Sat (fun e t => FirstFree sb s.blk.disk (t.icache e).inum ∧
        Stored sb (t.icache e).inum (Dinode.fresh type) s.blk.disk t.blk.disk)
      (fun x _ => x = .panic .noEntries ∨
        x = .panic .noInodes ∧ ∀ k, ¬ FirstFree sb s.blk.disk k)) ∧
    (sb = Mkfs.sb → ∀ m : Mkfs.Img, m.len = FSSIZE → m.sector = s.blk.disk →
      ((Mkfs.rinode i).run m).Sat (fun d _ => d = ino sb s.blk.disk i) (fun _ _ => False) ∧
      ∀ e, (s.icache e).inum = i → ((Mkfs.winode i (s.icache e).din).run m).Sat
        (fun _ m' => ((iupdate sb e).run s).Sat (fun _ t => t.blk.disk = m'.sector)
          (fun _ _ => False)) (fun _ _ => False)) := by
  refine ⟨?_, ?_, ?_⟩
  · intro e he
    rw [sat_iupdate hh hop, he]
    have hst : Stored sb i (s.icache e).din s.blk.disk (s.blk.put sb i (s.icache e).din).disk :=
      stored_put ..
    refine ⟨hst, hst.others j (Ne.symm hij), ?_⟩
    intro u e' hu h
    have hino : ino sb u.blk.disk i = (s.icache e).din := by
      rw [hu]
      exact hst.self
    have hheld : u.blk.held = [] := by
      rw [hu]
      exact hh
    refine (ilock_unread h hheld).mono ?_ ?_
    · rintro _ v ⟨hdin, -⟩
      exact hdin.trans hino
    · rintro x _ ⟨rfl, h0⟩
      rw [hino] at h0
      exact ⟨rfl, h0⟩
  · intro type
    refine sat_ialloc hh hop ?_ ?_
    · intro k hk
      refine (iget_got k).mono ?_ fun x _ hx => Or.inl hx.1
      intro e t hgot
      have hinum : (t.icache e).inum = k := by
        cases hgot with
        | found hr hi =>
          rw [set_icache_self]
          exact hi
        | taken h0 hno => rw [set_icache_self, Inode.reuse]
      have hdisk : t.blk = s.blk.put sb k (Dinode.fresh type) := by
        cases hgot with
        | found => rfl
        | taken => rfl
      rw [hinum, hdisk]
      exact ⟨hk, stored_put s.blk k (Dinode.fresh type)⟩
    · intro hnone
      exact Or.inr ⟨rfl, fun k hk => hnone k hk.pos hk.lt hk.free⟩
  · rintro rfl m hlen hm
    refine ⟨(mkfs_inode (d := Dinode.fresh 0) hlen hm hi).1, ?_⟩
    intro e he
    refine (mkfs_inode hlen hm hi).2.imp ?_
    intro _ m' hm'
    rw [sat_iupdate hh hop, he]
    exact hm'.symm

/-- A blank disk with `mkfs`'s superblock, inside a transaction, with inode 9 in the cache. -/
def blankFs : State where
  blk := ⟨fun _ => Bytes.zero, [], 1, [], [], false, 0⟩
  icache _ := ⟨9, 1, true, true, Dinode.fresh T_FILE⟩
  input := []

theorem inode_codec_neighbours : Mkfs.sb.iblock 9 = Mkfs.sb.iblock 10 ∧
    ∀ e, ((iupdate Mkfs.sb e).run blankFs).Sat (fun _ t =>
      ino Mkfs.sb t.blk.disk 9 = Dinode.fresh T_FILE ∧
      ino Mkfs.sb t.blk.disk 10 = ino Mkfs.sb blankFs.blk.disk 10) (fun _ _ => False) := by
  have hi : 9 < Mkfs.sb.ninodes := by decide
  have hij : 9 ≠ 10 := by decide
  refine ⟨rfl, fun e => ?_⟩
  refine ((inode_codec (s := blankFs) hi hij rfl (Nat.le_refl 1)).1 e rfl).imp ?_
  rintro _ t ⟨hst, hother, -⟩
  exact ⟨hst.self, hother⟩

end BossOs.Fs
