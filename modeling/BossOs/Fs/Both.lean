import BossOs.Fs.Link

/-!
# Two locked inodes

`sys_unlink` and `create` hold the locks of a directory and of one more inode and change
both. `Both` is what is known meanwhile; each change of one of the two keeps it.
-/

namespace BossOs.Fs

open Lib
open Function (update update_of_ne update_self)

variable {sb : Superblock}

def Node.link (nd : Node) (name : Str) (inum : Nat) : Node :=
  nd.write (nd.hole * Dirent.bytes) (newDirent name inum).encode

/-- Entries `dp` and `ip` are for the inodes `d` and `i` and locked; `M` is the table. -/
structure Both (sb : Superblock) (R : Multiset Entry) (s : State) (dp ip : Entry) (d i : Nat)
    (M : Nat → Node) (I D : List Nat) (t : State) : Prop where
  cached : Cached sb (dp ::ₘ ip ::ₘ R) [dp, ip] t
  settles : Settles sb R s M I D t
  dir : (t.icache dp).inum = d
  file : (t.icache ip).inum = i
  dirNode : t.nodeAt sb dp = M d
  fileNode : t.nodeAt sb ip = M i
  entries : dp ≠ ip

namespace Both

variable {R : Multiset Entry} {s t u : State} {dp ip : Entry} {d i : Nat} {M : Nat → Node}
  {I D : List Nat} {E : Stop → State → Prop}

section Facts

variable (h : Both sb R s dp ip d i M I D t)
include h

theorem swap : Both sb R s ip dp i d M I D t := by
  refine ⟨?_, h.settles, h.file, h.dir, h.fileNode, h.dirNode, h.entries.symm⟩
  rw [Multiset.cons_swap]
  apply h.cached.perm
  intro e
  simp only [List.mem_cons, List.not_mem_nil, or_false]
  exact or_comm

theorem not_mem : dp ∉ [ip] := fun hm => h.entries (List.mem_singleton.mp hm)

theorem dir_lt : d < sb.ninodes := by
  rw [← h.dir]
  exact h.cached.inum_lt (Multiset.mem_cons_self ..)

theorem ne : i ≠ d := by
  intro heq
  rw [← h.file, ← h.dir] at heq
  exact h.entries (h.cached.good.unique dp ip (h.cached.ref_of_locked List.mem_cons_self)
    (h.swap.cached.ref_of_locked List.mem_cons_self) heq.symm)

theorem change {F : Nat → Prop} {nd : Node} {D' : List Nat}
    (hc : Cached sb (dp ::ₘ ip ::ₘ R) [dp, ip] u) (hch : Changed sb t dp F nd u)
    (hs : Settles sb R s (update M (t.icache dp).inum nd) ((t.icache dp).inum :: I) D' u) :
    Both sb R s dp ip d i (update M d nd) (d :: I) D' u := by
  rw [h.dir] at hs
  refine ⟨hc, hs, (hch.entry dp).1.trans h.dir, (hch.entry ip).1.trans h.file, ?_, ?_, h.entries⟩
  · rw [update_self]
    exact hch.nodeAt
  · rw [update_of_ne h.ne, ← h.fileNode]
    apply hch.nodeAt_of_ne
    · rw [h.file]
      exact h.swap.dir_lt
    · rw [h.file, h.dir]
      exact h.ne

end Facts

theorem relink (hsb : sb.Wf) (hop : 1 ≤ s.blk.outstanding) (h : Both sb R s dp ip d i M I D t)
    (g : Int16 → Int16) : ((setDin dp fun d => { d with nlink := g d.nlink }).run t).Sat
      (fun _ t' => ((iupdate sb dp).run t').Sat (fun _ u =>
        Both sb R s dp ip d i (update M d ((M d).relink (g (M d).nlink))) (d :: I) D u) E) E := by
  refine (relink_spec hsb h.cached List.mem_cons_self (h.settles.op hop) g).imp ?_
  intro _ t' ht'
  refine ht'.imp ?_
  rintro _ u ⟨hc, hch, -⟩
  have hs := h.settles.stored hch
  rw [h.dirNode] at hch hs
  exact h.change hc hch hs

theorem wrote (h : Both sb R s dp ip d i M I D t) {j : Nat} {de : Dirent}
    (hw : Wrote sb (dp ::ₘ ip ::ₘ R) [dp, ip] t dp (j * Dirent.bytes) de.encode u)
    (hname : de.name.length = DIRSIZ) : ∃ D', D'.length ≤ D.length + 2 ∧ Both sb R s dp ip d i
      (update M d ((M d).write (j * Dirent.bytes) de.encode)) (d :: I) D' u := by
  obtain ⟨D', hD, hs⟩ := h.settles.wrote hw List.mem_cons_self hname
  have hch := hw.changed
  rw [h.dirNode] at hch hs
  exact ⟨D', hD, h.change hw.cached hch hs⟩

def Full (x : Stop) : Prop :=
  x = .panic .noEntries ∨ x = .panic .outOfBlocks ∨ x = .panic .dirlink

theorem dirlink (hsb : sb.Wf) (hop : 1 ≤ s.blk.outstanding) (h : Both sb R s dp ip d i M I D t)
    (ht : (M d).type = T_DIR) {name : Str} {inum : Nat} (hnone : (M d).find name = none)
    (hinum : inum < sb.ninodes) : ((dirlink sb dp name inum).run t).Sat
      (fun r u => r = true ∧ ∃ D', D'.length ≤ D.length + 2 ∧
        Both sb R s dp ip d i (update M d ((M d).link name inum)) (d :: I) D' u)
      (fun x _ => Full x) := by
  rw [← h.dirNode] at ht hnone
  refine (dirlink_spec hsb h.cached h.not_mem ht (h.settles.op hop) hinum).mono ?_ ?_
  · rintro r u (⟨-, ⟨k, hk, -⟩, -⟩ | ⟨rfl, -, hw⟩)
    · rw [hnone] at hk
      cases hk
    · rw [h.dirNode] at hw
      exact ⟨rfl, h.wrote hw (length_strncpy ..)⟩
  · rintro x _ (hx | hx | hx | ⟨-, k, hk, -⟩)
    · exact Or.inl hx
    · exact Or.inr (Or.inl hx)
    · exact Or.inr (Or.inr hx)
    · rw [hnone] at hk
      cases hk

theorem writeSlot (hsb : sb.Wf) (hop : 1 ≤ s.blk.outstanding) (h : Both sb R s dp ip d i M I D t)
    (ht : (M d).type = T_DIR) {k : Nat} (hk : k < (M d).slots) :
    ((writei sb dp noDirent.encode (k * Dirent.bytes)).run t).Sat
      (fun w u => w = some Dirent.bytes ∧ ∃ D', D'.length ≤ D.length + 2 ∧ Both sb R s dp ip d i
        (update M d ((M d).write (k * Dirent.bytes) noDirent.encode)) (d :: I) D' u)
      (fun x _ => x = .panic .outOfBlocks) := by
  rw [← h.dirNode] at ht hk
  obtain ⟨hdvd, -⟩ := h.cached.dirOk List.mem_cons_self ht
  have hlen : noDirent.encode.length = Dirent.bytes := by decide
  have hle : k * Dirent.bytes + Dirent.bytes ≤ (t.nodeAt sb dp).size := by
    rw [Node.size_eq hdvd, dirent_bytes]
    omega
  have hmax : (t.nodeAt sb dp).size ≤ MAXFILE * BSIZE := by
    rw [← h.cached.din_size List.mem_cons_self]
    exact h.cached.good.size_le (h.cached.ref_of_locked List.mem_cons_self)
      (h.cached.valid dp List.mem_cons_self).2
  have hzero : 0 < sb.ninodes := Nat.lt_trans Nat.one_pos hsb.root
  have hdir := dirOk_write noDirent
    (h.cached.dirs _ (h.cached.inum_lt (h.cached.mem_of_locked List.mem_cons_self))) (Nat.le_of_lt hk)
    (by decide) hzero hsb
  refine (writei_cached hsb h.cached h.not_mem (h.settles.op hop) (by rw [hlen]; decide)
    hdir).mono ?_ fun x _ hx => hx.1
  rintro w u (⟨-, ⟨hdev, -⟩ | ⟨-, -, hbad⟩⟩ | ⟨-, rfl, -, -, hw⟩)
  · rw [ht] at hdev
    exact absurd hdev (by decide)
  · rw [hlen] at hbad
    omega
  · exact ⟨by rw [hlen], h.wrote hw (by decide)⟩

theorem unlockput (hsb : sb.Wf) (hop : 1 ≤ s.blk.outstanding) (h : Both sb R s dp ip d i M I D t) :
    ((iunlockput sb dp).run t).Sat (fun _ u => Cached sb (ip ::ₘ R) [ip] u ∧
      Settles sb R s M I D u ∧ (u.icache ip).inum = i ∧ u.nodeAt sb ip = M i) E := by
  have hip : ip ∈ ip ::ₘ R := Multiset.mem_cons_self ..
  refine (iunlockput_spec hsb h.cached h.not_mem (h.settles.op hop)).imp ?_
  intro _ u hp
  refine ⟨hp.cached, h.settles.quiet (hp.quiet.mono fun _ => Multiset.mem_cons_of_mem),
    (hp.quiet.inum ip hip).trans h.file, ?_⟩
  rw [hp.quiet.nodeAt hip (h.cached.inum_lt (Multiset.mem_cons_of_mem hip))]
  exact h.fileNode

end Both

end BossOs.Fs
