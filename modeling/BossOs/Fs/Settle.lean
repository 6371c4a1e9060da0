import BossOs.Fs.Path

/-!
# The table of nodes along a call

A call changes nodes one at a time, and between two changes inodes without links or references may
be freed. `Settles` keeps the table `M` that the changes have led to: the nodes are those of `M`,
apart from inodes that are loose in `M`.
-/

namespace BossOs.Fs

open Lib

variable {sb : Superblock}

def callFoot (sb : Superblock) (I D : List Nat) (b : Nat) : Prop :=
  (∃ i ∈ I, b = sb.iblock i) ∨ (∃ c, c < sb.size ∧ b = sb.bblock c) ∨ b ∈ D

theorem callFoot.mono {I I' D D' : List Nat} {b : Nat} (h : callFoot sb I D b) (hI : I ⊆ I')
    (hD : D ⊆ D') : callFoot sb I' D' b := by
  rcases h with ⟨i, hi, hb⟩ | h | h
  · exact Or.inl ⟨i, hI hi, hb⟩
  · exact Or.inr (Or.inl h)
  · exact Or.inr (Or.inr (hD h))

structure Settles (sb : Superblock) (R : Multiset Entry) (s : State) (M : Nat → Node)
    (I D : List Nat) (t : State) : Prop where
  node : ∀ j, j < sb.ninodes → t.node sb j = M j ∨
    ((M j).type ≠ 0 ∧ (M j).nlink = 0 ∧ ∀ e ∈ R, (s.icache e).inum ≠ j) ∧ t.node sb j = Node.free
  keep : ∀ j, j ∉ I → M j = s.node sb j
  inum : ∀ e ∈ R, (t.icache e).inum = (s.icache e).inum
  valid : ∀ e ∈ R, (s.icache e).valid = true → (t.icache e).valid = true
  inodes : ∀ j, j < sb.ninodes → j ∉ I → ¬ Loose sb R s j →
    ino sb t.blk.disk j = ino sb s.blk.disk j
  frame : Frame (fun b => (∃ j, Loose sb R s j ∧ b = sb.iblock j) ∨ callFoot sb I D b) s.blk t.blk

theorem Quiet.settles {R : Multiset Entry} {s t : State} (h : Quiet sb R s t) :
    Settles sb R s (s.node sb) [] [] t := by
  refine ⟨?_, fun _ _ => rfl, h.inum, h.valid, fun j hj _ => h.inodes j hj, h.frame.mono ?_⟩
  · intro j hj
    exact (h.node j hj).imp_right fun ⟨hl, hf⟩ => ⟨⟨hl.type, hl.nlink, hl.unref⟩, hf⟩
  · rintro b ⟨j, hl, hb | hb⟩
    · exact Or.inl ⟨j, hl, hb⟩
    · exact Or.inr (Or.inr (Or.inl hb))

variable {e : Entry}

theorem Wrote.foot {R : Multiset Entry} {L : List Entry} {s t : State} {j : Nat}
    {de : Dirent} (hw : Wrote sb R L s e (j * Dirent.bytes) de.encode t) (he : e ∈ L)
    (hname : de.name.length = DIRSIZ) : ∃ D : List Nat, D.length ≤ 2 ∧ ∀ b,
      t.writeFoot sb e (blocks (s.nodeAt sb e).size) (j * Dirent.bytes) de.encode.length b →
      callFoot sb [(s.icache e).inum] D b := by
  have hlen : de.encode.length = 16 := Dirent.length_encode_of hname
  have hinum := (hw.changed.entry e).1
  have hr := hw.cached.ref_of_locked he
  have hv := (hw.cached.valid e he).2
  have hopen := hw.cached.good.isOpen hr hv
  have hsize : j * 16 + 16 ≤ (t.icache e).din.size.toNat := by
    have hnode := hw.changed.node
    rw [hw.cached.din_size he, State.nodeAt, hinum, hnode]
    refine Nat.le_trans ?_ (Nat.le_max_right _ _)
    rw [hlen]
    exact Nat.le_refl _
  have hM := hw.cached.good.size_le hr hv
  -- the entry lies in one block, which the directory has
  have hkey : ∀ k, j * 16 / BSIZE ≤ k → k * BSIZE < j * 16 + 16 → k = j * 16 / BSIZE := by
    intro k h1 h2
    rw [bsize_eq] at *
    omega
  have hkm : j * 16 / BSIZE < MAXFILE := by
    have hc : MAXFILE * BSIZE = 71680 := by decide
    have hc' : MAXFILE = 140 := by decide
    rw [hc', bsize_eq]
    omega
  have hk : j * 16 / BSIZE < blocks (t.icache e).din.size.toNat := div_lt_blocks (by omega)
  have hblk := hopen.range hk hkm
  have hind : NDIRECT ≤ j * 16 / BSIZE → (t.icache e).din.addr NDIRECT < sb.size := by
    intro hge
    have hne : placeBlock (t.icache e).din t.blk.disk .indirect ≠ 0 :=
      hopen.extent.indirect.mpr (Nat.lt_of_le_of_lt hge hk)
    exact (hopen.owns.range_self hopen.inum hopen.typed hne).2
  refine ⟨[blockAt (t.icache e).din t.blk.disk (j * 16 / BSIZE), (t.icache e).din.addr NDIRECT],
    Nat.le_refl 2, ?_⟩
  rintro b (⟨k, h1, h2, h3⟩ | rfl)
  · rw [hlen] at h2
    obtain rfl := hkey k h1 h2
    rcases h3 with rfl | ⟨-, rfl | rfl | ⟨-, rfl⟩ | ⟨hk', rfl⟩⟩
    · exact Or.inr (Or.inr List.mem_cons_self)
    · exact Or.inr (Or.inr List.mem_cons_self)
    · exact Or.inr (Or.inl ⟨_, hblk.2, rfl⟩)
    · exact Or.inr (Or.inr (List.mem_cons_of_mem _ (List.mem_singleton_self _)))
    · exact Or.inr (Or.inl ⟨_, hind (Nat.le_of_eq hk'.symm), rfl⟩)
  · exact Or.inl ⟨_, List.mem_singleton_self _, by rw [hinum]⟩

namespace Settles

variable {R : Multiset Entry} {s t u : State} {M : Nat → Node} {I D : List Nat}

section
variable (h : Settles sb R s M I D t)
include h

theorem op (hop : 1 ≤ s.blk.outstanding) : 1 ≤ t.blk.outstanding :=
  hop.trans_eq h.frame.outstanding.symm

theorem mono {I' : List Nat} (hI : I ⊆ I') :
    Settles sb R s M I' D t := by
  refine ⟨h.node, fun j hj => h.keep j fun hc => hj (hI hc), h.inum, h.valid,
    fun j hj hn => h.inodes j hj fun hc => hn (hI hc), h.frame.mono ?_⟩
  intro b hb
  exact hb.imp_right fun hc => hc.mono hI (List.Subset.refl D)

theorem node_of_type {j : Nat} (hj : j < sb.ninodes)
    (ht : (t.node sb j).type ≠ 0) : t.node sb j = M j := by
  rcases h.node j hj with heq | ⟨-, hfree⟩
  · exact heq
  · rw [hfree] at ht
    exact absurd rfl ht

theorem nodeAt (he : e ∈ R)
    (hi : (s.icache e).inum < sb.ninodes) : t.nodeAt sb e = M (s.icache e).inum := by
  rw [State.nodeAt, h.inum e he]
  rcases h.node _ hi with heq | ⟨⟨-, -, hun⟩, -⟩
  · exact heq
  · exact absurd rfl (hun e he)

theorem loose {j : Nat} (hj : j ∉ I) (hl : Loose sb R t j) :
    Loose sb R s j := by
  have hM := h.node_of_type hl.inum hl.type
  rw [h.keep j hj] at hM
  refine ⟨hl.inum, hM ▸ hl.type, hM ▸ hl.nlink, ?_⟩
  intro e he heq
  exact hl.unref e he ((h.inum e he).trans heq)

theorem quiet (hq : Quiet sb R t u) : Settles sb R s M I D u := by
  refine ⟨?_, h.keep, fun e he => (hq.inum e he).trans (h.inum e he),
    fun e he hv => hq.valid e he (h.valid e he hv), ?_, h.frame.trans (hq.frame.mono ?_)⟩
  · intro j hj
    rcases hq.node j hj with heq | ⟨hl, hfree⟩
    · rw [heq]
      exact h.node j hj
    · have hM := h.node_of_type hj hl.type
      refine Or.inr ⟨⟨hM ▸ hl.type, hM ▸ hl.nlink, ?_⟩, hfree⟩
      intro e he heq
      exact hl.unref e he ((h.inum e he).trans heq)
  · intro j hj hI hl
    rw [hq.inodes j hj fun hl' => hl (h.loose hI hl'), h.inodes j hj hI hl]
  · rintro b ⟨j, hl, hb | hb⟩
    · by_cases hjI : j ∈ I
      · exact Or.inr (Or.inl ⟨j, hjI, hb⟩)
      · exact Or.inl ⟨j, h.loose hjI hl, hb⟩
    · exact Or.inr (Or.inr (Or.inl hb))

theorem update {i : Nat} {nd : Node} (D' : List Nat)
    (hself : u.node sb i = nd) (hothers : ∀ j < sb.ninodes, j ≠ i → u.node sb j = t.node sb j)
    (hinum : ∀ e ∈ R, (u.icache e).inum = (t.icache e).inum)
    (hvalid : ∀ e ∈ R, (t.icache e).valid = true → (u.icache e).valid = true)
    (hinodes : ∀ j < sb.ninodes, j ≠ i → ino sb u.blk.disk j = ino sb t.blk.disk j)
    (hframe : Frame (callFoot sb [i] D') t.blk u.blk) :
    Settles sb R s (Function.update M i nd) (i :: I) (D' ++ D) u := by
  refine ⟨?_, ?_, fun e he => (hinum e he).trans (h.inum e he),
    fun e he hv => hvalid e he (h.valid e he hv), ?_, (h.frame.mono ?_).trans (hframe.mono ?_)⟩
  · intro j hj
    by_cases hji : j = i
    · subst hji
      rw [Function.update_self]
      exact Or.inl hself
    · rw [Function.update_of_ne hji, hothers j hj hji]
      exact h.node j hj
  · intro j hj
    rw [List.mem_cons, not_or] at hj
    rw [Function.update_of_ne hj.1]
    exact h.keep j hj.2
  · intro j hj hI hl
    rw [List.mem_cons, not_or] at hI
    rw [hinodes j hj hI.1, h.inodes j hj hI.2 hl]
  · intro b hb
    refine hb.imp_right fun hc => hc.mono ?_ ?_
    · exact List.subset_cons_self i I
    · exact List.subset_append_right D' D
  · intro b hb
    refine Or.inr (hb.mono ?_ ?_)
    · intro x hx
      rw [List.mem_singleton.mp hx]
      exact List.mem_cons_self
    · exact List.subset_append_left D' D

theorem change {F : Nat → Prop} {nd : Node}
    (D' : List Nat) (hc : Changed sb t e F nd u)
    (hF : ∀ b, F b → callFoot sb [(t.icache e).inum] D' b) :
    Settles sb R s (Function.update M (t.icache e).inum nd) ((t.icache e).inum :: I) (D' ++ D) u := by
  refine h.update D' hc.node hc.others (fun e' _ => (hc.entry e').1) ?_ hc.inodes (hc.frame.mono hF)
  intro e' _ hv
  rw [(hc.entry e').2]
  exact hv

theorem stored {nd : Node}
    (hc : Changed sb t e (· = sb.iblock (t.icache e).inum) nd u) :
    Settles sb R s (Function.update M (t.icache e).inum nd) ((t.icache e).inum :: I) D u := by
  refine h.change [] hc ?_
  rintro b rfl
  exact Or.inl ⟨_, List.mem_singleton_self _, rfl⟩

theorem alloc {R' : Multiset Entry} {L : List Entry} {type : Int16}
    (ha : Allocated sb R' L type t e u) (hR : R ⊆ R') :
    Settles sb R s (Function.update M (u.icache e).inum (Node.fresh type))
      ((u.icache e).inum :: I) D u := by
  refine h.update [] ha.node ha.others (fun e' he => ha.inum e' (hR he))
    (fun e' he => ha.valid e' (hR he)) ha.inodes (ha.frame.mono ?_)
  rintro b rfl
  exact Or.inl ⟨_, List.mem_singleton_self _, rfl⟩

theorem wrote {R' : Multiset Entry} {L : List Entry}
    {j : Nat} {de : Dirent} (hw : Wrote sb R' L t e (j * Dirent.bytes) de.encode u) (he : e ∈ L)
    (hname : de.name.length = DIRSIZ) :
    ∃ D', D'.length ≤ D.length + 2 ∧ Settles sb R s (Function.update M (t.icache e).inum
      ((t.nodeAt sb e).write (j * Dirent.bytes) de.encode)) ((t.icache e).inum :: I) D' u := by
  obtain ⟨D', hlen, hD'⟩ := hw.foot he hname
  refine ⟨D' ++ D, ?_, h.change D' hw.changed hD'⟩
  rw [List.length_append]
  omega

end

end Settles

end BossOs.Fs
