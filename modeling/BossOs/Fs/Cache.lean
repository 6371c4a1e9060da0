import BossOs.Fs.ReadWrite

/-!
# The inode cache

The invariant between calls of the functions below: the disk is in order, entries in
use are for different inodes, and an entry that is valid agrees with the disk. Under
it the functions on inodes act on the table of nodes.
-/

namespace BossOs.Fs

open Lib

variable {sb : Superblock}

structure Good (sb : Superblock) (s : State) : Prop where
  disk : DiskOk sb s.blk.disk
  held : s.blk.held = []
  unique : ∀ e e', 0 < (s.icache e).ref → 0 < (s.icache e').ref →
    (s.icache e).inum = (s.icache e').inum → e = e'
  inum : ∀ e, 0 < (s.icache e).ref → (s.icache e).valid = true → (s.icache e).inum < sb.ninodes
  sync : ∀ e, 0 < (s.icache e).ref → (s.icache e).valid = true →
    (s.icache e).din = ino sb s.blk.disk (s.icache e).inum
  typed : ∀ e, 0 < (s.icache e).ref → (s.icache e).valid = true → (s.icache e).din.type ≠ 0

def State.node (sb : Superblock) (s : State) (i : Nat) : Node := Fs.node sb s.blk.disk i

def State.nodeAt (sb : Superblock) (s : State) (e : Entry) : Node := s.node sb (s.icache e).inum

variable {i : Nat} {D D' : Nat → Block}

theorem DiskOk.of_others (h : DiskOk sb D) (ho : Others sb i D D')
    (hown : Owns sb (ino sb D') D') (hi : (ino sb D' i).type ≠ 0 → Shaped (ino sb D' i) D') :
    DiskOk sb D' := by
  refine ⟨hown, ?_⟩
  intro j hj ht
  by_cases hji : j = i
  · subst hji
    exact hi ht
  · have ht' : (ino sb D j).type ≠ 0 := by
      rw [ho.inodes j hj hji] at ht
      exact ht
    exact ho.shaped hj hji ht' (h.shaped j hj ht')

theorem DiskOk.node_of_others {j : Nat} (h : DiskOk sb D)
    (ho : Others sb i D D') (hj : j < sb.ninodes) (hne : j ≠ i) : node sb D' j = node sb D j :=
  ho.node_eq hj hne (h.shaped j hj)

def State.set (s : State) (e : Entry) (u : Blk) (ip : Inode) : State :=
  { s with blk := u, icache := Function.update s.icache e ip }

section Set

variable (s : State) (e : Entry) (u : Blk) (ip : Inode)

theorem set_icache_self : (s.set e u ip).icache e = ip := Function.update_self ..

theorem set_icache_of_ne {e' : Entry} (h : e' ≠ e) : (s.set e u ip).icache e' = s.icache e' :=
  Function.update_of_ne h ..

theorem withDin_eq_set (d : Dinode) : s.withDin e u d = s.set e u { s.icache e with din := d } := rfl

end Set

namespace Good

variable {s : State} {e : Entry} (hg : Good sb s) (hr : 0 < (s.icache e).ref)
include hg hr

section
variable (hv : (s.icache e).valid = true)
include hv

theorem isOpen :
    Open sb s.blk (s.icache e).inum (s.icache e).din (blocks (s.icache e).din.size.toNat)
      (NDIRECT < blocks (s.icache e).din.size.toNat) := by
  have hi := hg.inum e hr hv
  have ht := hg.typed e hr hv
  have hs := hg.sync e hr hv
  have hown := hg.disk.owns
  rw [← tabOf_ino sb _ (s.icache e).inum, ← hs] at hown
  have hsh := hg.disk.shaped _ hi (hs ▸ ht)
  rw [← hs] at hsh
  exact ⟨hi, ht, hown, hsh.extent⟩

theorem size_le :
    (s.icache e).din.size.toNat ≤ MAXFILE * BSIZE := by
  have hsh := hg.disk.shaped _ (hg.inum e hr hv) (hg.sync e hr hv ▸ hg.typed e hr hv)
  rw [hg.sync e hr hv]
  exact hsh.size_le

theorem agree : (s.icache e).inum < sb.ninodes ∧
    (s.icache e).din = ino sb s.blk.disk (s.icache e).inum ∧ (s.icache e).din.type ≠ 0 :=
  ⟨hg.inum e hr hv, hg.sync e hr hv, hg.typed e hr hv⟩

theorem nodeAt_eq :
    s.nodeAt sb e = ⟨(s.icache e).din.type, (s.icache e).din.major, (s.icache e).din.minor,
      (s.icache e).din.nlink, (s.icache e).din.size.toNat,
      fun k => if k < (s.icache e).din.size.toNat
        then fileByte (s.icache e).din s.blk.disk k else 0⟩ := by
  have hs := hg.sync e hr hv
  have ht := hg.typed e hr hv
  unfold State.nodeAt State.node node
  rw [← hs, nodeOf_of_type _ ht]

end

theorem set {u : Blk} {ip : Inode} (hd : DiskOk sb u.disk) (hh : u.held = [])
    (ho : Others sb (s.icache e).inum s.blk.disk u.disk) (hi : ip.inum = (s.icache e).inum)
    (hv : ip.valid = true → ip.inum < sb.ninodes ∧ ip.din = ino sb u.disk ip.inum ∧ ip.din.type ≠ 0) :
    Good sb (s.set e u ip) := by
  have hinum : ∀ e', ((s.set e u ip).icache e').inum = (s.icache e').inum := by
    intro e'
    by_cases he : e' = e
    · subst he
      rw [set_icache_self, hi]
    · rw [set_icache_of_ne s e u ip he]
  have href : ∀ e', 0 < ((s.set e u ip).icache e').ref → 0 < (s.icache e').ref := by
    intro e'
    by_cases he : e' = e
    · subst he
      exact fun _ => hr
    · rw [set_icache_of_ne s e u ip he]
      exact id
  have hvalid : ∀ e', 0 < ((s.set e u ip).icache e').ref →
      ((s.set e u ip).icache e').valid = true →
      ((s.set e u ip).icache e').inum < sb.ninodes ∧
      ((s.set e u ip).icache e').din = ino sb u.disk ((s.set e u ip).icache e').inum ∧
        ((s.set e u ip).icache e').din.type ≠ 0 := by
    intro e' hr'
    by_cases he : e' = e
    · subst he
      rw [set_icache_self]
      exact hv
    · have hr' := href e' hr'
      rw [set_icache_of_ne s e u ip he]
      intro hv'
      have hne : (s.icache e').inum ≠ (s.icache e).inum := fun heq => he (hg.unique e' e hr' hr heq)
      have hi' := hg.inum e' hr' hv'
      refine ⟨hi', (hg.sync e' hr' hv').trans (ho.inodes _ hi' hne).symm, ?_⟩
      exact hg.typed e' hr' hv'
  refine ⟨hd, hh, ?_, fun e' hr' hv' => (hvalid e' hr' hv').1,
    fun e' hr' hv' => (hvalid e' hr' hv').2.1, fun e' hr' hv' => (hvalid e' hr' hv').2.2⟩
  intro e₁ e₂ h₁ h₂
  rw [hinum, hinum]
  exact hg.unique e₁ e₂ (href e₁ h₁) (href e₂ h₂)

end Good

def Node.read (nd : Node) (off n : Nat) : List UInt8 :=
  (List.range (min n (nd.size - off))).map fun k => nd.byte (off + k)

variable {off : Nat}

section Readi

variable {s : State} {e : Entry} (hg : Good sb s) (hr : 0 < (s.icache e).ref)
  (hv : (s.icache e).valid = true)
include hg hr hv

theorem sat_readi (hdev : (s.nodeAt sb e).type ≠ T_DEV) {n : Nat}
    {Q : Option (List UInt8) → State → Prop} {E : Stop → State → Prop} :
    ((readi sb e off n).run s).Sat Q E =
      if (s.nodeAt sb e).size < off ∨ (off + n) % 2 ^ 32 < off then Q none s
      else Q (some ((s.nodeAt sb e).read off n)) s := by
  have hnd := hg.nodeAt_eq hr hv
  rw [hnd] at hdev
  simp only [readi, Prog.sat_bind, sat_inode]
  rw [if_neg hdev]
  have hsize : (s.nodeAt sb e).size = (s.icache e).din.size.toNat := by rw [hnd]
  rw [hsize]
  by_cases hoff : (s.icache e).din.size.toNat < off ∨ (off + n) % 2 ^ 32 < off
  · rw [if_pos hoff, if_pos hoff, Prog.sat_pure]
  · rw [if_neg hoff, if_neg hoff]
    simp only [Prog.sat_bind]
    have hmin : (if (s.icache e).din.size.toNat < off + n then
        (s.icache e).din.size.toNat - off else n) = min n ((s.icache e).din.size.toNat - off) := by
      split <;> omega
    have hread : fileBytes (s.icache e).din s.blk.disk off
        (min n ((s.icache e).din.size.toNat - off)) = (s.nodeAt sb e).read off n := by
      rw [hnd, fileBytes, Node.read]
      apply List.map_congr_left
      intro k hk
      rw [List.mem_range] at hk
      exact (if_pos (by omega)).symm
    rw [hmin, sat_readFrom (hg.isOpen hr hv) hg.held (blocks_le (hg.size_le hr hv)) _ _ _
      (Nat.le_refl _) ?_, Prog.sat_pure, hread]
    have := le_blocks_mul (s.icache e).din.size.toNat
    omega

end Readi

def Node.write (nd : Node) (off : Nat) (src : List UInt8) : Node :=
  { nd with
    size := max nd.size (off + src.length)
    byte := fun k => if off ≤ k ∧ k < off + src.length then src.getD (k - off) 0 else nd.byte k }

/-- A change to the inode of entry `e`, on disk and in the entry, with what was logged. -/
structure Changed (sb : Superblock) (s : State) (e : Entry) (L : Nat → Prop) (nd : Node)
    (t : State) : Prop where
  good : Good sb t
  cache : ∃ u d, t = s.withDin e u d
  node : t.node sb (s.icache e).inum = nd
  others : ∀ j, j < sb.ninodes → j ≠ (s.icache e).inum → t.node sb j = s.node sb j
  inodes : ∀ j, j < sb.ninodes → j ≠ (s.icache e).inum →
    ino sb t.blk.disk j = ino sb s.blk.disk j
  frame : Frame L s.blk t.blk

namespace Changed

variable {s t : State} {e : Entry} {L : Nat → Prop} {nd : Node}

theorem entry (h : Changed sb s e L nd t) (e' : Entry) :
    (t.icache e').inum = (s.icache e').inum ∧ (t.icache e').valid = (s.icache e').valid := by
  obtain ⟨u, d, rfl⟩ := h.cache
  by_cases he : e' = e
  · subst he
    rw [withDin_icache_self]
    exact ⟨rfl, rfl⟩
  · rw [withDin_eq_set, set_icache_of_ne _ _ _ _ he]
    exact ⟨rfl, rfl⟩

theorem nodeAt (h : Changed sb s e L nd t) : t.nodeAt sb e = nd := by
  rw [State.nodeAt, (h.entry e).1]
  exact h.node

theorem nodeAt_of_ne (h : Changed sb s e L nd t) {e' : Entry} (hi : (s.icache e').inum < sb.ninodes)
    (hne : (s.icache e').inum ≠ (s.icache e).inum) : t.nodeAt sb e' = s.nodeAt sb e' := by
  rw [State.nodeAt, (h.entry e').1]
  exact h.others _ hi hne

end Changed

section Writei

variable {s : State} {e : Entry} (hg : Good sb s) (hr : 0 < (s.icache e).ref)
  (hv : (s.icache e).valid = true)
include hg hr hv

/-- What `writei` of `len` bytes at `off` may log, in terms of the inode `i` it leaves. -/
def State.writeFoot (sb : Superblock) (t : State) (e : Entry) (n off len c : Nat) : Prop :=
  Fs.writeFoot sb (t.icache e).din t.blk.disk n off len c ∨ c = sb.iblock (t.icache e).inum

def State.Logged (t : State) (e : Entry) (off len : Nat) : Prop :=
  ∀ p, off ≤ p → p < off + len → blockAt (t.icache e).din t.blk.disk (p / BSIZE) ∈ t.blk.logged

variable {d : Dinode}

omit hg hr hv in
theorem diskOk_write (off : Nat) (src : List UInt8)
    (hdisk : DiskOk sb D) (ht : (ino sb D i).type ≠ 0) (hown : Owns sb (ino sb D') D')
    (hino : ino sb D' i = d) (hoth : Others sb i D D') (hshape : Shaped d D')
    (hsize : d.size.toNat = max (ino sb D i).size.toNat (off + src.length))
    (hfields : d = { ino sb D i with size := d.size, addrs := d.addrs })
    (hbyte : ∀ p < d.size.toNat, fileByte d D' p =
      if off ≤ p ∧ p < off + src.length then src.getD (p - off) 0
      else if p < (ino sb D i).size.toNat then fileByte (ino sb D i) D p else 0) :
    DiskOk sb D' ∧ node sb D' i = (node sb D i).write off src := by
  have ht' : d.type ≠ 0 := by
    rw [hfields]
    exact ht
  refine ⟨hdisk.of_others hoth hown fun _ => by rw [hino]; exact hshape, ?_⟩
  have h1 := congrArg Dinode.type hfields
  have h2 := congrArg Dinode.major hfields
  have h3 := congrArg Dinode.minor hfields
  have h4 := congrArg Dinode.nlink hfields
  unfold node
  rw [hino, nodeOf_of_type _ ht', nodeOf_of_type _ ht]
  ext k
  · exact h1
  · exact h2
  · exact h3
  · exact h4
  · exact hsize
  · simp only [Node.write]
    by_cases hk : k < d.size.toNat
    · rw [if_pos hk, hbyte k hk]
    · rw [if_neg hk, if_neg (by omega), if_neg (by omega)]

theorem Changed.of_disk {u : Blk} {nd : Node} {L : Nat → Prop}
    (hdisk : DiskOk sb u.disk) (hino : ino sb u.disk (s.icache e).inum = d) (ht : d.type ≠ 0)
    (hoth : Others sb (s.icache e).inum s.blk.disk u.disk)
    (hnode : Fs.node sb u.disk (s.icache e).inum = nd) (hframe : Frame L s.blk u) :
    Changed sb s e L nd (s.withDin e u d) := by
  refine ⟨hg.set hr hdisk (hframe.held.trans hg.held) hoth rfl fun _ => ⟨hg.inum e hr hv, hino.symm, ht⟩,
    ⟨u, d, rfl⟩, hnode, ?_, hoth.inodes, hframe⟩
  intro j hj hne
  exact hg.disk.node_of_others hoth hj hne

theorem changed_write {u : Blk} {src : List UInt8} {L : Nat → Prop}
    (hown : Owns sb (ino sb u.disk) u.disk) (hino : ino sb u.disk (s.icache e).inum = d)
    (hoth : Others sb (s.icache e).inum s.blk.disk u.disk) (hshape : Shaped d u.disk)
    (hsize : d.size.toNat = max (s.icache e).din.size.toNat (off + src.length))
    (hfields : d = { (s.icache e).din with size := d.size, addrs := d.addrs })
    (hbyte : ∀ p < d.size.toNat, fileByte d u.disk p =
      if off ≤ p ∧ p < off + src.length then src.getD (p - off) 0
      else if p < (s.icache e).din.size.toNat then fileByte (s.icache e).din s.blk.disk p else 0)
    (hframe : Frame L s.blk u) :
    Changed sb s e L ((s.nodeAt sb e).write off src) (s.withDin e u d) := by
  have ht := hg.typed e hr hv
  have ht' : d.type ≠ 0 := by
    rw [hfields]
    exact ht
  rw [hg.sync e hr hv] at ht hsize hfields hbyte
  obtain ⟨hdisk, hnode⟩ := diskOk_write _ _ hg.disk ht hown hino hoth hshape hsize hfields hbyte
  exact Changed.of_disk hg hr hv hdisk hino ht' hoth hnode hframe

omit hg hr hv in
theorem Written.same {n : Nat} {src : List UInt8} {s t : Blk} {d' : Dinode}
    (h : Written sb i n off src s d n t d') (ho : Open sb s i d n (NDIRECT < n)) : d' = d := by
  have haddr : ∀ k ≤ NDIRECT, d'.addr k = d.addr k := by
    intro k hk
    rcases Nat.lt_or_eq_of_le hk with hlt | rfl
    · have hm : k < MAXFILE := Nat.lt_of_lt_of_le hlt (Nat.le_add_right _ _)
      have hat : ∀ (d : Dinode) (D : Nat → Block), blockAt d D k = d.addr k := fun _ _ => if_pos hlt
      by_cases hkn : k < n
      · have hb := h.block k hkn hm
        rwa [hat, hat] at hb
      · have h1 := h.isOpen.extent.block k hm
        have h2 := ho.extent.block k hm
        rw [hat] at h1 h2
        by_contra hne
        by_cases h0 : d.addr k = 0
        · exact hkn (h1.mp fun h0' => hne (h0'.trans h0.symm))
        · exact hkn (h2.mp h0)
    · by_cases h0 : d.addr NDIRECT = 0
      · by_contra hne
        have h1 := h.isOpen.extent.indirect.mp fun h0' => hne (h0'.trans h0.symm)
        exact ho.extent.indirect.mpr h1 h0
      · exact h.indirect h0
  have haddrs : d'.addrs = d.addrs := by
    funext k
    have hk := haddr k.val (Nat.le_of_lt_succ k.isLt)
    have hof : Fin.ofNat (NDIRECT + 1) k.val = k := Fin.ext (Nat.mod_eq_of_lt k.isLt)
    rw [Dinode.addr, Dinode.addr, hof] at hk
    exact UInt32.toNat_inj.mp hk
  rw [h.fields, haddrs]

end Writei

end BossOs.Fs
