import BossOs.Fs.Cache

/-!
# `writei`

The end of `writei` stores the new size. After it the inode in memory and the one on
disk agree again, and the node has the bytes that were written.
-/

namespace BossOs.Fs

open Lib
open Prog (sat_bind sat_ite sat_pure)

variable {sb : Superblock}

section Put

variable {i n : Nat} {u : Blk} {d d' : Dinode} {ind : Prop} (hsb : sb.Wf)
  (h : Open sb u i d n ind) (haddrs : d'.addrs = d.addrs)
include hsb h haddrs

theorem Open.put_place (q : Place) :
    placeBlock d' (u.put sb i d').disk q = placeBlock d u.disk q := by
  have haddr : d'.addr = d.addr := by
    funext k
    rw [Dinode.addr, haddrs, Dinode.addr]
  have hpl : placeBlock d' (u.put sb i d').disk q = placeBlock d (u.put sb i d').disk q := by
    cases q <;> simp only [placeBlock, haddr]
  rw [hpl]
  apply placeBlock_congr
  intro h0
  exact disk_put u i d' hsb h.inum (h.owns.range_self (q := .indirect) h.inum h.typed h0).1

theorem Open.put_block {k : Nat} (hk : k < MAXFILE) :
    blockAt d' (u.put sb i d').disk k = blockAt d u.disk k := by
  rw [← placeBlock_of _ _ hk, ← placeBlock_of _ _ hk]
  exact h.put_place hsb haddrs _

theorem Open.put_owns (ht : d'.type ≠ 0) :
    Owns sb (ino sb (u.put sb i d').disk) (u.put sb i d').disk := by
  rw [← tabOf_ino sb _ i, ino_put_self]
  exact h.owns.keep (others_put u i d' hsb h.inum h.owns) h.inum h.typed ht
    (h.put_place hsb haddrs) (fun c _ => used_put u i d' hsb h.inum c) hsb.data

theorem Open.put_extent : Extent d' (u.put sb i d').disk n ind := by
  refine ⟨fun k hk => ?_, ?_⟩
  · rw [h.put_block hsb haddrs hk]
    exact h.extent.block k hk
  · rw [Dinode.addr, haddrs]
    exact h.extent.indirect

theorem Open.put_byte (hn : n ≤ MAXFILE) {p : Nat} (hp : p < n * BSIZE) :
    fileByte d' (u.put sb i d').disk p = fileByte d u.disk p := by
  have hk := div_lt_of_lt hp
  have hm := Nat.lt_of_lt_of_le hk hn
  have hr := h.range hk hm
  rw [fileByte, h.put_block hsb haddrs hm, disk_put u i d' hsb h.inum hr.1, fileByte]

end Put

variable {off : Nat} {src : List UInt8}

theorem Written.put_size {i : Nat} {s u : Blk} {d : Dinode} (d' : Dinode)
    (hsb : sb.Wf) (hdisk : DiskOk sb s.disk) (hoff : off ≤ (ino sb s.disk i).size.toNat)
    (hend : off + src.length ≤ MAXFILE * BSIZE)
    (hgrow : (ino sb s.disk i).size.toNat ≤ off + src.length)
    (hw : Written sb i (blocks (ino sb s.disk i).size.toNat) off src s (ino sb s.disk i)
      (max (blocks (ino sb s.disk i).size.toNat) (blocks (off + src.length))) u d)
    (ht : (ino sb s.disk i).type ≠ 0)
    (hd' : d' = { d with size := UInt32.ofNat (off + src.length) }) :
    DiskOk sb (u.put sb i d').disk ∧
      node sb (u.put sb i d').disk i = (node sb s.disk i).write off src ∧
      Others sb i s.disk (u.put sb i d').disk ∧ d'.type ≠ 0 ∧ d'.addrs = d.addrs := by
  have hi := hw.isOpen.inum
  have haddrs : d'.addrs = d.addrs := by rw [hd']
  have hsize : d'.size.toNat = off + src.length := by
    rw [hd']
    simp only [UInt32.toNat_ofNat']
    apply Nat.mod_eq_of_lt
    exact Nat.lt_of_le_of_lt hend (by decide)
  have hmax : max (blocks (ino sb s.disk i).size.toNat) (blocks (off + src.length)) =
      blocks d'.size.toNat := by
    rw [hsize]
    apply Nat.max_eq_right
    apply blocks_le
    exact Nat.le_trans hgrow (le_blocks_mul _)
  rw [hmax] at hw
  have hM : blocks d'.size.toNat ≤ MAXFILE := by
    rw [hsize]
    exact blocks_le hend
  have ht' : d'.type ≠ 0 := by
    rw [hd']
    exact hw.isOpen.typed
  have hoth := hw.others.trans (others_put u i d' hsb hi hw.isOpen.owns)
  obtain ⟨hdisk', hnode⟩ := diskOk_write off src hdisk ht
    (hw.isOpen.put_owns hsb haddrs ht') (ino_put_self u i d') hoth
    ⟨hw.isOpen.put_extent hsb haddrs, by rw [hsize]; exact hend⟩ (by rw [hsize]; omega)
    (by rw [hd', hw.fields]) (by
      intro p hp
      have hlt := Nat.lt_of_lt_of_le hp (le_blocks_mul d'.size.toNat)
      have hold := le_blocks_mul (ino sb s.disk i).size.toNat
      rw [hw.isOpen.put_byte hsb haddrs hM hlt, hw.byte p hlt]
      by_cases hin : off ≤ p ∧ p < off + src.length
      · rw [if_pos hin, if_pos hin]
      · rw [if_neg hin, if_neg hin]
        by_cases hps : p < (ino sb s.disk i).size.toNat
        · rw [if_pos hps, if_pos (by omega)]
        · omega)
  exact ⟨hdisk', hnode, hoth, ht', haddrs⟩

theorem Node.write_nil {nd : Node} (h : off ≤ nd.size) : nd.write off [] = nd := by
  ext k
  · rfl
  · rfl
  · rfl
  · rfl
  · exact Nat.max_eq_left h
  · simp only [Node.write, List.length_nil]
    rw [if_neg (by omega)]

theorem Changed.refl {s : State} {e : Entry} {L : Nat → Prop} (hg : Good sb s) :
    Changed sb s e L (s.nodeAt sb e) s :=
  ⟨hg, ⟨s.blk, (s.icache e).din, (withDin_eq s e).symm⟩, rfl, fun _ _ _ => rfl,
    fun _ _ _ => rfl, Frame.refl ..⟩

def Node.setFields (nd : Node) (major minor nlink : Int16) : Node :=
  { nd with major := major, minor := minor, nlink := nlink }

def State.spare (sb : Superblock) (s : State) (e : Entry) : Nat :=
  freeBlocks sb s.blk.disk + need (blocks (s.nodeAt sb e).size)

theorem blocks_max (m n : Nat) : blocks (max m n) = max (blocks m) (blocks n) := by
  rcases Nat.le_total m n with h | h
  · rw [Nat.max_eq_right h, Nat.max_eq_right (blocks_le (h.trans (le_blocks_mul n)))]
  · rw [Nat.max_eq_left h, Nat.max_eq_left (blocks_le (h.trans (le_blocks_mul m)))]

theorem Changed.spare {s t : State} {e : Entry} {L : Nat → Prop}
    (h : Changed sb s e L ((s.nodeAt sb e).write off src) t) (hfree : freeBlocks sb t.blk.disk +
      need (max (blocks (s.nodeAt sb e).size) (blocks (off + src.length))) = s.spare sb e) :
    t.spare sb e = s.spare sb e := by
  rw [← hfree, State.spare, h.nodeAt, ← blocks_max]
  rfl

section Writei

variable {s : State} {e : Entry} (hg : Good sb s) (hr : 0 < (s.icache e).ref)
  (hv : (s.icache e).valid = true)
include hg hr hv

theorem changed_grow (hsb : sb.Wf)
    (hoff : off ≤ (s.icache e).din.size.toNat) (hend : off + src.length ≤ MAXFILE * BSIZE)
    (hgrow : (s.icache e).din.size.toNat < off + src.length) {u : Blk} {d d' : Dinode}
    (hw : Written sb (s.icache e).inum (blocks (s.icache e).din.size.toNat) off src s.blk
      (s.icache e).din (max (blocks (s.icache e).din.size.toNat) (blocks (off + src.length))) u d)
    (hd' : d' = { d with size := UInt32.ofNat (off + src.length) }) :
    Changed sb s e ((s.withDin e (u.put sb (s.icache e).inum d') d').writeFoot sb e
        (blocks (s.icache e).din.size.toNat) off src.length)
      ((s.nodeAt sb e).write off src) (s.withDin e (u.put sb (s.icache e).inum d') d') := by
  have ht := hg.typed e hr hv
  have hw₀ := hw
  rw [hg.sync e hr hv] at hoff hgrow hw₀ ht
  obtain ⟨hdisk, hnode, hoth, ht', haddrs⟩ :=
    hw₀.put_size _ hsb hg.disk hoff hend (Nat.le_of_lt hgrow) ht hd'
  refine Changed.of_disk hg hr hv hdisk (ino_put_self u _ d') ht' hoth hnode
    ((hw.frame.mono ?_).trans ((frame_put u _ d').mono ?_))
  · rintro c ⟨k, h1, h2, h3⟩
    have hk : k < MAXFILE := by
      simp only [bsize_eq] at h2 hend
      omega
    refine Or.inl ⟨k, h1, h2, ?_⟩
    rw [withDin_icache_self]
    change c = blockAt d' (u.put sb _ d').disk k ∨ _ ∧
      newFoot sb d' k (blockAt d' (u.put sb _ d').disk k) c
    rw [hw.isOpen.put_block hsb haddrs hk]
    refine h3.imp_right fun h => ⟨h.1, ?_⟩
    rw [newFoot, Dinode.addr, haddrs]
    exact h.2
  · rintro c rfl
    right
    rw [withDin_icache_self]

theorem writeSize_spec (hsb : sb.Wf) (hop : 1 ≤ s.blk.outstanding)
    (hoff : off ≤ (s.icache e).din.size.toNat) (hend : off + src.length ≤ MAXFILE * BSIZE)
    {u : Blk} {d : Dinode}
    (hw : Written sb (s.icache e).inum (blocks (s.icache e).din.size.toNat) off src s.blk
      (s.icache e).din (max (blocks (s.icache e).din.size.toNat) (blocks (off + src.length))) u d)
    {E : Stop → State → Prop} : ((writeSize sb e (off + src.length)).run (s.withDin e u d)).Sat
      (fun _ t => Changed sb s e
        (t.writeFoot sb e (blocks (s.icache e).din.size.toNat) off src.length)
        ((s.nodeAt sb e).write off src) t ∧ t.spare sb e = s.spare sb e ∧
        t.Logged e off src.length) E := by
  have hnd : (s.nodeAt sb e).size = (s.icache e).din.size.toNat := by rw [hg.nodeAt_eq hr hv]
  have hfree := hw.free
  rw [← hnd] at hfree
  have hopen := hg.isOpen hr hv
  have hsz := hg.size_le hr hv
  have hdsize : d.size = (s.icache e).din.size := by rw [hw.fields]
  have hlem := le_blocks_mul (s.icache e).din.size.toNat
  simp only [writeSize, sat_bind, sat_inode, withDin_icache_self]
  rw [hdsize]
  by_cases hgrow : (s.icache e).din.size.toNat < off + src.length
  · rw [if_pos hgrow, sat_bind, sat_setDin, sat_iupdate]
    · have hc := changed_grow hg hr hv hsb hoff hend hgrow hw rfl
      simp only [withDin_icache_self, withDin_withDin]
      refine ⟨hc, hc.spare ?_, fun p hp hpe => ?_⟩
      · rw [State.spare, ← hfree]
        exact congrArg (· + _) (freeBlocks_congr fun c _ => used_put _ _ _ hsb hopen.inum c)
      · have hlog := hw.logs p hp hpe
        have hk : p / BSIZE < MAXFILE := div_lt_of_lt (by omega)
        rw [← hw.isOpen.put_block hsb (rfl : Dinode.addrs { d with
          size := UInt32.ofNat (off + src.length) } = d.addrs) hk] at hlog
        rw [withDin_icache_self]
        exact (frame_put u _ _).log.sub hlog
    · exact hw.frame.held.trans hg.held
    · exact hop.trans_eq hw.frame.outstanding.symm
  · have hb : max (blocks (s.icache e).din.size.toNat) (blocks (off + src.length)) =
        blocks (s.icache e).din.size.toNat := by
      refine Nat.max_eq_left (blocks_le ?_)
      omega
    rw [hb] at hw
    obtain rfl := hw.same hopen
    have hino : ino sb u.disk (s.icache e).inum = (s.icache e).din := by
      rw [hw.inodes _ hopen.inum, hg.sync e hr hv]
    rw [if_neg hgrow, sat_pure]
    suffices hc : Changed sb s e ((s.withDin e u (s.icache e).din).writeFoot sb e
        (blocks (s.icache e).din.size.toNat) off src.length)
        ((s.nodeAt sb e).write off src) (s.withDin e u (s.icache e).din) by
      refine ⟨hc, hc.spare hfree, fun p hp hpe => ?_⟩
      rw [withDin_icache_self]
      exact hw.logs p hp hpe
    refine changed_write hg hr hv ?_ hino hw.others ⟨hw.isOpen.extent, hsz⟩ ?_ rfl ?_ ?_
    · have hown := hw.isOpen.owns
      rwa [← hino, tabOf_ino] at hown
    · omega
    · intro p hp
      rw [hw.byte p (by omega), if_pos (show p < blocks (s.icache e).din.size.toNat * BSIZE by omega),
        if_pos hp]
    · refine hw.frame.mono fun c hc => Or.inl ?_
      rw [withDin_icache_self]
      exact hc

theorem changed_fields (hsb : sb.Wf) {d : Dinode} (htype : d.type = (s.icache e).din.type)
    (hsize : d.size = (s.icache e).din.size) (haddrs : d.addrs = (s.icache e).din.addrs) :
    Changed sb s e (· = sb.iblock (s.icache e).inum)
      ((s.nodeAt sb e).setFields d.major d.minor d.nlink)
      (s.withDin e (s.blk.put sb (s.icache e).inum d) d) := by
  have hopen := hg.isOpen hr hv
  have ht : d.type ≠ 0 := by
    rw [htype]
    exact hg.typed e hr hv
  have hino : ino sb (s.blk.put sb (s.icache e).inum d).disk (s.icache e).inum = d :=
    ino_put_self ..
  have hoth := others_put s.blk (s.icache e).inum d hsb hopen.inum hopen.owns
  have hM := blocks_le (hg.size_le hr hv)
  have hdisk : DiskOk sb (s.blk.put sb (s.icache e).inum d).disk := by
    refine hg.disk.of_others hoth (hopen.put_owns hsb haddrs ht) fun _ => ?_
    rw [hino]
    refine ⟨?_, ?_⟩
    · rw [hsize]
      exact hopen.put_extent hsb haddrs
    · rw [hsize]
      exact hg.size_le hr hv
  refine ⟨hg.set hr hdisk hg.held hoth rfl fun _ => ⟨hg.inum e hr hv, hino.symm, ht⟩, ⟨_, d, rfl⟩,
    ?_, ?_,
    hoth.inodes, frame_put ..⟩
  · have hnode : (s.withDin e (s.blk.put sb (s.icache e).inum d) d).node sb (s.icache e).inum =
        nodeOf d (s.blk.put sb (s.icache e).inum d).disk := by
      rw [State.node, node]
      exact congrArg (nodeOf · _) hino
    rw [hnode, nodeOf_of_type _ ht, hg.nodeAt_eq hr hv]
    ext k
    · exact htype
    · rfl
    · rfl
    · rfl
    · exact congrArg UInt32.toNat hsize
    · simp only [Node.setFields, hsize]
      by_cases hk : k < (s.icache e).din.size.toNat
      · have hlt := Nat.lt_of_lt_of_le hk (le_blocks_mul (s.icache e).din.size.toNat)
        rw [if_pos hk, if_pos hk, hopen.put_byte hsb haddrs hM hlt]
      · rw [if_neg hk, if_neg hk]
  · intro j hj hne
    exact hg.disk.node_of_others hoth hj hne

theorem writei_spec (hsb : sb.Wf) (hop : 1 ≤ s.blk.outstanding)
    (hdev : (s.nodeAt sb e).type ≠ T_DEV) (off : Nat)
    (hn : src.length < 2 ^ 32) :
    ((writei sb e src off).run s).Sat
      (fun r t =>
        if (s.nodeAt sb e).size < off ∨ MAXFILE * BSIZE < off + src.length then
          r = none ∧ t = s
        else r = some src.length ∧ Changed sb s e
          (t.writeFoot sb e (blocks (s.nodeAt sb e).size) off src.length)
          ((s.nodeAt sb e).write off src) t ∧ t.spare sb e = s.spare sb e ∧
          t.Logged e off src.length)
      (fun x _ => x = .panic .outOfBlocks ∧
        ¬ ((s.nodeAt sb e).size < off ∨ MAXFILE * BSIZE < off + src.length) ∧
        freeBlocks sb s.blk.disk + need (blocks (s.nodeAt sb e).size) <
          need (max (blocks (s.nodeAt sb e).size) (blocks (off + src.length)))) := by
  have hnd := hg.nodeAt_eq hr hv
  rw [hnd] at hdev
  have hsize : (s.nodeAt sb e).size = (s.icache e).din.size.toNat := by rw [hnd]
  rw [hsize]
  simp only [writei, sat_bind, sat_inode]
  rw [if_neg hdev]
  -- sizes are small, so the sum wraps exactly when it is too large
  have hsz := hg.size_le hr hv
  have hM : MAXFILE * BSIZE < 2 ^ 32 := by decide
  apply sat_ite
  · intro hbig
    rw [sat_pure, if_pos (by omega)]
    exact ⟨rfl, rfl⟩
  intro hoff
  apply sat_ite
  · intro hbig
    rw [sat_pure, if_pos (by omega)]
    exact ⟨rfl, rfl⟩
  intro hend
  apply sat_ite
  · intro h0
    obtain rfl := List.eq_nil_of_length_eq_zero h0
    rw [sat_pure, if_neg (by omega), Node.write_nil (by omega)]
    exact ⟨rfl, Changed.refl hg, rfl, fun p hp hpe => absurd hp (Nat.not_le_of_lt hpe)⟩
  intro h0
  rw [sat_bind]
  refine (writeFrom_spec hsb (hg.isOpen hr hv) hg.held hop (blocks_le hsz) _ off src
    (Nat.le_refl _) ?_ (by omega)).mono ?_ fun x _ ⟨hx, hfull⟩ => ⟨hx, by omega, hfull⟩
  · have := le_blocks_mul (s.icache e).din.size.toNat
    omega
  rintro _ _ ⟨u, d', rfl, hw⟩
  rw [sat_bind]
  refine (writeSize_spec hg hr hv hsb hop (by omega) (by omega) hw).imp ?_
  intro _ t ht
  rw [sat_pure, if_neg (by omega)]
  exact ⟨rfl, ht⟩

end Writei

end BossOs.Fs
