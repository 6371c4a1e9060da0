import BossOs.Fs.Handles

/-!
# Dropping references and allocating inodes

`iput` drops a reference; the last one to an inode without links frees it, on disk too.
`ialloc` takes an inode that is free on disk.
-/

namespace BossOs.Fs

open Lib

variable {sb : Superblock}

variable {i : Nat} {d : Dinode}

theorem Owns.blank {d' : Dinode} {D D' : Nat → Block}
    (h : Owns sb (tabOf sb D i d) D) (ho : Others sb i D D')
    (h0 : d.type ≠ 0 → ∀ q, placeBlock d D q = 0) (h0' : d'.type ≠ 0 → ∀ q, placeBlock d' D' q = 0)
    (hused : ∀ c < sb.size, used sb D' c = used sb D c) (hdata : sb.datastart ≤ sb.size) :
    Owns sb (tabOf sb D' i d') D' := by
  have hzero : ∀ {d : Dinode} {D : Nat → Block}, (d.type ≠ 0 → ∀ q, placeBlock d D q = 0) →
      ∀ q, refBlock sb (tabOf sb D i d) D (i, q) = 0 := by
    intro d D h q
    simp only [refBlock, tabOf_self]
    split
    · rename_i hc
      exact h hc.2 q
    · rfl
  refine ⟨h.owned.congr ?_ fun c _ hc => hused c hc, fun c hc => ?_⟩
  · rintro ⟨j, q⟩
    by_cases hji : j = i
    · rw [hji, hzero h0, hzero h0']
    · exact refBlock_others ho hji q
  · rw [hused c (by omega), h.reserved c hc]

theorem placeBlock_zero (D : Nat → Block) (h : d.addrs = fun _ => 0) (q : Place) :
    placeBlock d D q = 0 := by
  have haddr : ∀ k, d.addr k = 0 := by
    intro k
    rw [Dinode.addr, h]
    rfl
  cases q with
  | direct k => exact haddr k
  | indirect => exact haddr NDIRECT
  | entry k => exact if_pos (haddr NDIRECT)

theorem shaped_blank (D : Nat → Block) (h : d.addrs = fun _ => 0) (hsize : d.size = 0) :
    Shaped d D := by
  have hb : blocks d.size.toNat = 0 := by
    rw [hsize]
    rfl
  refine ⟨⟨fun k hk => ?_, ?_⟩, by rw [hsize]; exact Nat.zero_le _⟩
  · rw [← placeBlock_of _ _ hk, placeBlock_zero _ h, hb]
    exact iff_of_false (fun h => h rfl) (Nat.not_lt_zero k)
  · rw [hb]
    exact iff_of_false (fun hne => hne (placeBlock_zero D h .indirect)) (Nat.not_lt_zero _)

theorem diskOk_put (hsb : sb.Wf) (hi : i < sb.ninodes) {u : Blk}
    (h : DiskOk sb u.disk) (h0 : (ino sb u.disk i).type ≠ 0 →
      ∀ q, placeBlock (ino sb u.disk i) u.disk q = 0)
    (hd : d.addrs = fun _ => 0) (hsize : d.size = 0) : DiskOk sb (u.put sb i d).disk := by
  have hown := h.owns
  rw [← tabOf_ino sb _ i] at hown
  have hoth := others_put u i d hsb hi hown
  refine h.of_others hoth ?_ ?_
  · rw [← tabOf_ino sb _ i, ino_put_self]
    exact hown.blank hoth h0 (fun _ => placeBlock_zero _ hd)
      (fun c _ => used_put u i d hsb hi c) hsb.data
  · intro _
    rw [ino_put_self]
    exact shaped_blank _ hd hsize

variable {E : Stop → State → Prop}

section Iput

variable {R : Multiset Entry} {L : List Entry} {s : State} {e : Entry}

/-- What `iput` does: the reference is gone, and with the last one an inode without links. -/
structure Put (sb : Superblock) (R : Multiset Entry) (L : List Entry) (e : Entry) (s t : State) :
    Prop where
  cached : Cached sb R L t
  quiet : Quiet sb R s t
  others : ∀ j, j < sb.ninodes → j ≠ (s.icache e).inum → t.node sb j = s.node sb j
  freed : (s.icache e).valid = true → e ∉ R → (s.nodeAt sb e).nlink = 0 →
    t.node sb (s.icache e).inum = Node.free

theorem Cached.free (hsb : sb.Wf) (h : Cached sb (e ::ₘ R) L s) (hl : e ∉ L)
    (hv : (s.icache e).valid = true) (h0 : (s.icache e).din.nlink = 0) (he : e ∉ R) {u : Blk}
    (htr : Truncated sb (s.icache e).inum s.blk (s.icache e).din u)
    (hd : d = { (s.icache e).din.truncated with type := 0 }) {ip : Inode}
    (hip : ip = { s.icache e with
      ref := (s.icache e).ref - 1, locked := false, valid := false, din := d }) :
    Put sb R L e s (s.set e (u.put sb (s.icache e).inum d) ip) := by
  have hmem : e ∈ e ::ₘ R := Multiset.mem_cons_self e R
  have hr := h.ref_pos.mpr hmem
  have hi := h.inum_lt hmem
  have hopen := h.good.isOpen hr hv
  have haddrs : d.addrs = fun _ => 0 := by
    rw [hd]
    rfl
  have hown := htr.owns
  rw [← tabOf_ino sb _ (s.icache e).inum] at hown
  have hoth' := others_put u (s.icache e).inum d hsb hi hown
  have hoth := htr.others.trans hoth'
  have hdiskU : DiskOk sb u.disk := by
    refine h.good.disk.of_others htr.others htr.owns fun _ => ?_
    rw [htr.inode]
    exact shaped_blank _ rfl rfl
  have hdisk : DiskOk sb (u.put sb (s.icache e).inum d).disk := by
    refine diskOk_put hsb hi hdiskU (fun _ q => ?_) haddrs (by rw [hd]; rfl)
    rw [htr.inode]
    exact placeBlock_zero _ rfl q
  have hself : node sb (u.put sb (s.icache e).inum d).disk (s.icache e).inum = Node.free := by
    rw [node, ino_put_self]
    apply if_pos
    rw [hd]
  have hothers : ∀ j < sb.ninodes, j ≠ (s.icache e).inum →
      node sb (u.put sb (s.icache e).inum d).disk j = s.node sb j :=
    fun j hj hne => h.good.disk.node_of_others hoth hj hne
  have hloose : Loose sb R s (s.icache e).inum := by
    have hnode := h.good.nodeAt_eq hr hv
    rw [State.nodeAt] at hnode
    refine ⟨hi, ?_, ?_, ?_⟩
    · rw [hnode]
      exact h.good.typed e hr hv
    · rw [hnode]
      exact h0
    · intro e' he' heq
      have heq' := h.good.unique e' e (h.ref_pos.mpr (Multiset.mem_cons_of_mem he')) hr heq
      exact he (heq' ▸ he')
  refine ⟨h.set (h.good.set hr hdisk (htr.frame.held.trans h.good.held) hoth ?_ ?_) ?_ ?_ ?_ ?_ ?_
    (fun _ _ => Iff.rfl) (fun hl' => absurd hl' hl), ⟨?_, ?_, ?_, ?_, ?_⟩, hothers, fun _ _ _ => hself⟩
  · rw [hip]
  · rw [hip]
    exact fun hc => absurd hc Bool.false_ne_true
  · rw [hip]
    exact fun _ => hi
  · intro j hj
    by_cases hje : j = (s.icache e).inum
    · rw [hje, hself]
      exact dirOk_free
    · rw [hothers j hj hje]
      exact h.dirs j hj
  · have href := h.ref e
    rw [Multiset.count_cons_self] at href
    rw [hip]
    simp only
    omega
  · intro e' hne
    exact (Multiset.count_cons_of_ne hne R).symm
  · rw [hip]
    exact iff_of_false Bool.false_ne_true hl
  · intro j hj
    by_cases hje : j = (s.icache e).inum
    · subst hje
      exact Or.inr ⟨hloose, hself⟩
    · exact Or.inl (hothers j hj hje)
  · intro e' he'
    rw [set_icache_of_ne]
    rintro rfl
    exact he he'
  · intro e' he'
    rw [set_icache_of_ne]
    · exact id
    · rintro rfl
      exact he he'
  · intro j hj hl
    refine hoth.inodes j hj ?_
    rintro rfl
    exact hl hloose
  · refine (htr.frame.mono ?_).trans ((frame_put u _ d).mono ?_)
    · rintro c (⟨q, hq, rfl⟩ | rfl)
      · exact ⟨_, hloose, Or.inr ⟨_, (hopen.owns.range_self hopen.inum hopen.typed hq).2, rfl⟩⟩
      · exact ⟨_, hloose, Or.inl rfl⟩
    · rintro c rfl
      exact ⟨_, hloose, Or.inl rfl⟩

theorem Cached.drop (h : Cached sb (e ::ₘ R) L s) (hl : e ∉ L)
    (hkeep : ¬ ((s.icache e).valid = true ∧ (s.icache e).din.nlink = 0 ∧ e ∉ R)) {ip : Inode}
    (hip : ip = { s.icache e with ref := (s.icache e).ref - 1, locked := false }) :
    Put sb R L e s (s.set e s.blk ip) := by
  have hmem : e ∈ e ::ₘ R := Multiset.mem_cons_self e R
  have hr := h.ref_pos.mpr hmem
  refine ⟨h.set (h.good.set hr h.good.disk h.good.held (Others.refl ..) ?_ ?_) ?_ h.dirs ?_ ?_ ?_
    (fun _ _ => Iff.rfl) (fun hl' => absurd hl' hl), Quiet.set fun _ => ?_, fun _ _ _ => rfl, ?_⟩
  · rw [hip]
  · rw [hip]
    exact h.good.agree hr
  · rw [hip]
    exact fun _ => h.inum e hmem
  · have href := h.ref e
    rw [Multiset.count_cons_self] at href
    rw [hip]
    simp only
    omega
  · intro e' hne
    exact (Multiset.count_cons_of_ne hne R).symm
  · rw [hip]
    exact iff_of_false Bool.false_ne_true hl
  · rw [hip]
    exact ⟨rfl, id⟩
  · intro hv he h0
    refine absurd ⟨hv, ?_, he⟩ hkeep
    rwa [h.good.nodeAt_eq hr hv] at h0

theorem iput_spec (hsb : sb.Wf) (h : Cached sb (e ::ₘ R) L s) (hop : 1 ≤ s.blk.outstanding) :
    ((iput sb e).run s).Sat (fun _ t => Put sb R L e s t ∧ e ∉ L)
      (fun x _ => x = .deadlock ∧ e ∈ L) := by
  have hmem : e ∈ e ::ₘ R := Multiset.mem_cons_self e R
  have hr := h.ref_pos.mpr hmem
  have hlast : (s.icache e).ref = 1 ↔ e ∉ R := by
    rw [h.ref e, Multiset.count_cons_self, ← Multiset.count_eq_zero]
    omega
  simp only [iput, Prog.sat_bind]
  rw [sat_acquiresleep]
  by_cases hl : e ∈ L
  · rw [if_pos ((h.locked e).mpr hl)]
    exact ⟨rfl, hl⟩
  rw [if_neg fun hc => hl ((h.locked e).mp hc)]
  simp only [iputFree, Prog.sat_bind, sat_inode, set_icache_self]
  apply Prog.sat_ite
  · rintro ⟨hv, h0, h1⟩
    have hopen := h.good.isOpen hr hv
    simp only [Prog.sat_bind]
    have htr := itrunc_spec (s := s.set e s.blk { s.icache e with locked := true }) (e := e)
      (E := fun x _ => x = .deadlock ∧ e ∈ L) hsb ?_ ?_ ?_ h.good.held hop
    rotate_left
    · rw [set_icache_self]
      exact hopen.inum
    · rw [set_icache_self]
      exact hopen.typed
    · rw [set_icache_self]
      exact hopen.owns
    refine htr.imp ?_
    rintro _ _ ⟨u, rfl, htr⟩
    rw [sat_setDin, sat_iupdate, sat_setInode, releasesleep, sat_setInode, sat_setInode]
    · refine ⟨?_, hl⟩
      simp only [set_icache_self] at htr
      have hput := h.free hsb hl hv h0 (hlast.mp h1) htr rfl rfl
      simpa only [State.withDin, State.set, State.update, Function.update_self,
        Function.update_idem] using hput
    · exact htr.frame.held.trans h.good.held
    · exact hop.trans_eq htr.frame.outstanding.symm
  · intro hkeep
    rw [Prog.sat_pure, releasesleep, sat_setInode, sat_setInode]
    refine ⟨?_, hl⟩
    rw [hlast] at hkeep
    have hput := h.drop hl hkeep rfl
    simpa only [State.set, State.update, Function.update_self, Function.update_idem] using hput

theorem iunlockput_spec (hsb : sb.Wf) (h : Cached sb (e ::ₘ R) (e :: L) s) (hl : e ∉ L)
    (hop : 1 ≤ s.blk.outstanding) :
    ((iunlockput sb e).run s).Sat (fun _ t => Put sb R L e s t) E := by
  rw [iunlockput, Prog.sat_bind]
  refine (iunlock_spec h hl).imp ?_
  rintro _ t ⟨hc, hq, hb, hip⟩
  have hnodes : ∀ j, t.node sb j = s.node sb j := fun j => by rw [State.node, hb, State.node]
  refine (iput_spec hsb hc (by rw [hb]; exact hop)).mono ?_ fun x _ hx => absurd hx.2 hl
  rintro _ u ⟨hp, -⟩
  refine ⟨hp.cached, (hq.mono fun _ => Multiset.mem_cons_of_mem).trans hp.quiet, ?_, ?_⟩
  · intro j hj hne
    rw [← hnodes]
    exact hp.others j hj (by rw [hip]; exact hne)
  · intro hv he h0
    have hf := hp.freed (by rw [hip]; exact hv) he (by rw [State.nodeAt, hip, hnodes]; exact h0)
    rw [hip] at hf
    exact hf

end Iput

def Node.fresh (type : Int16) : Node := { Node.free with type := type }

/-- Entry `e` is for an inode that was free and is now in use. -/
structure Allocated (sb : Superblock) (R : Multiset Entry) (L : List Entry) (type : Int16)
    (s : State) (e : Entry) (t : State) : Prop where
  cached : Cached sb (e ::ₘ R) L t
  pos : 0 < (t.icache e).inum
  old : (s.node sb (t.icache e).inum).type = 0
  node : t.node sb (t.icache e).inum = Node.fresh type
  others : ∀ j, j < sb.ninodes → j ≠ (t.icache e).inum → t.node sb j = s.node sb j
  inum : ∀ e' ∈ R, (t.icache e').inum = (s.icache e').inum
  valid : ∀ e' ∈ R, (s.icache e').valid = true → (t.icache e').valid = true
  inodes : ∀ j, j < sb.ninodes → j ≠ (t.icache e).inum → ino sb t.blk.disk j = ino sb s.blk.disk j
  invalid : e ∉ R → (t.icache e).valid = false
  frame : Frame (· = sb.iblock (t.icache e).inum) s.blk t.blk

section Ialloc

variable {R : Multiset Entry} {L : List Entry} {s : State} {type : Int16}

theorem node_fresh (ht : type ≠ 0) (u : Blk) :
    node sb (u.put sb i (Dinode.fresh type)).disk i = Node.fresh type := by
  rw [node, ino_put_self, nodeOf_of_type _ ht]
  rfl

theorem dirOk_fresh (type : Int16) : DirOk sb (Node.fresh type) := by
  intro _
  refine ⟨Nat.dvd_zero _, ?_⟩
  intro k hk
  rw [Node.slots, Node.fresh, Node.free, Nat.zero_div] at hk
  exact absurd hk (Nat.not_lt_zero k)

theorem Cached.fresh (hsb : sb.Wf) (h : Cached sb R L s) (hi : i < sb.ninodes)
    (h0 : (ino sb s.blk.disk i).type = 0) (ht : type ≠ 0) :
    Cached sb R L { s with blk := s.blk.put sb i (Dinode.fresh type) } := by
  have hdisk := diskOk_put hsb hi (d := Dinode.fresh type) h.good.disk (fun hne => absurd h0 hne)
    rfl rfl
  have hown := h.good.disk.owns
  rw [← tabOf_ino sb _ i] at hown
  have hoth := others_put s.blk i (Dinode.fresh type) hsb hi hown
  refine ⟨⟨hdisk, h.good.held, h.good.unique, h.good.inum, ?_, h.good.typed⟩, ?_, h.inum, h.ref,
    h.locked,
    h.valid⟩
  · intro e hr hv
    have hsync := h.good.sync e hr hv
    have hne : (s.icache e).inum ≠ i := by
      intro heq
      apply h.good.typed e hr hv
      rw [hsync, heq, h0]
    rw [ino_put_of_ne _ _ _ hne]
    exact hsync
  · intro j hj
    by_cases hji : j = i
    · subst hji
      rw [State.node, node_fresh ht]
      exact dirOk_fresh type
    · rw [State.node, h.good.disk.node_of_others hoth hj hji]
      exact h.dirs j hj

structure FirstFree (sb : Superblock) (D : Nat → Block) (k : Nat) : Prop where
  pos : 0 < k
  lt : k < sb.ninodes
  free : (ino sb D k).type = 0
  below : ∀ j, 0 < j → j < k → (ino sb D j).type ≠ 0

theorem sat_iallocFrom (hh : s.blk.held = []) (hop : 1 ≤ s.blk.outstanding)
    {Q : Entry → State → Prop} {n : Nat} (hi : 0 < i)
    (hn : n = sb.ninodes - i) (hbelow : ∀ j, 0 < j → j < i → (ino sb s.blk.disk j).type ≠ 0)
    (hfound : ∀ k, FirstFree sb s.blk.disk k →
      ((iget k).run { s with blk := s.blk.put sb k (Dinode.fresh type) }).Sat Q E)
    (hnone : (∀ j, 0 < j → j < sb.ninodes → (ino sb s.blk.disk j).type ≠ 0) →
      E (.panic .noInodes) s) :
    ((iallocFrom sb type n i).run s).Sat Q E := by
  induction n generalizing i with
  | zero =>
    rw [iallocFrom, panic, Prog.sat_fail]
    exact hnone fun j hpos hj => hbelow j hpos (by omega)
  | succ n ih =>
    rw [iallocFrom, Prog.sat_bind, sat_lift, sat_bread (hh ▸ List.not_mem_nil)]
    apply Prog.sat_ite
    · intro h0
      simp only [Prog.sat_bind, sat_lift]
      exact (sat_store (s := s.blk) hop).mpr (hfound i ⟨hi, by omega, h0, hbelow⟩)
    · intro h0
      rw [Prog.sat_bind, sat_lift, sat_brelse rfl]
      refine ih (Nat.succ_pos i) (by omega) ?_
      intro j hpos hj
      rcases Nat.lt_succ_iff_lt_or_eq.mp hj with hlt | rfl
      · exact hbelow j hpos hlt
      · exact h0

theorem sat_ialloc (hh : s.blk.held = []) (hop : 1 ≤ s.blk.outstanding) {Q : Entry → State → Prop}
    (hfound : ∀ k, FirstFree sb s.blk.disk k →
      ((iget k).run { s with blk := s.blk.put sb k (Dinode.fresh type) }).Sat Q E)
    (hnone : (∀ j, 0 < j → j < sb.ninodes → (ino sb s.blk.disk j).type ≠ 0) →
      E (.panic .noInodes) s) :
    ((ialloc sb type).run s).Sat Q E :=
  sat_iallocFrom hh hop Nat.one_pos rfl (fun _ _ _ => by omega) hfound hnone

theorem ialloc_spec (hsb : sb.Wf) (h : Cached sb R L s) (hop : 1 ≤ s.blk.outstanding)
    (ht : type ≠ 0) : ((ialloc sb type).run s).Sat (Allocated sb R L type s)
      (fun x _ => x = .panic .noInodes ∨ x = .panic .noEntries) := by
  refine sat_ialloc h.good.held hop ?_ fun _ => Or.inl rfl
  intro i hi
  refine (iget_spec (h.fresh hsb hi.lt hi.free ht) hi.lt).mono ?_ fun x _ hx => Or.inr hx.1
  rintro e t ⟨hct, rfl, hq, hb, hinv⟩
  have hown := h.good.disk.owns
  rw [← tabOf_ino sb _ (t.icache e).inum] at hown
  have hoth := others_put s.blk (t.icache e).inum (Dinode.fresh type) hsb hi.lt hown
  refine ⟨hct, hi.pos, ?_, ?_, ?_, hq.inum, hq.valid, ?_, hinv, ?_⟩
  · exact (nodeOf_type ..).trans hi.free
  · rw [State.node, hb]
    exact node_fresh ht s.blk
  · intro j hj hne
    rw [State.node, hb]
    exact h.good.disk.node_of_others hoth hj hne
  · rw [hb]
    exact hoth.inodes
  · rw [hb]
    exact frame_put ..

theorem Allocated.new {e : Entry} {t : State} (h : Allocated sb R L type s e t)
    (halive : ∀ e' ∈ R, (s.nodeAt sb e').type ≠ 0) : e ∉ R := by
  intro he
  apply halive e he
  rw [State.nodeAt, ← h.inum e he]
  exact h.old

end Ialloc

end BossOs.Fs
