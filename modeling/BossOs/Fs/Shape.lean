import BossOs.Fs.Runs

/-!
# The shape of inodes

Operations on inodes inside a transaction, in any order that keeps to the locks. An inode always
has exactly the blocks that its size needs, so that `readi` finds them all and allocates none.
-/

namespace BossOs.Fs

open Lib
open Prog (sat_bind sat_pure)

variable {sb : Superblock}

inductive Op
  | ialloc (type : Int16)
  | iget (inum : Nat)
  | ilock (e : Entry)
  | iunlock (e : Entry)
  | iput (e : Entry)
  | readi (e : Entry) (off n : Nat)
  | writei (e : Entry) (src : List UInt8) (off : Nat)
  | dirlink (dp : Entry) (name : Str) (inum : Nat)

def Op.prog (sb : Superblock) : Op → FsM Unit
  | .ialloc type => do
    let _ ← Fs.ialloc sb type
  | .iget inum => do
    let _ ← Fs.iget inum
  | .ilock e => Fs.ilock sb e
  | .iunlock e => Fs.iunlock e
  | .iput e => Fs.iput sb e
  | .readi e off n => do
    let _ ← Fs.readi sb e off n
  | .writei e src off => do
    let _ ← Fs.writei sb e src off
  | .dirlink dp name inum => do
    let _ ← Fs.dirlink sb dp name inum

def opStep (sb : Superblock) (s : State) (op : Op) : Option State :=
  match (op.prog sb).run s with
  | .ok _ t => some t
  | .stop _ _ => none

def Node.Clears (nd : Node) (src : List UInt8) (off : Nat) : Prop :=
  src = Dirent.encode ⟨0, List.replicate DIRSIZ 0⟩ ∧ ∃ j ≤ nd.slots, off = j * Dirent.bytes

instance (nd : Node) (src : List UInt8) (off : Nat) : Decidable (nd.Clears src off) :=
  inferInstanceAs (Decidable (_ ∧ _))

/-- The caller has the reference or the lock that the operation needs. Apart from `dirlink`, only
`sys_unlink` writes to a directory. -/
def Op.Ok (sb : Superblock) (s : State) : Op → Prop
  | .ialloc type => type ≠ 0
  | .iget inum => inum < sb.ninodes
  | .ilock e | .iput e => 0 < (s.icache e).ref
  | .iunlock e | .readi e _ _ => (s.icache e).locked = true
  | .writei e src off => (s.icache e).locked = true ∧ src.length < 2 ^ 32 ∧
    ((s.nodeAt sb e).type = T_DIR → (s.nodeAt sb e).Clears src off)
  | .dirlink dp _ inum =>
    (s.icache dp).locked = true ∧ (s.nodeAt sb dp).type = T_DIR ∧ inum < sb.ninodes

instance Op.decidableOk (s : State) : ∀ op : Op, Decidable (op.Ok sb s)
  | .ialloc _ => inferInstanceAs (Decidable (_ ≠ _))
  | .iget _ => inferInstanceAs (Decidable (_ < _))
  | .ilock _ | .iput _ => inferInstanceAs (Decidable (_ < _))
  | .iunlock _ | .readi _ _ _ => inferInstanceAs (Decidable (_ = _))
  | .writei _ _ _ | .dirlink _ _ _ => inferInstanceAs (Decidable (_ ∧ _ ∧ _))

/-- The inode cache agrees with some references and locks, and a transaction is open. -/
def Working (sb : Superblock) (s : State) : Prop :=
  (∃ R L, Cached sb R L s) ∧ 1 ≤ s.blk.outstanding

section Step

variable {R : Multiset Entry} {L : List Entry} {s t : State} {e : Entry}

theorem Cached.working (h : Cached sb R L t) {F : Nat → Prop} (hf : Frame F s.blk t.blk)
    (hop : 1 ≤ s.blk.outstanding) : Working sb t := ⟨⟨R, L, h⟩, hf.outstanding ▸ hop⟩

theorem Cached.front (h : Cached sb R L s) (he : (s.icache e).locked = true) :
    ∃ L', e ∉ L' ∧ Cached sb R (e :: L') s := by
  refine ⟨L.filter (· ≠ e), by simp, h.perm fun e' => ?_⟩
  by_cases heq : e' = e
  · subst heq
    simp [(h.locked e').mp he]
  · simp [heq]

theorem dirOk_op (hsb : sb.Wf) (h : Cached sb R L s) (he : (s.icache e).locked = true)
    {src : List UInt8} {off : Nat}
    (hdir : (s.nodeAt sb e).type = T_DIR → (s.nodeAt sb e).Clears src off) :
    DirOk sb ((s.nodeAt sb e).write off src) := by
  by_cases ht : (s.nodeAt sb e).type = T_DIR
  · obtain ⟨rfl, j, hj, rfl⟩ := hdir ht
    have hroot := hsb.root
    exact dirOk_write _ (h.dirs _ (h.inum e (h.valid e ((h.locked e).mp he)).1)) hj
      List.length_replicate (by simp only; omega) hsb
  · exact dirOk_of_type ht

theorem writei_working (hsb : sb.Wf) (h : Working sb s) (he : (s.icache e).locked = true)
    {src : List UInt8} {off : Nat} (hn : src.length < 2 ^ 32)
    (hdir : (s.nodeAt sb e).type = T_DIR → (s.nodeAt sb e).Clears src off) :
    ((writei sb e src off).run s).Sat
      (fun _ t => Working sb t ∧ ∃ R L, Cached sb R (e :: L) t) (fun _ _ => True) := by
  obtain ⟨⟨R, L, hc⟩, hop⟩ := h
  obtain ⟨L', hl, hc'⟩ := hc.front he
  refine (writei_cached hsb hc' hl hop hn (dirOk_op hsb hc he hdir)).mono ?_ fun _ _ _ => trivial
  rintro r t (⟨hsame, -⟩ | ⟨-, -, -, -, hw⟩)
  · exact ⟨hsame.cached.working hsame.quiet.frame hop, R, L', hsame.cached⟩
  · exact ⟨hw.cached.working hw.changed.frame hop, R, L', hw.cached⟩

theorem op_working (hsb : sb.Wf) (h : Working sb s) {op : Op} (hok : op.Ok sb s) :
    ((op.prog sb).run s).Sat (fun _ t => Working sb t) (fun _ _ => True) := by
  obtain ⟨⟨R, L, hc⟩, hop⟩ := h
  cases op with
  | ialloc type =>
    simp only [Op.prog, sat_bind, sat_pure]
    refine (ialloc_spec hsb hc hop hok).mono ?_ fun _ _ _ => trivial
    intro e t ht
    exact ht.cached.working ht.frame hop
  | iget inum =>
    simp only [Op.prog, sat_bind, sat_pure]
    refine (iget_spec hc hok).mono ?_ fun _ _ _ => trivial
    rintro e t ⟨ht, -, hq, -, -⟩
    exact ht.working hq.frame hop
  | ilock e =>
    refine (ilock_spec hc (hc.ref_pos.mp hok)).mono ?_ fun _ _ _ => trivial
    rintro _ t ⟨ht, hq, -, -⟩
    exact ht.working hq.frame hop
  | iunlock e =>
    obtain ⟨L', hl, hc'⟩ := hc.front hok
    refine (iunlock_spec hc' hl).imp ?_
    rintro _ t ⟨ht, hq, -, -⟩
    exact ht.working hq.frame hop
  | iput e =>
    obtain ⟨R', rfl⟩ := Multiset.exists_cons_of_mem (hc.ref_pos.mp hok)
    refine (iput_spec hsb hc hop).mono ?_ fun _ _ _ => trivial
    rintro _ t ⟨ht, -⟩
    exact ht.cached.working ht.quiet.frame hop
  | readi e off n =>
    obtain ⟨L', hl, hc'⟩ := hc.front hok
    simp only [Op.prog, sat_bind, sat_pure]
    refine (readi_spec hc' hl off n).imp ?_
    rintro _ t ⟨ht, -⟩
    exact ht.cached.working ht.quiet.frame hop
  | writei e src off =>
    obtain ⟨hl, hn, hdir⟩ := hok
    simp only [Op.prog, sat_bind, sat_pure]
    exact (writei_working hsb ⟨⟨R, L, hc⟩, hop⟩ hl hn hdir).imp fun _ _ ht => ht.1
  | dirlink dp name inum =>
    obtain ⟨he, ht, hi⟩ := hok
    obtain ⟨L', hl, hc'⟩ := hc.front he
    simp only [Op.prog, sat_bind, sat_pure]
    refine (dirlink_spec hsb hc' hl ht hop hi).mono ?_ fun _ _ _ => trivial
    rintro r t (⟨-, -, ht, hq⟩ | ⟨-, -, hw⟩)
    · exact ht.working hq.frame hop
    · exact hw.cached.working hw.changed.frame hop

theorem run_working (hsb : sb.Wf) (h : Working sb s) {ops : List Op}
    (hrun : Run (Op.Ok sb) (opStep sb) s ops t) : Working sb t := by
  refine hrun.invariant (fun s op t hs hok hstep => ?_) h
  have hspec := op_working hsb hs hok
  rw [opStep] at hstep
  cases hr : (op.prog sb).run s with
  | ok a u =>
    rw [hr] at hstep hspec
    cases hstep
    rwa [Outcome.sat_ok] at hspec
  | stop x u =>
    rw [hr] at hstep
    cases hstep

end Step

/-- After any operations, the blocks of an inode are those its size needs; `writei` stores the
inode that it leaves in memory, and `readi` changes nothing, inside a transaction and after it. -/
theorem inodes_shaped (hsb : sb.Wf) {s t : State} (h : Working sb s) {ops : List Op}
    (hrun : Run (Op.Ok sb) (opStep sb) s ops t) :
    (∀ i, i < sb.ninodes → ∀ d, d = ino sb t.blk.disk i → d.type ≠ 0 →
      (∀ k, k < MAXFILE → (blockAt d t.blk.disk k ≠ 0 ↔ k * BSIZE < d.size.toNat)) ∧
      (d.addr NDIRECT ≠ 0 ↔ NDIRECT * BSIZE < d.size.toNat)) ∧
    (∀ e src off, Op.Ok sb t (.writei e src off) → ∀ r u, (writei sb e src off).run t = .ok r u →
        (u.icache e).din = ino sb u.blk.disk (u.icache e).inum) ∧
    ∀ e off n, Op.Ok sb t (.readi e off n) → ∀ v, v = t ∨ v = t.ended →
      ∃ r u, (readi sb e off n).run v = .ok r u ∧ u.blk = v.blk ∧
        ((t.nodeAt sb e).type ≠ T_DEV → u = v) := by
  have ht := run_working hsb h hrun
  refine ⟨?_, ?_, ?_⟩
  · obtain ⟨⟨R, L, hc⟩, -⟩ := ht
    rintro i hi d rfl htype
    obtain ⟨hblock, hind⟩ := (hc.good.disk.shaped i hi htype).extent
    rw [lt_blocks_iff] at hind
    refine ⟨fun k hk => ?_, hind⟩
    rw [hblock k hk, lt_blocks_iff]
  · rintro e src off ⟨hl, hn, hdir⟩ r u hr
    have hspec := writei_working hsb ht hl hn hdir
    rw [hr, Outcome.sat_ok] at hspec
    obtain ⟨-, R, L, hc⟩ := hspec
    have he : e ∈ e :: L := List.mem_cons_self
    exact hc.good.sync e (hc.ref_of_locked he) (hc.valid e he).2
  · intro e off n hl v hv
    obtain ⟨⟨R, L, hc⟩, -⟩ := ht
    obtain ⟨L', hl', hc'⟩ := hc.front hl
    have hcv : Cached sb R (e :: L') v ∧ v.nodeAt sb e = t.nodeAt sb e := by
      rcases hv with rfl | rfl
      · exact ⟨hc', rfl⟩
      · exact ⟨hc'.congr rfl rfl rfl, rfl⟩
    obtain ⟨r, u, hr, hsame, hu⟩ :=
      (readi_spec (E := fun _ _ => False) hcv.1 hl' off n).exists_ok
    refine ⟨r, u, hr, hsame.blk, fun hdev => (hu ?_).1⟩
    rw [hcv.2]
    exact hdev

theorem inodes_shaped_new : ∃ t, Run (Op.Ok tiny) (opStep tiny) tinyBoot.fs.begun
    [.ialloc T_FILE, .ilock ⟨1, by decide⟩, .writei ⟨1, by decide⟩ [97] 0] t ∧
    blockAt (ino tiny t.blk.disk 2) t.blk.disk 0 ≠ 0 := by
  have hexec : (Lib.exec (Op.Ok tiny) (opStep tiny) tinyBoot.fs.begun
      [.ialloc T_FILE, .ilock ⟨1, by decide⟩, .writei ⟨1, by decide⟩ [97] 0]).map (fun t =>
        ((ino tiny t.blk.disk 2).type, (ino tiny t.blk.disk 2).size)) = some (T_FILE, 1) := by
    decide +kernel
  obtain ⟨t, hrun, ht⟩ := Run.of_exec_map hexec
  obtain ⟨htype, hsize⟩ := Prod.mk.inj ht
  obtain ⟨hshape, -, -⟩ := inodes_shaped tiny_formats.wf
    ⟨⟨_, _, tinyBoot_ok.begun⟩, tinyBoot_ok.op.ge⟩ hrun
  obtain ⟨hblock, -⟩ := hshape 2 (by decide) _ rfl (by rw [htype]; decide)
  refine ⟨t, hrun, (hblock 0 (by decide)).mpr ?_⟩
  rw [hsize]
  decide

end BossOs.Fs
