import BossOs.Fs.OpenCall

/-!
# `filewrite`

A write goes chunk by chunk, each in a transaction of its own. `Chunks` relates the state before
the call to that between two chunks.
-/

namespace BossOs.Fs

open Lib
open Prog (sat_bind sat_ite sat_pure)

variable {sb : Superblock}

def File.seek (ff : File) (off : UInt32) : File := { ff with off := off }

theorem seek_self (s : Sys) (f : Fin NFILE) : s.withFile f ((s.ftable f).seek (s.ftable f).off) = s := by
  simp only [Sys.withFile, File.seek, Function.update_eq_self]

theorem toNat_advance {off : UInt32} {n : Nat} (h : off.toNat + n < 2 ^ 32) :
    (off + UInt32.ofNat n).toNat = off.toNat + n := by
  rw [UInt32.toNat_add, UInt32.toNat_ofNat', Nat.mod_eq_of_lt (show n < 2 ^ 32 by omega),
    Nat.mod_eq_of_lt h]

variable (sb) in
theorem chunk_foot (t : State) (e : Entry) {off size len : Nat} (hoff : off ≤ size)
    (hlen : len ≤ maxWrite) : ∃ F : List Nat, F.length ≤ MAXOPBLOCKS ∧
      ∀ b, t.writeFoot sb e (blocks size) off len b → b ∈ F := by
  obtain ⟨a, ha⟩ : ∃ a, a = blockAt (t.icache e).din t.blk.disk := ⟨_, rfl⟩
  obtain ⟨k₀, hk₀⟩ : ∃ k₀, k₀ = off / BSIZE := ⟨_, rfl⟩
  obtain ⟨k₁, hk₁⟩ : ∃ k₁, k₁ = blocks off := ⟨_, rfl⟩
  have hmax : maxWrite = 1536 := rfl
  have hnew : k₁ ≤ blocks size := by
    rw [hk₁]
    exact blocks_le (hoff.trans (le_blocks_mul _))
  refine ⟨[a k₀, a (k₀ + 1), a (k₀ + 2), a (k₀ + 3), sb.bblock (a k₁), sb.bblock (a (k₁ + 1)),
    sb.bblock (a (k₁ + 2)), (t.icache e).din.addr NDIRECT,
    sb.bblock ((t.icache e).din.addr NDIRECT), sb.iblock (t.icache e).inum], Nat.le_refl 10, ?_⟩
  rintro b (⟨k, h1, h2, h3⟩ | rfl)
  · rw [← ha] at h3
    have hdata : k = k₀ ∨ k = k₀ + 1 ∨ k = k₀ + 2 ∨ k = k₀ + 3 := by
      rw [bsize_eq] at *
      omega
    have hmem : a k ∈ [a k₀, a (k₀ + 1), a (k₀ + 2), a (k₀ + 3)] := by
      rcases hdata with rfl | rfl | rfl | rfl <;> simp
    rcases h3 with rfl | ⟨hn, rfl | rfl | ⟨-, rfl⟩ | ⟨-, rfl⟩⟩
    · exact List.mem_append_left _ hmem
    · exact List.mem_append_left _ hmem
    · have hmap : k = k₁ ∨ k = k₁ + 1 ∨ k = k₁ + 2 := by
        simp only [blocks, bsize_eq] at *
        omega
      rcases hmap with rfl | rfl | rfl <;> simp
    · simp
    · simp
  · simp

/-- From `s` to `t`, inside one call of `filewrite` on file `f`: the offset is now `off`, and the
inode of `ip` has the node `nd`. -/
structure Chunks (sb : Superblock) (s : Sys) (f : Fin NFILE) (ip : Entry) (off : UInt32) (nd : Node)
    (t : Sys) : Prop where
  ok : Ok sb t
  state : t = (s.withFs t.fs).withFile f ((s.ftable f).seek off)
  node : t.fs.nodeAt sb ip = nd
  others : ∀ j, j < sb.ninodes → j ≠ (s.fs.icache ip).inum → t.fs.node sb j = s.fs.node sb j
  inum : ∀ e ∈ s.refs, (t.fs.icache e).inum = (s.fs.icache e).inum
  fields : nd.type = (s.fs.nodeAt sb ip).type ∧ nd.nlink = (s.fs.nodeAt sb ip).nlink ∧
    (s.fs.nodeAt sb ip).size ≤ nd.size
  spare : t.fs.spare sb ip = s.fs.spare sb ip
  sections : Sections (fun sec => ∃ F : List Nat, F.length ≤ MAXOPBLOCKS ∧ ∀ b ∈ sec, b ∈ F)
    s.fs.blk t.fs.blk

namespace Chunks

variable {s t u : Sys} {f : Fin NFILE} {ip : Entry} {off off' : UInt32} {nd nd' : Node}

theorem refl (h : Ok sb s) (f : Fin NFILE) (ip : Entry) :
    Chunks sb s f ip (s.ftable f).off (s.fs.nodeAt sb ip) s := by
  refine ⟨h, ?_, rfl, fun _ _ _ => rfl, fun _ _ => rfl, ⟨rfl, rfl, Nat.le_refl _⟩, rfl, .refl ..⟩
  simp only [Sys.withFile, Sys.withFs, File.seek, Function.update_eq_self]

theorem refs (h : Chunks sb s f ip off nd t) : t.refs = s.refs := by
  rw [h.state]
  exact refs_withFile (s := s.withFs t.fs) rfl

theorem file (h : Chunks sb s f ip off nd t) : t.ftable f = (s.ftable f).seek off := by
  rw [h.state, withFile_self]

theorem trans (hip : ip ∈ s.refs) (h : Chunks sb s f ip off nd t) (h' : Chunks sb t f ip off' nd' u) :
    Chunks sb s f ip off' nd' u := by
  have hi := h.inum ip hip
  obtain ⟨hf1, hf2, hf3⟩ := h'.fields
  rw [h.node] at hf1 hf2 hf3
  refine ⟨h'.ok, ?_, h'.node, ?_, ?_, ⟨hf1.trans h.fields.1, hf2.trans h.fields.2.1,
    h.fields.2.2.trans hf3⟩, h'.spare.trans h.spare, h.sections.trans h'.sections⟩
  · have hst := h'.state
    rw [h.file] at hst
    rw [hst]
    conv_lhs => rw [h.state]
    simp only [Sys.withFile, Sys.withFs, File.seek, Function.update_idem]
  · intro j hj hne
    rw [h'.others j hj (by rw [hi]; exact hne), h.others j hj hne]
  · intro e he
    rw [h'.inum e (by rw [h.refs]; exact he), h.inum e he]

theorem done {P : Nat → Prop} (h : Chunks sb s f ip off nd t) (hip : ip ∈ s.refs)
    (hdir : (s.fs.nodeAt sb ip).type ≠ T_DIR) :
    Done sb P s (Function.update (s.fs.node sb) (s.fs.icache ip).inum nd) t := by
  have hi := h.inum ip hip
  have hnode : ∀ j, j < sb.ninodes →
      t.fs.node sb j = Function.update (s.fs.node sb) (s.fs.icache ip).inum nd j := by
    intro j hj
    by_cases hji : j = (s.fs.icache ip).inum
    · rw [hji, Function.update_self, ← h.node, State.nodeAt, hi]
    · rw [Function.update_of_ne hji]
      exact h.others j hj hji
  refine ⟨h.ok, ⟨fun j hj => Or.inl (hnode j hj), ?_, ?_,
    h.sections.mono fun _ => Or.inr⟩, .write hdir h.fields.1 h.fields.2.1 h.fields.2.2⟩
  · intro e _ he
    exact h.inum e he
  · intro j hl heq
    have hn : t.fs.node sb j = s.fs.node sb j := (hnode j hl.inum).trans heq.symm
    refine Or.inl ⟨hl.inum, hn ▸ hl.type, hn ▸ hl.nlink, fun e he hj => ?_⟩
    exact hl.unref e (by rw [h.refs]; exact he) ((h.inum e he).trans hj)

end Chunks

/-- Inside the transaction of a chunk: the inode is locked and has the node `nd`. -/
structure Midway (sb : Superblock) (s : Sys) (ip : Entry) (off : UInt32) (nd : Node) (u : State) :
    Prop where
  cached : Cached sb s.refs [ip] u
  settles : ∃ D, Settles sb s.refs s.fs.begun
    (Function.update (s.fs.node sb) (s.fs.icache ip).inum nd) [(s.fs.icache ip).inum] D u
  node : u.nodeAt sb ip = nd
  others : ∀ j, j < sb.ninodes → j ≠ (s.fs.icache ip).inum → u.node sb j = s.fs.node sb j
  fields : nd.type = (s.fs.nodeAt sb ip).type ∧ nd.nlink = (s.fs.nodeAt sb ip).nlink ∧
    (s.fs.nodeAt sb ip).size ≤ nd.size
  offset : nd.type ≠ T_DEV → off.toNat ≤ nd.size
  spare : u.spare sb ip = s.fs.spare sb ip
  logged : ∃ F : List Nat, F.length ≤ MAXOPBLOCKS ∧ ∀ b ∈ u.blk.logged, b ∈ F

section Chunk

variable {s : Sys} {f : Fin NFILE} {ip : Entry} {src : List UInt8} (h : Ok sb s)
  (hf : (s.ftable f).type = .inode ip) (hwr : (s.ftable f).writable = true)
include h hf hwr

theorem Midway.chunks {u v : State} {off : UInt32} {nd : Node} (hu : Midway sb s ip off nd u)
    (hc : Cached sb s.refs [] v) (hq : Quiet sb s.refs u v) (hb : v.blk = u.blk) :
    Chunks sb s f ip off nd ((s.withFs v.ended).withFile f ((s.ftable f).seek off)) := by
  have hip := mem_refs_of_file hf
  have hdir := h.writable f ip hf hwr
  have hfields := hu.fields
  have hnode : ∀ j, v.node sb j = u.node sb j := fun j => by rw [State.node, hb, State.node]
  have hself : v.nodeAt sb ip = nd := by
    rw [State.nodeAt, hq.inum ip hip, hnode]
    exact hu.node
  obtain ⟨t, ht⟩ : ∃ t, t = (s.withFs v.ended).withFile f ((s.ftable f).seek off) := ⟨_, rfl⟩
  rw [← ht]
  have hrefs : t.refs = s.refs := by
    rw [ht]
    exact refs_withFile (s := s.withFs v.ended) rfl
  obtain ⟨D, hs⟩ := hu.settles
  have hsv := hs.quiet hq
  obtain ⟨F, hF, hmem⟩ := hu.logged
  have hfit : Fits sb (Slack sb s.refs s.fs) v.blk.logged := by
    rw [hb]
    exact Or.inr ⟨F, hF, hmem⟩
  have hfiles : ∀ g e, (t.ftable g).type = .inode e → Carried sb s t v g e := by
    intro g e hg
    rw [ht] at hg
    by_cases hgf : g = f
    · subst hgf
      rw [withFile_self] at hg
      obtain rfl : ip = e := by
        have heq : FdType.inode ip = .inode e := hf.symm.trans hg
        cases heq
        rfl
      refine Or.inr ?_
      rw [ht, withFile_self, hself, hfields.1]
      exact ⟨fun _ => hdir, fun hdev => hu.offset (by rw [hfields.1]; exact hdev)⟩
    · refine Or.inl ?_
      rw [ht]
      exact withFile_of_ne _ _ hgf
  obtain ⟨hok, -⟩ := h.toFsOk.settle (t := t) (P := fun _ => True) (by rw [hrefs]; exact hc) hsv
    (.write hdir hfields.1 hfields.2.1 hfields.2.2) hfit (by rw [ht]; rfl)
    (by rw [hrefs]; exact fun _ he => he) (fun e he => Or.inl (hrefs ▸ he)) hfiles
  have hfds : t.fds = s.fds := by
    rw [ht]
    rfl
  refine ⟨⟨hok, ?_, ?_, ?_⟩, ?_, ?_, ?_, ?_, hfields, ?_, ?_⟩
  · rw [hfds, ht]
    exact Tables.set (s := s.withFs v.ended) (h.tables.congr rfl) (fun _ _ => rfl) (h.tables.ref f)
      (h.tables.free f)
  · intro g hg
    rw [ht]
    rw [hfds] at hg
    by_cases hgf : g = f
    · rw [hgf, withFile_self]
      exact h.opened f (hgf ▸ hg)
    · rw [withFile_of_ne _ _ hgf]
      exact h.opened g hg
  · rw [ht]
    exact h.unused
  · rw [ht]
    rfl
  · rw [ht]
    exact hself
  · intro j hj hne
    rw [ht]
    exact (hnode j).trans (hu.others j hj hne)
  · intro e he
    rw [ht]
    exact hsv.inum e he
  · rw [← hu.spare, ht]
    change freeBlocks sb v.blk.disk + need (blocks (v.nodeAt sb ip).size) = _
    rw [hb, hself, State.spare, hu.node]
  · rw [ht]
    refine .one h.logged hsv.frame ⟨F, hF, ?_⟩
    rw [hb]
    exact hmem

theorem chunk_end {u : State} {off : UInt32} {nd : Node} (hu : Midway sb s ip off nd u)
    {r : Option Nat} {Q : Option Nat → Sys → Prop} {E : Stop → Sys → Prop}
    (hQ : ∀ t, Chunks sb s f ip off nd t → Q r t) :
    ((do
      liftM (iunlock ip)
      liftM endOp
      pure r : SysM (Option Nat)).run ((s.withFs u).withFile f ((s.ftable f).seek off))).Sat Q E := by
  simp only [sat_bind]
  rw [sat_fs]
  refine (iunlock_spec hu.cached List.not_mem_nil).imp ?_
  rintro _ v ⟨hc, hq, hb, -⟩
  have hop : v.blk.outstanding = 1 := by
    obtain ⟨D, hs⟩ := hu.settles
    rw [hb]
    exact hs.frame.outstanding.trans h.op
  rw [sat_end hc.good.held hop, sat_pure]
  exact hQ _ (hu.chunks h hf hwr hc hq hb)

theorem chunk_end_none {u : State} {nd : Node} (hu : Midway sb s ip (s.ftable f).off nd u)
    {Q : Option Nat → Sys → Prop} {E : Stop → Sys → Prop}
    (hQ : ∀ t, Chunks sb s f ip (s.ftable f).off nd t → Q none t) :
    ((do
      liftM (iunlock ip)
      liftM endOp
      pure none : SysM (Option Nat)).run (s.withFs u)).Sat Q E := by
  have hend := chunk_end h hf hwr hu (E := E) hQ
  have hsame : (s.withFs u).withFile f ((s.ftable f).seek (s.ftable f).off) = s.withFs u :=
    seek_self (s.withFs u) f
  rwa [hsame] at hend

omit hwr in
theorem midway_same {u : State} (hc : Cached sb s.refs [ip] u)
    (hq : Quiet sb s.refs s.fs.begun u) (hb : u.blk = s.fs.begun.blk) {off : UInt32}
    (hoff : (s.fs.nodeAt sb ip).type ≠ T_DEV → off.toNat ≤ (s.fs.nodeAt sb ip).size) :
    Midway sb s ip off (s.fs.nodeAt sb ip) u := by
  have hip := mem_refs_of_file hf
  have hself : Function.update (s.fs.node sb) (s.fs.icache ip).inum (s.fs.nodeAt sb ip) =
      s.fs.node sb := Function.update_eq_self ..
  have hnode : u.nodeAt sb ip = s.fs.nodeAt sb ip := hq.nodeAt hip (h.begun.inum_lt hip)
  refine ⟨hc, ⟨[], ?_⟩, hnode, ?_, ⟨rfl, rfl, Nat.le_refl _⟩, hoff, ?_, [], Nat.zero_le _, ?_⟩
  · rw [hself]
    exact hq.settles.mono (List.nil_subset _)
  · intro j _ _
    rw [State.node, hb]
    rfl
  · rw [State.spare, hnode, hb]
    rfl
  · intro b hm
    have hnil : s.fs.begun.blk.logged = [] := h.logged
    rw [hb, hnil] at hm
    exact hm

omit hwr in
theorem midway_wrote {u v : State} (hc : Cached sb s.refs [ip] u)
    (hq : Quiet sb s.refs s.fs.begun u) (hb : u.blk = s.fs.begun.blk) (hlen : src.length ≤ maxWrite)
    (hoff : (s.ftable f).off.toNat ≤ (s.fs.nodeAt sb ip).size)
    (hw : Wrote sb s.refs [ip] u ip (s.ftable f).off.toNat src v) {off : UInt32}
    (hoff' : off.toNat = (s.ftable f).off.toNat + src.length) :
    Midway sb s ip off ((s.fs.nodeAt sb ip).write (s.ftable f).off.toNat src) v := by
  have hip := mem_refs_of_file hf
  have hsame : Midway sb s ip (s.ftable f).off (s.fs.nodeAt sb ip) u :=
    midway_same h hf hc hq hb fun _ => hoff
  have hinum : (u.icache ip).inum = (s.fs.icache ip).inum := hq.inum ip hip
  have hch := hw.changed
  rw [hsame.node] at hch
  obtain ⟨F, hF, hmem⟩ := chunk_foot sb v ip hoff hlen
  have hset := hq.settles.change F hch fun b hfoot => Or.inr (Or.inr (hmem b hfoot))
  rw [hinum] at hset
  refine ⟨hw.cached, ⟨_, hset⟩, hch.nodeAt, ?_, ⟨rfl, rfl, Nat.le_max_left ..⟩, ?_,
    hw.spare.trans hsame.spare, F, hF, ?_⟩
  · intro j hj hne
    rw [hch.others j hj (by rw [hinum]; exact hne)]
    exact hsame.others j hj hne
  · intro _
    rw [hoff']
    exact Nat.le_max_right ..
  · intro b hm
    rcases hch.frame.logged b hm with hold | hfoot
    · have hnil : s.fs.begun.blk.logged = [] := h.logged
      rw [hb, hnil] at hold
      exact absurd hold List.not_mem_nil
    · exact hmem b hfoot

def ChunkPost (sb : Superblock) (s : Sys) (f : Fin NFILE) (ip : Entry) (src : List UInt8)
    (r : Option Nat) (t : Sys) : Prop :=
  ∃ off nd, Chunks sb s f ip off nd t ∧
    ((s.fs.nodeAt sb ip).type = T_DEV ∧ nd = s.fs.nodeAt sb ip ∧ (r = none ∨ r = some src.length) ∨
      (s.fs.nodeAt sb ip).type ≠ T_DEV ∧
        (r = none ∧ MAXFILE * BSIZE < (s.ftable f).off.toNat + src.length ∧
            off = (s.ftable f).off ∧ nd = s.fs.nodeAt sb ip ∨
          r = some src.length ∧ (s.ftable f).off.toNat + src.length ≤ MAXFILE * BSIZE ∧
            off.toNat = (s.ftable f).off.toNat + src.length ∧
            nd = (s.fs.nodeAt sb ip).write (s.ftable f).off.toNat src))

theorem writeChunk_spec (hsb : sb.Wf) (hlen : src.length ≤ maxWrite) :
    ((writeChunk sb f ip src).run s).Sat (ChunkPost sb s f ip src)
      (fun x _ => x = .panic .outOfBlocks ∧ (s.fs.nodeAt sb ip).type ≠ T_DEV ∧
        (s.ftable f).off.toNat + src.length ≤ MAXFILE * BSIZE ∧ s.fs.spare sb ip < need
          (max (blocks (s.fs.nodeAt sb ip).size)
          (blocks ((s.ftable f).off.toNat + src.length)))) := by
  have hip := mem_refs_of_file hf
  have hmax : maxWrite = 1536 := rfl
  have hM : MAXFILE * BSIZE < 2 ^ 32 := by decide
  simp only [writeChunk, sat_bind]
  rw [sat_begin, sat_fs]
  refine (ilock_alive h.begun hip List.not_mem_nil (h.alive ip hip)).imp ?_
  rintro _ u ⟨hc, hq, hb⟩
  have hnode : u.nodeAt sb ip = s.fs.nodeAt sb ip := hq.nodeAt hip (h.begun.inum_lt hip)
  have hspare : u.spare sb ip = s.fs.spare sb ip := by
    rw [State.spare, hnode, hb]
    rfl
  have hdir : DirOk sb ((u.nodeAt sb ip).write (s.ftable f).off.toNat src) := by
    rw [hnode]
    exact dirOk_of_type (h.writable f ip hf hwr)
  rw [sat_file, sat_fs]
  refine (writei_cached hsb hc List.not_mem_nil (by rw [hb]; exact h.op.ge) (by omega) hdir).mono ?_ ?_
  rotate_left
  · rw [hnode, hspare]
    exact fun x _ hx => hx
  rw [hnode]
  rintro r v (⟨hsame, ⟨hdev, hr⟩ | ⟨rfl, rfl, hbad⟩⟩ | ⟨hdev, rfl, hoff, hend, hw⟩)
  · have hmid : ∀ off, Midway sb s ip off (s.fs.nodeAt sb ip) v := fun off =>
      midway_same h hf hsame.cached (hq.trans hsame.quiet) (hsame.blk.trans hb)
        fun hne => absurd hdev hne
    rcases hr with rfl | rfl
    · refine chunk_end_none h hf hwr (hmid _) fun t ht => ?_
      exact ⟨_, _, ht, Or.inl ⟨hdev, rfl, Or.inl rfl⟩⟩
    · rw [sat_bind, sat_setFile]
      refine chunk_end h hf hwr (hmid _) fun t ht => ?_
      exact ⟨_, _, ht, Or.inl ⟨hdev, rfl, Or.inr rfl⟩⟩
  · by_cases hdev : (s.fs.nodeAt sb ip).type = T_DEV
    · refine chunk_end_none h hf hwr (midway_same h hf hc hq hb fun hne => absurd hdev hne)
        fun t ht => ?_
      exact ⟨_, _, ht, Or.inl ⟨hdev, rfl, Or.inl rfl⟩⟩
    · have hoff := h.offsets f ip hf hdev
      refine chunk_end_none h hf hwr (midway_same h hf hc hq hb fun _ => hoff) fun t ht => ?_
      exact ⟨_, _, ht, Or.inr ⟨hdev, Or.inl ⟨rfl, by omega, rfl, rfl⟩⟩⟩
  · have hadv : ((s.ftable f).off + UInt32.ofNat src.length).toNat =
        (s.ftable f).off.toNat + src.length := toNat_advance (by omega)
    rw [sat_bind, sat_setFile]
    refine chunk_end h hf hwr (midway_wrote h hf hc hq hb hlen hoff hw hadv) fun t ht => ?_
    exact ⟨_, _, ht, Or.inr ⟨hdev, Or.inr ⟨rfl, hend, hadv, rfl⟩⟩⟩

end Chunk

def writable (off n : Nat) : Nat :=
  if off + n ≤ MAXFILE * BSIZE then n else maxWrite * ((MAXFILE * BSIZE - off) / maxWrite)

theorem maxWrite_eq : maxWrite = 1536 := rfl

theorem maxBytes_eq : MAXFILE * BSIZE = 71680 := rfl

theorem writable_step {off n n₁ : Nat} (hn : n₁ = min n maxWrite)
    (hfit : off + n₁ ≤ MAXFILE * BSIZE) : n₁ + writable (off + n₁) (n - n₁) = writable off n := by
  unfold writable
  rw [maxBytes_eq] at hfit ⊢
  rw [maxWrite_eq] at hn ⊢
  split <;> split <;> omega

theorem writable_stop {off n n₁ : Nat} (hn : n₁ = min n maxWrite)
    (hbig : MAXFILE * BSIZE < off + n₁) : writable off n = 0 := by
  unfold writable
  rw [maxBytes_eq] at hbig ⊢
  rw [maxWrite_eq] at hn ⊢
  split <;> omega

theorem Node.write_append (nd : Node) (off : Nat) (a b : List UInt8) :
    (nd.write off a).write (off + a.length) b = nd.write off (a ++ b) := by
  ext k
  · rfl
  · rfl
  · rfl
  · rfl
  · simp only [Node.write, List.length_append]
    omega
  · simp only [Node.write, List.length_append]
    by_cases hb : off + a.length ≤ k ∧ k < off + a.length + b.length
    · rw [if_pos hb, if_pos (by omega), List.getD_append_right _ _ _ _ (by omega), Nat.sub_sub]
    · rw [if_neg hb]
      by_cases ha : off ≤ k ∧ k < off + a.length
      · rw [if_pos ha, if_pos (by omega), List.getD_append _ _ _ _ (by omega)]
      · rw [if_neg ha, if_neg (by omega)]

def WritePost (sb : Superblock) (s : Sys) (f : Fin NFILE) (ip : Entry) (src : List UInt8)
    (r : Bool) (t : Sys) : Prop :=
  ∃ off nd, Chunks sb s f ip off nd t ∧ ((s.fs.nodeAt sb ip).type = T_DEV ∨
    off.toNat = (s.ftable f).off.toNat + writable (s.ftable f).off.toNat src.length ∧
    nd = (s.fs.nodeAt sb ip).write (s.ftable f).off.toNat
      (src.take (writable (s.ftable f).off.toNat src.length)) ∧
    r = decide ((s.ftable f).off.toNat + src.length ≤ MAXFILE * BSIZE))

def WriteFull (sb : Superblock) (s : Sys) (f : Fin NFILE) (ip : Entry) (n : Nat) : Prop :=
  (s.fs.nodeAt sb ip).type ≠ T_DEV ∧ s.fs.spare sb ip <
    need (max (blocks (s.fs.nodeAt sb ip).size)
      (blocks ((s.ftable f).off.toNat + writable (s.ftable f).off.toNat n)))

theorem Ok.size_le {s : Sys} {f : Fin NFILE} {ip : Entry} (h : Ok sb s)
    (hf : (s.ftable f).type = .inode ip) : (s.fs.nodeAt sb ip).size ≤ MAXFILE * BSIZE :=
  h.cached.good.disk.size_le (h.cached.inum_lt (mem_refs_of_file hf))

theorem blocks_mono {m n : Nat} (h : m ≤ n) : blocks m ≤ blocks n :=
  blocks_le (h.trans (le_blocks_mul n))

section Loop

variable {f : Fin NFILE} {ip : Entry} (hsb : sb.Wf)
include hsb

theorem filewriteFrom_spec (fuel : Nat) : ∀ {s : Sys} {src : List UInt8}, Ok sb s →
    (s.ftable f).type = .inode ip → (s.ftable f).writable = true → src.length ≤ fuel →
    ((filewriteFrom sb f ip fuel src).run s).Sat (WritePost sb s f ip src)
      (fun x _ => x = .panic .outOfBlocks ∧ WriteFull sb s f ip src.length) := by
  have hnil : ∀ {s : Sys}, Ok sb s → (s.ftable f).type = .inode ip → WritePost sb s f ip [] true s := by
    intro s h hf
    refine ⟨_, _, Chunks.refl h f ip, ?_⟩
    by_cases hdev : (s.fs.nodeAt sb ip).type = T_DEV
    · exact Or.inl hdev
    · have hoff := (h.offsets f ip hf hdev).trans (h.size_le hf)
      have h0 : writable (s.ftable f).off.toNat 0 = 0 := if_pos hoff
      refine Or.inr ⟨?_, ?_, ?_⟩
      · rw [List.length_nil, h0, Nat.add_zero]
      · rw [List.take_nil, Node.write_nil (h.offsets f ip hf hdev)]
      · exact (decide_eq_true hoff).symm
  induction fuel with
  | zero =>
    intro s src h hf _ hlen
    obtain rfl := List.eq_nil_of_length_eq_zero (Nat.le_zero.mp hlen)
    rw [filewriteFrom, sat_pure]
    exact hnil h hf
  | succ fuel ih =>
    intro s src h hf hwr hlen
    rw [filewriteFrom]
    apply sat_ite
    · rintro rfl
      rw [sat_pure]
      exact hnil h hf
    intro hne
    have hip := mem_refs_of_file hf
    obtain ⟨n₁, hn₁⟩ : ∃ n₁, n₁ = min src.length maxWrite := ⟨_, rfl⟩
    have hpos : 0 < src.length := List.length_pos_iff.mpr hne
    have hdrop : (src.drop n₁).length ≤ fuel := by
      rw [List.length_drop, hn₁, maxWrite_eq]
      omega
    have htake : (src.take n₁).length = n₁ := by
      rw [List.length_take]
      omega
    simp only [sat_bind, ← hn₁]
    refine (writeChunk_spec h hf hwr hsb (by rw [htake]; omega)).mono ?_ ?_
    · rintro r t ⟨off, nd, ht, hcase⟩
      rw [htake] at hcase
      have hft : (t.ftable f).type = .inode ip := by
        rw [ht.file]
        exact hf
      have hwt : (t.ftable f).writable = true := by
        rw [ht.file]
        exact hwr
      have htype : (t.fs.nodeAt sb ip).type = (s.fs.nodeAt sb ip).type := by
        rw [ht.node]
        exact ht.fields.1
      rcases hcase with ⟨hdev, hnd, rfl | rfl⟩ | ⟨hdev, ⟨rfl, hbig, rfl, rfl⟩ | ⟨rfl, hfit, hoff, rfl⟩⟩
      · rw [sat_pure]
        exact ⟨off, nd, ht, Or.inl hdev⟩
      · refine sat_ite (fun hc => absurd rfl hc) fun _ => ?_
        refine (ih ht.ok hft hwt hdrop).mono ?_ ?_
        · rintro r' u ⟨off', nd', hu, -⟩
          exact ⟨off', nd', ht.trans hip hu, Or.inl hdev⟩
        · rintro x _ ⟨-, hne', -⟩
          rw [htype] at hne'
          exact absurd hdev hne'
      · rw [sat_pure]
        have h0 := writable_stop hn₁ hbig
        refine ⟨_, _, ht, Or.inr ⟨?_, ?_, ?_⟩⟩
        · rw [h0, Nat.add_zero]
        · rw [h0, List.take_zero, Node.write_nil (h.offsets f ip hf hdev)]
        · exact (decide_eq_false (by omega)).symm
      · refine sat_ite (fun hc => absurd rfl hc) fun _ => ?_
        have hstep := writable_step hn₁ hfit
        have hoff' : (t.ftable f).off.toNat = (s.ftable f).off.toNat + n₁ := by
          rw [ht.file]
          exact hoff
        refine (ih ht.ok hft hwt hdrop).mono ?_ ?_
        · rintro r' u ⟨off', nd', hu, hdev' | ⟨h1, h2, h3⟩⟩
          · rw [htype] at hdev'
            exact absurd hdev' hdev
          · rw [hoff', List.length_drop] at h1 h2 h3
            refine ⟨off', nd', ht.trans hip hu, Or.inr ⟨?_, ?_, ?_⟩⟩
            · rw [h1, ← hstep, Nat.add_assoc]
            · have hlen' := Node.write_append (s.fs.nodeAt sb ip) (s.ftable f).off.toNat (src.take n₁)
                ((src.drop n₁).take (writable ((s.ftable f).off.toNat + n₁) (src.length - n₁)))
              rw [htake] at hlen'
              rw [h2, ht.node, hlen', ← List.take_add, hstep]
            · rw [h3]
              congr 1
              apply propext
              omega
        · rintro x _ ⟨hx, -, hfull⟩
          rw [hoff', List.length_drop, ht.spare, ht.node, Nat.add_assoc, hstep] at hfull
          refine ⟨hx, hdev, Nat.lt_of_lt_of_le hfull (need_mono ?_)⟩
          change max (blocks (max _ _)) _ ≤ _
          rw [blocks_max, htake, ← hstep]
          refine max_le (max_le (Nat.le_max_left ..) ?_) (Nat.le_max_right ..)
          exact (blocks_mono (by omega)).trans (Nat.le_max_right ..)
    · rw [htake]
      rintro x _ ⟨hx, hdev, hfit, hfull⟩
      refine ⟨hx, hdev, Nat.lt_of_lt_of_le hfull (need_mono ?_)⟩
      have hle : n₁ ≤ writable (s.ftable f).off.toNat src.length := by
        rw [← writable_step hn₁ hfit]
        exact Nat.le_add_right ..
      exact max_le_max (Nat.le_refl _) (blocks_mono (Nat.add_le_add_left hle _))

theorem filewrite_spec {s : Sys} (src : List UInt8) (h : Ok sb s)
    (hf : (s.ftable f).type = .inode ip) (hwr : (s.ftable f).writable = true) :
    ((filewrite sb f src).run s).Sat
      (fun r t => ∃ all, WritePost sb s f ip src all t ∧
        r = if all = true then (src.length : Int) else -1)
      (fun x _ => x = .panic .outOfBlocks ∧ WriteFull sb s f ip src.length) := by
  simp only [filewrite, sat_bind]
  rw [sat_file, hwr, if_neg (by decide)]
  simp only [hf, sat_bind]
  refine (filewriteFrom_spec hsb src.length h hf hwr (Nat.le_refl _)).imp ?_
  intro all t ht
  rw [sat_pure]
  exact ⟨all, ht, rfl⟩

end Loop

end BossOs.Fs
