import BossOs.Mkfs.Build

/-!
# What `mkfs` accepts

`mkfs` reads every sector it takes, so an image that would be too large makes it fail; the
number of inodes is checked nowhere. The size of the root directory is rounded up to the
next multiple of a block, also where it is one already: then its last block is missing.
-/

namespace BossOs.Mkfs

open Lib Fs

variable {N : Nat} {files : List Input} {s t : Img}

theorem made_of_run (hN : N ≤ 207) (hlen : files.length + 2 ≤ N)
    (hrun : (mkfs files).run start = .ok () s) : ∃ t, Made N files t s := by
  have hspec := mkfs_spec hN files hlen
  rw [hrun, Outcome.sat_ok] at hspec
  exact hspec

theorem exists_made (hN : N ≤ 207) (hlen : files.length + 2 ≤ N) (hfit : Fits files) :
    ∃ t s, (mkfs files).run start = .ok () s ∧ Made N files t s := by
  have hspec := (mkfs_spec hN files hlen).mono (fun _ _ h => h) fun _ _ h => h hfit
  obtain ⟨_, s, hrun, t, hmade⟩ := hspec.exists_ok
  exact ⟨t, s, hrun, hmade⟩

def Takes {α : Type} (n : Nat) (m : MkM α) : Prop :=
  ∀ s, (m.run s).Sat (fun _ t => t.freeinode = s.freeinode + n) fun _ _ => True

namespace Takes

variable {α β : Type} {a b : Nat}

theorem ret (x : α) : Takes 0 (pure x) := by
  intro s
  rw [Prog.sat_pure, Nat.add_zero]

theorem fail (e : Exit) : Takes a (Prog.fail e : MkM α) := by
  intro s
  rw [Prog.sat_fail]
  trivial

theorem bind {m : MkM α} {f : α → MkM β} (h : Takes a m) (h' : ∀ x, Takes b (f x)) :
    Takes (a + b) (m >>= f) := by
  intro s
  rw [Prog.sat_bind]
  refine (h s).imp fun x t ht => (h' x t).imp fun _ u hu => ?_
  rw [hu, ht, Nat.add_assoc]

theorem ite {c : Prop} [Decidable c] {m m' : MkM α} (h : Takes a m) (h' : Takes a m') :
    Takes a (if c then m else m') :=
  fun s => Prog.sat_ite (fun _ => h s) fun _ => h' s

theorem modify {f : Img → Img} (h : ∀ s, (f s).freeinode = s.freeinode + a) :
    Takes a (Prog.modify f) := by
  intro s
  rw [Prog.sat_modify]
  exact h s

theorem wsect (sec : Nat) (buf : Block) : Takes 0 (wsect sec buf) := modify fun _ => rfl

theorem rsect (sec : Nat) : Takes 0 (rsect sec) := by
  intro s
  unfold Mkfs.rsect
  dsimp only
  split
  · rw [Outcome.sat_ok, Nat.add_zero]
  · rw [Outcome.sat_stop]
    trivial

theorem nextBlock : Takes 0 nextBlock := by
  intro s
  rw [Mkfs.nextBlock, Outcome.sat_ok]
  rfl

theorem winode (inum : Nat) (ip : Dinode) : Takes 0 (winode inum ip) :=
  (rsect _).bind fun _ => wsect _ _

theorem rinode (inum : Nat) : Takes 0 (rinode inum) := (rsect _).bind fun _ => ret _

theorem ialloc (type : Int16) : Takes 1 (ialloc type) := by
  intro s
  simp only [Mkfs.ialloc, Prog.sat_bind, Prog.sat_get, Prog.sat_modify, Prog.sat_pure]
  exact winode s.freeinode _ _

theorem indirectOf (din : Dinode) : Takes 0 (indirectOf din) := by
  unfold Mkfs.indirectOf
  exact ite (nextBlock.bind fun _ => ret _) (ret _)

theorem entryOf (ind k : Nat) : Takes 0 (entryOf ind k) := by
  unfold Mkfs.entryOf
  refine Takes.bind (b := 0) (rsect _) fun indirect => ?_
  exact ite (nextBlock.bind fun _ => (wsect _ _).bind fun _ => ret _) (ret _)

theorem blockOf (din : Dinode) (fbn : Nat) : Takes 0 (blockOf din fbn) := by
  unfold Mkfs.blockOf
  refine ite (ite (nextBlock.bind fun _ => ret _) (ret _)) ?_
  exact (indirectOf _).bind fun _ => (entryOf _ _).bind fun _ => ret _

theorem iappendFrom (fuel : Nat) : ∀ (din : Dinode) (off : Nat) (p : List UInt8),
    Takes 0 (iappendFrom fuel din off p) := by
  induction fuel with
  | zero => exact fun _ _ _ => ret _
  | succ fuel ih =>
    intro din off p
    refine ite (ret _) (ite (fail _) ?_)
    exact (blockOf _ _).bind fun _ => (rsect _).bind fun _ => (wsect _ _).bind fun _ => ih _ _ _

theorem iappend (inum : Nat) (p : List UInt8) : Takes 0 (iappend inum p) :=
  (rinode _).bind fun _ => (iappendFrom _ _ _ _).bind fun _ => winode _ _

theorem copyFile (inum : Nat) (chunks : List (List UInt8)) : Takes 0 (copyFile inum chunks) := by
  induction chunks with
  | nil => exact ret _
  | cons buf rest ih => exact (iappend _ _).bind fun _ => ih

theorem addFile (rootino : Nat) (f : Input) : Takes 1 (addFile rootino f) := by
  unfold Mkfs.addFile
  refine ite (fail _) ?_
  cases f.data with
  | none => exact fail _
  | some chunks => exact (ialloc _).bind fun _ => (iappend _ _).bind fun _ => copyFile _ _

theorem addFiles (rootino : Nat) (files : List Input) :
    Takes files.length (addFiles rootino files) := by
  induction files with
  | nil => exact ret _
  | cons f rest ih =>
    rw [List.length_cons, Nat.add_comm]
    exact (addFile _ _).bind fun _ => ih

theorem zeroes (n i : Nat) : Takes 0 (Prog.loop (fun i => Mkfs.wsect i Bytes.zero) n i) := by
  induction n generalizing i with
  | zero => exact ret _
  | succ n ih => exact (wsect _ _).bind fun _ => ih _

theorem mkfs (files : List Input) : Takes (1 + files.length) (mkfs files) := by
  have hfiles : Takes (0 + (0 + (1 + (0 + (0 + (files.length + (0 + 0))))))) (Mkfs.mkfs files) := by
    refine (zeroes _ _).bind fun _ => (wsect _ _).bind fun _ => (ialloc _).bind fun root => ?_
    refine ite (fail _) ?_
    refine (iappend _ _).bind fun _ => (iappend _ _).bind fun _ => (addFiles _ _).bind fun _ => ?_
    refine Takes.bind ((rinode _).bind fun _ => winode _ _) fun _ => ?_
    intro s
    rw [Prog.sat_bind, Prog.sat_get]
    exact ite (wsect _ _) (fail _) s
  simpa only [Nat.zero_add, Nat.add_zero] using hfiles

end Takes

theorem freeinode_of_run (hrun : (mkfs files).run start = .ok () s) :
    s.freeinode = files.length + 2 := by
  have htakes := Takes.mkfs files start
  rw [hrun, Outcome.sat_ok] at htakes
  have hstart : start.freeinode = 1 := rfl
  omega

/-- Inodes and sectors are in their range if and only if there are not too many files. -/
theorem mkfs_within_limits (hrun : (mkfs files).run start = .ok () s) :
    ((∀ i, i < s.freeinode → i < NINODES ∧ sb.iblock i < sb.bmapstart) ∧
      ∀ b, b < s.freeblock → b < FSSIZE) ↔ files.length ≤ NINODES - 2 := by
  have hN : NINODES ≤ 207 := by decide
  have h200 : NINODES = 200 := rfl
  constructor
  · rintro ⟨hinodes, -⟩
    by_contra hmany
    have hlast := (hinodes NINODES (by rw [freeinode_of_run hrun]; omega)).1
    omega
  intro hlen
  have hle : files.length + 2 ≤ NINODES := by omega
  obtain ⟨t, hmade⟩ := made_of_run hN hle hrun
  constructor
  · intro i hi
    rw [hmade.counts.1, hmade.freeinode] at hi
    have hlt : i < NINODES := by omega
    exact ⟨hlt, iblock_lt hN hlt⟩
  · intro b hb
    rw [hmade.counts.2] at hb
    exact Nat.lt_of_lt_of_le hb hmade.built.raw.hi

def emptyFiles (n : Nat) : List Input := List.replicate n ⟨[97], some []⟩

theorem dataSectors_emptyFiles (n : Nat) : dataSectors (emptyFiles n) = 0 := by
  induction n with
  | zero => rfl
  | succ n ih =>
    unfold emptyFiles at *
    rw [List.replicate_succ, dataSectors_cons, ih]
    decide

theorem fits_emptyFiles {n : Nat} (hn : nmeta + sectors (16 * (n + 2)) ≤ FSSIZE) :
    Fits (emptyFiles n) := by
  refine ⟨?_, ?_⟩
  · intro f hf
    rw [List.eq_of_mem_replicate hf]
    exact ⟨by decide, rfl, Nat.zero_le _⟩
  · rw [dataSectors_emptyFiles]
    unfold emptyFiles
    rw [List.length_replicate]
    exact hn

theorem mkfs_within_limits_three : ∃ s, (mkfs (emptyFiles 3)).run start = .ok () s ∧
    (∀ i, i < s.freeinode → i < NINODES ∧ sb.iblock i < sb.bmapstart) ∧
    ∀ b, b < s.freeblock → b < FSSIZE := by
  obtain ⟨_, s, hrun, -⟩ := exists_made (N := 5) (by decide) (by decide)
    (fits_emptyFiles (n := 3) (by decide))
  exact ⟨s, hrun, (mkfs_within_limits hrun).mpr (by decide)⟩

/-- With 199 files the last one gets inode 200, which the kernel does not have. -/
theorem mkfs_takes_too_many : ∃ s i, (mkfs (emptyFiles 199)).run start = .ok () s ∧
    0 < i ∧ i < s.freeinode ∧ ¬ i < NINODES := by
  have hlen : (emptyFiles 199).length = 199 := List.length_replicate
  obtain ⟨_, s, hrun, hmade⟩ := exists_made (N := 201) (by decide) (by rw [hlen])
    (fits_emptyFiles (n := 199) (by decide))
  refine ⟨s, 200, hrun, by decide, ?_, by decide⟩
  rw [hmade.counts.1, hmade.freeinode, hlen]
  decide

namespace Made

variable (h : Made N files t s)
include h

theorem root_size : (ino sb t.virt ROOTINO).size.toNat = 16 * (files.length + 2) := by
  rw [(size_of_node (by decide) h.root).2, length_rootBytes]

theorem root_ino : ino sb s.sector ROOTINO = roundDin (ino sb t.virt ROOTINO) := by
  rw [h.image]
  exact ino_put_self t.blk ROOTINO _

theorem root_open (hlo : 2 ≤ N) :
    Open (layout N) t.blk ROOTINO (ino sb t.virt ROOTINO) (blocks (16 * (files.length + 2)))
      (NDIRECT < blocks (16 * (files.length + 2))) := by
  have hopen := h.built.isOpen (i := ROOTINO) hlo (by rw [h.root]; exact (by decide : T_DIR ≠ 0))
  rw [h.root_size] at hopen
  exact hopen

theorem root_extent (hlo : 2 ≤ N) (hN : N ≤ 207) :
    Extent (ino sb s.sector ROOTINO) s.sector (blocks (16 * (files.length + 2)))
      (NDIRECT < blocks (16 * (files.length + 2))) := by
  rw [h.root_ino, h.image]
  exact (h.root_open hlo).put_extent (layout_wf hlo hN) rfl

theorem rounded (hlen : files.length + 2 ≤ 207) :
    (ino sb s.sector ROOTINO).size.toNat = (16 * (files.length + 2) / BSIZE + 1) * BSIZE := by
  rw [h.root_ino]
  unfold roundDin
  simp only [UInt32.toNat_ofNat']
  rw [h.root_size]
  apply Nat.mod_eq_of_lt
  simp only [bsize_eq]
  omega

theorem root_type : (ino sb s.sector ROOTINO).type = T_DIR := by
  rw [h.root_ino]
  exact (size_of_node (s := t) (by decide) h.root).1

theorem not_dev {i : Nat} (hi : i < N) : (ino sb s.sector i).type ≠ T_DEV := by
  by_cases hroot : i = ROOTINO
  · rw [hroot, h.root_type]
    decide
  · have hino : ino sb s.sector i = ino sb t.virt i := by
      rw [h.image]
      exact ino_put_of_ne t.blk ROOTINO _ hroot
    rw [hino]
    by_cases hfile : 2 ≤ i ∧ i < files.length + 2
    · have hlt : i - 2 < files.length := by omega
      have hnode := h.file (i - 2) _ (List.getElem?_eq_getElem hlt)
      rw [Nat.sub_add_cancel hfile.1] at hnode
      rw [(size_of_node (by decide) hnode).1]
      decide
    · have hone : ROOTINO = 1 := rfl
      have hfree := h.built.free i (by rw [h.freeinode]; omega) hi
      rw [Img.node, Fs.node, nodeOf_type] at hfree
      rw [hfree]
      decide

theorem diskOk (hlo : files.length + 2 ≤ N) (hN : N ≤ 207) (hmod : (files.length + 2) % 32 ≠ 0) :
    DiskOk (layout N) s.sector := by
  have h2 : 2 ≤ N := by omega
  have hsb := layout_wf h2 hN
  have hopen := h.root_open h2
  have hshaped : Shaped (ino sb s.sector ROOTINO) s.sector := by
    have hsize := h.rounded (by omega)
    have hblocks : blocks ((16 * (files.length + 2) / BSIZE + 1) * BSIZE) =
        blocks (16 * (files.length + 2)) := by
      simp only [blocks, bsize_eq]
      omega
    constructor
    · rw [hsize, hblocks]
      exact h.root_extent h2 hN
    · rw [hsize]
      have hM : MAXFILE = 140 := rfl
      simp only [bsize_eq]
      omega
  have hown : Owns (layout N)
      (ino (layout N) (t.blk.put (layout N) ROOTINO (roundDin (ino sb t.virt ROOTINO))).disk)
      (t.blk.put (layout N) ROOTINO (roundDin (ino sb t.virt ROOTINO))).disk :=
    hopen.put_owns hsb rfl hopen.typed
  have hoth := others_put t.blk ROOTINO (roundDin (ino sb t.virt ROOTINO)) hsb h2 hopen.owns
  rw [h.image] at hshaped ⊢
  exact h.built.disk.of_others hoth hown fun _ => hshaped

end Made

theorem readi_same {sb : Superblock} {D : Nat → Block} {i : Nat} (hD : DiskOk sb D)
    (hi : i < sb.ninodes) (ht : (ino sb D i).type ≠ 0) (hdev : (ino sb D i).type ≠ T_DEV)
    {k : State} {e : Entry} (hdisk : k.blk.disk = D) (hheld : k.blk.held = [])
    (hdin : (k.icache e).din = ino sb D i) (off n : Nat) :
    ∃ r, (readi sb e off n).run k = .ok r k := by
  have hshaped := hD.shaped i hi ht
  have hown := hD.owns
  rw [← tabOf_ino sb _ i, ← hdisk] at hown
  have hopen : Open sb k.blk i (k.icache e).din (blocks (k.icache e).din.size.toNat)
      (NDIRECT < blocks (k.icache e).din.size.toNat) := by
    rw [hdin]
    refine ⟨hi, ht, ?_, ?_⟩
    · rw [← hdisk]
      exact hown
    · rw [hdisk]
      exact hshaped.extent
  have hsize : (k.icache e).din.size.toNat ≤ MAXFILE * BSIZE := by
    rw [hdin]
    exact hshaped.size_le
  have hsat : ((readi sb e off n).run k).Sat (fun _ k' => k' = k) fun _ _ => False := by
    simp only [readi, Prog.sat_bind, sat_inode]
    rw [if_neg (by rw [hdin]; exact hdev)]
    apply Prog.sat_ite
    · intro _
      rw [Prog.sat_pure]
    · intro hoff
      have hle := le_blocks_mul (k.icache e).din.size.toNat
      simp only [Prog.sat_bind]
      rw [sat_readFrom hopen hheld (blocks_le hsize) _ _ _ (Nat.le_refl _) (by split <;> omega),
        Prog.sat_pure]
  obtain ⟨r, k', hrun, rfl⟩ := hsat.exists_ok
  exact ⟨r, hrun⟩

/-- Block `k` of inode `i` is missing although the size of the inode covers it. -/
def Hole (s : Img) (i k : Nat) : Prop :=
  k * BSIZE < (ino sb s.sector i).size.toNat ∧ blockAt (ino sb s.sector i) s.sector k = 0

theorem Made.hole (h : Made N files t s) (hlen : files.length + 2 ≤ N) (hN : N ≤ 207)
    (hmod : (files.length + 2) % 32 = 0) : Hole s ROOTINO ((files.length + 2) / 32) := by
  have hext := h.root_extent (by omega) hN
  constructor
  · rw [h.rounded (by omega)]
    simp only [bsize_eq]
    omega
  · by_contra hne
    have hM : MAXFILE = 140 := rfl
    have hlt := (hext.block _ (by omega)).mp hne
    simp only [blocks, bsize_eq] at hlt
    omega

/-- No inode of the image has a hole, and reading it allocates nothing, if and only if the
entries of the root directory leave room in their last block. -/
theorem mkfs_no_hole (hlen : files.length ≤ NINODES - 2)
    (hrun : (mkfs files).run start = .ok () s) :
    (∀ i < NINODES, (ino sb s.sector i).type ≠ 0 → (∀ k, ¬ Hole s i k) ∧
      ∀ (k : State) (e : Entry) (off n : Nat), k.blk.disk = s.sector → k.blk.held = [] →
        (k.icache e).din = ino sb s.sector i → ∃ r, (readi sb e off n).run k = .ok r k) ↔
    (files.length + 2) % 32 ≠ 0 := by
  have hN : NINODES ≤ 207 := by decide
  have hle : files.length + 2 ≤ NINODES := by
    have h2 : NINODES = 200 := rfl
    omega
  obtain ⟨t, hmade⟩ := made_of_run hN hle hrun
  constructor
  · intro hnone hmod
    have hroot : (ino sb s.sector ROOTINO).type ≠ 0 := by
      rw [hmade.root_type]
      decide
    exact (hnone ROOTINO (by decide) hroot).1 _ (hmade.hole hle hN hmod)
  intro hmod i hi ht
  have hD : DiskOk sb s.sector := hmade.diskOk hle hN hmod
  have hshaped := hD.shaped i hi ht
  constructor
  · rintro k ⟨hk, hzero⟩
    have hkb := lt_blocks_iff.mpr hk
    have hcap := hshaped.size_le
    exact (hshaped.extent.block k (Nat.lt_of_lt_of_le hkb (blocks_le hcap))).mpr hkb hzero
  · intro k e off n hdisk hheld hdin
    exact readi_same hD hi ht (hmade.not_dev hi) hdisk hheld hdin off n

theorem mkfs_no_hole_three : ∃ s, (mkfs (emptyFiles 3)).run start = .ok () s ∧
    (ino sb s.sector ROOTINO).type ≠ 0 ∧ (∀ k, ¬ Hole s ROOTINO k) ∧
    ∀ (k : State) (e : Entry) (off n : Nat), k.blk.disk = s.sector → k.blk.held = [] →
      (k.icache e).din = ino sb s.sector ROOTINO → ∃ r, (readi sb e off n).run k = .ok r k := by
  obtain ⟨t, s, hrun, hmade⟩ := exists_made (N := 5) (by decide) (by decide)
    (fits_emptyFiles (n := 3) (by decide))
  have ht : (ino sb s.sector ROOTINO).type ≠ 0 := by
    rw [hmade.root_type]
    decide
  exact ⟨s, hrun, ht, (mkfs_no_hole (by decide) hrun).mpr (by decide) ROOTINO (by decide) ht⟩

/-- With 30 files the entries fill one block, and the size says two. -/
theorem mkfs_leaves_hole : ∃ s k, (mkfs (emptyFiles 30)).run start = .ok () s ∧
    (ino sb s.sector ROOTINO).type ≠ 0 ∧ k * BSIZE < (ino sb s.sector ROOTINO).size.toNat ∧
    blockAt (ino sb s.sector ROOTINO) s.sector k = 0 := by
  have hlen : (emptyFiles 30).length = 30 := List.length_replicate
  obtain ⟨t, s, hrun, hmade⟩ := exists_made (N := 32) (by decide) (by rw [hlen])
    (fits_emptyFiles (n := 30) (by decide))
  refine ⟨s, 1, hrun, ?_, ?_, ?_⟩
  · rw [hmade.root_type]
    decide
  · rw [hmade.rounded (by rw [hlen]; decide), hlen]
    decide
  · have hext := hmade.root_extent (by decide) (by decide)
    rw [hlen] at hext
    by_contra hne
    exact absurd ((hext.block 1 (by decide)).mp hne) (by decide)

end BossOs.Mkfs
