import BossOs.Fs.Entries
import BossOs.Mkfs.Image

/-!
# The whole of `mkfs`

With every file there and room for all of them, `mkfs` ends; and wherever it ends, the
root directory lists the files in their order and inode `i + 2` has the bytes of file `i`.
-/

namespace BossOs.Mkfs

open List (length_append length_cons length_nil length_singleton nil_append)
open Lib Fs

def Input.bytes (f : Input) : List UInt8 := (f.data.getD []).flatten

structure Input.Ok (f : Input) : Prop where
  name : slash ∉ f.arg
  opened : f.data.isSome = true
  size : f.bytes.length ≤ MAXFILE * BSIZE

def entries (inum : Nat) : List Input → List UInt8
  | [] => []
  | f :: rest => direntOf inum f.name ++ entries (inum + 1) rest

def dataSectors (files : List Input) : Nat := (files.map fun f => sectors f.bytes.length).sum

theorem dataSectors_cons (f : Input) (rest : List Input) :
    dataSectors (f :: rest) = sectors f.bytes.length + dataSectors rest := by
  unfold dataSectors
  rw [List.map_cons, List.sum_cons]

theorem length_direntOf (inum : Nat) (name : Str) : (direntOf inum name).length = 16 := by
  unfold direntOf
  rw [Dirent.length_encode, length_strncpy]
  rfl

theorem length_entries (files : List Input) (inum : Nat) :
    (entries inum files).length = 16 * files.length := by
  induction files generalizing inum with
  | nil => rfl
  | cons f rest ih =>
    rw [entries, length_append, length_direntOf, ih, length_cons]
    omega

/-- The files fit into the image, after `r` bytes of the root directory. -/
structure Room (s : Img) (r : Nat) (files : List Input) : Prop where
  ok : ∀ f ∈ files, f.Ok
  root : r + 16 * files.length ≤ MAXFILE * BSIZE
  total : s.freeblock + sectors (r + 16 * files.length) + dataSectors files ≤ FSSIZE + sectors r

structure Added (N : Nat) (s : Img) (r : List UInt8) (files : List Input) (s' : Img) : Prop where
  built : Built N s'
  freeinode : s'.freeinode = s.freeinode + files.length
  root : s'.node ROOTINO = fileNode T_DIR (r ++ entries s.freeinode files)
  file : ∀ i f, files[i]? = some f → s'.node (s.freeinode + i) = fileNode T_FILE f.bytes
  old : ∀ j, j < s.freeinode → j ≠ ROOTINO → s'.node j = s.node j
  freeblock : s'.freeblock + sectors r.length =
    s.freeblock + sectors (r.length + 16 * files.length) + dataSectors files

section Files

variable {N : Nat} {s : Img} {root : List UInt8}

theorem addFile_spec (hN : N ≤ 207) (h : Built N s) (hlo : 2 ≤ s.freeinode) (hi : s.freeinode < N)
    (hroot : s.node ROOTINO = fileNode T_DIR root) (f : Input) (rest : List Input) :
    ((addFile ROOTINO f).run s).Sat (fun _ s' => Added N s root [f] s')
      (fun _ _ => ¬ Room s root.length (f :: rest)) := by
  have h2 : 2 ≤ N := by omega
  have hr1 : ROOTINO < N := by
    unfold ROOTINO
    omega
  have htd : T_DIR ≠ 0 := by decide
  have htf : T_FILE ≠ 0 := by decide
  unfold addFile
  by_cases hname : slash ∈ f.arg
  · rw [if_pos hname, Prog.sat_fail]
    exact fun room => (room.ok f List.mem_cons_self).name hname
  rw [if_neg hname]
  cases hdata : f.data with
  | none =>
    simp only [Prog.sat_fail]
    intro room
    have hopened := (room.ok f List.mem_cons_self).opened
    rw [hdata] at hopened
    exact Bool.false_ne_true hopened
  | some chunks =>
    have hbytes : f.bytes = chunks.flatten := by
      unfold Input.bytes
      rw [hdata]
      rfl
    have hneeds : ∀ {a b : Nat}, (Room s root.length (f :: rest) → b ≤ MAXFILE * BSIZE ∧
        s.freeblock + sectors b ≤ FSSIZE + sectors a) → Overfull s a b →
        ¬ Room s root.length (f :: rest) := by
      rintro a b hb (hbig | hbig) room
      · have := hb room
        omega
      · have := hb room
        omega
    simp only [Prog.sat_bind]
    refine (ialloc_spec h2 hN h hi htf).imp ?_
    rintro i s₁ ⟨rfl, h₁, hfi₁, hnode₁, hoth₁, hfb₁⟩
    have hne : ROOTINO ≠ s.freeinode := by
      unfold ROOTINO
      omega
    have hroot₁ : s₁.node ROOTINO = fileNode T_DIR root := by
      rw [hoth₁ ROOTINO hr1 hne, hroot]
    have hlen := length_direntOf s.freeinode f.name
    refine (iappend_spec h2 hN h₁ hr1 htd hroot₁ (direntOf s.freeinode f.name)).mono ?_ ?_
    · intro _ s₂ h₂
      have hnode₂ : s₂.node s.freeinode = fileNode T_FILE [] := by
        rw [h₂.others _ hi hne.symm, hnode₁]
      have hfb₂ := h₂.freeblock
      rw [length_append, hlen] at hfb₂
      refine (copyFile_spec h2 hN hi htf chunks h₂.built hnode₂ (Nat.zero_le _)).mono ?_ ?_
      · intro _ s₃ h₃
        have hfb₃ := h₃.freeblock
        rw [nil_append, length_nil, ← hbytes] at hfb₃
        have h0 : sectors 0 = 0 := by decide
        refine ⟨h₃.built, ?_, ?_, ?_, ?_, ?_⟩
        · rw [h₃.freeinode, h₂.freeinode, hfi₁]
          rfl
        · rw [h₃.others ROOTINO hr1 hne, h₂.node]
          simp only [entries, List.append_nil]
        · intro i g hg
          cases i with
          | zero =>
            cases hg
            rw [Nat.add_zero, h₃.node, nil_append, hbytes]
          | succ i => cases hg
        · intro j hj hjr
          rw [h₃.others j (by omega) (by omega), h₂.others j (by omega) hjr,
            hoth₁ j (by omega) (by omega)]
        · have hsum : dataSectors [f] = sectors f.bytes.length := dataSectors_cons f []
          rw [hsum, length_singleton, Nat.mul_one]
          omega
      · intro _ _ hbig room
        have hok := (room.ok f List.mem_cons_self).size
        have htot := room.total
        have hmono := sectors_mono (show root.length + 16 ≤ root.length + 16 * (f :: rest).length by
          rw [length_cons]
          omega)
        have hsum := dataSectors_cons f rest
        have h0 : sectors ([] : List UInt8).length = 0 := by decide
        unfold Overfull at hbig
        rw [← hbytes, length_nil, Nat.zero_add] at hbig
        rw [length_nil] at h0
        omega
    · intro _ _ hbig room
      have hrt := room.root
      have htot := room.total
      have hmono := sectors_mono (show root.length + 16 ≤ root.length + 16 * (f :: rest).length by
        rw [length_cons]
        omega)
      rw [length_cons] at hrt
      unfold Overfull at hbig
      rw [hlen] at hbig
      omega

theorem Added.cons {f : Input} {rest : List Input} {s' s'' : Img} (h : Added N s root [f] s')
    (hlo : 2 ≤ s.freeinode) (h' : Added N s' (root ++ entries s.freeinode [f]) rest s'') :
    Added N s root (f :: rest) s'' := by
  have hfi := h.freeinode
  have hlen : (root ++ entries s.freeinode [f]).length = root.length + 16 := by
    rw [length_append, length_entries]
    rfl
  rw [length_singleton] at hfi
  refine ⟨h'.built, ?_, ?_, ?_, ?_, ?_⟩
  · rw [h'.freeinode, hfi, length_cons]
    omega
  · rw [h'.root, hfi]
    simp only [entries, List.append_nil, List.append_assoc]
  · intro i g hg
    cases i with
    | zero =>
      cases hg
      rw [h'.old _ (by omega) (by unfold ROOTINO; omega)]
      exact h.file 0 f rfl
    | succ i =>
      have hnode := h'.file i g hg
      rw [hfi] at hnode
      rw [show s.freeinode + (i + 1) = s.freeinode + 1 + i by omega]
      exact hnode
  · intro j hj hjr
    rw [h'.old j (by omega) hjr, h.old j hj hjr]
  · have h1 := h.freeblock
    have h2 := h'.freeblock
    have hs1 : dataSectors [f] = sectors f.bytes.length := dataSectors_cons f []
    have hs2 := dataSectors_cons f rest
    rw [length_singleton, Nat.mul_one] at h1
    rw [hlen, show root.length + 16 + 16 * rest.length = root.length + 16 * (f :: rest).length by
      rw [length_cons]
      omega] at h2
    omega

theorem addFiles_spec (hN : N ≤ 207) (files : List Input) : ∀ {s : Img} {root : List UInt8},
    Built N s → 2 ≤ s.freeinode → s.freeinode + files.length ≤ N →
    s.node ROOTINO = fileNode T_DIR root →
    ((addFiles ROOTINO files).run s).Sat (fun _ s' => Added N s root files s')
      (fun _ _ => ¬ Room s root.length files) := by
  induction files with
  | nil =>
    intro s root h hlo hi hroot
    rw [addFiles, Prog.sat_pure]
    refine ⟨h, rfl, ?_, (fun i f hf => by cases hf), fun _ _ _ => rfl, ?_⟩
    · rw [entries, List.append_nil]
      exact hroot
    · rfl
  | cons f rest ih =>
    intro s root h hlo hi hroot
    rw [length_cons] at hi
    rw [addFiles, Prog.sat_bind]
    refine (addFile_spec hN h hlo (by omega) hroot f rest).imp ?_
    intro _ s₁ h₁
    have hfi := h₁.freeinode
    have hlen : (root ++ entries s.freeinode [f]).length = root.length + 16 := by
      rw [length_append, length_entries]
      rfl
    rw [length_singleton] at hfi
    refine (ih h₁.built (by omega) (by omega) h₁.root).mono ?_ ?_
    · intro _ s₂ h₂
      exact h₁.cons hlo h₂
    · intro _ _ hno room
      apply hno
      have hfb := h₁.freeblock
      have hs1 : dataSectors [f] = sectors f.bytes.length := dataSectors_cons f []
      have hs2 := dataSectors_cons f rest
      have hadd : root.length + 16 + 16 * rest.length = root.length + 16 * (f :: rest).length := by
        rw [length_cons]
        omega
      have hroom := room.root
      have htot := room.total
      rw [length_singleton, Nat.mul_one] at hfb
      refine ⟨fun g hg => room.ok g (List.mem_cons_of_mem f hg), ?_, ?_⟩
      · omega
      · rw [hlen, hadd]
        omega

end Files

def blank : Img :=
  ⟨Function.update (fun _ => Bytes.zero) 1 (Bytes.zero.splice 0 (sbBytes sb)), FSSIZE, 1, nmeta⟩

theorem sat_zeroes {Q : Unit → Img → Prop} {E : Exit → Img → Prop}
    (hQ : Q () ⟨fun _ => Bytes.zero, FSSIZE, 1, nmeta⟩) :
    ((Prog.loop (fun i => wsect i Bytes.zero) FSSIZE 0).run start).Sat Q E := by
  refine (Prog.sat_loop (I := fun j s => s = ⟨fun _ => Bytes.zero, j, 1, nmeta⟩) ?_ rfl).imp ?_
  · rintro j t - hj rfl
    rw [fssize_eq] at hj
    unfold wsect
    rw [Prog.sat_modify, seek_eq (by omega)]
    have hmax : max j (j + 1) = j + 1 := by omega
    simp only [hmax, Function.update_eq_self]
  · rintro ⟨⟩ t rfl
    exact hQ

theorem blank_sector {b : Nat} (h : b ≠ 1) : blank.sector b = Bytes.zero := by
  change Function.update (fun _ => Bytes.zero) 1 _ b = Bytes.zero
  rw [Function.update_of_ne h]

theorem blank_built {N : Nat} (hN : N ≤ 207) : Built N blank := by
  have hraw : Raw blank := by
    refine ⟨rfl, Nat.le_refl _, by decide, ?_⟩
    intro b hb
    have hne : b ≠ 1 := by
      have h1 : blank.freeblock = 59 := rfl
      omega
    exact blank_sector hne
  have hino : ∀ i < N, (ino sb blank.virt i).type = 0 := by
    intro i hi
    have hlt := iblock_lt hN hi
    have hne : sb.iblock i ≠ 1 := by
      have hle : 32 ≤ sb.iblock i := Nat.le_add_left _ _
      omega
    have hzero : blank.virt (sb.iblock i) = Bytes.zero :=
      (virt_of_ne (Nat.ne_of_lt hlt)).trans (blank_sector hne)
    unfold ino
    rw [hzero]
    exact type_zero i
  have hused : ∀ b < FSSIZE, used (layout N) blank.virt b = decide (b < nmeta) := by
    intro b hb
    have hmod : b % BPB = b := Nat.mod_eq_of_lt (Nat.lt_trans hb (by decide))
    have hself : blank.virt sb.bmapstart = bitmap nmeta := Function.update_self ..
    unfold used
    rw [bblock_eq N hb, hmod, hself, bit_bitmap _ (Nat.lt_trans hb (by decide))]
  refine ⟨hraw, diskOk_blank ?_ hino ?_, Nat.one_pos, ?_⟩
  · rw [layout_datastart]
    exact (by decide : nmeta ≤ FSSIZE)
  · intro b hb
    rw [layout_datastart]
    exact hused b hb
  · intro i _ hi
    unfold Img.node Fs.node
    rw [nodeOf_type]
    exact hino i hi

structure Fits (files : List Input) : Prop where
  ok : ∀ f ∈ files, f.Ok
  total : nmeta + sectors (16 * (files.length + 2)) + dataSectors files ≤ FSSIZE

def rootBytes (files : List Input) : List UInt8 :=
  direntOf ROOTINO dot ++ direntOf ROOTINO dotdot ++ entries 2 files

theorem length_rootBytes (files : List Input) :
    (rootBytes files).length = 16 * (files.length + 2) := by
  unfold rootBytes
  rw [length_append, length_append, length_direntOf, length_direntOf, length_entries]
  omega

def roundDin (d : Dinode) : Dinode :=
  { d with size := UInt32.ofNat ((d.size.toNat / BSIZE + 1) * BSIZE) }

/-- Where `mkfs` ends: `t` is the image before the size of the root directory is changed. -/
structure Made (N : Nat) (files : List Input) (t s : Img) : Prop where
  built : Built N t
  freeinode : t.freeinode = files.length + 2
  freeblock : t.freeblock = nmeta + sectors (16 * (files.length + 2)) + dataSectors files
  root : t.node ROOTINO = fileNode T_DIR (rootBytes files)
  file : ∀ i f, files[i]? = some f → t.node (i + 2) = fileNode T_FILE f.bytes
  image : s.sector = (t.blk.put (layout N) ROOTINO (roundDin (ino sb t.virt ROOTINO))).disk
  counts : s.freeinode = t.freeinode ∧ s.freeblock = t.freeblock

theorem finish_spec {N : Nat} {t : Img} (hlo : 2 ≤ N) (hN : N ≤ 207) (h : Built N t)
    {E : Exit → Img → Prop} :
    ((do
      roundRoot ROOTINO
      let s ← Prog.get
      balloc s.freeblock : MkM Unit).run t).Sat
      (fun _ s => s.sector = (t.blk.put (layout N) ROOTINO
          (roundDin (ino sb t.virt ROOTINO))).disk ∧
        s.freeinode = t.freeinode ∧ s.freeblock = t.freeblock) E := by
  have hr1 : ROOTINO < N := hlo
  have hfb : t.freeblock < BSIZE * 8 := Nat.lt_of_le_of_lt h.raw.hi (by decide)
  have hraw := h.raw.setInode (d := roundDin (ino sb t.virt ROOTINO)) hN hr1
  unfold roundRoot
  simp only [Prog.sat_bind]
  rw [sat_rinode h.raw hN hr1, sat_winode h.raw hN hr1, Prog.sat_get]
  unfold balloc
  rw [if_pos (by exact hfb), sat_wsect (by exact h.raw.len) (by decide)]
  refine ⟨?_, rfl, rfl⟩
  exact virt_setInode (u := t.blk) hN hr1 rfl

theorem mkfs_spec {N : Nat} (hN : N ≤ 207) (files : List Input) (hlen : files.length + 2 ≤ N) :
    ((mkfs files).run start).Sat (fun _ s => ∃ t, Made N files t s) (fun _ _ => ¬ Fits files) := by
  have hlo : 2 ≤ N := by omega
  have hr1 : ROOTINO < N := hlo
  have htd : T_DIR ≠ 0 := by decide
  have hblank := blank_built hN
  have h512 : sectors 16 = sectors 32 := by decide
  have hfull : ∀ {s : Img} {a b : Nat}, s.freeblock + sectors b ≤ FSSIZE + sectors a →
      b ≤ MAXFILE * BSIZE → Overfull s a b → ¬ Fits files := by
    rintro s a b h1 h2 (hbig | hbig)
    · omega
    · omega
  unfold mkfs
  rw [Prog.sat_bind]
  apply sat_zeroes
  rw [Prog.sat_bind, sat_wsect rfl (by decide), Prog.sat_bind]
  refine (ialloc_spec hlo hN (s := blank) hblank hr1 htd).imp ?_
  rintro i s₁ ⟨rfl, h₁, hfi₁, hnode₁, -, hfb₁⟩
  have hi : blank.freeinode = ROOTINO := rfl
  rw [hi] at hnode₁ hfi₁ ⊢
  have hfb₁' : s₁.freeblock = 59 := hfb₁
  rw [if_neg (fun hc => hc rfl), Prog.sat_bind]
  have hlen16 := length_direntOf ROOTINO
  refine (iappend_spec hlo hN h₁ hr1 htd hnode₁ (direntOf ROOTINO dot)).mono ?_ ?_
  · intro _ s₂ h₂
    have hfb₂ := h₂.freeblock
    rw [nil_append, hlen16, length_nil] at hfb₂
    rw [Prog.sat_bind]
    refine (iappend_spec hlo hN h₂.built hr1 htd h₂.node (direntOf ROOTINO dotdot)).mono ?_ ?_
    · intro _ s₃ h₃
      have hfi₃ : s₃.freeinode = 2 := by
        rw [h₃.freeinode, h₂.freeinode, hfi₁]
        rfl
      have hfb₃ := h₃.freeblock
      rw [nil_append, length_append, hlen16, hlen16] at hfb₃
      have h0 : sectors 0 = 0 := by decide
      rw [Prog.sat_bind]
      refine (addFiles_spec hN files h₃.built (by omega) (by omega) h₃.node).mono ?_ ?_
      · intro _ t ht
        have hroot := ht.root
        have hfb := ht.freeblock
        have hfile := ht.file
        rw [nil_append, length_append, hlen16, hlen16,
          show 16 + 16 + 16 * files.length = 16 * (files.length + 2) by omega] at hfb
        rw [hfi₃, nil_append] at hroot
        rw [hfi₃] at hfile
        refine (finish_spec hlo hN ht.built).imp ?_
        rintro _ s ⟨himg, hcount⟩
        refine ⟨t, ht.built, ?_, ?_, hroot, ?_, himg, hcount⟩
        · rw [ht.freeinode, hfi₃]
          omega
        · rw [nmeta_eq]
          omega
        · intro i f hf
          rw [Nat.add_comm]
          exact hfile i f hf
      · intro _ _ hno fits
        apply hno
        have htot := fits.total
        rw [nmeta_eq] at htot
        refine ⟨fits.ok, ?_, ?_⟩
        · rw [nil_append, length_append, hlen16, hlen16]
          have hM : MAXFILE * BSIZE = 71680 := by decide
          omega
        · rw [nil_append, length_append, hlen16, hlen16,
            show 16 + 16 + 16 * files.length = 16 * (files.length + 2) by omega]
          omega
    · intro _ _ hbig
      rw [nil_append, hlen16, hlen16] at hbig
      have h0 : sectors 0 = 0 := by decide
      have h16 : sectors 16 = 1 := by decide
      have h32 : sectors (16 + 16) = 1 := by decide
      refine hfull ?_ (by decide) hbig
      rw [fssize_eq]
      omega
  · intro _ _ hbig
    rw [hlen16, length_nil, Nat.zero_add] at hbig
    have h0 : sectors 0 = 0 := by decide
    have h16 : sectors 16 = 1 := by decide
    refine hfull ?_ (by decide) hbig
    rw [fssize_eq]
    omega

end BossOs.Mkfs
