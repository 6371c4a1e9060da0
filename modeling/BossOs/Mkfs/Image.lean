import BossOs.Fs.Iput
import BossOs.Mkfs.Append

/-!
# The files of an image

What `mkfs` has built so far, as the nodes a kernel would see: `ialloc` adds an empty one,
`iappend` adds bytes at the end of one, and every other node stays as it is.
-/

namespace BossOs.Mkfs

open Lib Fs
open Prog (sat_bind sat_get sat_modify sat_pure)

def fileNode (type : Int16) (c : List UInt8) : Node := ⟨type, 0, 0, 1, c.length, fun k => c.getD k 0⟩

def Img.node (s : Img) (i : Nat) : Node := Fs.node sb s.virt i

def sectors (size : Nat) : Nat := need (blocks size)

structure Built (N : Nat) (s : Img) : Prop where
  raw : Raw s
  disk : DiskOk (layout N) s.virt
  pos : 0 < s.freeinode
  free : ∀ i, i = 0 ∨ s.freeinode ≤ i → i < N → (s.node i).type = 0

def Overfull (s : Img) (a b : Nat) : Prop :=
  MAXFILE * BSIZE < b ∨ FSSIZE + sectors a < s.freeblock + sectors b

structure Extended (N : Nat) (s : Img) (i : Nat) (type : Int16) (c c' : List UInt8) (s' : Img) :
    Prop where
  built : Built N s'
  freeinode : s'.freeinode = s.freeinode
  node : s'.node i = fileNode type c'
  others : ∀ j, j < N → j ≠ i → s'.node j = s.node j
  freeblock : s'.freeblock + sectors c.length = s.freeblock + sectors c'.length
  size_le : c'.length ≤ MAXFILE * BSIZE

theorem Extended.trans {N i : Nat} {s s' s'' : Img} {type : Int16} {c c' c'' : List UInt8}
    (h : Extended N s i type c c' s') (h' : Extended N s' i type c' c'' s'') :
    Extended N s i type c c'' s'' := by
  refine ⟨h'.built, h'.freeinode.trans h.freeinode, h'.node, ?_, ?_, h'.size_le⟩
  · intro j hj hne
    rw [h'.others j hj hne, h.others j hj hne]
  · have h1 := h.freeblock
    have h2 := h'.freeblock
    omega

theorem fileNode_write (type : Int16) (c p : List UInt8) :
    (fileNode type c).write c.length p = fileNode type (c ++ p) := by
  ext k
  · rfl
  · rfl
  · rfl
  · rfl
  · simp only [Node.write, fileNode, List.length_append]
    omega
  · simp only [Node.write, fileNode]
    by_cases hk : c.length ≤ k ∧ k < c.length + p.length
    · rw [if_pos hk, List.getD_append_right _ _ _ _ hk.1]
    · rw [if_neg hk]
      by_cases hkc : k < c.length
      · rw [List.getD_append _ _ _ _ hkc]
      · rw [List.getD_eq_default _ _ (by omega),
          List.getD_eq_default _ _ (by rw [List.length_append]; omega)]

section Inodes

variable {N i : Nat} {s : Img} {d : Dinode} {E : Exit → Img → Prop}

theorem sector_iblock (hN : N ≤ 207) (hi : i < N) : s.sector (sb.iblock i) = s.virt (sb.iblock i) :=
  (virt_of_ne (Nat.ne_of_lt (iblock_lt hN hi))).symm

theorem iblock_lt_freeblock (h : Raw s) (hN : N ≤ 207) (hi : i < N) :
    sb.iblock i < s.freeblock := by
  have h1 := iblock_lt hN hi
  have h2 := h.lo
  have h3 : sb.bmapstart = 58 := rfl
  rw [nmeta_eq] at h2
  omega

theorem sat_rinode (h : Raw s) (hN : N ≤ 207) (hi : i < N) {Q : Dinode → Img → Prop} :
    ((rinode i).run s).Sat Q E = Q (ino sb s.virt i) s := by
  have hlt := Nat.lt_of_lt_of_le (iblock_lt_freeblock h hN hi) h.hi
  unfold rinode
  rw [sat_bind, sat_rsect h.len hlt, sat_pure, sector_iblock hN hi]
  rfl

def Img.setInode (s : Img) (i : Nat) (d : Dinode) : Img :=
  s.put (sb.iblock i) (putDinode (s.sector (sb.iblock i)) i d)

theorem sat_winode (h : Raw s) (hN : N ≤ 207) (hi : i < N) {Q : Unit → Img → Prop} :
    ((winode i d).run s).Sat Q E = Q () (s.setInode i d) := by
  have hlt := Nat.lt_of_lt_of_le (iblock_lt_freeblock h hN hi) h.hi
  unfold winode
  rw [sat_bind, sat_rsect h.len hlt, sat_wsect h.len hlt]
  rfl

theorem virt_setInode (hN : N ≤ 207) (hi : i < N) {u : Blk} (hu : u.disk = s.virt) :
    (s.setInode i d).virt = (u.put (layout N) i d).disk := by
  have hne : sb.iblock i ≠ sb.bmapstart := Nat.ne_of_lt (iblock_lt hN hi)
  unfold Img.setInode
  rw [virt_put hne, sector_iblock hN hi, ← hu]
  rfl

theorem Raw.setInode (h : Raw s) (hN : N ≤ 207) (hi : i < N) : Raw (s.setInode i d) :=
  h.put (iblock_lt_freeblock h hN hi) _

def Img.blk (s : Img) : Blk := ⟨s.virt, [], 0, [], [], false, 0⟩

theorem Built.isOpen (h : Built N s) (hi : i < N) (ht : (s.node i).type ≠ 0) :
    Open (layout N) s.blk i (ino sb s.virt i) (blocks (ino sb s.virt i).size.toNat)
      (NDIRECT < blocks (ino sb s.virt i).size.toNat) := by
  have ht' : (ino sb s.virt i).type ≠ 0 := by
    rw [Img.node, Fs.node, nodeOf_type] at ht
    exact ht
  have hown := h.disk.owns
  rw [← tabOf_ino (layout N) _ i] at hown
  exact ⟨hi, ht', hown, (h.disk.shaped i hi ht').extent⟩

theorem size_of_node {type : Int16} {c : List UInt8} (ht : type ≠ 0)
    (h : s.node i = fileNode type c) :
    (ino sb s.virt i).type = type ∧ (ino sb s.virt i).size.toNat = c.length := by
  have h1 : (nodeOf (ino sb s.virt i) s.virt).type = type := congrArg Node.type h
  rw [nodeOf_type] at h1
  have h2 : (nodeOf (ino sb s.virt i) s.virt).size = c.length := congrArg Node.size h
  rw [nodeOf_of_type _ (by rw [h1]; exact ht)] at h2
  exact ⟨h1, h2⟩

end Inodes

section Files

variable {N i : Nat} {s : Img} {type : Int16}

theorem iappend_spec (hlo : 2 ≤ N) (hN : N ≤ 207) (h : Built N s) (hi : i < N) (ht : type ≠ 0)
    {c : List UInt8} (hc : s.node i = fileNode type c) (p : List UInt8) :
    ((iappend i p).run s).Sat (fun _ s' => Extended N s i type c (c ++ p) s')
      (fun _ _ => Overfull s c.length (c.length + p.length)) := by
  have hsb := layout_wf hlo hN
  obtain ⟨htype, hsize⟩ := size_of_node ht hc
  have ht' : (ino sb s.virt i).type ≠ 0 := by
    rw [htype]
    exact ht
  have hopen := h.isOpen hi (by rw [hc]; exact ht)
  have hcap : c.length ≤ MAXFILE * BSIZE := by
    have hle := (h.disk.shaped i hi ht').size_le
    change (ino sb s.virt i).size.toNat ≤ _ at hle
    rwa [hsize] at hle
  have hmax : ∀ len, max (blocks c.length) (blocks (c.length + len)) = blocks (c.length + len) := by
    intro len
    apply Nat.max_eq_right
    simp only [blocks, bsize_eq]
    omega
  rw [hsize] at hopen
  unfold iappend
  rw [sat_bind, sat_rinode h.raw hN hi, sat_bind, hsize]
  refine (iappendFrom_spec hsb p.length (u := s.blk) rfl h.raw hopen (blocks_le hcap)
    (Nat.le_refl _) (le_blocks_mul _)).mono ?_ ?_
  · rintro ⟨d, off⟩ s' ⟨hoff, hend, u, j, hr, hj, hw⟩
    simp only at hoff hend hw ⊢
    rw [hmax] at hj
    subst hoff
    rw [sat_winode hr.raw hN hi]
    generalize hd' : ({ d with size := UInt32.ofNat (c.length + p.length) } : Dinode) = d'
    have hvirt := virt_setInode (d := d') hN hi hr.disk
    have hw' : Written (layout N) i (blocks (ino (layout N) s.blk.disk i).size.toNat) c.length p s.blk
        (ino (layout N) s.blk.disk i) (max (blocks (ino (layout N) s.blk.disk i).size.toNat)
          (blocks (c.length + p.length))) u d := by
      change Written (layout N) i (blocks (ino sb s.virt i).size.toNat) c.length p s.blk
        (ino sb s.virt i) (max (blocks (ino sb s.virt i).size.toNat)
          (blocks (c.length + p.length))) u d
      rw [hsize]
      exact hw
    obtain ⟨hdisk, hnode, hoth, -, -⟩ := hw'.put_size _ hsb h.disk
      (by change c.length ≤ (ino sb s.virt i).size.toNat; omega) hend
      (by change (ino sb s.virt i).size.toNat ≤ _; omega) ht' hd'.symm
    have hothers : ∀ j < N, j ≠ i → (s'.setInode i d').node j = s.node j := by
      intro j hj hne
      unfold Img.node
      rw [hvirt]
      exact h.disk.node_of_others hoth hj hne
    refine ⟨⟨hr.raw.setInode hN hi, ?_, ?_, ?_⟩, hr.freeinode, ?_, hothers, ?_, ?_⟩
    · rw [hvirt]
      exact hdisk
    · exact h.pos.trans_eq hr.freeinode.symm
    · intro j hj hjN
      have hfi : (s'.setInode i d').freeinode = s.freeinode := hr.freeinode
      rw [hfi] at hj
      have hfree := h.free j hj hjN
      have hne : j ≠ i := by
        rintro rfl
        rw [hc] at hfree
        exact ht hfree
      rw [hothers j hjN hne]
      exact hfree
    · unfold Img.node
      rw [hvirt]
      refine hnode.trans ?_
      change (s.node i).write c.length p = _
      rw [hc, fileNode_write]
    · have hfb : (s'.setInode i d').freeblock = s.freeblock + j := hr.freeblock
      rw [hfb, List.length_append]
      unfold sectors
      omega
    · rw [List.length_append]
      exact hend
  · rintro _ _ (hbig | hbig)
    · exact Or.inl hbig
    · rw [hmax] at hbig
      exact Or.inr hbig

theorem sectors_mono {a b : Nat} (h : a ≤ b) : sectors a ≤ sectors b := by
  apply need_mono
  simp only [blocks, bsize_eq]
  omega

theorem copyFile_spec (hlo : 2 ≤ N) (hN : N ≤ 207) (hi : i < N) (ht : type ≠ 0)
    (chunks : List (List UInt8)) : ∀ {s : Img} {c : List UInt8}, Built N s →
    s.node i = fileNode type c → c.length ≤ MAXFILE * BSIZE →
    ((copyFile i chunks).run s).Sat (fun _ s' => Extended N s i type c (c ++ chunks.flatten) s')
      (fun _ _ => Overfull s c.length (c.length + chunks.flatten.length)) := by
  induction chunks with
  | nil =>
    intro s c h hc hle
    rw [copyFile, sat_pure, List.flatten_nil, List.append_nil]
    exact ⟨h, rfl, hc, fun _ _ _ => rfl, rfl, hle⟩
  | cons p chunks ih =>
    intro s c h hc hle
    have hlen : c.length + (p :: chunks).flatten.length =
        c.length + p.length + chunks.flatten.length := by
      rw [List.flatten_cons, List.length_append]
      omega
    rw [copyFile, sat_bind, hlen]
    refine (iappend_spec hlo hN h hi ht hc p).mono ?_ ?_
    · intro _ s' he
      have hcap := he.size_le
      refine (ih he.built he.node hcap).mono ?_ ?_
      · intro _ s'' he'
        rw [List.flatten_cons, ← List.append_assoc]
        exact he.trans he'
      · intro _ _ hbig
        have hfb := he.freeblock
        unfold Overfull at hbig ⊢
        rw [List.length_append] at hbig hfb
        omega
    · intro _ _ hbig
      have hmono := sectors_mono (Nat.le_add_right (c.length + p.length) chunks.flatten.length)
      unfold Overfull at hbig ⊢
      omega

theorem ialloc_spec (hlo : 2 ≤ N) (hN : N ≤ 207) (h : Built N s) (hi : s.freeinode < N)
    (ht : type ≠ 0) {E : Exit → Img → Prop} : ((ialloc type).run s).Sat
      (fun i s' => i = s.freeinode ∧ Built N s' ∧ s'.freeinode = s.freeinode + 1 ∧
        s'.node i = fileNode type [] ∧ (∀ j < N, j ≠ i → s'.node j = s.node j) ∧
        s'.freeblock = s.freeblock) E := by
  have hsb := layout_wf hlo hN
  have hraw : Raw { s with freeinode := s.freeinode + 1 } :=
    ⟨h.raw.len, h.raw.lo, h.raw.hi, h.raw.zero⟩
  unfold ialloc
  rw [sat_bind, sat_get, sat_bind, sat_modify, sat_bind,
    sat_winode hraw hN hi, sat_pure]
  generalize hd : (⟨type, 0, 0, 1, 0, fun _ => 0⟩ : Dinode) = d
  have hvirt : (Img.setInode { s with freeinode := s.freeinode + 1 } s.freeinode d).virt =
      (s.blk.put (layout N) s.freeinode d).disk := virt_setInode hN hi rfl
  have h0 : (ino sb s.virt s.freeinode).type = 0 := by
    have hfree := h.free _ (Or.inr (Nat.le_refl _)) hi
    rwa [Img.node, Fs.node, nodeOf_type] at hfree
  have hown := h.disk.owns
  rw [← tabOf_ino (layout N) _ s.freeinode] at hown
  have hdisk := diskOk_put hsb hi (u := s.blk) (d := d) h.disk (fun hne => absurd h0 hne)
    (by rw [← hd]) (by rw [← hd])
  have hoth := others_put s.blk s.freeinode d hsb hi hown
  have hothers : ∀ j < N, j ≠ s.freeinode →
      (Img.setInode { s with freeinode := s.freeinode + 1 } s.freeinode d).node j = s.node j := by
    intro j hj hne
    unfold Img.node
    rw [hvirt]
    exact h.disk.node_of_others hoth hj hne
  refine ⟨rfl, ⟨hraw.setInode hN hi, ?_, Nat.succ_pos _, ?_⟩, rfl, ?_, hothers, rfl⟩
  · rw [hvirt]
    exact hdisk
  · intro j hj hjN
    have hj' : j = 0 ∨ s.freeinode + 1 ≤ j := hj
    have hpos := h.pos
    rw [hothers j hjN (by omega)]
    exact h.free j (by omega) hjN
  · have hino : ino sb (s.blk.put (layout N) s.freeinode d).disk s.freeinode = d :=
      ino_put_self s.blk s.freeinode d
    unfold Img.node Fs.node
    rw [hvirt, hino, nodeOf_of_type _ (by rw [← hd]; exact ht), ← hd]
    rfl

end Files

end BossOs.Mkfs
