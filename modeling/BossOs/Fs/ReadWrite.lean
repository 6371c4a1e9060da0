import BossOs.Fs.Content

/-!
# Reading and writing

The loops of `readi` and `writei` on an open inode. Reading changes nothing; writing
stores the bytes, adding zeroed blocks at the end of the file as it goes.
-/

namespace BossOs.Fs

open Lib
open Prog (sat_bind sat_pure)

variable {sb : Superblock}

def fileBytes (d : Dinode) (D : Nat → Block) (off n : Nat) : List UInt8 :=
  (List.range n).map fun k => fileByte d D (off + k)

theorem fileBytes_append (d : Dinode) (D : Nat → Block) (off m n : Nat) :
    fileBytes d D off (m + n) = fileBytes d D off m ++ fileBytes d D (off + m) n := by
  simp only [fileBytes, List.range_add, List.map_append, List.map_map]
  congr 1
  apply List.map_congr_left
  intro k _
  simp [Nat.add_assoc]

theorem slice_eq_fileBytes (d : Dinode) (D : Nat → Block) {off m : Nat}
    (hm : m ≤ BSIZE - off % BSIZE) :
    (D (blockAt d D (off / BSIZE))).slice (off % BSIZE) m = fileBytes d D off m := by
  unfold Bytes.slice fileBytes
  apply List.map_congr_left
  intro k hk
  rw [List.mem_range] at hk
  have hdiv : (off + k) / BSIZE = off / BSIZE := by
    simp only [bsize_eq] at hm ⊢
    omega
  have hmod : (off + k) % BSIZE = off % BSIZE + k := by
    simp only [bsize_eq] at hm ⊢
    omega
  rw [fileByte, hdiv, hmod]

theorem sat_readFrom {s : State} {e : Entry} {i n : Nat}
    (h : Open sb s.blk i (s.icache e).din n (NDIRECT < n)) (hh : s.blk.held = [])
    (hn : n ≤ MAXFILE) (fuel off len : Nat) (hfuel : len ≤ fuel) (hlen : off + len ≤ n * BSIZE)
    {Q : List UInt8 → State → Prop} {E : Stop → State → Prop} :
    ((readFrom sb e fuel off len).run s).Sat Q E =
      Q (fileBytes (s.icache e).din s.blk.disk off len) s := by
  induction fuel generalizing off len Q with
  | zero =>
    obtain rfl : len = 0 := by omega
    exact sat_pure []
  | succ fuel ih =>
    unfold readFrom
    by_cases h0 : len = 0
    · subst h0
      rw [if_pos rfl]
      exact sat_pure []
    · have hk : off / BSIZE < n := div_lt_of_lt (by omega)
      have hpos : 0 < BSIZE - off % BSIZE := by
        simp only [bsize_eq]
        omega
      have hheld : blockAt (s.icache e).din s.blk.disk (off / BSIZE) ∉ s.blk.held := by
        rw [hh]
        exact List.not_mem_nil
      rw [if_neg h0, sat_bind, bmap_mapped h hh hk (Nat.lt_of_lt_of_le hk hn), sat_bind,
        sat_lift, sat_bread hheld]
      simp only [sat_bind]
      rw [sat_lift, sat_brelse rfl]
      refine (ih _ _ (by omega) (by omega)).trans ?_
      rw [sat_pure, slice_eq_fileBytes _ _ (Nat.min_le_right _ _), ← fileBytes_append]
      rw [Nat.add_sub_cancel' (Nat.min_le_left _ _)]

/-- The state in which block `k` exists, at address `b`; a block added for it is zero. -/
structure Mapped (sb : Superblock) (i n k : Nat) (s : Blk) (d : Dinode) (b : Nat) (t : Blk)
    (d' : Dinode) : Prop where
  isOpen : Open sb t i d' (max n (k + 1)) (NDIRECT < max n (k + 1))
  keeps : Keeps sb i n s d t d'
  block : blockAt d' t.disk k = b
  byte : ∀ p, p < max n (k + 1) * BSIZE →
    fileByte d' t.disk p = if p < n * BSIZE then fileByte d s.disk p else 0
  free : freeBlocks sb t.disk + need (max n (k + 1)) = freeBlocks sb s.disk + need n
  frame : Frame (fun c => n ≤ k ∧ newFoot sb d' k b c) s t

theorem Keeps.byte {i n : Nat} {s t : Blk} {d d' : Dinode} (h : Keeps sb i n s d t d')
    (hn : n ≤ MAXFILE) {p : Nat} (hp : p < n * BSIZE) :
    fileByte d' t.disk p = fileByte d s.disk p := by
  have hk := div_lt_of_lt hp
  have hm := Nat.lt_of_lt_of_le hk hn
  rw [fileByte, fileByte, h.block _ hk hm, h.data _ hk hm]

variable {k : Nat}

theorem Mapped.of_lt {i n : Nat} {s : Blk} {d : Dinode} (h : Open sb s i d n (NDIRECT < n))
    (hk : k < n) : Mapped sb i n k s d (blockAt d s.disk k) s d := by
  have hmax : max n (k + 1) = n := Nat.max_eq_left hk
  refine ⟨?_, Keeps.refl .., rfl, ?_, by rw [hmax], Frame.refl ..⟩
  · rw [hmax]
    exact h
  · intro p hp
    rw [hmax] at hp
    rw [if_pos hp]

theorem Mapped.of_grown {i b : Nat} {s t : Blk} {d d' : Dinode} (hg : Grown sb i k s d b t d')
    (ho : Open sb s i d k (NDIRECT < k)) (hk : k ≤ MAXFILE) : Mapped sb i k k s d b t d' := by
  have hmax : max k (k + 1) = k + 1 := Nat.max_eq_right (Nat.le_succ k)
  refine ⟨?_, hg.keeps, hg.block, ?_, ?_, hg.frame.mono fun c hc => ⟨Nat.le_refl k, hc⟩⟩
  · rw [hmax]
    exact hg.isOpen
  · intro p hp
    rw [hmax] at hp
    by_cases hpk : p < k * BSIZE
    · rw [if_pos hpk]
      exact hg.keeps.byte hk hpk
    · have hdiv : p / BSIZE = k := by
        simp only [bsize_eq] at hp hpk ⊢
        omega
      rw [if_neg hpk, fileByte, hdiv, hg.block, hg.zero, Bytes.get_zero]
  · rw [hmax, ← hg.isOpen.taken_eq, ← ho.taken_eq]
    exact hg.free

theorem bmap_spec {s : State} {e : Entry} {i n : Nat} (hsb : sb.Wf)
    (h : Open sb s.blk i (s.icache e).din n (NDIRECT < n)) (hh : s.blk.held = [])
    (hop : 1 ≤ s.blk.outstanding) (hn : n ≤ MAXFILE) (hk : k ≤ n) (hm : k < MAXFILE) :
    ((bmap sb e k).run s).Sat
      (fun b t => ∃ u d', t = s.withDin e u d' ∧ Mapped sb i n k s.blk (s.icache e).din b u d')
      (fun x _ => x = .panic .outOfBlocks ∧
        freeBlocks sb s.blk.disk + need n < need (max n (k + 1))) := by
  rcases Nat.lt_or_eq_of_le hk with hlt | rfl
  · rw [bmap_mapped h hh hlt hm]
    exact ⟨s.blk, (s.icache e).din, (withDin_eq s e).symm, Mapped.of_lt h hlt⟩
  · rw [Nat.max_eq_right (Nat.le_succ k)]
    refine (bmap_new hsb h hh hop hm).imp ?_
    rintro b t ⟨u, d', rfl, hg⟩
    exact ⟨u, d', rfl, Mapped.of_grown hg h hn⟩

theorem used_store {s : Blk} {b c : Nat} {v : Block} (hb : sb.datastart ≤ b) (hc : c < sb.size) :
    used sb (s.store b v).disk c = used sb s.disk c := by
  have := Superblock.Wf.bblock_lt hc
  exact used_update_of_ne _ _ (by omega)

theorem Open.store {i n : Nat} {s : Blk} {d : Dinode} {ind : Prop} (hsb : sb.Wf)
    (h : Open sb s i d n ind) (hk : k < n) (hn : n ≤ MAXFILE) (v : Block) :
    Open sb (s.store (blockAt d s.disk k) v) i d n ind ∧
      (∀ j < MAXFILE, blockAt d (s.store (blockAt d s.disk k) v).disk j = blockAt d s.disk j) ∧
      Others sb i s.disk (s.store (blockAt d s.disk k) v).disk ∧ (∀ j, j < sb.ninodes →
        ino sb (s.store (blockAt d s.disk k) v).disk j = ino sb s.disk j) := by
  have hm := Nat.lt_of_lt_of_le hk hn
  have hlo := (h.range hk hm).1
  have hpl : ∀ q, placeBlock d (s.store (blockAt d s.disk k) v).disk q = placeBlock d s.disk q :=
    placeBlock_congr fun _ => Function.update_of_ne (h.indirect_ne hk hm).symm _ _
  have hat : ∀ j, j < MAXFILE →
      blockAt d (s.store (blockAt d s.disk k) v).disk j = blockAt d s.disk j := by
    intro j hj
    rw [← placeBlock_of _ _ hj, ← placeBlock_of _ _ hj]
    exact hpl _
  have hoth : Others sb i s.disk (s.store (blockAt d s.disk k) v).disk := by
    have hb := (h.extent.block k hm).mpr hk
    rw [← placeBlock_of _ _ hm] at hb ⊢
    exact others_store hsb h.owns h.inum h.typed hb v
  refine ⟨⟨h.inum, h.typed,
    h.owns.keep hoth h.inum h.typed h.typed hpl (fun c hc => used_store hlo hc) hsb.data,
    ⟨fun j hj => ?_, h.extent.indirect⟩⟩, hat, hoth, ?_⟩
  · rw [hat j hj]
    exact h.extent.block j hj
  · intro j hj
    have := hsb.iblock_lt_datastart hj
    exact ino_update_of_ne _ _ (by omega)

theorem Open.byte_store {i n : Nat} {s : Blk} {d : Dinode} {ind : Prop} (hsb : sb.Wf)
    (h : Open sb s i d n ind) (hk : k < n) (hn : n ≤ MAXFILE) (v : Block) {p : Nat}
    (hp : p < n * BSIZE) : fileByte d (s.store (blockAt d s.disk k) v).disk p =
      if p / BSIZE = k then v.get (p % BSIZE) else fileByte d s.disk p := by
  obtain ⟨-, hat, -, -⟩ := h.store hsb hk hn v
  have hpn := div_lt_of_lt hp
  have hpm := Nat.lt_of_lt_of_le hpn hn
  rw [fileByte, hat _ hpm]
  by_cases hpk : p / BSIZE = k
  · rw [if_pos hpk, hpk]
    simp only [Blk.store, Function.update_self]
  · rw [if_neg hpk, fileByte]
    have hne : blockAt d s.disk (p / BSIZE) ≠ blockAt d s.disk k :=
      fun heq => hpk (h.inj hpn hpm (Nat.lt_of_lt_of_le hk hn) heq)
    simp only [Blk.store, Function.update_of_ne hne]

/-- What writing `len` bytes at `off` may log, given the addresses the file has in the end. -/
def writeFoot (sb : Superblock) (d : Dinode) (D : Nat → Block) (n off len c : Nat) : Prop :=
  ∃ k, off / BSIZE ≤ k ∧ k * BSIZE < off + len ∧
    (c = blockAt d D k ∨ (n ≤ k ∧ newFoot sb d k (blockAt d D k) c))

/-- The bytes `src` were written at `off` into a file of `n` blocks, which now has `n'`. -/
structure Written (sb : Superblock) (i n off : Nat) (src : List UInt8) (s : Blk) (d : Dinode)
    (n' : Nat) (t : Blk) (d' : Dinode) : Prop where
  isOpen : Open sb t i d' n' (NDIRECT < n')
  le : n ≤ n'
  block : ∀ k, k < n → k < MAXFILE → blockAt d' t.disk k = blockAt d s.disk k
  byte : ∀ p, p < n' * BSIZE → fileByte d' t.disk p =
    if off ≤ p ∧ p < off + src.length then src.getD (p - off) 0
    else if p < n * BSIZE then fileByte d s.disk p else 0
  others : Others sb i s.disk t.disk
  inodes : ∀ j, j < sb.ninodes → ino sb t.disk j = ino sb s.disk j
  indirect : d.addr NDIRECT ≠ 0 → d'.addr NDIRECT = d.addr NDIRECT
  fields : d' = { d with addrs := d'.addrs }
  free : freeBlocks sb t.disk + need n' = freeBlocks sb s.disk + need n
  frame : Frame (writeFoot sb d' t.disk n off src.length) s t
  logs : ∀ p, off ≤ p → p < off + src.length → blockAt d' t.disk (p / BSIZE) ∈ t.logged

namespace Written

variable {i n n' n'' off : Nat} {src src' : List UInt8} {s t u : Blk} {d d' d'' : Dinode}

theorem foot_mono (h : Written sb i n off src s d n' t d') (hn' : n' ≤ MAXFILE)
    (h' : Written sb i n' (off + src.length) src' t d' n'' u d'') {c : Nat}
    (hlen : off + src.length ≤ n' * BSIZE) (hc : writeFoot sb d' t.disk n off src.length c) :
    writeFoot sb d'' u.disk n off (src.length + src'.length) c := by
  obtain ⟨k, hk1, hk2, hk3⟩ := hc
  have hkn : k < n' := Nat.lt_of_mul_lt_mul_right (Nat.lt_of_lt_of_le hk2 hlen)
  have hblk := h'.block k hkn (Nat.lt_of_lt_of_le hkn hn')
  refine ⟨k, hk1, by omega, ?_⟩
  rw [hblk]
  refine hk3.imp_right fun ⟨hnk, hf⟩ => ⟨hnk, ?_⟩
  unfold newFoot at hf ⊢
  by_cases hkd : NDIRECT ≤ k
  · have h12 : d'.addr NDIRECT ≠ 0 := h.isOpen.extent.indirect.mpr (by omega)
    rw [h'.indirect h12]
    exact hf
  · rcases hf with hf | hf | ⟨hf, -⟩ | ⟨hf, -⟩
    · exact Or.inl hf
    · exact Or.inr (Or.inl hf)
    · exact absurd hf hkd
    · omega

theorem append (h : Written sb i n off src s d n' t d') (hn' : n' ≤ MAXFILE)
    (hlen : off + src.length ≤ n' * BSIZE)
    (h' : Written sb i n' (off + src.length) src' t d' n'' u d'') :
    Written sb i n off (src ++ src') s d n'' u d'' := by
  refine ⟨h'.isOpen, Nat.le_trans h.le h'.le, ?_, ?_, h.others.trans h'.others,
    fun j hj => (h'.inodes j hj).trans (h.inodes j hj), ?_, ?_, h'.free.trans h.free, ?_, ?_⟩
  · intro k hk hm
    exact (h'.block k (Nat.lt_of_lt_of_le hk h.le) hm).trans (h.block k hk hm)
  · intro p hp
    rw [h'.byte p hp]
    have hnn : n * BSIZE ≤ n' * BSIZE := Nat.mul_le_mul_right _ h.le
    by_cases h2 : off + src.length ≤ p ∧ p < off + src.length + src'.length
    · rw [if_pos h2, if_pos (by rw [List.length_append]; omega)]
      rw [List.getD_append_right _ _ _ _ (by omega), Nat.sub_add_eq]
    · rw [if_neg h2]
      by_cases hpn : p < n' * BSIZE
      · rw [if_pos hpn, h.byte p hpn]
        by_cases h1 : off ≤ p ∧ p < off + src.length
        · rw [if_pos h1, if_pos (by rw [List.length_append]; omega),
            List.getD_append _ _ _ _ (by omega)]
        · have h12 : ¬ (off ≤ p ∧ p < off + (src ++ src').length) := by
            rw [List.length_append]
            omega
          rw [if_neg h1, if_neg h12]
      · have h12 : ¬ (off ≤ p ∧ p < off + (src ++ src').length) := by
          rw [List.length_append]
          omega
        rw [if_neg hpn, if_neg h12, if_neg (by omega)]
  · intro h0
    rw [h'.indirect (by rw [h.indirect h0]; exact h0), h.indirect h0]
  · have h1 := h'.fields
    rw [h.fields] at h1
    exact h1
  · rw [List.length_append]
    refine (h.frame.mono fun c hc => ?_).trans (h'.frame.mono ?_)
    · exact h.foot_mono hn' h' hlen hc
    · rintro c ⟨k, hk1, hk2, hk3⟩
      refine ⟨k, ?_, by omega, hk3.imp_right fun ⟨hnk, hf⟩ => ⟨Nat.le_trans h.le hnk, hf⟩⟩
      exact Nat.le_trans (Nat.div_le_div_right (Nat.le_add_right _ _)) hk1
  · intro p hp hpe
    rw [List.length_append] at hpe
    by_cases hlt : p < off + src.length
    · have hk : p / BSIZE < n' := div_lt_of_lt (Nat.lt_of_lt_of_le hlt hlen)
      rw [h'.block _ hk (Nat.lt_of_lt_of_le hk hn')]
      exact h'.frame.log.sub (h.logs p hp hlt)
    · exact h'.logs p (by omega) (by omega)

theorem nil (h : Open sb s i d n (NDIRECT < n)) (off : Nat) : Written sb i n off [] s d n s d := by
  refine ⟨h, Nat.le_refl n, fun _ _ _ => rfl, ?_, Others.refl .., fun _ _ => rfl, fun _ => rfl, rfl,
    rfl, Frame.refl .., ?_⟩
  · intro p hp
    rw [if_neg (by simp only [List.length_nil]; omega), if_pos hp]
  · intro p hp hpe
    exact absurd hp (Nat.not_le_of_lt hpe)

theorem of_mapped {b : Nat} (hsb : sb.Wf) (h : Mapped sb i n (off / BSIZE) s d b t d')
    (hm : max n (off / BSIZE + 1) ≤ MAXFILE) (hlen : src.length ≤ BSIZE - off % BSIZE)
    (hpos : 0 < src.length) : Written sb i n off src s d (max n (off / BSIZE + 1))
      (t.store b ((t.disk b).splice (off % BSIZE) src)) d' := by
  have hk : off / BSIZE < max n (off / BSIZE + 1) := Nat.lt_of_lt_of_le (Nat.lt_succ_self _)
    (Nat.le_max_right _ _)
  obtain rfl := h.block
  obtain ⟨ho, hat, hoth, hino⟩ := h.isOpen.store hsb hk hm
    ((t.disk (blockAt d' t.disk (off / BSIZE))).splice (off % BSIZE) src)
  have hlo := (h.isOpen.range hk (Nat.lt_of_lt_of_le hk hm)).1
  refine ⟨ho, Nat.le_max_left _ _, ?_, ?_, h.keeps.others.trans hoth,
    fun j hj => (hino j hj).trans (h.keeps.inodes j hj), h.keeps.indirect, h.keeps.fields, ?_, ?_, ?_⟩
  · intro k hkn hkm
    rw [hat k hkm]
    exact h.keeps.block k hkn hkm
  · intro p hp
    rw [h.isOpen.byte_store hsb hk hm _ hp, ← h.byte p hp]
    by_cases hin : off ≤ p ∧ p < off + src.length
    · have hdiv : p / BSIZE = off / BSIZE := by
        simp only [bsize_eq] at hlen ⊢
        omega
      have hmod : p % BSIZE = off % BSIZE + (p - off) := by
        simp only [bsize_eq] at hlen ⊢
        omega
      rw [if_pos hdiv, if_pos hin, Bytes.get_splice _ _ _ (Nat.mod_lt _ (by decide)), hmod,
        if_pos (Nat.le_add_right _ _), Nat.add_sub_cancel_left, List.getD_eq_getElem?_getD,
        List.getElem?_eq_getElem (by omega)]
      rfl
    · rw [if_neg hin]
      by_cases hdiv : p / BSIZE = off / BSIZE
      · rw [if_pos hdiv, Bytes.get_splice _ _ _ (Nat.mod_lt _ (by decide)), fileByte, hdiv]
        split
        · rw [List.getElem?_eq_none (by simp only [bsize_eq] at *; omega)]
          rfl
        · rfl
      · rw [if_neg hdiv]
  · rw [← h.free, freeBlocks_congr fun c hc => used_store hlo hc]
  · refine (h.frame.mono ?_).trans ((Frame.store ..).mono ?_)
    · rintro c ⟨hnk, hf⟩
      refine ⟨off / BSIZE, Nat.le_refl _, ?_, Or.inr ⟨hnk, ?_⟩⟩
      · have := Nat.div_mul_le_self off BSIZE
        omega
      · rw [hat _ (Nat.lt_of_lt_of_le hk hm)]
        exact hf
    · rintro c rfl
      refine ⟨off / BSIZE, Nat.le_refl _, ?_, Or.inl (hat _ (Nat.lt_of_lt_of_le hk hm)).symm⟩
      have := Nat.div_mul_le_self off BSIZE
      omega
  · intro p hp hpe
    have hdiv : p / BSIZE = off / BSIZE := by
      simp only [bsize_eq] at hlen ⊢
      omega
    rw [hdiv, hat _ (Nat.lt_of_lt_of_le hk hm)]
    exact mem_addLog.mpr (Or.inr rfl)

end Written

theorem writeFrom_spec {s : State} {e : Entry} {i n : Nat} (hsb : sb.Wf)
    (h : Open sb s.blk i (s.icache e).din n (NDIRECT < n)) (hh : s.blk.held = [])
    (hop : 1 ≤ s.blk.outstanding) (hn : n ≤ MAXFILE) (fuel off : Nat) (src : List UInt8)
    (hfuel : src.length ≤ fuel) (hoff : off ≤ n * BSIZE) (hend : off + src.length ≤ MAXFILE * BSIZE) :
    ((writeFrom sb e fuel off src).run s).Sat (fun _ t => ∃ u d', t = s.withDin e u d' ∧
        Written sb i n off src s.blk (s.icache e).din (max n (blocks (off + src.length))) u d')
      (fun x _ => x = .panic .outOfBlocks ∧
        freeBlocks sb s.blk.disk + need n < need (max n (blocks (off + src.length)))) := by
  have hnil : ∀ {s : State} {n off : Nat}, Open sb s.blk i (s.icache e).din n (NDIRECT < n) →
      off ≤ n * BSIZE → ∃ u d', s = s.withDin e u d' ∧
      Written sb i n off [] s.blk (s.icache e).din (max n (blocks off)) u d' := by
    intro s n off h hoff
    refine ⟨s.blk, (s.icache e).din, (withDin_eq s e).symm, ?_⟩
    rw [Nat.max_eq_left (blocks_le hoff)]
    exact Written.nil h off
  induction fuel generalizing s n off src with
  | zero =>
    obtain rfl : src = [] := List.eq_nil_of_length_eq_zero (by omega)
    rw [writeFrom, sat_pure]
    exact hnil h hoff
  | succ fuel ih =>
    unfold writeFrom
    by_cases h0 : src = []
    · subst h0
      rw [if_pos rfl, sat_pure]
      exact hnil h hoff
    · have hpos : 0 < src.length := List.length_pos_iff.mpr h0
      have hk : off / BSIZE ≤ n := Nat.div_le_of_le_mul (by rwa [Nat.mul_comm])
      have hm : off / BSIZE < MAXFILE := div_lt_of_lt (by omega)
      have hle : off / BSIZE + 1 ≤ blocks (off + src.length) := by
        simp only [blocks, bsize_eq]
        omega
      rw [if_neg h0, sat_bind]
      refine (bmap_spec hsb h hh hop hn hk hm).mono ?_ ?_
      rotate_left
      · rintro x _ ⟨hx, hfull⟩
        exact ⟨hx, Nat.lt_of_lt_of_le hfull (need_mono (by omega))⟩
      rintro b _ ⟨u, d', rfl, hmap⟩
      have hheld : u.held = [] := hmap.frame.held.trans hh
      have hop' : 1 ≤ u.outstanding := hop.trans_eq hmap.frame.outstanding.symm
      rw [sat_bind, sat_lift, sat_bread (by exact hheld ▸ List.not_mem_nil)]
      simp only [sat_bind, sat_lift]
      refine (sat_store (s := u) hop').mpr ?_
      -- the bytes that fall into this block, and the number of blocks after them
      obtain ⟨m, hmin⟩ : ∃ m, m = min src.length (BSIZE - off % BSIZE) := ⟨_, rfl⟩
      rw [← hmin]
      have hmpos : 0 < m := by
        simp only [bsize_eq] at hmin
        omega
      have htake : (src.take m).length = m := by
        rw [List.length_take]
        omega
      have hblk : blocks (off + m) = off / BSIZE + 1 := by
        simp only [blocks, bsize_eq] at hmin ⊢
        omega
      have hw := Written.of_mapped hsb hmap (by omega) (by omega)
        (show 0 < (src.take m).length by omega)
      have hlen : off + (src.take m).length ≤ max n (off / BSIZE + 1) * BSIZE := by
        rw [htake, ← hblk]
        exact Nat.le_trans (le_blocks_mul _) (Nat.mul_le_mul_right _ (Nat.le_max_right _ _))
      have hdrop : src.length - m = (src.drop m).length := List.length_drop.symm
      have hmax : max (max n (off / BSIZE + 1)) (blocks (off + m + (src.drop m).length)) =
          max n (blocks (off + src.length)) := by
        have h1 : off + m + (src.drop m).length = off + src.length := by omega
        have h2 : blocks (off + m) ≤ blocks (off + src.length) := by
          simp only [blocks, bsize_eq]
          omega
        rw [h1]
        omega
      refine (ih (s := s.withDin e (u.store b ((u.disk b).splice (off % BSIZE) (src.take m))) d')
        (n := max n (off / BSIZE + 1)) ?_ hheld hop' (by omega) (off + m) (src.drop m) (by omega)
        (by omega) (by omega)).mono ?_ ?_
      · rw [withDin_icache_self]
        exact hw.isOpen
      · rintro _ _ ⟨v, d'', rfl, hv⟩
        refine ⟨v, d'', withDin_withDin .., ?_⟩
        rw [withDin_icache_self, hmax] at hv
        rw [show off + m = off + (src.take m).length by rw [htake]] at hv
        have happ := hw.append (by omega) hlen hv
        rwa [List.take_append_drop] at happ
      · rintro x _ ⟨hx, hfull⟩
        rw [hmax] at hfull
        exact ⟨hx, hw.free.symm.trans_lt hfull⟩

end BossOs.Fs
