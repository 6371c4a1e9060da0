import BossOs.Fs.ReadWrite
import BossOs.Mkfs.Model

/-!
# `iappend`

`mkfs` writes the free map last. The image with the free map that would be written now is,
at every moment, a file system as the kernel knows it, and `iappend` acts on it as the
kernel's `bmap` and `writei` do: `freeblock++` is `balloc`, since the sectors from
`freeblock` on are still zero.
-/

namespace BossOs.Mkfs

open Lib Fs
open Prog (sat_bind sat_fail sat_modify sat_pure)
open Function (update update_self update_of_ne update_comm)

def layout (N : Nat) : Superblock := { sb with ninodes := N }

def Img.virt (s : Img) : Nat → Block := update s.sector sb.bmapstart (bitmap s.freeblock)

def Img.put (s : Img) (sec : Nat) (v : Block) : Img :=
  { s with sector := update s.sector sec v }

def Img.take (s : Img) : Img := { s with freeblock := s.freeblock + 1 }

structure Raw (s : Img) : Prop where
  len : s.len = FSSIZE
  lo : nmeta ≤ s.freeblock
  hi : s.freeblock ≤ FSSIZE
  zero : ∀ b, s.freeblock ≤ b → s.sector b = Bytes.zero

theorem fssize_eq : FSSIZE = 1000 := rfl

theorem nmeta_eq : nmeta = 59 := rfl

theorem layout_datastart (N : Nat) : (layout N).datastart = nmeta := by
  change sb.datastart = nmeta
  decide

theorem layout_wf {N : Nat} (hlo : 2 ≤ N) (hhi : N ≤ 207) : (layout N).Wf := by
  refine ⟨?_, ?_, ?_, ?_, ?_⟩
  · have hI : IPB = 8 := rfl
    have h1 : (layout N).inodestart = 32 := rfl
    have h2 : (layout N).bmapstart = 58 := rfl
    have h3 : (layout N).ninodes = N := rfl
    rw [h1, h2, h3, hI]
    omega
  · rw [layout_datastart]
    exact (by decide : nmeta ≤ FSSIZE)
  · exact (by decide : FSSIZE < 2 ^ 31)
  · exact Nat.le_trans hhi (by decide)
  · exact hlo

theorem iblock_lt {N i : Nat} (hN : N ≤ 207) (hi : i < N) : sb.iblock i < sb.bmapstart := by
  have hI : IPB = 8 := rfl
  have h1 : sb.inodestart = 32 := rfl
  have h2 : sb.bmapstart = 58 := rfl
  unfold Superblock.iblock
  rw [h1, h2, hI]
  omega

theorem bblock_eq (N : Nat) {b : Nat} (hb : b < FSSIZE) : (layout N).bblock b = sb.bmapstart := by
  have hB : BPB = 4096 := rfl
  have h2 : (layout N).bmapstart = sb.bmapstart := rfl
  unfold Superblock.bblock
  rw [h2, hB]
  rw [fssize_eq] at hb
  omega

theorem seek_eq {sec : Nat} (h : sec < 2 ^ 23) : seek sec = sec := by
  have hB : BSIZE = 512 := rfl
  unfold seek
  rw [hB]
  omega

theorem bitmap_succ (n : Nat) : bitmap (n + 1) = (bitmap n).setBit n := Bytes.lowBits_succ n

theorem bit_bitmap (n : Nat) {i : Nat} (hi : i < 8 * BSIZE) :
    (bitmap n).bit i = decide (i < n) := Bytes.bit_lowBits n hi

section Sectors

variable {s : Img} {sec : Nat} {E : Exit → Img → Prop}

theorem sat_rsect (hlen : s.len = FSSIZE) (h : sec < FSSIZE) {Q : Block → Img → Prop} :
    ((rsect sec).run s).Sat Q E = Q (s.sector sec) s := by
  have hseek : seek sec = sec := seek_eq (Nat.lt_trans h (by decide))
  change Outcome.Sat (if seek sec < s.len then _ else _) Q E = _
  rw [hseek, if_pos (by omega), Outcome.sat_ok]

theorem sat_rsect_end (hlen : s.len = FSSIZE) (h : FSSIZE ≤ sec) (hsec : sec < 2 ^ 23)
    {Q : Block → Img → Prop} : ((rsect sec).run s).Sat Q E = E .failed s := by
  change Outcome.Sat (if seek sec < s.len then _ else _) Q E = _
  rw [seek_eq hsec, if_neg (by omega), Outcome.sat_stop]

theorem sat_wsect (hlen : s.len = FSSIZE) (h : sec < FSSIZE) (v : Block)
    {Q : Unit → Img → Prop} : ((wsect sec v).run s).Sat Q E = Q () (s.put sec v) := by
  have hseek : seek sec = sec := seek_eq (Nat.lt_trans h (by decide))
  have hmax : max s.len (sec + 1) = s.len := by omega
  unfold wsect
  rw [sat_modify, hseek, hmax]
  rfl

theorem sat_nextBlock {Q : Nat → Img → Prop} :
    (nextBlock.run s).Sat Q E = Q s.freeblock s.take := Outcome.sat_ok ..

theorem virt_of_ne (h : sec ≠ sb.bmapstart) : s.virt sec = s.sector sec :=
  update_of_ne h ..

theorem virt_put (h : sec ≠ sb.bmapstart) (v : Block) :
    (s.put sec v).virt = update s.virt sec v := by
  unfold Img.virt Img.put
  exact update_comm h v (bitmap s.freeblock) s.sector

theorem Raw.put (h : Raw s) (hsec : sec < s.freeblock) (v : Block) : Raw (s.put sec v) := by
  refine ⟨h.len, h.lo, h.hi, ?_⟩
  intro b hb
  have hne : b ≠ sec := by
    rintro rfl
    exact absurd hb (Nat.not_le_of_lt hsec)
  exact (update_of_ne hne _ _).trans (h.zero b hb)

theorem Raw.take (h : Raw s) (hlt : s.freeblock < FSSIZE) : Raw s.take := by
  refine ⟨h.len, Nat.le_succ_of_le h.lo, hlt, ?_⟩
  intro b hb
  exact h.zero b (Nat.le_of_succ_le hb)

variable {N : Nat} {u : Blk}

theorem virt_take (h : Raw s) (hlt : s.freeblock < FSSIZE) (hu : u.disk = s.virt) :
    (u.alloc (layout N) s.freeblock).disk = s.take.virt := by
  have hbb : (layout N).bblock s.freeblock = sb.bmapstart := bblock_eq N hlt
  have hmod : s.freeblock % BPB = s.freeblock := Nat.mod_eq_of_lt (Nat.lt_trans hlt (by decide))
  have hne : s.freeblock ≠ sb.bmapstart := by
    have h1 := h.lo
    have h2 : sb.bmapstart = 58 := rfl
    rw [nmeta_eq] at h1
    omega
  have hself : s.virt sb.bmapstart = bitmap s.freeblock := update_self ..
  have hzero : s.take.virt s.freeblock = Bytes.zero :=
    (virt_of_ne hne).trans (h.zero _ (Nat.le_refl _))
  simp only [Blk.alloc, Blk.store]
  rw [hu, hbb, hmod, hself, ← bitmap_succ]
  funext b
  by_cases hb : b = s.freeblock
  · rw [hb, update_self, hzero]
  · rw [update_of_ne hb]
    by_cases hbm : b = sb.bmapstart
    · rw [hbm, update_self]
      exact (update_self sb.bmapstart _ s.sector).symm
    · rw [update_of_ne hbm]
      exact (virt_of_ne hbm).trans (virt_of_ne (s := s.take) hbm).symm

theorem fresh_freeblock (h : Raw s) (hlt : s.freeblock < FSSIZE) (hu : u.disk = s.virt) :
    Fresh (layout N) u s.freeblock := by
  refine ⟨by rw [layout_datastart]; exact h.lo, hlt, ?_⟩
  have hbb : (layout N).bblock s.freeblock = sb.bmapstart := bblock_eq N hlt
  have hmod : s.freeblock % BPB = s.freeblock := Nat.mod_eq_of_lt (Nat.lt_trans hlt (by decide))
  have hself : s.virt sb.bmapstart = bitmap s.freeblock := update_self ..
  unfold used
  rw [hu, hbb, hmod, hself, bit_bitmap _ (Nat.lt_trans hlt (by decide))]
  exact decide_eq_false (Nat.lt_irrefl _)

end Sectors

/-- What `iappend` has done so far: the image is that of `u`, and `k` sectors were taken. -/
structure Reached (s : Img) (k : Nat) (u : Blk) (s' : Img) : Prop where
  disk : u.disk = s'.virt
  raw : Raw s'
  freeinode : s'.freeinode = s.freeinode
  freeblock : s'.freeblock = s.freeblock + k

theorem Reached.trans {s s' s'' : Img} {k k' : Nat} {u u' : Blk} (h : Reached s k u s')
    (h' : Reached s' k' u' s'') : Reached s (k + k') u' s'' := by
  refine ⟨h'.disk, h'.raw, h'.freeinode.trans h.freeinode, ?_⟩
  rw [h'.freeblock, h.freeblock, Nat.add_assoc]

theorem Reached.take {s : Img} {u : Blk} (N : Nat) (hu : u.disk = s.virt) (h : Raw s)
    (hlt : s.freeblock < FSSIZE) : Reached s 1 (u.alloc (layout N) s.freeblock) s.take :=
  ⟨virt_take h hlt hu, h.take hlt, rfl, rfl⟩

theorem Reached.store {s s' : Img} {k : Nat} {u : Blk} (h : Reached s k u s') {sec : Nat}
    (hlo : nmeta ≤ sec) (hhi : sec < s'.freeblock) (v : Block) :
    Reached s k (u.store sec v) (s'.put sec v) := by
  have hne : sec ≠ sb.bmapstart := by
    have h2 : sb.bmapstart = 58 := rfl
    rw [nmeta_eq] at hlo
    omega
  refine ⟨?_, h.raw.put hhi v, h.freeinode, h.freeblock⟩
  rw [virt_put hne, ← h.disk]
  rfl

section Blocks

variable {N i n k : Nat} {s : Img} {u : Blk} {d : Dinode}

theorem lt_freeblock {b : Nat} (hb : b < FSSIZE) (hu : u.disk = s.virt)
    (hused : used (layout N) u.disk b = true) : b < s.freeblock := by
  have hself : s.virt sb.bmapstart = bitmap s.freeblock := update_self ..
  have hmod : b % BPB = b := Nat.mod_eq_of_lt (Nat.lt_trans hb (by decide))
  unfold used at hused
  rw [hu, bblock_eq N hb, hmod, hself, bit_bitmap _ (Nat.lt_trans hb (by decide))] at hused
  exact of_decide_eq_true hused

theorem entryOf_spec (hsb : (layout N).Wf) (hu : u.disk = s.virt) (hraw : Raw s)
    (h : Open (layout N) u i d n True) (hn : NDIRECT ≤ n) (hm : n < MAXFILE) :
    ((entryOf (d.addr NDIRECT) (n - NDIRECT)).run s).Sat
      (fun x s' => (FSSIZE ≤ s.freeblock ∧ x = s.freeblock ∧ s'.len = FSSIZE) ∨
        ∃ u', Reached s 1 u' s' ∧ Grown (layout N) i n u d x u' d) fun _ _ => False := by
  have hr := h.indirect_range trivial
  have hlo : nmeta ≤ d.addr NDIRECT := by
    rw [← layout_datastart N]
    exact hr.1
  have hhi : d.addr NDIRECT < FSSIZE := hr.2
  have h12 : d.addr NDIRECT ≠ 0 := h.extent.indirect.mpr trivial
  have hlt := lt_freeblock hhi hu (h.owns.used_self (q := .indirect) h.inum h.typed h12)
  have hsec : s.sector (d.addr NDIRECT) = u.disk (d.addr NDIRECT) := by
    rw [hu, virt_of_ne]
    have h2 : sb.bmapstart = 58 := rfl
    rw [nmeta_eq] at hlo
    omega
  have h0 : (u.disk (d.addr NDIRECT)).word (n - NDIRECT) = 0 := by
    have hb := h.extent.block n hm
    rw [blockAt, if_neg (by omega), if_neg h12] at hb
    by_contra hc
    exact absurd (hb.mp hc) (Nat.lt_irrefl n)
  have hword : ∀ b, b < 2 ^ 32 →
      ((u.disk (d.addr NDIRECT)).setWord (n - NDIRECT) b).word (n - NDIRECT) = b := by
    intro b hb
    rw [Bytes.word_setWord_self, Nat.mod_eq_of_lt hb]
    have hM : MAXFILE = 140 := rfl
    have hD : NDIRECT = 12 := rfl
    have hB : BSIZE = 512 := rfl
    rw [hM] at hm
    rw [hD, hB]
    omega
  have hf32 : s.freeblock < 2 ^ 32 := Nat.lt_of_le_of_lt hraw.hi (by decide)
  unfold entryOf
  rw [sat_bind, sat_rsect hraw.len hhi, hsec, if_pos h0, sat_bind, sat_nextBlock,
    sat_bind, sat_wsect (s := s.take) hraw.len hhi, sat_pure, hword _ hf32]
  by_cases hend : FSSIZE ≤ s.freeblock
  · exact Or.inl ⟨hend, rfl, hraw.len⟩
  · right
    have hfree : s.freeblock < FSSIZE := by omega
    refine ⟨_, (Reached.take N hu hraw hfree).store hlo (Nat.lt_succ_of_lt hlt) _, ?_⟩
    exact grown_entry hsb h hn hm (fresh_freeblock hraw hfree hu)

theorem blockOf_spec (hsb : (layout N).Wf) (hu : u.disk = s.virt) (hraw : Raw s)
    (h : Open (layout N) u i d n (NDIRECT < n)) (hn : n ≤ MAXFILE) (hk : k ≤ n) (hm : k < MAXFILE) :
    ((blockOf d k).run s).Sat (fun r s' => (FSSIZE ≤ r.2 ∧ r.2 < 2 ^ 23 ∧ s'.len = FSSIZE ∧
          FSSIZE + need n < s.freeblock + need (max n (k + 1))) ∨
        ∃ u' j, Reached s j u' s' ∧ need n + j = need (max n (k + 1)) ∧
          Mapped (layout N) i n k u d r.2 u' r.1)
      (fun _ _ => FSSIZE + need n < s.freeblock + need (max n (k + 1))) := by
  have hsame : Reached s 0 u s := ⟨hu, hraw, rfl, rfl⟩
  rcases Nat.lt_or_eq_of_le hk with hlt | rfl
  · -- the block is there
    have hb := (h.extent.block k hm).mpr hlt
    have hmax : max n (k + 1) = n := Nat.max_eq_left hlt
    have hdone : ∃ u' j, Reached s j u' s ∧ need n + j = need (max n (k + 1)) ∧
        Mapped (layout N) i n k u d (blockAt d u.disk k) u' d :=
      ⟨u, 0, hsame, by rw [hmax]; rfl, Mapped.of_lt h hlt⟩
    unfold blockOf
    by_cases hkd : k < NDIRECT
    · have hat : blockAt d u.disk k = d.addr k := if_pos hkd
      rw [hat] at hb hdone
      rw [if_pos hkd, if_neg hb, sat_pure]
      exact Or.inr hdone
    · have h12 : d.addr NDIRECT ≠ 0 := h.extent.indirect.mpr (by omega)
      have hat : blockAt d u.disk k = (u.disk (d.addr NDIRECT)).word (k - NDIRECT) := by
        rw [blockAt, if_neg hkd, if_neg h12]
      have hr := h.indirect_range (by omega)
      have hsec : s.sector (d.addr NDIRECT) = u.disk (d.addr NDIRECT) := by
        rw [hu, virt_of_ne]
        have h1 := hr.1
        have h2 : sb.bmapstart = 58 := rfl
        rw [layout_datastart, nmeta_eq] at h1
        omega
      rw [hat] at hb hdone
      unfold indirectOf entryOf
      rw [if_neg hkd, if_neg h12, sat_bind, sat_pure, sat_bind, sat_bind,
        sat_rsect hraw.len hr.2, hsec, if_neg hb, sat_pure, sat_pure]
      exact Or.inr hdone
  · -- it is the next one
    have hmax : max k (k + 1) = k + 1 := Nat.max_eq_right (Nat.le_succ k)
    have hhi := hraw.hi
    have hsmall : s.freeblock < 2 ^ 23 := Nat.lt_of_le_of_lt hhi (by decide)
    have hf32 : s.freeblock < 2 ^ 32 := Nat.lt_trans hsmall (by decide)
    rw [hmax]
    unfold blockOf
    by_cases hkd : k < NDIRECT
    · have hneed := need_succ_direct hkd
      have h0 : d.addr k = 0 := by
        have hb := h.extent.block k hm
        rw [blockAt, if_pos hkd] at hb
        by_contra hc
        exact absurd (hb.mp hc) (Nat.lt_irrefl k)
      have hself : (d.setAddr k s.freeblock).addr k = s.freeblock := d.addr_setAddr_self hf32
      rw [if_pos hkd, if_pos h0, sat_bind, sat_nextBlock, sat_pure]
      rw [hself]
      by_cases hend : FSSIZE ≤ s.freeblock
      · exact Or.inl ⟨hend, hsmall, hraw.len, by omega⟩
      · have hfree : s.freeblock < FSSIZE := by omega
        have hg := grown_direct hsb h hkd (fresh_freeblock hraw hfree hu)
        exact Or.inr ⟨_, 1, Reached.take N hu hraw hfree, by omega, Mapped.of_grown hg h hn⟩
    · have hkd' : NDIRECT ≤ k := by omega
      rw [if_neg hkd, sat_bind]
      by_cases h12 : d.addr NDIRECT = 0
      · -- the indirect block is new as well
        have hk12 : k = NDIRECT := by
          by_contra hne
          exact h.extent.indirect.mpr (by omega) h12
        have hneed : need (k + 1) = need k + 2 := by
          rw [hk12]
          exact need_succ_indirect
        have hself : (d.setAddr NDIRECT s.freeblock).addr NDIRECT = s.freeblock :=
          d.addr_setAddr_self hf32
        unfold indirectOf
        rw [if_pos h12, sat_bind, sat_nextBlock, sat_pure, sat_bind]
        by_cases hend : FSSIZE ≤ s.freeblock
        · unfold entryOf
          rw [hself, sat_bind, sat_rsect_end (s := s.take) hraw.len hend hsmall]
          omega
        · have hfree : s.freeblock < FSSIZE := by omega
          have g := given_indirect hsb h (by omega) (fresh_freeblock (N := N) hraw hfree hu)
          have hreach := Reached.take N hu hraw hfree
          refine (entryOf_spec hsb hreach.disk hreach.raw (g.open_indirect h) hkd' hm).mono ?_
            fun _ _ hf => hf.elim
          rintro x s' (⟨hend', rfl, hlen⟩ | ⟨u', hr', hg⟩)
          · rw [sat_pure]
            have hfb : s.take.freeblock = s.freeblock + 1 := rfl
            refine Or.inl ⟨hend', ?_, hlen, by omega⟩
            exact Nat.lt_of_le_of_lt hreach.raw.hi (by decide)
          · rw [sat_pure]
            refine Or.inr ⟨u', 1 + 1, hreach.trans hr', by omega, Mapped.of_grown ?_ h hn⟩
            apply hg.after_indirect hkd' (alloc_keeps hsb h g fun j _ hj => Place.of_ne_indirect)
              g.freeBlocks_indirect
            apply (frame_alloc u).mono
            intro c hc
            rw [hself]
            exact ⟨hk12, hc⟩
      · have hk12 : NDIRECT < k := h.extent.indirect.mp h12
        have hneed := need_succ_entry hk12
        have hopen : Open (layout N) u i d k True :=
          ⟨h.inum, h.typed, h.owns, h.extent.block, by simpa using h12⟩
        unfold indirectOf
        rw [if_neg h12, sat_pure, sat_bind]
        refine (entryOf_spec hsb hu hraw hopen hkd' hm).mono ?_ fun _ _ hf => hf.elim
        rintro x s' (⟨hend, rfl, hlen⟩ | ⟨u', hr', hg⟩)
        · rw [sat_pure]
          exact Or.inl ⟨hend, hsmall, hlen, by omega⟩
        · rw [sat_pure]
          exact Or.inr ⟨u', 1, hr', by omega, Mapped.of_grown hg h hn⟩

def TooBig (s : Img) (n off len : Nat) : Prop :=
  MAXFILE * BSIZE < off + len ∨ FSSIZE + need n < s.freeblock + need (max n (blocks (off + len)))

theorem iappendFrom_spec (hsb : (layout N).Wf) (fuel : Nat) : ∀ {s : Img} {u : Blk} {d : Dinode}
    {n off : Nat} {p : List UInt8}, u.disk = s.virt → Raw s →
    Open (layout N) u i d n (NDIRECT < n) → n ≤ MAXFILE → p.length ≤ fuel → off ≤ n * BSIZE →
    ((iappendFrom fuel d off p).run s).Sat
      (fun r s' => r.2 = off + p.length ∧ r.2 ≤ MAXFILE * BSIZE ∧ ∃ u' j, Reached s j u' s' ∧
        need n + j = need (max n (blocks (off + p.length))) ∧
        Written (layout N) i n off p u d (max n (blocks (off + p.length))) u' r.1)
      (fun _ _ => TooBig s n off p.length) := by
  have hnil : ∀ {s : Img} {u : Blk} {d : Dinode} {n off : Nat}, u.disk = s.virt → Raw s →
      Open (layout N) u i d n (NDIRECT < n) → n ≤ MAXFILE → off ≤ n * BSIZE →
      off = off + ([] : List UInt8).length ∧ off ≤ MAXFILE * BSIZE ∧ ∃ u' j, Reached s j u' s ∧
        need n + j = need (max n (blocks (off + ([] : List UInt8).length))) ∧
        Written (layout N) i n off [] u d (max n (blocks (off + ([] : List UInt8).length))) u' d := by
    intro s u d n off hu hraw h hn hoff
    have hb : max n (blocks off) = n := Nat.max_eq_left (blocks_le hoff)
    refine ⟨rfl, Nat.le_trans hoff (Nat.mul_le_mul_right _ hn), u, 0, ⟨hu, hraw, rfl, rfl⟩, ?_, ?_⟩
    · rw [List.length_nil, Nat.add_zero, Nat.add_zero, hb]
    · rw [List.length_nil, Nat.add_zero, hb]
      exact Written.nil h off
  induction fuel with
  | zero =>
    intro s u d n off p hu hraw h hn hp hoff
    obtain rfl : p = [] := List.eq_nil_of_length_eq_zero (by omega)
    rw [iappendFrom, sat_pure]
    exact hnil hu hraw h hn hoff
  | succ fuel ih =>
    intro s u d n off p hu hraw h hn hp hoff
    unfold iappendFrom
    by_cases h0 : p = []
    · subst h0
      rw [if_pos rfl, sat_pure]
      exact hnil hu hraw h hn hoff
    · have hpos : 0 < p.length := List.length_pos_iff.mpr h0
      have hk : off / BSIZE ≤ n := Nat.div_le_of_le_mul (by rwa [Nat.mul_comm])
      rw [if_neg h0]
      by_cases hm : MAXFILE ≤ off / BSIZE
      · rw [if_pos hm, sat_fail]
        left
        have := Nat.div_mul_le_self off BSIZE
        have := Nat.mul_le_mul_right BSIZE hm
        omega
      · -- the bytes that fall into this block, and the number of blocks after them
        obtain ⟨m, hmin⟩ : ∃ m, m = min p.length ((off / BSIZE + 1) * BSIZE - off) := ⟨_, rfl⟩
        have hmod : (off / BSIZE + 1) * BSIZE - off = BSIZE - off % BSIZE := by
          simp only [bsize_eq]
          omega
        have hsub : off - off / BSIZE * BSIZE = off % BSIZE := by
          simp only [bsize_eq]
          omega
        have hmpos : 0 < m := by
          rw [hmod] at hmin
          simp only [bsize_eq] at hmin
          omega
        have hblk : blocks (off + m) = off / BSIZE + 1 := by
          rw [hmod] at hmin
          simp only [blocks, bsize_eq] at hmin ⊢
          omega
        have htake : (p.take m).length = m := by
          rw [List.length_take]
          omega
        have hdrop : (p.drop m).length = p.length - m := List.length_drop
        have hle : blocks (off + m) ≤ blocks (off + p.length) := by
          simp only [blocks, bsize_eq]
          omega
        have hfull : FSSIZE + need n < s.freeblock + need (max n (off / BSIZE + 1)) →
            TooBig s n off p.length := by
          intro hf
          have := need_mono (show max n (off / BSIZE + 1) ≤ max n (blocks (off + p.length)) by omega)
          exact Or.inr (by omega)
        rw [if_neg hm, sat_bind, ← hmin, hsub]
        refine (blockOf_spec hsb hu hraw h hn hk (by omega)).mono ?_ fun _ _ hf => hfull hf
        rintro ⟨d', x⟩ s' (⟨hx, hx', hlen, hf⟩ | ⟨u', j, hr, hj, hmap⟩)
        · simp only [sat_bind]
          rw [sat_rsect_end hlen hx hx']
          exact hfull hf
        · have hmax : off / BSIZE < max n (off / BSIZE + 1) := by omega
          have hmx : max n (off / BSIZE + 1) ≤ MAXFILE := by omega
          have hblock := hmap.block
          have hrange := hmap.isOpen.range hmax (by omega)
          have hused := hmap.isOpen.used_block hmax (by omega)
          rw [hblock] at hrange hused
          have hlo : nmeta ≤ x := by
            rw [← layout_datastart N]
            exact hrange.1
          have hsec : s'.sector x = u'.disk x := by
            rw [hr.disk, virt_of_ne]
            have h2 : sb.bmapstart = 58 := rfl
            rw [nmeta_eq] at hlo
            omega
          simp only [sat_bind]
          rw [sat_rsect hr.raw.len hrange.2, sat_wsect hr.raw.len hrange.2, hsec]
          have hw := Written.of_mapped hsb hmap hmx (show (p.take m).length ≤ _ by omega)
            (show 0 < (p.take m).length by omega)
          have hr' := hr.store hlo (lt_freeblock hrange.2 hr.disk hused)
            ((u'.disk x).splice (off % BSIZE) (p.take m))
          have hoff' : off + (p.take m).length ≤ max n (off / BSIZE + 1) * BSIZE := by
            rw [htake, ← hblk]
            exact Nat.le_trans (le_blocks_mul _) (Nat.mul_le_mul_right _ (Nat.le_max_right _ _))
          have hend : off + m + (p.drop m).length = off + p.length := by omega
          have hmm : max (max n (off / BSIZE + 1)) (blocks (off + p.length)) =
              max n (blocks (off + p.length)) := by omega
          refine (ih hr'.disk hr'.raw hw.isOpen hmx (show (p.drop m).length ≤ fuel by omega)
            (show off + m ≤ _ by omega)).mono ?_ ?_
          · rintro ⟨d'', off'⟩ s'' ⟨hoff'', hcap, u'', j', hr'', hj', hw'⟩
            rw [hend] at hoff'' hj' hw'
            rw [hmm] at hj' hw'
            refine ⟨hoff'', hcap, u'', j + j', hr'.trans hr'', by omega, ?_⟩
            rw [show off + m = off + (p.take m).length by rw [htake]] at hw'
            have happ := hw.append hmx hoff' hw'
            rwa [List.take_append_drop] at happ
          · rintro _ _ (hbig | hbig)
            · rw [hend] at hbig
              exact Or.inl hbig
            · rw [hend, hmm] at hbig
              have hfb := hr'.freeblock
              exact Or.inr (by omega)

end Blocks

end BossOs.Mkfs
