import BossOs.Fs.Inode
import BossOs.Fs.Owner
import Mathlib.Data.Finset.Card

/-!
# Block maps

`bmap` on an inode whose blocks are exactly the first `n` of the file: below `n` it
only reads, at `n` it adds one block. The result is stated for the copy `d` of the
inode in memory, which `bmap` changes before the disk.
-/

namespace BossOs.Fs

open Lib
open Prog (sat_bind sat_pure sat_zoom)

variable {sb : Superblock}

def blockAt (d : Dinode) (D : Nat → Block) (k : Nat) : Nat :=
  if k < NDIRECT then d.addr k
  else if d.addr NDIRECT = 0 then 0 else (D (d.addr NDIRECT)).word (k - NDIRECT)

def Place.of (k : Nat) (h : k < MAXFILE) : Place :=
  if hk : k < NDIRECT then .direct ⟨k, hk⟩ else .entry ⟨k - NDIRECT, by unfold MAXFILE at h; omega⟩

variable {k : Nat}

theorem sub_lt_nindirect (h : k < MAXFILE) : k - NDIRECT < NINDIRECT := by
  have : 0 < NINDIRECT := by decide
  unfold MAXFILE at h
  omega

theorem placeBlock_of (d : Dinode) (D : Nat → Block) (h : k < MAXFILE) :
    placeBlock d D (Place.of k h) = blockAt d D k := by
  unfold Place.of blockAt
  split <;> rfl

theorem Place.of_inj {k' : Nat} {h : k < MAXFILE} {h' : k' < MAXFILE}
    (heq : Place.of k h = Place.of k' h') : k = k' := by
  unfold Place.of at heq
  split at heq <;> split at heq
  · cases heq
    rfl
  · cases heq
  · cases heq
  · simp only [Place.entry.injEq, Fin.mk.injEq] at heq
    omega

theorem Place.of_ne_indirect {h : k < MAXFILE} : Place.of k h ≠ .indirect := by
  unfold Place.of
  split
  · exact Place.noConfusion
  · exact Place.noConfusion

/-- The blocks of the file are the first `n`; `ind` says whether there is an indirect block. -/
structure Extent (d : Dinode) (D : Nat → Block) (n : Nat) (ind : Prop) : Prop where
  block : ∀ k, k < MAXFILE → (blockAt d D k ≠ 0 ↔ k < n)
  indirect : d.addr NDIRECT ≠ 0 ↔ ind

/-- Inode `i`, open with copy `d`, has exactly the first `n` blocks, and ownership holds. -/
structure Open (sb : Superblock) (s : Blk) (i : Nat) (d : Dinode) (n : Nat) (ind : Prop) :
    Prop where
  inum : i < sb.ninodes
  typed : d.type ≠ 0
  owns : Owns sb (tabOf sb s.disk i d) s.disk
  extent : Extent d s.disk n ind

/-- From `s`, `d` to `t`, `d'` inode `i` may gain blocks; nothing else that can be read changes. -/
structure Keeps (sb : Superblock) (i n : Nat) (s : Blk) (d : Dinode) (t : Blk) (d' : Dinode) :
    Prop where
  block : ∀ k, k < n → k < MAXFILE → blockAt d' t.disk k = blockAt d s.disk k
  data : ∀ k, k < n → k < MAXFILE → t.disk (blockAt d s.disk k) = s.disk (blockAt d s.disk k)
  others : Others sb i s.disk t.disk
  inodes : ∀ j, j < sb.ninodes → ino sb t.disk j = ino sb s.disk j
  indirect : d.addr NDIRECT ≠ 0 → d'.addr NDIRECT = d.addr NDIRECT
  fields : d' = { d with addrs := d'.addrs }

namespace Keeps

variable {i n : Nat} {s t u : Blk} {d d' d'' : Dinode}

theorem refl (sb : Superblock) (i n : Nat) (s : Blk) (d : Dinode) : Keeps sb i n s d s d :=
  ⟨fun _ _ _ => rfl, fun _ _ _ => rfl, Others.refl .., fun _ _ => rfl, fun _ => rfl, rfl⟩

theorem trans (h : Keeps sb i n s d t d') (h' : Keeps sb i n t d' u d'') :
    Keeps sb i n s d u d'' := by
  refine ⟨fun k hk hm => (h'.block k hk hm).trans (h.block k hk hm), ?_, h.others.trans h'.others,
    fun j hj => (h'.inodes j hj).trans (h.inodes j hj), ?_, ?_⟩
  · intro k hk hm
    have h1 := h'.data k hk hm
    rw [h.block k hk hm] at h1
    exact h1.trans (h.data k hk hm)
  · intro h0
    rw [h'.indirect (by rw [h.indirect h0]; exact h0), h.indirect h0]
  · have h1 := h'.fields
    rw [h.fields] at h1
    exact h1

end Keeps

namespace Open

variable {i n : Nat} {s : Blk} {d : Dinode} {ind : Prop} (h : Open sb s i d n ind)
include h

theorem range (hk : k < n) (hm : k < MAXFILE) :
    sb.datastart ≤ blockAt d s.disk k ∧ blockAt d s.disk k < sb.size := by
  have hb := (h.extent.block k hm).mpr hk
  rw [← placeBlock_of _ _ hm] at hb ⊢
  exact h.owns.range_self h.inum h.typed hb

theorem used_block (hk : k < n) (hm : k < MAXFILE) :
    used sb s.disk (blockAt d s.disk k) = true := by
  have hb := (h.extent.block k hm).mpr hk
  rw [← placeBlock_of _ _ hm] at hb ⊢
  exact h.owns.used_self h.inum h.typed hb

theorem inj {k' : Nat} (hk : k < n) (hm : k < MAXFILE) (hm' : k' < MAXFILE)
    (heq : blockAt d s.disk k = blockAt d s.disk k') : k = k' := by
  have hb := (h.extent.block k hm).mpr hk
  rw [← placeBlock_of _ _ hm, ← placeBlock_of _ _ hm'] at heq
  rw [← placeBlock_of _ _ hm] at hb
  exact Place.of_inj (h.owns.inj_self h.inum h.typed hb heq)

theorem empty (hm : n < MAXFILE) : blockAt d s.disk n = 0 := by
  by_contra h0
  exact absurd ((h.extent.block n hm).mp h0) (Nat.lt_irrefl n)

theorem addr_zero (hind : ¬ ind) : d.addr NDIRECT = 0 := by
  by_contra h0
  exact hind (h.extent.indirect.mp h0)

theorem indirect_used (hi : ind) : used sb s.disk (d.addr NDIRECT) = true :=
  h.owns.used_self (q := .indirect) h.inum h.typed (h.extent.indirect.mpr hi)

theorem indirect_range (hi : ind) : sb.datastart ≤ d.addr NDIRECT ∧ d.addr NDIRECT < sb.size :=
  h.owns.range_self (q := .indirect) h.inum h.typed (h.extent.indirect.mpr hi)

theorem indirect_ne (hk : k < n) (hm : k < MAXFILE) : blockAt d s.disk k ≠ d.addr NDIRECT := by
  intro heq
  have hb := (h.extent.block k hm).mpr hk
  rw [← placeBlock_of _ _ hm] at heq hb
  exact Place.of_ne_indirect (h.owns.inj_self (r := .indirect) h.inum h.typed hb heq)

end Open

structure Fresh (sb : Superblock) (s : Blk) (b : Nat) : Prop where
  le : sb.datastart ≤ b
  lt : b < sb.size
  free : used sb s.disk b = false

theorem Fresh.ne_of_used {s : Blk} {b c : Nat} (hb : Fresh sb s b) (hc : used sb s.disk c = true) :
    c ≠ b := by
  rintro rfl
  rw [hb.free] at hc
  cases hc

theorem Fresh.lt_word {s : Blk} {b : Nat} (hb : Fresh sb s b) (hsb : sb.Wf) : b < 2 ^ 32 :=
  Nat.lt_trans hb.lt (Nat.lt_trans hsb.size_lt (by decide))

def freeBlocks (sb : Superblock) (D : Nat → Block) : Nat :=
  ((Finset.range sb.size).filter fun b => used sb D b = false).card

theorem freeBlocks_eq_zero {D : Nat → Block} (h : ∀ c < sb.size, used sb D c = true) :
    freeBlocks sb D = 0 := by
  rw [freeBlocks, Finset.card_eq_zero, Finset.filter_eq_empty_iff]
  intro c hc
  rw [h c (Finset.mem_range.mp hc)]
  exact Bool.noConfusion

theorem freeBlocks_congr {D D' : Nat → Block}
    (h : ∀ c < sb.size, used sb D' c = used sb D c) : freeBlocks sb D' = freeBlocks sb D := by
  unfold freeBlocks
  congr 1
  apply Finset.filter_congr
  intro c hc
  rw [h c (Finset.mem_range.mp hc)]

theorem Fresh.freeBlocks {s t : Blk} {b : Nat} (hb : Fresh sb s b)
    (hu : ∀ c < sb.size, used sb t.disk c = (used sb s.disk c || decide (c = b))) :
    Fs.freeBlocks sb t.disk + 1 = Fs.freeBlocks sb s.disk := by
  have herase : (Finset.range sb.size).filter (fun c => used sb t.disk c = false) =
      ((Finset.range sb.size).filter fun c => used sb s.disk c = false).erase b := by
    ext c
    simp only [Finset.mem_filter, Finset.mem_range, Finset.mem_erase]
    constructor
    · rintro ⟨hc, hfree⟩
      rw [hu c hc] at hfree
      simp only [Bool.or_eq_false_iff, decide_eq_false_iff_not] at hfree
      exact ⟨hfree.2, hc, hfree.1⟩
    · rintro ⟨hne, hc, hfree⟩
      rw [hu c hc, hfree]
      exact ⟨hc, decide_eq_false hne⟩
  unfold Fs.freeBlocks
  rw [herase]
  apply Finset.card_erase_add_one
  rw [Finset.mem_filter, Finset.mem_range]
  exact ⟨hb.lt, hb.free⟩

/-- The number of blocks that a file of `n` blocks has, its indirect block included. -/
def taken (d : Dinode) (n : Nat) : Nat := n + if d.addr NDIRECT = 0 then 0 else 1

def need (n : Nat) : Nat := n + if NDIRECT < n then 1 else 0

section Need

variable {n : Nat}

theorem Open.taken_eq {i : Nat} {s : Blk} {d : Dinode} (h : Open sb s i d n (NDIRECT < n)) :
    taken d n = need n := by
  have hind := h.extent.indirect
  unfold taken need
  by_cases h12 : d.addr NDIRECT = 0
  · rw [if_pos h12, if_neg fun hn => hind.mpr hn h12]
  · rw [if_neg h12, if_pos (hind.mp h12)]

theorem need_succ_direct (hn : n < NDIRECT) : need (n + 1) = need n + 1 := by
  unfold need
  rw [if_neg (by omega), if_neg (by omega)]

theorem need_succ_entry (hn : NDIRECT < n) : need (n + 1) = need n + 1 := by
  unfold need
  rw [if_pos (by omega), if_pos hn]

theorem need_succ_indirect : need (NDIRECT + 1) = need NDIRECT + 2 := by
  unfold need
  rw [if_pos (by omega), if_neg (by omega)]

theorem need_mono {m : Nat} (h : m ≤ n) : need m ≤ need n := by
  unfold need
  split <;> split <;> omega

end Need

/-- A place of inode `i`, empty before, has the fresh block `b`; all other places are as before. -/
structure Given (sb : Superblock) (i : Nat) (s : Blk) (d : Dinode) (p : Place) (b : Nat) (t : Blk)
    (d' : Dinode) : Prop where
  fresh : Fresh sb s b
  others : Others sb i s.disk t.disk
  empty : placeBlock d s.disk p = 0
  given : placeBlock d' t.disk p = b
  rest : ∀ q, q ≠ p → placeBlock d' t.disk q = placeBlock d s.disk q
  used : ∀ c, c < sb.size → used sb t.disk c = (used sb s.disk c || decide (c = b))
  fields : d' = { d with addrs := d'.addrs }

namespace Given

variable {i n b : Nat} {s t : Blk} {d d' : Dinode} {p : Place} {ind ind' : Prop}

theorem block_eq (hm : k < MAXFILE) (hk : Place.of k hm ≠ p)
    (g : Given sb i s d p b t d') : blockAt d' t.disk k = blockAt d s.disk k := by
  rw [← placeBlock_of _ _ hm, ← placeBlock_of _ _ hm]
  exact g.rest _ hk

theorem typed (g : Given sb i s d p b t d') (h : Open sb s i d n ind) : d'.type ≠ 0 := by
  rw [g.fields]
  exact h.typed

theorem owns (g : Given sb i s d p b t d') (h : Open sb s i d n ind) :
    Owns sb (tabOf sb t.disk i d') t.disk :=
  h.owns.give g.others h.inum h.typed (g.typed h) g.fresh.le g.fresh.lt g.fresh.free g.empty g.given
    g.rest g.used

theorem open_block (g : Given sb i s d p b t d') (h : Open sb s i d n ind) (hm : n < MAXFILE)
    (hp : p = Place.of n hm) (hind : d'.addr NDIRECT ≠ 0 ↔ ind') :
    Open sb t i d' (n + 1) ind' ∧ blockAt d' t.disk n = b := by
  subst hp
  have hn : blockAt d' t.disk n = b := by
    rw [← placeBlock_of _ _ hm]
    exact g.given
  refine ⟨⟨h.inum, g.typed h, g.owns h, ⟨fun k hk => ?_, hind⟩⟩, hn⟩
  by_cases hkn : k = n
  · subst hkn
    have h1 := g.fresh.le
    have h2 := sb.datastart_pos
    rw [hn]
    omega
  · rw [g.block_eq hk fun heq => hkn (Place.of_inj heq), h.extent.block k hk]
    omega

theorem open_indirect (g : Given sb i s d .indirect b t d') (h : Open sb s i d n ind) :
    Open sb t i d' n True := by
  refine ⟨h.inum, g.typed h, g.owns h, ⟨?_, ?_⟩⟩
  · intro k hk
    rw [g.block_eq hk Place.of_ne_indirect]
    exact h.extent.block k hk
  · have h1 := g.fresh.le
    have h2 := sb.datastart_pos
    have h3 : d'.addr NDIRECT = b := g.given
    rw [h3]
    constructor
    · exact fun _ => trivial
    · intro _
      omega

theorem freeBlocks_indirect (g : Given sb i s d .indirect b t d') :
    freeBlocks sb t.disk + taken d' n = freeBlocks sb s.disk + taken d n := by
  have h0 : d.addr NDIRECT = 0 := g.empty
  have hb : d'.addr NDIRECT = b := g.given
  have hpos := Nat.lt_of_lt_of_le sb.datastart_pos g.fresh.le
  have hcount := g.fresh.freeBlocks g.used
  unfold taken
  rw [if_pos h0, hb, if_neg (Nat.ne_of_gt hpos)]
  omega

theorem keeps (g : Given sb i s d p b t d') (h : Open sb s i d n ind)
    (hp : ∀ k < n, ∀ hm : k < MAXFILE, Place.of k hm ≠ p)
    (hdata : ∀ c, sb.datastart ≤ c → c ≠ b → c ≠ d.addr NDIRECT → t.disk c = s.disk c)
    (hino : ∀ j < sb.ninodes, ino sb t.disk j = ino sb s.disk j) : Keeps sb i n s d t d' := by
  refine ⟨fun k hk hm => g.block_eq hm (hp k hk hm), ?_, g.others, hino, ?_, g.fields⟩
  · intro k hk hm
    exact hdata _ (h.range hk hm).1 (g.fresh.ne_of_used (h.used_block hk hm)) (h.indirect_ne hk hm)
  · intro h0
    refine g.rest .indirect ?_
    rintro rfl
    exact h0 g.empty

end Given

section Grow

variable {i n b : Nat} {s : Blk} {d : Dinode} {ind : Prop}

theorem given_direct (hsb : sb.Wf) (h : Open sb s i d n ind) (hind : ¬ ind) (hb : Fresh sb s b)
    (hn : n < NDIRECT) : Given sb i s d (.direct ⟨n, hn⟩) b (s.alloc sb b) (d.setAddr n b) := by
  have h12 := h.addr_zero hind
  have hne : (d.setAddr n b).addr NDIRECT = d.addr NDIRECT :=
    d.addr_setAddr_of_ne (Nat.le_of_lt hn) (Nat.le_refl _) (Nat.ne_of_gt hn)
  refine ⟨hb, others_alloc hsb h.owns hb.le hb.lt hb.free, ?_, d.addr_setAddr_self (hb.lt_word hsb), ?_,
    fun c hc => used_alloc s hb.le hc, rfl⟩
  · exact (if_pos hn).symm.trans (h.empty (Nat.lt_of_lt_of_le hn (Nat.le_add_right _ _)))
  · intro q hq
    cases q with
    | direct k =>
      refine d.addr_setAddr_of_ne (Nat.le_of_lt hn) (Nat.le_of_lt k.isLt) ?_
      intro heq
      exact hq (congrArg Place.direct (Fin.ext heq))
    | indirect => exact hne
    | entry k => simp only [placeBlock, hne, h12, if_true]

theorem given_indirect (hsb : sb.Wf) (h : Open sb s i d n ind) (hind : ¬ ind) (hb : Fresh sb s b) :
    Given sb i s d .indirect b (s.alloc sb b) (d.setAddr NDIRECT b) := by
  have h12 := h.addr_zero hind
  have hself : (d.setAddr NDIRECT b).addr NDIRECT = b := d.addr_setAddr_self (hb.lt_word hsb)
  refine ⟨hb, others_alloc hsb h.owns hb.le hb.lt hb.free, h12, hself, ?_,
    fun c hc => used_alloc s hb.le hc, rfl⟩
  intro q hq
  cases q with
  | direct k =>
    exact d.addr_setAddr_of_ne (Nat.le_refl _) (Nat.le_of_lt k.isLt) (Nat.ne_of_lt k.isLt)
  | indirect => exact absurd rfl hq
  | entry k =>
    -- the new indirect block is zero, so it has no entries
    simp only [placeBlock, hself, h12, if_true]
    rw [disk_alloc s hb.lt hb.le, if_pos rfl, Bytes.word_zero, ite_self]

theorem given_entry (hsb : sb.Wf) (h : Open sb s i d n ind) (hind : ind) (hb : Fresh sb s b)
    (k : Fin NINDIRECT) (hk : placeBlock d s.disk (.entry k) = 0) : Given sb i s d (.entry k) b
      ((s.alloc sb b).store (d.addr NDIRECT) ((s.disk (d.addr NDIRECT)).setWord k b)) d := by
  have h12 : d.addr NDIRECT ≠ 0 := h.extent.indirect.mpr hind
  obtain ⟨hlo, hhi⟩ := h.indirect_range hind
  have hne := hb.ne_of_used (h.indirect_used hind)
  have hk4 : ∀ j : Fin NINDIRECT, 4 * j.val + 4 ≤ BSIZE := by
    intro j
    have := j.isLt
    have hN : NINDIRECT = 128 := rfl
    have hB : BSIZE = 512 := rfl
    omega
  refine ⟨hb, ?_, hk, ?_, ?_, ?_, rfl⟩
  · refine (others_alloc hsb h.owns hb.le hb.lt hb.free).trans ⟨?_, ?_⟩
    · intro j hj _
      have := hsb.iblock_lt_datastart hj
      exact ino_update_of_ne _ _ (by omega)
    · intro j hj hji htj q hq
      have ho := others_alloc hsb h.owns hb.le hb.lt hb.free
      rw [ho.inodes j hj hji] at htj
      rw [ho.place hj hji htj] at hq ⊢
      obtain ⟨-, -, hno⟩ := h.owns.other hj hji htj hq
      exact Function.update_of_ne (fun heq => hno .indirect h.inum h.typed heq.symm) _ _
  · simp only [placeBlock, if_neg h12, Blk.store, Function.update_self]
    rw [Bytes.word_setWord_self _ _ (hk4 k), Nat.mod_eq_of_lt (hb.lt_word hsb)]
  · intro q hq
    cases q with
    | direct j => rfl
    | indirect => rfl
    | entry j =>
      have hjk : j.val ≠ k.val := fun heq => hq (congrArg Place.entry (Fin.ext heq))
      simp only [placeBlock, if_neg h12, Blk.store, Function.update_self]
      rw [Bytes.word_setWord_of_ne _ _ (hk4 j) hjk]
  · intro c hc
    have := Superblock.Wf.bblock_lt hc
    simp only [Blk.store]
    rw [used_update_of_ne _ _ (by omega)]
    exact used_alloc s hb.le hc

end Grow

section State

variable {s : State} {e : Entry} {E : Stop → State → Prop}

theorem sat_lift {α : Type} (m : BlkM α) {Q : α → State → Prop} :
    ((liftM m : FsM α).run s).Sat Q E =
      (m.run s.blk).Sat (fun a t => Q a { s with blk := t }) (fun e t => E e { s with blk := t }) :=
  sat_zoom ..

@[simp] theorem sat_inode {Q : Inode → State → Prop} :
    ((inode e).run s).Sat Q E = Q (s.icache e) s := Outcome.sat_ok ..

@[simp] theorem sat_setInode (f : Inode → Inode) {Q : Unit → State → Prop} :
    ((setInode e f).run s).Sat Q E = Q () (s.update e f) := Outcome.sat_ok ..

def State.withDin (s : State) (e : Entry) (t : Blk) (d : Dinode) : State :=
  ({ s with blk := t }).update e fun ip => { ip with din := d }

theorem sat_setDin (f : Dinode → Dinode) {Q : Unit → State → Prop} :
    ((setDin e f).run s).Sat Q E = Q () (s.withDin e s.blk (f (s.icache e).din)) :=
  Outcome.sat_ok ..

end State

def newFoot (sb : Superblock) (d : Dinode) (n b c : Nat) : Prop :=
  c = b ∨ c = sb.bblock b ∨ (NDIRECT ≤ n ∧ c = d.addr NDIRECT) ∨
    (n = NDIRECT ∧ c = sb.bblock (d.addr NDIRECT))

section BmapSpec

variable {i n : Nat} {s : State} {e : Entry} {d : Dinode}

theorem unheld_nil {s : Blk} (h : s.held = []) : s.Unheld sb := by
  refine ⟨fun b _ => ?_, fun b _ hb => ?_⟩
  · rw [h]
    exact List.not_mem_nil
  · rw [h] at hb
    cases hb

theorem balloc_fresh {s : Blk} (hr : ∀ b < sb.datastart, used sb s.disk b = true)
    (hop : 1 ≤ s.outstanding) (hh : s.Unheld sb) :
    ((balloc sb).run s).Sat (fun b t => Fresh sb s b ∧ t = s.alloc sb b)
      (fun e _ => e = .panic .outOfBlocks ∧ freeBlocks sb s.disk = 0) := by
  refine (balloc_spec hop hh).mono ?_ fun e t h => ⟨h.1, freeBlocks_eq_zero h.2.2⟩
  rintro b t ⟨hlt, hfree, -, rfl⟩
  refine ⟨⟨?_, hlt, hfree⟩, rfl⟩
  by_contra hlo
  rw [hr b (by omega)] at hfree
  cases hfree

theorem bmapEntry_mapped {s : Blk} {ind : Nat} (hh : ind ∉ s.held)
    (hk : (s.disk ind).word k ≠ 0) {Q : Nat → Blk → Prop} {E : Stop → Blk → Prop} :
    ((bmapEntry sb ind k).run s).Sat Q E = Q ((s.disk ind).word k) s := by
  simp only [bmapEntry, sat_bind, sat_bread hh, if_neg hk]
  rw [sat_brelse rfl, sat_pure]

theorem bmap_mapped (h : Open sb s.blk i (s.icache e).din n (NDIRECT < n)) (hh : s.blk.held = [])
    (hk : k < n) (hm : k < MAXFILE) {Q : Nat → State → Prop} {E : Stop → State → Prop} :
    ((bmap sb e k).run s).Sat Q E = Q (blockAt (s.icache e).din s.blk.disk k) s := by
  have hb := (h.extent.block k hm).mpr hk
  simp only [bmap, sat_bind, sat_inode]
  by_cases hkd : k < NDIRECT
  · have hat : blockAt (s.icache e).din s.blk.disk k = (s.icache e).din.addr k := if_pos hkd
    rw [hat] at hb ⊢
    rw [if_pos hkd, if_neg hb, sat_pure]
  · have h12 : (s.icache e).din.addr NDIRECT ≠ 0 := h.extent.indirect.mpr (by omega)
    have hat : blockAt (s.icache e).din s.blk.disk k =
        (s.blk.disk ((s.icache e).din.addr NDIRECT)).word (k - NDIRECT) := by
      rw [blockAt, if_neg hkd, if_neg h12]
    rw [hat] at hb ⊢
    rw [if_neg hkd, if_pos (sub_lt_nindirect hm)]
    simp only [bmapIndirect, sat_bind, sat_inode, if_neg h12, sat_pure]
    rw [sat_lift, bmapEntry_mapped (by rw [hh]; exact List.not_mem_nil) hb]

/-- Inode `i` has gained block `n`, zeroed, at address `b`. -/
structure Grown (sb : Superblock) (i n : Nat) (s : Blk) (d : Dinode) (b : Nat) (t : Blk)
    (d' : Dinode) : Prop where
  isOpen : Open sb t i d' (n + 1) (NDIRECT < n + 1)
  keeps : Keeps sb i n s d t d'
  block : blockAt d' t.disk n = b
  zero : t.disk b = Bytes.zero
  free : freeBlocks sb t.disk + taken d' (n + 1) = freeBlocks sb s.disk + taken d n
  frame : Frame (newFoot sb d' n b) s t

theorem alloc_keeps {s : Blk} {d' : Dinode} {p : Place} {b : Nat} {ind : Prop} (hsb : sb.Wf)
    (h : Open sb s i d n ind) (g : Given sb i s d p b (s.alloc sb b) d')
    (hp : ∀ k < n, ∀ hm : k < MAXFILE, Place.of k hm ≠ p) :
    Keeps sb i n s d (s.alloc sb b) d' := by
  refine g.keeps h hp ?_ fun j hj => ino_alloc s hsb g.fresh.le hj
  intro c hc hcb _
  rw [disk_alloc s g.fresh.lt hc, if_neg hcb]

theorem grown_direct {s : Blk} {b : Nat} (hsb : sb.Wf) (h : Open sb s i d n (NDIRECT < n))
    (hn : n < NDIRECT) (hb : Fresh sb s b) : Grown sb i n s d b (s.alloc sb b) (d.setAddr n b) := by
  have hm : n < MAXFILE := Nat.lt_of_lt_of_le hn (Nat.le_add_right _ _)
  have g := given_direct hsb h (by omega) hb hn
  have hp : Place.direct ⟨n, hn⟩ = Place.of n hm := by rw [Place.of, dif_pos hn]
  have h12 : (d.setAddr n b).addr NDIRECT = d.addr NDIRECT :=
    d.addr_setAddr_of_ne (Nat.le_of_lt hn) (Nat.le_refl _) (Nat.ne_of_gt hn)
  obtain ⟨ho, hblk⟩ := g.open_block h hm hp (show _ ↔ NDIRECT < n + 1 by
    rw [h12, h.extent.indirect]
    omega)
  refine ⟨ho, alloc_keeps hsb h g ?_, hblk, ?_, ?_, ?_⟩
  · intro k hk hm' heq
    rw [hp] at heq
    exact absurd (Place.of_inj heq) (Nat.ne_of_lt hk)
  · rw [disk_alloc s hb.lt hb.le, if_pos rfl]
  · have hcount := hb.freeBlocks g.used
    unfold taken
    rw [h12]
    omega
  · exact (frame_alloc s).mono fun c hc => hc.elim Or.inl fun h => Or.inr (Or.inl h)

theorem grown_entry {s : Blk} {b : Nat} (hsb : sb.Wf) (h : Open sb s i d n True)
    (hn : NDIRECT ≤ n) (hm : n < MAXFILE) (hb : Fresh sb s b) :
    Grown sb i n s d b ((s.alloc sb b).store (d.addr NDIRECT)
      ((s.disk (d.addr NDIRECT)).setWord (n - NDIRECT) b)) d := by
  have hlt := sub_lt_nindirect hm
  have hp : Place.entry ⟨n - NDIRECT, hlt⟩ = Place.of n hm := by rw [Place.of, dif_neg (by omega)]
  have h12 : d.addr NDIRECT ≠ 0 := h.extent.indirect.mpr trivial
  have hne := hb.ne_of_used (h.indirect_used trivial)
  have h0 : placeBlock d s.disk (.entry ⟨n - NDIRECT, hlt⟩) = 0 := by
    rw [hp, placeBlock_of, h.empty hm]
  obtain ⟨hlo, -⟩ := h.indirect_range trivial
  have g := given_entry hsb h trivial hb ⟨n - NDIRECT, hlt⟩ h0
  obtain ⟨ho, hblk⟩ := g.open_block h hm hp (show _ ↔ NDIRECT < n + 1 from
    ⟨fun _ => by omega, fun _ => h12⟩)
  refine ⟨ho, g.keeps h ?_ ?_ ?_, hblk, ?_, ?_, ?_⟩
  · intro k hk hm' heq
    rw [hp] at heq
    exact absurd (Place.of_inj heq) (Nat.ne_of_lt hk)
  · intro c hc hcb hci
    refine (Function.update_of_ne hci _ _).trans ?_
    rw [disk_alloc s hb.lt hc, if_neg hcb]
  · intro j hj
    have := hsb.iblock_lt_datastart hj
    exact (ino_update_of_ne _ _ (by omega)).trans (ino_alloc s hsb hb.le hj)
  · refine (Function.update_of_ne hne.symm _ _).trans ?_
    rw [disk_alloc s hb.lt hb.le, if_pos rfl]
  · have hcount := hb.freeBlocks g.used
    dsimp only at hcount
    unfold taken
    omega
  · refine ((frame_alloc s).mono ?_).trans ((Frame.store ..).mono ?_)
    · exact fun c hc => hc.elim Or.inl fun h => Or.inr (Or.inl h)
    · exact fun c hc => Or.inr (Or.inr (Or.inl ⟨hn, hc⟩))

theorem bmapEntry_new {s : Blk} (hsb : sb.Wf) (h : Open sb s i d n True) (hh : s.held = [])
    (hop : 1 ≤ s.outstanding) (hn : NDIRECT ≤ n) (hm : n < MAXFILE) :
    ((bmapEntry sb (d.addr NDIRECT) (n - NDIRECT)).run s).Sat (fun b t => Grown sb i n s d b t d)
      (fun e _ => e = .panic .outOfBlocks ∧ freeBlocks sb s.disk = 0) := by
  have h12 : d.addr NDIRECT ≠ 0 := h.extent.indirect.mpr trivial
  obtain ⟨hlo, hhi⟩ := h.indirect_range trivial
  have h0 := h.empty hm
  rw [blockAt, if_neg (by omega), if_neg h12] at h0
  simp only [bmapEntry, sat_bind]
  rw [sat_bread (by rw [hh]; exact List.not_mem_nil), if_pos h0, sat_bind]
  refine (balloc_fresh (by exact h.owns.reserved) (by exact hop) ⟨?_, ?_⟩).imp ?_
  · intro b hb hmem
    have := Superblock.Wf.bblock_lt hb
    rw [hh, List.mem_singleton] at hmem
    omega
  · intro b _ hmem
    rw [hh, List.mem_singleton] at hmem
    subst hmem
    exact h.indirect_used trivial
  · rintro b t ⟨hb, rfl⟩
    simp only [sat_bind]
    have hb' : Fresh sb s b := ⟨hb.le, hb.lt, hb.free⟩
    refine (sat_store (s := s.alloc sb b) hop).mpr ?_
    rw [sat_pure]
    exact grown_entry hsb h hn hm hb'

theorem Grown.after_indirect {s u t : Blk} {d d' : Dinode} {b : Nat}
    (hg : Grown sb i n u d' b t d') (hn : NDIRECT ≤ n) (hk : Keeps sb i n s d u d')
    (hfree : freeBlocks sb u.disk + taken d' n = freeBlocks sb s.disk + taken d n)
    (hf : Frame (fun c => n = NDIRECT ∧ (c = d'.addr NDIRECT ∨ c = sb.bblock (d'.addr NDIRECT)))
      s u) : Grown sb i n s d b t d' := by
  refine ⟨hg.isOpen, hk.trans hg.keeps, hg.block, hg.zero, hg.free.trans hfree,
    (hf.mono ?_).trans hg.frame⟩
  rintro c ⟨hn12, rfl | rfl⟩
  · exact Or.inr (Or.inr (Or.inl ⟨hn, rfl⟩))
  · exact Or.inr (Or.inr (Or.inr ⟨hn12, rfl⟩))

theorem bmapIndirect_spec (hsb : sb.Wf) (h : Open sb s.blk i (s.icache e).din n (NDIRECT < n))
    (hh : s.blk.held = []) (hop : 1 ≤ s.blk.outstanding) (hn : NDIRECT ≤ n) :
    ((bmapIndirect sb e).run s).Sat
      (fun ind t => ∃ u d', t = s.withDin e u d' ∧ ind = d'.addr NDIRECT ∧ Open sb u i d' n True ∧
        Keeps sb i n s.blk (s.icache e).din u d' ∧
        freeBlocks sb u.disk + taken d' n = freeBlocks sb s.blk.disk + taken (s.icache e).din n ∧
        Frame (fun c => n = NDIRECT ∧ (c = ind ∨ c = sb.bblock ind)) s.blk u)
      (fun x _ => x = .panic .outOfBlocks ∧ freeBlocks sb s.blk.disk = 0) := by
  simp only [bmapIndirect, sat_bind, sat_inode]
  by_cases h12 : (s.icache e).din.addr NDIRECT = 0
  · have hn' : ¬ NDIRECT < n := fun hlt => h.extent.indirect.mpr hlt h12
    rw [if_pos h12, sat_bind, sat_lift]
    refine (balloc_fresh h.owns.reserved hop (unheld_nil hh)).imp ?_
    rintro b t ⟨hb, rfl⟩
    rw [sat_bind, sat_setDin, sat_pure]
    have g := given_indirect hsb h hn' hb
    have hself : ((s.icache e).din.setAddr NDIRECT b).addr NDIRECT = b := g.given
    refine ⟨_, _, rfl, hself.symm, g.open_indirect h, ?_, ?_, ?_⟩
    · exact alloc_keeps hsb h g fun k _ hm => Place.of_ne_indirect
    · exact g.freeBlocks_indirect
    · exact (frame_alloc s.blk).mono fun c hc => ⟨by omega, hc⟩
  · have hn' : NDIRECT < n := h.extent.indirect.mp h12
    rw [if_neg h12, sat_pure]
    refine ⟨s.blk, (s.icache e).din, ?_, rfl, ?_, Keeps.refl .., rfl, Frame.refl ..⟩
    · simp [State.withDin, State.update]
    · exact ⟨h.inum, h.typed, h.owns, h.extent.block, by simpa using h12⟩

theorem bmap_new (hsb : sb.Wf) (h : Open sb s.blk i (s.icache e).din n (NDIRECT < n))
    (hh : s.blk.held = []) (hop : 1 ≤ s.blk.outstanding) (hm : n < MAXFILE) :
    ((bmap sb e n).run s).Sat
      (fun b t => ∃ u d', t = s.withDin e u d' ∧ Grown sb i n s.blk (s.icache e).din b u d')
      (fun x _ => x = .panic .outOfBlocks ∧ freeBlocks sb s.blk.disk + need n < need (n + 1)) := by
  simp only [bmap, sat_bind, sat_inode]
  by_cases hn : n < NDIRECT
  · have h0 := h.empty hm
    rw [blockAt, if_pos hn] at h0
    rw [if_pos hn, if_pos h0, sat_bind, sat_lift]
    refine (balloc_fresh h.owns.reserved hop (unheld_nil hh)).mono ?_ ?_
    · rintro b t ⟨hb, rfl⟩
      rw [sat_bind, sat_setDin, sat_pure]
      exact ⟨_, _, rfl, grown_direct hsb h hn hb⟩
    · rintro x _ ⟨hx, hfull⟩
      have := need_succ_direct hn
      exact ⟨hx, by omega⟩
  · rw [if_neg hn, if_pos (sub_lt_nindirect hm), sat_bind]
    have hneed : need n < need (n + 1) := by
      unfold need
      rw [if_pos (show NDIRECT < n + 1 by omega)]
      split
      · omega
      · omega
    refine (bmapIndirect_spec hsb h hh hop (by omega)).mono ?_ fun x _ ⟨hx, hfull⟩ =>
      ⟨hx, by rw [hfull, Nat.zero_add]; exact hneed⟩
    rintro ind t ⟨u, d', rfl, rfl, ho, hk, hfree, hf⟩
    rw [sat_lift]
    refine (bmapEntry_new (s := u) hsb ho (hf.held.trans hh) ?_ (by omega) hm).mono ?_ ?_
    · rw [hf.outstanding]
      exact hop
    · intro b t hg
      exact ⟨t, d', rfl, hg.after_indirect (by omega) hk hfree hf⟩
    · -- one block was needed and there is none, or two and there is one
      rintro x _ ⟨hx, hfull⟩
      have h12 : d'.addr NDIRECT ≠ 0 := ho.extent.indirect.mpr trivial
      have htaken := h.taken_eq
      have hnext : need (n + 1) = n + 1 + 1 := by
        unfold need
        rw [if_pos (show NDIRECT < n + 1 by omega)]
      rw [hfull, htaken, taken, if_neg h12] at hfree
      exact ⟨hx, by omega⟩

end BmapSpec

end BossOs.Fs
