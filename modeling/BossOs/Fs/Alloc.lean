import BossOs.Fs.Block
import BossOs.Fs.Disk

/-!
# The block allocator

`balloc` and `bfree` as single updates of the state, and what those updates do to
the inodes, the free map and the data blocks.
-/

namespace BossOs.Fs

open Lib

variable {Q : Unit → Blk → Prop}

section Buffers

variable {s : Blk} {b : Nat} {E : Stop → Blk → Prop}

theorem sat_bread {Q : Block → Blk → Prop} (h : b ∉ s.held) :
    ((bread b).run s).Sat Q E = Q (s.disk b) { s with held := b :: s.held } := by
  change Outcome.Sat (if b ∈ s.held then _ else _) Q E = _
  rw [if_neg h, Outcome.sat_ok]

@[simp] theorem sat_bset (v : Block) :
    ((bset b v).run s).Sat Q E = Q () { s with disk := Function.update s.disk b v } :=
  Prog.sat_modify _

theorem sat_brelse {l : List Nat} (h : s.held = b :: l) :
    ((brelse b).run s).Sat Q E = Q () { s with held := l } := by
  change Outcome.Sat (if b ∈ s.held then _ else _) Q E = _
  rw [if_pos (h ▸ List.mem_cons_self), Outcome.sat_ok, h, List.erase_cons_head]

def addLog (l : List Nat) (b : Nat) : List Nat := if b ∈ l then l else l ++ [b]

theorem mem_addLog {l : List Nat} {b c : Nat} : c ∈ addLog l b ↔ c ∈ l ∨ c = b := by
  unfold addLog
  split
  · constructor
    · exact Or.inl
    · rintro (h | rfl)
      · exact h
      · assumption
  · simp

theorem sat_logWrite (h : 1 ≤ s.outstanding) :
    ((logWrite b).run s).Sat Q E = Q () { s.ask with logged := addLog s.logged b } := by
  change Outcome.Sat (if s.outstanding < 1 then _ else _) Q E = _
  rw [if_neg (by omega), Outcome.sat_ok, addLog]

end Buffers

def Blk.store (s : Blk) (b : Nat) (v : Block) : Blk :=
  { s.ask with disk := Function.update s.disk b v, logged := addLog s.logged b }

theorem length_addLog (l : List Nat) (b : Nat) :
    l.length ≤ (addLog l b).length ∧ (addLog l b).length ≤ l.length + 1 := by
  unfold addLog
  split
  · omega
  · rw [List.length_append, List.length_singleton]
    omega

/-- The log grows from `s` to `t`: what changes on the disk is in it, and it has asked for the
room of what is in it, and for no more than one block beside. -/
structure Logs (s t : Blk) : Prop where
  nodup : s.logged.Nodup → t.logged.Nodup
  sub : s.logged ⊆ t.logged
  length_le : s.logged.length ≤ t.logged.length
  asked_le : t.asked ≤ max s.asked (t.logged.length + 1)
  asked_ge : s.asked ≤ t.asked ∧ t.logged.length ≤ max s.logged.length t.asked
  changed : ∀ b, t.disk b ≠ s.disk b → b ∈ t.logged

namespace Logs

variable {s t u : Blk}

theorem refl (s : Blk) : Logs s s :=
  ⟨id, List.Subset.refl _, Nat.le_refl _, Nat.le_max_left .., ⟨Nat.le_refl _, Nat.le_max_left ..⟩,
    fun _ h => absurd rfl h⟩

theorem trans (h : Logs s t) (h' : Logs t u) : Logs s u := by
  have h1 := h.length_le
  have h2 := h'.length_le
  have h3 := h.asked_le
  have h4 := h'.asked_le
  have h5 := h.asked_ge
  have h6 := h'.asked_ge
  refine ⟨h'.nodup ∘ h.nodup, fun _ hb => h'.sub (h.sub hb), by omega, by omega, by omega, ?_⟩
  intro b hb
  by_cases ht : u.disk b = t.disk b
  · exact h'.sub (h.changed b (ht ▸ hb))
  · exact h'.changed b ht

theorem store (s : Blk) (b : Nat) (v : Block) : Logs s (s.store b v) := by
  have hlen := length_addLog s.logged b
  refine ⟨fun h => ?_, fun c hc => mem_addLog.mpr (Or.inl hc), hlen.1, ?_, ?_, ?_⟩
  · change (addLog s.logged b).Nodup
    unfold addLog
    split
    · exact h
    · rename_i hnot
      rw [List.nodup_append]
      refine ⟨h, List.nodup_singleton b, fun a ha c hc hac => hnot ?_⟩
      rw [← List.mem_singleton.mp hc, ← hac]
      exact ha
  · change max s.asked (s.logged.length + 1) ≤ max s.asked ((addLog s.logged b).length + 1)
    omega
  · change s.asked ≤ max s.asked (s.logged.length + 1) ∧
      (addLog s.logged b).length ≤ max s.logged.length (max s.asked (s.logged.length + 1))
    omega
  · intro c hc
    refine mem_addLog.mpr (Or.inr ?_)
    by_contra hne
    change Function.update s.disk b v c ≠ s.disk c at hc
    exact hc (Function.update_of_ne hne v s.disk)

end Logs

/-- Only blocks of `L` are logged between `s` and `t`; buffers and the transaction are as before. -/
structure Frame (L : Nat → Prop) (s t : Blk) : Prop where
  held : t.held = s.held
  outstanding : t.outstanding = s.outstanding
  sections : t.sections = s.sections
  nested : t.nested = s.nested
  logged : ∀ b ∈ t.logged, b ∈ s.logged ∨ L b
  log : Logs s t

namespace Frame

variable {L L' : Nat → Prop} {s t u : Blk}

theorem refl (L : Nat → Prop) (s : Blk) : Frame L s s :=
  ⟨rfl, rfl, rfl, rfl, fun _ h => Or.inl h, .refl s⟩

theorem mono (h : Frame L s t) (hL : ∀ b, L b → L' b) : Frame L' s t :=
  ⟨h.held, h.outstanding, h.sections, h.nested, fun b hb => (h.logged b hb).imp_right (hL b),
    h.log⟩

theorem trans (h : Frame L s t) (h' : Frame L t u) : Frame L s u := by
  refine ⟨h'.held.trans h.held, h'.outstanding.trans h.outstanding,
    h'.sections.trans h.sections, h'.nested.trans h.nested, ?_, h.log.trans h'.log⟩
  intro b hb
  rcases h'.logged b hb with hb | hb
  · exact h.logged b hb
  · exact Or.inr hb

theorem store (s : Blk) (b : Nat) (v : Block) : Frame (· = b) s (s.store b v) :=
  ⟨rfl, rfl, rfl, rfl, fun _ hc => mem_addLog.mp hc, .store s b v⟩

end Frame

theorem sat_store {s : Blk} {b : Nat} {v : Block}
    {E : Stop → Blk → Prop} (hop : 1 ≤ s.outstanding) :
    ((bset b v).run { s with held := b :: s.held }).Sat
      (fun _ t => ((logWrite b).run t).Sat (fun _ u => ((brelse b).run u).Sat Q E) E) E =
      Q () (s.store b v) := by
  rw [sat_bset, sat_logWrite, sat_brelse rfl]
  · rfl
  · exact hop

section Allocator

variable (sb : Superblock)

def Blk.alloc (s : Blk) (b : Nat) : Blk :=
  (s.store (sb.bblock b) ((s.disk (sb.bblock b)).setBit (b % BPB))).store b Bytes.zero

def Blk.free (s : Blk) (b : Nat) : Blk :=
  s.store (sb.bblock b) ((s.disk (sb.bblock b)).clearBit (b % BPB))

/-- Buffers the process holds do not get in the way of the allocator. -/
structure Blk.Unheld (s : Blk) : Prop where
  bitmap : ∀ b, b < sb.size → sb.bblock b ∉ s.held
  used : ∀ b, b < sb.size → b ∈ s.held → used sb s.disk b = true

variable {sb}

theorem sat_bzero {s : Blk} {bno : Nat} {E : Stop → Blk → Prop}
    (hop : 1 ≤ s.outstanding) (hheld : bno ∉ s.held) :
    ((bzero bno).run s).Sat Q E = Q () (s.store bno Bytes.zero) := by
  simp only [bzero, Prog.sat_bind, sat_bread hheld]
  exact sat_store hop

theorem used_add (sb : Superblock) {b bi : Nat} (disk : Nat → Block) (hb : b % BPB = 0)
    (hbi : bi < BPB) : sb.bblock (b + bi) = sb.bblock b ∧ (b + bi) % BPB = bi ∧
      used sb disk (b + bi) = (disk (sb.bblock b)).bit bi := by
  have hB : BPB = 4096 := rfl
  have hdiv : sb.bblock (b + bi) = sb.bblock b := by
    simp only [Superblock.bblock, hB] at hb hbi ⊢
    omega
  have hmod : (b + bi) % BPB = bi := by
    simp only [hB] at hb hbi ⊢
    omega
  exact ⟨hdiv, hmod, by rw [used, hdiv, hmod]⟩

theorem ballocFrom_spec {s : Blk} (hop : 1 ≤ s.outstanding) (hh : s.Unheld sb) (n b : Nat)
    (hb : b % BPB = 0) (hn : sb.size ≤ b + n * BPB) (hn' : b + n * BPB < sb.size + BPB)
    (hbelow : ∀ c < b, c < sb.size → used sb s.disk c = true) : ((ballocFrom sb n b).run s).Sat
      (fun b t => b < sb.size ∧ used sb s.disk b = false ∧
        (∀ c < b, used sb s.disk c = true) ∧ t = s.alloc sb b)
      (fun e t => e = .panic .outOfBlocks ∧ t = s ∧
        ∀ c < sb.size, used sb s.disk c = true) := by
  induction n generalizing b with
  | zero =>
    rw [ballocFrom, panic, Prog.sat_fail]
    exact ⟨rfl, rfl, fun c hc => hbelow c (by omega) hc⟩
  | succ n ih =>
    have hlt : b < sb.size := by
      rw [Nat.add_mul, Nat.one_mul] at hn'
      omega
    have hheld := hh.bitmap b hlt
    simp only [ballocFrom, Prog.sat_bind, sat_bread hheld]
    split
    · rename_i bi hbi
      obtain ⟨-, hbi2, hbit, hfirst⟩ := firstFrom_some hbi
      have hbiB : bi < BPB := by omega
      obtain ⟨hblk, hmod, hused⟩ := used_add sb s.disk hb hbiB
      have hfree : used sb s.disk (b + bi) = false := by
        rw [hused]
        simpa using hbit
      have hnot : b + bi ∉ s.held := by
        intro h
        rw [hh.used _ (by omega) h] at hfree
        cases hfree
      simp only [Prog.sat_bind]
      rw [sat_store hop, sat_bzero (by exact hop) (by exact hnot), Prog.sat_pure]
      refine ⟨by omega, hfree, ?_, by rw [Blk.alloc, hblk, hmod]⟩
      intro c hc
      by_cases hcb : c < b
      · exact hbelow c hcb (by omega)
      · obtain ⟨-, -, hc'⟩ := used_add sb s.disk hb (show c - b < BPB by omega)
        have hbit' := hfirst (c - b) (Nat.zero_le _) (by omega)
        rw [show b + (c - b) = c by omega] at hc'
        rw [hc']
        simpa using hbit'
    · rename_i hnone
      rw [Prog.sat_bind, sat_brelse rfl]
      refine ih (b + BPB) ?_ ?_ ?_ ?_
      · rw [Nat.add_mod_right, hb]
      · rw [Nat.add_mul, Nat.one_mul] at hn
        omega
      · rw [Nat.add_mul, Nat.one_mul] at hn'
        omega
      · intro c hc hsize
        by_cases hcb : c < b
        · exact hbelow c hcb hsize
        · obtain ⟨-, -, hc'⟩ := used_add sb s.disk hb (show c - b < BPB by omega)
          have hbit := firstFrom_none hnone (Nat.zero_le (c - b)) (by omega)
          rw [show b + (c - b) = c by omega] at hc'
          rw [hc']
          simpa using hbit

theorem balloc_spec {s : Blk} (hop : 1 ≤ s.outstanding) (hh : s.Unheld sb) : ((balloc sb).run s).Sat
      (fun b t => b < sb.size ∧ used sb s.disk b = false ∧
        (∀ c < b, used sb s.disk c = true) ∧ t = s.alloc sb b)
      (fun e t => e = .panic .outOfBlocks ∧ t = s ∧
        ∀ c < sb.size, used sb s.disk c = true) := by
  have hB : BPB = 4096 := rfl
  refine ballocFrom_spec hop hh _ 0 rfl ?_ ?_ fun c hc => absurd hc (Nat.not_lt_zero c)
  · simp only [hB]
    omega
  · simp only [hB]
    omega

theorem bfree_spec {s : Blk} {b : Nat} {E : Stop → Blk → Prop}
    (hop : 1 ≤ s.outstanding) (hh : sb.bblock b ∉ s.held) (hb : used sb s.disk b = true)
    (hQ : Q () (s.free sb b)) : ((bfree sb b).run s).Sat Q E := by
  have hbit : (s.disk (sb.bblock b)).bit (b % BPB) = true := hb
  simp only [bfree, Prog.sat_bind, sat_bread hh, hbit, if_true]
  rw [sat_store hop]
  exact hQ

end Allocator

section Effect

variable {sb : Superblock} (s : Blk) {b c i : Nat}

theorem ino_alloc (hsb : sb.Wf) (hlo : sb.datastart ≤ b) (hi : i < sb.ninodes) :
    ino sb (s.alloc sb b).disk i = ino sb s.disk i := by
  have h := hsb.iblock_lt_datastart hi
  simp only [Blk.alloc, Blk.store]
  rw [ino_update_of_ne _ _ (by omega), ino_update_of_ne _ _ (hsb.iblock_ne_bblock hi b)]

theorem used_alloc (hlo : sb.datastart ≤ b) (hc : c < sb.size) :
    used sb (s.alloc sb b).disk c = (used sb s.disk c || decide (c = b)) := by
  have h := Superblock.Wf.bblock_lt hc
  simp only [Blk.alloc, Blk.store]
  rw [used_update_of_ne _ _ (by omega), used_setBit]

theorem disk_alloc (hhi : b < sb.size) (hc : sb.datastart ≤ c) :
    (s.alloc sb b).disk c = if c = b then Bytes.zero else s.disk c := by
  have h := Superblock.Wf.bblock_lt hhi
  simp only [Blk.alloc, Blk.store, Function.update_apply]
  split
  · rfl
  · rw [if_neg (by omega)]

theorem frame_alloc : Frame (fun c => c = b ∨ c = sb.bblock b) s (s.alloc sb b) :=
  ((Frame.store ..).mono fun _ => Or.inr).trans ((Frame.store ..).mono fun _ => Or.inl)

theorem ino_free (hsb : sb.Wf) (hi : i < sb.ninodes) :
    ino sb (s.free sb b).disk i = ino sb s.disk i :=
  ino_update_of_ne _ _ (hsb.iblock_ne_bblock hi b)

theorem used_free : used sb (s.free sb b).disk c = (used sb s.disk c && decide (c ≠ b)) :=
  used_clearBit ..

theorem disk_free (hhi : b < sb.size) (hc : sb.datastart ≤ c) :
    (s.free sb b).disk c = s.disk c := by
  have h := Superblock.Wf.bblock_lt hhi
  exact Function.update_of_ne (by omega) _ _

theorem frame_free : Frame (· = sb.bblock b) s (s.free sb b) := Frame.store ..

end Effect

end BossOs.Fs
