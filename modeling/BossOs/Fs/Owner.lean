import BossOs.Lib.Ownership
import BossOs.Fs.Alloc

/-!
# Who owns which block

The places of an inode that can hold a block number, and the invariant that the free
map marks exactly the blocks some inode in use refers to, each from one place. While
a process works on an inode `i` its copy `d` in memory may be ahead of the disk, so
the invariant is about the table of inodes with `d` in place of inode `i`.
-/

namespace BossOs.Fs

open Lib

inductive Place
  | direct (k : Fin NDIRECT)
  | indirect
  | entry (k : Fin NINDIRECT)
  deriving DecidableEq

def placeBlock (d : Dinode) (disk : Nat → Block) : Place → Nat
  | .direct k => d.addr k
  | .indirect => d.addr NDIRECT
  | .entry k => if d.addr NDIRECT = 0 then 0 else (disk (d.addr NDIRECT)).word k

theorem placeBlock_congr {d : Dinode} {D D' : Nat → Block}
    (h : d.addr NDIRECT ≠ 0 → D' (d.addr NDIRECT) = D (d.addr NDIRECT)) (q : Place) :
    placeBlock d D' q = placeBlock d D q := by
  cases q with
  | direct k => rfl
  | indirect => rfl
  | entry k =>
    simp only [placeBlock]
    split
    · rfl
    · rename_i h0
      rw [h h0]

def refBlock (sb : Superblock) (tab : Nat → Dinode) (disk : Nat → Block) (r : Nat × Place) : Nat :=
  if r.1 < sb.ninodes ∧ (tab r.1).type ≠ 0 then placeBlock (tab r.1) disk r.2 else 0

structure Owns (sb : Superblock) (tab : Nat → Dinode) (disk : Nat → Block) : Prop where
  owned : Owned (refBlock sb tab disk) (used sb disk) sb.datastart sb.size
  /-- The blocks before the data area are never free. -/
  reserved : ∀ b, b < sb.datastart → used sb disk b = true

def tabOf (sb : Superblock) (disk : Nat → Block) (i : Nat) (d : Dinode) : Nat → Dinode :=
  Function.update (ino sb disk) i d

theorem tabOf_self (sb : Superblock) (disk : Nat → Block) (i : Nat) (d : Dinode) :
    tabOf sb disk i d i = d := Function.update_self ..

theorem tabOf_of_ne {sb : Superblock} {disk : Nat → Block} {i j : Nat} (d : Dinode) (h : j ≠ i) :
    tabOf sb disk i d j = ino sb disk j := Function.update_of_ne h ..

theorem tabOf_ino (sb : Superblock) (disk : Nat → Block) (i : Nat) :
    tabOf sb disk i (ino sb disk i) = ino sb disk := Function.update_eq_self ..

variable {sb : Superblock}

theorem Superblock.datastart_pos (sb : Superblock) : 0 < sb.datastart := Nat.succ_pos _

/-- Inodes other than `i`, and the blocks they own, are the same on both disks. -/
structure Others (sb : Superblock) (i : Nat) (D D' : Nat → Block) : Prop where
  inodes : ∀ j, j < sb.ninodes → j ≠ i → ino sb D' j = ino sb D j
  data : ∀ j, j < sb.ninodes → j ≠ i → (ino sb D j).type ≠ 0 → ∀ q,
    placeBlock (ino sb D j) D q ≠ 0 →
      D' (placeBlock (ino sb D j) D q) = D (placeBlock (ino sb D j) D q)

namespace Others

variable {i j : Nat} {D D' D'' : Nat → Block}

theorem refl (sb : Superblock) (i : Nat) (D : Nat → Block) : Others sb i D D :=
  ⟨fun _ _ _ => rfl, fun _ _ _ _ _ _ => rfl⟩

theorem place (h : Others sb i D D') (hj : j < sb.ninodes) (hne : j ≠ i)
    (ht : (ino sb D j).type ≠ 0) (q : Place) :
    placeBlock (ino sb D' j) D' q = placeBlock (ino sb D j) D q := by
  rw [h.inodes j hj hne]
  exact placeBlock_congr (fun h0 => h.data j hj hne ht .indirect h0) q

theorem trans (h : Others sb i D D') (h' : Others sb i D' D'') : Others sb i D D'' := by
  refine ⟨fun j hj hne => (h'.inodes j hj hne).trans (h.inodes j hj hne), ?_⟩
  intro j hj hne ht q hq
  have hp := h.place hj hne ht q
  have hd' := h'.data j hj hne (by rw [h.inodes j hj hne]; exact ht) q (by rw [hp]; exact hq)
  rw [hp] at hd'
  exact hd'.trans (h.data j hj hne ht q hq)

end Others

namespace Owns

variable {i : Nat} {d d' : Dinode} {D D' : Nat → Block}

theorem refBlock_self (hi : i < sb.ninodes) (ht : d.type ≠ 0) (q : Place) :
    refBlock sb (tabOf sb D i d) D (i, q) = placeBlock d D q := by
  simp only [refBlock, tabOf_self]
  exact if_pos ⟨hi, ht⟩

theorem refBlock_of_ne {j : Nat} (hne : j ≠ i) (q : Place) : refBlock sb (tabOf sb D i d) D (j, q) =
      if j < sb.ninodes ∧ (ino sb D j).type ≠ 0 then placeBlock (ino sb D j) D q else 0 := by
  simp only [refBlock, tabOf_of_ne d hne]

theorem refBlock_others (ho : Others sb i D D') {j : Nat} (hne : j ≠ i) (q : Place) :
    refBlock sb (tabOf sb D' i d') D' (j, q) = refBlock sb (tabOf sb D i d) D (j, q) := by
  rw [refBlock_of_ne hne, refBlock_of_ne hne]
  by_cases hj : j < sb.ninodes
  · rw [ho.inodes j hj hne]
    by_cases ht : (ino sb D j).type = 0
    · rw [if_neg (fun h => h.2 ht), if_neg (fun h => h.2 ht)]
    · have hp := ho.place hj hne ht q
      rw [ho.inodes j hj hne] at hp
      rw [if_pos ⟨hj, ht⟩, if_pos ⟨hj, ht⟩, hp]
  · rw [if_neg (fun h => hj h.1), if_neg (fun h => hj h.1)]

variable (h : Owns sb (tabOf sb D i d) D) (hi : i < sb.ninodes) (ht : d.type ≠ 0)
include h

theorem range_self {q : Place} (hi : i < sb.ninodes) (ht : d.type ≠ 0) (hq : placeBlock d D q ≠ 0) :
    sb.datastart ≤ placeBlock d D q ∧ placeBlock d D q < sb.size := by
  have hr := h.owned.range (i, q)
  rw [refBlock_self hi ht] at hr
  exact hr hq

theorem used_self {q : Place} (hi : i < sb.ninodes) (ht : d.type ≠ 0)
    (hq : placeBlock d D q ≠ 0) : used sb D (placeBlock d D q) = true := by
  have hm := h.owned.mark_of_val (r := (i, q))
  rw [refBlock_self hi ht] at hm
  exact hm hq

theorem inj_self {q r : Place} (hi : i < sb.ninodes) (ht : d.type ≠ 0)
    (hq : placeBlock d D q ≠ 0) (heq : placeBlock d D q = placeBlock d D r) : q = r := by
  have hr := h.owned.inj (i, q) (i, r)
  rw [refBlock_self hi ht, refBlock_self hi ht] at hr
  exact congrArg Prod.snd (hr hq heq)

theorem other {j : Nat} {q : Place} (hj : j < sb.ninodes) (hne : j ≠ i)
    (htj : (ino sb D j).type ≠ 0) (hq : placeBlock (ino sb D j) D q ≠ 0) :
    (sb.datastart ≤ placeBlock (ino sb D j) D q ∧ placeBlock (ino sb D j) D q < sb.size) ∧
      used sb D (placeBlock (ino sb D j) D q) = true ∧ ∀ p, i < sb.ninodes → d.type ≠ 0 →
        placeBlock d D p ≠ placeBlock (ino sb D j) D q := by
  have hv : refBlock sb (tabOf sb D i d) D (j, q) = placeBlock (ino sb D j) D q := by
    rw [refBlock_of_ne hne]
    exact if_pos ⟨hj, htj⟩
  have hr := h.owned.range (j, q)
  have hm := h.owned.mark_of_val (r := (j, q))
  rw [hv] at hr hm
  refine ⟨hr hq, hm hq, ?_⟩
  intro p hi ht heq
  have hinj := h.owned.inj (j, q) (i, p)
  rw [hv, refBlock_self hi ht] at hinj
  exact hne (congrArg Prod.fst (hinj hq heq.symm))

theorem give (ho : Others sb i D D') (hi : i < sb.ninodes) (ht : d.type ≠ 0) (ht' : d'.type ≠ 0)
    {p : Place} {b : Nat} (hlo : sb.datastart ≤ b) (hhi : b < sb.size) (hfree : used sb D b = false)
    (hp : placeBlock d D p = 0) (hp' : placeBlock d' D' p = b)
    (hrest : ∀ q ≠ p, placeBlock d' D' q = placeBlock d D q)
    (hused : ∀ c < sb.size, used sb D' c = (used sb D c || decide (c = b))) :
    Owns sb (tabOf sb D' i d') D' := by
  refine ⟨h.owned.give (i, p) sb.datastart_pos hlo hhi hfree ?_ ?_ ?_ ?_, ?_⟩
  · rw [refBlock_self hi ht, hp]
  · rw [refBlock_self hi ht', hp']
  · rintro ⟨j, q⟩ hne
    by_cases hji : j = i
    · subst hji
      rw [refBlock_self hi ht', refBlock_self hi ht, hrest q]
      rintro rfl
      exact hne rfl
    · exact refBlock_others ho hji q
  · intro c _ hc
    exact hused c hc
  · intro c hc
    rw [hused c (by omega), h.reserved c hc, Bool.true_or]

theorem take (ho : Others sb i D D') (hi : i < sb.ninodes) (ht : d.type ≠ 0) (ht' : d'.type ≠ 0)
    {p : Place} (hp : placeBlock d D p ≠ 0) (hp' : placeBlock d' D' p = 0)
    (hrest : ∀ q ≠ p, placeBlock d' D' q = placeBlock d D q)
    (hused : ∀ c < sb.size, used sb D' c = (used sb D c && decide (c ≠ placeBlock d D p))) :
    Owns sb (tabOf sb D' i d') D' := by
  have hr := h.range_self hi ht hp
  refine ⟨h.owned.take (i, p) sb.datastart_pos ?_ ?_ ?_ ?_, ?_⟩
  · rw [refBlock_self hi ht]
    exact hp
  · rw [refBlock_self hi ht', hp']
  · rintro ⟨j, q⟩ hne
    by_cases hji : j = i
    · subst hji
      rw [refBlock_self hi ht', refBlock_self hi ht, hrest q]
      rintro rfl
      exact hne rfl
    · exact refBlock_others ho hji q
  · intro c _ hc
    rw [refBlock_self hi ht]
    exact hused c hc
  · intro c hc
    rw [hused c (by omega), h.reserved c hc, Bool.true_and, decide_eq_true_iff]
    omega

theorem keep (ho : Others sb i D D') (hi : i < sb.ninodes) (ht : d.type ≠ 0) (ht' : d'.type ≠ 0)
    (hrest : ∀ q, placeBlock d' D' q = placeBlock d D q)
    (hused : ∀ c < sb.size, used sb D' c = used sb D c)
    (hdata : sb.datastart ≤ sb.size) : Owns sb (tabOf sb D' i d') D' := by
  refine ⟨h.owned.congr ?_ fun c _ hc => hused c hc, fun c hc => ?_⟩
  · rintro ⟨j, q⟩
    by_cases hji : j = i
    · subst hji
      rw [refBlock_self hi ht', refBlock_self hi ht, hrest q]
    · exact refBlock_others ho hji q
  · rw [hused c (by omega), h.reserved c hc]

end Owns

section OthersOf

variable {i : Nat} {d : Dinode} {s : Blk}

theorem others_alloc (hsb : sb.Wf) (h : Owns sb (tabOf sb s.disk i d) s.disk) {b : Nat}
    (hlo : sb.datastart ≤ b) (hhi : b < sb.size) (hfree : used sb s.disk b = false) :
    Others sb i s.disk (s.alloc sb b).disk := by
  refine ⟨fun j hj _ => ino_alloc s hsb hlo hj, ?_⟩
  intro j hj hne ht q hq
  obtain ⟨⟨hr, -⟩, hu, -⟩ := h.other hj hne ht hq
  rw [disk_alloc s hhi hr, if_neg]
  intro heq
  rw [heq, hfree] at hu
  cases hu

theorem others_store (hsb : sb.Wf) (h : Owns sb (tabOf sb s.disk i d) s.disk)
    (hi : i < sb.ninodes) (ht : d.type ≠ 0) {p : Place} (hp : placeBlock d s.disk p ≠ 0)
    (v : Block) : Others sb i s.disk (s.store (placeBlock d s.disk p) v).disk := by
  obtain ⟨hlo, -⟩ := h.range_self hi ht hp
  refine ⟨fun j hj _ => ino_update_of_ne _ _ ?_, ?_⟩
  · have := hsb.iblock_lt_datastart hj
    omega
  · intro j hj hne htj q hq
    obtain ⟨-, -, hno⟩ := h.other hj hne htj hq
    exact Function.update_of_ne (fun heq => hno p hi ht heq.symm) _ _

end OthersOf

end BossOs.Fs
