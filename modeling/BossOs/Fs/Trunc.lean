import BossOs.Fs.Bmap

/-!
# Writing an inode back, and truncating it

`iupdate` makes the disk agree with the copy in memory. `itrunc` gives up every block
of an inode: the direct ones, the entries of the indirect block, and the indirect
block itself.
-/

namespace BossOs.Fs

open Lib
open Prog (sat_bind sat_loop sat_pure)

variable {sb : Superblock}

def Blk.put (sb : Superblock) (s : Blk) (i : Nat) (d : Dinode) : Blk :=
  s.store (sb.iblock i) (putDinode (s.disk (sb.iblock i)) i d)

section Put

variable (s : Blk) (i : Nat) (d : Dinode)

theorem ino_put_self : ino sb (s.put sb i d).disk i = d :=
  (ino_put s.disk i i d).trans (if_pos rfl)

theorem ino_put_of_ne {j : Nat} (h : j ≠ i) : ino sb (s.put sb i d).disk j = ino sb s.disk j :=
  (ino_put s.disk i j d).trans (if_neg h)

theorem used_put (hsb : sb.Wf) (hi : i < sb.ninodes) (c : Nat) :
    used sb (s.put sb i d).disk c = used sb s.disk c :=
  used_update_of_ne _ _ (hsb.iblock_ne_bblock hi c).symm

theorem disk_put (hsb : sb.Wf) (hi : i < sb.ninodes) {c : Nat} (hc : sb.datastart ≤ c) :
    (s.put sb i d).disk c = s.disk c := by
  have := hsb.iblock_lt_datastart hi
  exact Function.update_of_ne (by omega) _ _

theorem frame_put : Frame (· = sb.iblock i) s (s.put sb i d) := Frame.store ..

theorem others_put (hsb : sb.Wf) {d₀ : Dinode} (hi : i < sb.ninodes)
    (h : Owns sb (tabOf sb s.disk i d₀) s.disk) : Others sb i s.disk (s.put sb i d).disk := by
  refine ⟨fun j _ hne => ino_put_of_ne s i d hne, ?_⟩
  intro j hj hne ht q hq
  obtain ⟨⟨hr, -⟩, -, -⟩ := h.other hj hne ht hq
  exact disk_put s i d hsb hi hr

theorem owns_put (hsb : sb.Wf) (hi : i < sb.ninodes) (ht : d.type ≠ 0)
    (h : Owns sb (tabOf sb s.disk i d) s.disk) :
    Owns sb (ino sb (s.put sb i d).disk) (s.put sb i d).disk := by
  rw [← tabOf_ino sb _ i, ino_put_self]
  refine h.keep (others_put s i d hsb hi h) hi ht ht ?_ (fun c _ => used_put s i d hsb hi c)
    hsb.data
  refine placeBlock_congr fun h0 => ?_
  exact disk_put s i d hsb hi (h.range_self (q := .indirect) hi ht h0).1

end Put

variable {e : Entry} {E : Stop → State → Prop}

theorem sat_iupdate {s : State} (hh : s.blk.held = []) (hop : 1 ≤ s.blk.outstanding)
    {Q : Unit → State → Prop} : ((iupdate sb e).run s).Sat Q E =
      Q () { s with blk := s.blk.put sb (s.icache e).inum (s.icache e).din } := by
  simp only [iupdate, sat_bind, sat_inode, sat_lift]
  rw [sat_bread (by rw [hh]; exact List.not_mem_nil)]
  exact sat_store hop

/-- Blocks and inodes are as in `s`; only marks in the free map may have been cleared. -/
structure Freed (sb : Superblock) (L : Nat → Prop) (s t : Blk) : Prop where
  data : ∀ c, sb.datastart ≤ c → t.disk c = s.disk c
  inodes : ∀ j, j < sb.ninodes → ino sb t.disk j = ino sb s.disk j
  frame : Frame L s t

namespace Freed

variable {L L' : Nat → Prop} {s t u : Blk}

theorem refl (L : Nat → Prop) (s : Blk) : Freed sb L s s :=
  ⟨fun _ _ => rfl, fun _ _ => rfl, Frame.refl ..⟩

theorem trans (h : Freed sb L s t) (h' : Freed sb L t u) : Freed sb L s u :=
  ⟨fun c hc => (h'.data c hc).trans (h.data c hc), fun j hj => (h'.inodes j hj).trans (h.inodes j hj),
    h.frame.trans h'.frame⟩

theorem mono (h : Freed sb L s t) (hL : ∀ c, L c → L' c) : Freed sb L' s t :=
  ⟨h.data, h.inodes, h.frame.mono hL⟩

theorem free (hsb : sb.Wf) {b : Nat} (hb : b < sb.size) :
    Freed sb (· = sb.bblock b) s (s.free sb b) :=
  ⟨fun _ hc => disk_free s hb hc, fun _ hj => ino_free s hsb hj, frame_free s⟩

theorem place (h : Freed sb L s t) {i : Nat} {d : Dinode}
    (ho : Owns sb (tabOf sb s.disk i d) s.disk) (hi : i < sb.ninodes) (ht : d.type ≠ 0)
    (q : Place) : placeBlock d t.disk q = placeBlock d s.disk q :=
  placeBlock_congr (fun h0 => h.data _ (ho.range_self (q := .indirect) hi ht h0).1) q

theorem others (h : Freed sb L s t) {i : Nat} {d : Dinode}
    (ho : Owns sb (tabOf sb s.disk i d) s.disk) : Others sb i s.disk t.disk := by
  refine ⟨fun j hj _ => h.inodes j hj, ?_⟩
  intro j hj hne ht q hq
  obtain ⟨⟨hr, -⟩, -, -⟩ := ho.other hj hne ht hq
  exact h.data _ hr

end Freed

def freeFoot (sb : Superblock) (d : Dinode) (D : Nat → Block) (c : Nat) : Prop :=
  ∃ q, placeBlock d D q ≠ 0 ∧ c = sb.bblock (placeBlock d D q)

section Direct

variable {i j : Nat} {s t : Blk} {d d' : Dinode}

structure DirectFreed (sb : Superblock) (i j : Nat) (s : Blk) (d : Dinode) (t : Blk)
    (d' : Dinode) : Prop where
  owns : Owns sb (tabOf sb t.disk i d') t.disk
  freed : Freed sb (freeFoot sb d s.disk) s t
  gone : ∀ k, k < j → k < NDIRECT → d'.addr k = 0
  rest : ∀ k, j ≤ k → k ≤ NDIRECT → d'.addr k = d.addr k
  fields : d' = { d with addrs := d'.addrs }

theorem DirectFreed.skip (h : DirectFreed sb i j s d t d') (h0 : d'.addr j = 0) :
    DirectFreed sb i (j + 1) s d t d' := by
  refine ⟨h.owns, h.freed, ?_, fun k hk => h.rest k (by omega), h.fields⟩
  intro k hk hkd
  by_cases hkj : k = j
  · rw [hkj, h0]
  · exact h.gone k (by omega) hkd

theorem DirectFreed.free (hsb : sb.Wf) (hi : i < sb.ninodes) (ht : d.type ≠ 0) (hj : j < NDIRECT)
    (h : DirectFreed sb i j s d t d') (h0 : d'.addr j ≠ 0) :
    DirectFreed sb i (j + 1) s d (t.free sb (d'.addr j)) (d'.setAddr j 0) := by
  have ht' : d'.type ≠ 0 := by
    rw [h.fields]
    exact ht
  have hp0 : placeBlock d' t.disk (.direct ⟨j, hj⟩) ≠ 0 := h0
  have hjeq := h.rest j (Nat.le_refl j) (Nat.le_of_lt hj)
  obtain ⟨hlo, hhi⟩ := h.owns.range_self hi ht' hp0
  have hstep : Freed sb (freeFoot sb d s.disk) t (t.free sb (d'.addr j)) := by
    refine (Freed.free hsb hhi).mono ?_
    rintro c rfl
    refine ⟨.direct ⟨j, hj⟩, ?_, ?_⟩
    · intro heq
      exact h0 (hjeq.trans heq)
    · exact congrArg sb.bblock hjeq
  have hne : ∀ k ≤ NDIRECT, k ≠ j → (d'.setAddr j 0).addr k = d'.addr k :=
    fun k hk hkj => d'.addr_setAddr_of_ne (Nat.le_of_lt hj) hk hkj
  have hz : (d'.setAddr j 0).addr j = 0 := d'.addr_setAddr_self (Nat.two_pow_pos 32)
  refine ⟨?_, h.freed.trans hstep, ?_, ?_, ?_⟩
  · refine h.owns.take (hstep.others h.owns) hi ht' ht' hp0 hz ?_ fun c _ => used_free t
    intro q hq
    have hpl := hstep.place h.owns hi ht' q
    cases q with
    | direct k => exact hne k (Nat.le_of_lt k.isLt) fun heq => hq (congrArg _ (Fin.ext heq))
    | indirect => exact hne NDIRECT (Nat.le_refl _) (by omega)
    | entry k =>
      rw [← hpl]
      simp only [placeBlock]
      rw [hne NDIRECT (Nat.le_refl _) (by omega)]
  · intro k hk hkd
    by_cases hkj : k = j
    · rw [hkj]
      exact hz
    · exact (hne k (Nat.le_of_lt hkd) hkj).trans (h.gone k (by omega) hkd)
  · intro k hk hkd
    exact (hne k hkd (by omega)).trans (h.rest k (by omega) hkd)
  · have hf := h.fields
    simp only [Dinode.setAddr]
    rw [hf]

theorem DirectFreed.place (hi : i < sb.ninodes) (ht : d.type ≠ 0)
    (h : DirectFreed sb i NDIRECT s d t d') {q : Place} (hq : placeBlock d' t.disk q ≠ 0) :
    placeBlock d s.disk q = placeBlock d' t.disk q := by
  have ht' : d'.type ≠ 0 := by
    rw [h.fields]
    exact ht
  have h12 := h.rest NDIRECT (Nat.le_refl _) (Nat.le_refl _)
  cases q with
  | direct k => exact absurd (h.gone k k.isLt k.isLt) hq
  | indirect => exact h12.symm
  | entry k =>
    have h0 : d'.addr NDIRECT ≠ 0 := fun h0 => hq (if_pos h0)
    have hlo : sb.datastart ≤ d'.addr NDIRECT :=
      (h.owns.range_self (q := .indirect) hi ht' h0).1
    simp only [placeBlock, ← h12]
    rw [h.freed.data _ hlo]

end Direct

theorem withDin_icache_self (s : State) (e : Entry) (t : Blk) (d : Dinode) :
    (s.withDin e t d).icache e = { s.icache e with din := d } := by
  simp [State.withDin, State.update]

theorem withDin_withDin (s : State) (e : Entry) (t u : Blk) (d d' : Dinode) :
    (s.withDin e t d).withDin e u d' = s.withDin e u d' := by
  simp [State.withDin, State.update]

theorem withDin_eq (s : State) (e : Entry) : s.withDin e s.blk (s.icache e).din = s := by
  simp [State.withDin, State.update]

theorem sat_freeDirects {s : State} {i : Nat} (hsb : sb.Wf) (hi : i < sb.ninodes)
    (ht : (s.icache e).din.type ≠ 0)
    (hown : Owns sb (tabOf sb s.blk.disk i (s.icache e).din) s.blk.disk)
    (hh : s.blk.held = []) (hop : 1 ≤ s.blk.outstanding) :
    ((Prog.loop (freeDirect sb e) NDIRECT 0).run s).Sat (fun _ t => ∃ u d', t = s.withDin e u d' ∧
        DirectFreed sb i NDIRECT s.blk (s.icache e).din u d') E := by
  have hloop := sat_loop (s := s) (n := NDIRECT) (i := 0) (f := freeDirect sb e) (E := E)
    (I := fun j t => ∃ u d', t = s.withDin e u d' ∧
      DirectFreed sb i j s.blk (s.icache e).din u d') ?_ ?_
  · rw [Nat.zero_add] at hloop
    exact hloop
  · rintro j _ - hj ⟨u, d', rfl, h⟩
    rw [Nat.zero_add] at hj
    simp only [freeDirect, sat_bind, sat_inode, withDin_icache_self]
    by_cases h0 : d'.addr j = 0
    · rw [if_pos h0, sat_pure]
      exact ⟨u, d', rfl, h.skip h0⟩
    · have ht' : d'.type ≠ 0 := by
        rw [h.fields]
        exact ht
      have hused := h.owns.used_self (q := .direct ⟨j, hj⟩) hi ht' h0
      have hheld : u.held = [] := h.freed.frame.held.trans hh
      rw [if_neg h0, sat_bind, sat_lift]
      refine bfree_spec ?_ ?_ hused ?_
      · exact hop.trans_eq h.freed.frame.outstanding.symm
      · exact fun hmem => absurd (hheld ▸ hmem) List.not_mem_nil
      · rw [sat_setDin]
        refine ⟨_, _, ?_, h.free hsb hi ht hj h0⟩
        simp [State.withDin, State.update]
  · refine ⟨s.blk, (s.icache e).din, (withDin_eq s e).symm, hown, Freed.refl .., ?_,
      fun _ _ _ => rfl, rfl⟩
    intro k hk
    omega

section Indirect

/-- The references when entries before `j` of the indirect block of `i` no longer count. -/
def maskRef (i j : Nat) (val : Nat × Place → Nat) : Nat × Place → Nat
  | (i', .entry k) => if i' = i ∧ k.val < j then 0 else val (i', .entry k)
  | r => val r

variable {i j : Nat} {s t : Blk} {d : Dinode}

theorem maskRef_zero (val : Nat × Place → Nat) (r : Nat × Place) : maskRef i 0 val r = val r := by
  obtain ⟨i', q⟩ := r
  cases q with
  | direct k => rfl
  | indirect => rfl
  | entry k => exact if_neg (by omega)

theorem maskRef_succ (val : Nat × Place → Nat) (k : Fin NINDIRECT) {r : Nat × Place}
    (hr : r ≠ (i, .entry k)) : maskRef i (k.val + 1) val r = maskRef i k.val val r := by
  obtain ⟨i', q⟩ := r
  cases q with
  | direct k' => rfl
  | indirect => rfl
  | entry k' =>
    have hiff : (i' = i ∧ k'.val < k.val + 1) ↔ (i' = i ∧ k'.val < k.val) := by
      constructor
      · rintro ⟨rfl, hlt⟩
        have hne : k'.val ≠ k.val := by
          intro heq
          exact hr (by rw [Fin.ext heq])
        exact ⟨rfl, by omega⟩
      · rintro ⟨rfl, hlt⟩
        exact ⟨rfl, by omega⟩
    simp only [maskRef, hiff]

theorem maskRef_self (val : Nat × Place → Nat) (k : Fin NINDIRECT) :
    maskRef i k.val val (i, .entry k) = val (i, .entry k) := if_neg (by omega)

structure EntriesFreed (sb : Superblock) (i j : Nat) (s : Blk) (d : Dinode) (t : Blk) :
    Prop where
  owned : Owned (maskRef i j (refBlock sb (tabOf sb s.disk i d) s.disk)) (used sb t.disk)
    sb.datastart sb.size
  reserved : ∀ b, b < sb.datastart → used sb t.disk b = true
  freed : Freed sb (freeFoot sb d s.disk) s t

theorem sat_freeEntry (hsb : sb.Wf) (hi : i < sb.ninodes) (ht : d.type ≠ 0)
    (h12 : d.addr NDIRECT ≠ 0) (hh : ∀ b < sb.size, sb.bblock b ∉ s.held)
    (hop : 1 ≤ s.outstanding) (hj : j < NINDIRECT) (h : EntriesFreed sb i j s d t)
    {E : Stop → Blk → Prop} : ((freeEntry sb (s.disk (d.addr NDIRECT)) j).run t).Sat
      (fun _ u => EntriesFreed sb i (j + 1) s d u) E := by
  have hval : refBlock sb (tabOf sb s.disk i d) s.disk (i, .entry ⟨j, hj⟩) =
      (s.disk (d.addr NDIRECT)).word j := by
    rw [Owns.refBlock_self hi ht]
    exact if_neg h12
  have hself := maskRef_self (i := i) (refBlock sb (tabOf sb s.disk i d) s.disk) ⟨j, hj⟩
  rw [hval] at hself
  simp only at hself
  unfold freeEntry
  by_cases h0 : (s.disk (d.addr NDIRECT)).word j = 0
  · rw [if_pos h0, sat_pure]
    refine ⟨h.owned.congr ?_ fun _ _ _ => rfl, h.reserved, h.freed⟩
    intro r
    by_cases hr : r = (i, .entry ⟨j, hj⟩)
    · subst hr
      rw [hself, h0]
      exact if_pos ⟨rfl, Nat.lt_succ_self j⟩
    · exact maskRef_succ _ ⟨j, hj⟩ hr
  · have hne : maskRef i j (refBlock sb (tabOf sb s.disk i d) s.disk) (i, .entry ⟨j, hj⟩) ≠ 0 := by
      rw [hself]
      exact h0
    have hused := h.owned.mark_of_val hne
    obtain ⟨hlo, hhi⟩ := h.owned.range _ hne
    rw [hself] at hused hlo hhi
    rw [if_neg h0]
    refine bfree_spec ?_ ?_ hused ⟨?_, ?_, ?_⟩
    · exact hop.trans_eq h.freed.frame.outstanding.symm
    · rw [h.freed.frame.held]
      exact hh _ hhi
    · refine h.owned.take (i, .entry ⟨j, hj⟩) sb.datastart_pos hne ?_ ?_ ?_
      · exact if_pos ⟨rfl, Nat.lt_succ_self j⟩
      · exact fun r hr => maskRef_succ _ ⟨j, hj⟩ hr
      · intro c _ _
        rw [hself]
        exact used_free t
    · intro b hb
      rw [used_free, h.reserved b hb, Bool.true_and, decide_eq_true_iff]
      omega
    · refine h.freed.trans ((Freed.free hsb hhi).mono ?_)
      rintro c rfl
      have hp : placeBlock d s.disk (.entry ⟨j, hj⟩) = (s.disk (d.addr NDIRECT)).word j :=
        if_neg h12
      exact ⟨.entry ⟨j, hj⟩, by rw [hp]; exact h0, by rw [hp]⟩

theorem sat_freeEntry_loop (hsb : sb.Wf) (hi : i < sb.ninodes) (ht : d.type ≠ 0)
    (h12 : d.addr NDIRECT ≠ 0) (hown : Owns sb (tabOf sb s.disk i d) s.disk)
    (hh : ∀ b < sb.size, sb.bblock b ∉ s.held) (hop : 1 ≤ s.outstanding) {bp : Block}
    (hbp : bp = s.disk (d.addr NDIRECT)) {E : Stop → Blk → Prop} :
    ((Prog.loop (freeEntry sb bp) NINDIRECT 0).run s).Sat
      (fun _ t => EntriesFreed sb i NINDIRECT s d t) E := by
  have hloop := sat_loop (s := s) (n := NINDIRECT) (i := 0) (E := E)
    (f := freeEntry sb bp) (I := fun j t => EntriesFreed sb i j s d t)
  rw [Nat.zero_add] at hloop
  refine hloop ?_ ?_
  · intro j t _ hj h
    rw [hbp]
    exact sat_freeEntry hsb hi ht h12 hh hop hj h
  · exact ⟨hown.owned.congr (fun r => maskRef_zero _ r) fun _ _ _ => rfl, hown.reserved,
      Freed.refl ..⟩

theorem EntriesFreed.release {l : List Nat} (h : EntriesFreed sb i j { s with held := l } d t) :
    EntriesFreed sb i j s d { t with held := s.held } := by
  obtain ⟨-, hout, hsec, hnest, hlogged, hlog⟩ := h.freed.frame
  exact ⟨h.owned, h.reserved, h.freed.data, h.freed.inodes, ⟨rfl, hout, hsec, hnest, hlogged,
    ⟨hlog.nodup, hlog.sub, hlog.length_le, hlog.asked_le, hlog.asked_ge, hlog.changed⟩⟩⟩

theorem owns_indirect_freed (hsb : sb.Wf) (hi : i < sb.ninodes) (ht : d.type ≠ 0)
    (h12 : d.addr NDIRECT ≠ 0) (hown : Owns sb (tabOf sb s.disk i d) s.disk)
    (h : EntriesFreed sb i NINDIRECT s d t) :
    Owns sb (tabOf sb (t.free sb (d.addr NDIRECT)).disk i (d.setAddr NDIRECT 0))
      (t.free sb (d.addr NDIRECT)).disk ∧
    Freed sb (freeFoot sb d s.disk) s (t.free sb (d.addr NDIRECT)) := by
  obtain ⟨hlo, hhi⟩ := hown.range_self (q := .indirect) hi ht h12
  have hlo' : sb.datastart ≤ d.addr NDIRECT := hlo
  have hhi' : d.addr NDIRECT < sb.size := hhi
  have hval : maskRef i NINDIRECT (refBlock sb (tabOf sb s.disk i d) s.disk) (i, .indirect) =
      d.addr NDIRECT := Owns.refBlock_self hi ht .indirect
  have hf : Freed sb (freeFoot sb d s.disk) s (t.free sb (d.addr NDIRECT)) := by
    refine h.freed.trans ((Freed.free hsb hhi').mono ?_)
    rintro c rfl
    exact ⟨.indirect, h12, rfl⟩
  have hz : (d.setAddr NDIRECT 0).addr NDIRECT = 0 := d.addr_setAddr_self (Nat.two_pow_pos 32)
  have ht' : (d.setAddr NDIRECT 0).type ≠ 0 := ht
  refine ⟨⟨h.owned.take (i, .indirect) sb.datastart_pos ?_ ?_ ?_ ?_, ?_⟩, hf⟩
  · rw [hval]
    exact h12
  · rw [Owns.refBlock_self hi ht']
    exact hz
  · rintro ⟨i', q⟩ hne
    by_cases hii : i' = i
    · subst hii
      rw [Owns.refBlock_self hi ht']
      cases q with
      | direct k =>
        refine Eq.trans ?_ (Owns.refBlock_self hi ht (.direct k)).symm
        exact d.addr_setAddr_of_ne (Nat.le_refl _) (Nat.le_of_lt k.isLt) (Nat.ne_of_lt k.isLt)
      | indirect => exact absurd rfl hne
      | entry k =>
        simp only [placeBlock, hz, if_true]
        exact (if_pos ⟨rfl, k.isLt⟩).symm
    · have hoth := hf.others hown
      refine (Owns.refBlock_others hoth (d := d) hii q).trans ?_
      cases q with
      | direct k => rfl
      | indirect => rfl
      | entry k => exact (if_neg fun hc => hii hc.1).symm
  · intro c _ _
    rw [hval]
    exact used_free t
  · intro b hb
    rw [used_free, h.reserved b hb, Bool.true_and, decide_eq_true_iff]
    omega

theorem sat_freeEntries (hsb : sb.Wf) (hi : i < sb.ninodes) (ht : d.type ≠ 0)
    (h12 : d.addr NDIRECT ≠ 0) (hown : Owns sb (tabOf sb s.disk i d) s.disk) (hh : s.held = [])
    (hop : 1 ≤ s.outstanding) {E : Stop → Blk → Prop} :
    ((freeEntries sb (d.addr NDIRECT)).run s).Sat
      (fun _ t => Owns sb (tabOf sb t.disk i (d.setAddr NDIRECT 0)) t.disk ∧
        Freed sb (freeFoot sb d s.disk) s t) E := by
  have hlo : sb.datastart ≤ d.addr NDIRECT := (hown.range_self (q := .indirect) hi ht h12).1
  unfold freeEntries
  rw [sat_bind, sat_bread (by rw [hh]; exact List.not_mem_nil), sat_bind]
  have hloop := sat_freeEntry_loop (s := { s with held := d.addr NDIRECT :: s.held }) hsb hi ht h12
    hown (by
      intro b hb hm
      have := Superblock.Wf.bblock_lt hb
      rw [hh, List.mem_singleton] at hm
      omega) hop (rfl : s.disk (d.addr NDIRECT) = _) (E := E)
  refine hloop.imp ?_
  intro _ t ht2
  have hrel := ht2.release
  have hval : maskRef i NINDIRECT (refBlock sb (tabOf sb s.disk i d) s.disk) (i, .indirect) =
      d.addr NDIRECT := Owns.refBlock_self hi ht .indirect
  have hused := hrel.owned.mark_of_val (r := (i, .indirect)) (by rw [hval]; exact h12)
  rw [hval] at hused
  rw [sat_bind, sat_brelse ht2.freed.frame.held]
  refine bfree_spec (s := { t with held := s.held }) ?_ ?_ hused ?_
  · exact hop.trans_eq ht2.freed.frame.outstanding.symm
  · rw [hh]
    exact List.not_mem_nil
  · exact owns_indirect_freed hsb hi ht h12 hown hrel

end Indirect

def Dinode.truncated (d : Dinode) : Dinode := { d with size := 0, addrs := fun _ => 0 }

theorem Dinode.addrs_eq_zero {d : Dinode} (h : ∀ k ≤ NDIRECT, d.addr k = 0) :
    d.addrs = fun _ => 0 := by
  funext k
  have hk := h k.val (Nat.le_of_lt_succ k.isLt)
  have hof : Fin.ofNat (NDIRECT + 1) k.val = k := Fin.ext (Nat.mod_eq_of_lt k.isLt)
  rw [Dinode.addr, hof] at hk
  exact UInt32.toNat_inj.mp hk

structure Truncated (sb : Superblock) (i : Nat) (s : Blk) (d : Dinode) (t : Blk) : Prop where
  owns : Owns sb (ino sb t.disk) t.disk
  inode : ino sb t.disk i = d.truncated
  others : Others sb i s.disk t.disk
  frame : Frame (fun c => freeFoot sb d s.disk c ∨ c = sb.iblock i) s t

theorem sat_freeIndirect {s : State} {i : Nat} {d d' : Dinode} {u : Blk}
    (hsb : sb.Wf) (hi : i < sb.ninodes) (ht : d.type ≠ 0) (hh : s.blk.held = [])
    (hop : 1 ≤ s.blk.outstanding) (h : DirectFreed sb i NDIRECT s.blk d u d') :
    ((freeIndirect sb e).run (s.withDin e u d')).Sat
      (fun _ t => ∃ u d', t = s.withDin e u d' ∧ Owns sb (tabOf sb u.disk i d') u.disk ∧
        Freed sb (freeFoot sb d s.blk.disk) s.blk u ∧ (∀ k ≤ NDIRECT, d'.addr k = 0) ∧
        d' = { d with addrs := d'.addrs }) E := by
  have hheld : u.held = [] := h.freed.frame.held.trans hh
  have hop' : 1 ≤ u.outstanding := hop.trans_eq h.freed.frame.outstanding.symm
  have ht' : d'.type ≠ 0 := by
    rw [h.fields]
    exact ht
  simp only [freeIndirect, sat_bind, sat_inode, withDin_icache_self]
  by_cases h12 : d'.addr NDIRECT = 0
  · rw [if_pos h12, sat_pure]
    refine ⟨u, d', rfl, h.owns, h.freed, ?_, h.fields⟩
    intro k hk
    rcases Nat.lt_or_eq_of_le hk with hk | rfl
    · exact h.gone k hk hk
    · exact h12
  · rw [if_neg h12, sat_bind, sat_lift]
    refine (sat_freeEntries hsb hi ht' h12 h.owns hheld hop').imp ?_
    rintro _ t ⟨hown, hfreed⟩
    rw [sat_setDin]
    refine ⟨t, d'.setAddr NDIRECT 0, ?_, hown, ?_, ?_, ?_⟩
    · simp [State.withDin, State.update]
    · refine h.freed.trans (hfreed.mono ?_)
      rintro c ⟨q, hq, rfl⟩
      have hpl := h.place hi ht hq
      exact ⟨q, by rw [hpl]; exact hq, by rw [hpl]⟩
    · intro k hk
      rcases Nat.lt_or_eq_of_le hk with hlt | rfl
      · rw [d'.addr_setAddr_of_ne (Nat.le_refl _) hk (Nat.ne_of_lt hlt)]
        exact h.gone k hlt hlt
      · exact d'.addr_setAddr_self (Nat.two_pow_pos 32)
    · have hf := h.fields
      simp only [Dinode.setAddr]
      rw [hf]

theorem itrunc_spec {s : State} (hsb : sb.Wf)
    (hi : (s.icache e).inum < sb.ninodes) (ht : (s.icache e).din.type ≠ 0)
    (hown : Owns sb (tabOf sb s.blk.disk (s.icache e).inum (s.icache e).din) s.blk.disk)
    (hh : s.blk.held = []) (hop : 1 ≤ s.blk.outstanding) : ((itrunc sb e).run s).Sat
      (fun _ t => ∃ u, t = s.withDin e u (s.icache e).din.truncated ∧
        Truncated sb (s.icache e).inum s.blk (s.icache e).din u) E := by
  simp only [itrunc, sat_bind]
  refine (sat_freeDirects hsb hi ht hown hh hop).imp ?_
  rintro _ _ ⟨u, d', rfl, h⟩
  refine (sat_freeIndirect hsb hi ht hh hop h).imp ?_
  rintro _ _ ⟨u, d', rfl, hown', hfreed, hzero, hfields⟩
  rw [sat_setDin, sat_iupdate]
  · simp only [withDin_icache_self]
    have hd : { d' with size := 0 } = (s.icache e).din.truncated := by
      rw [Dinode.truncated, ← Dinode.addrs_eq_zero hzero]
      rw [hfields]
    have ht' : d'.type ≠ 0 := by
      rw [hfields]
      exact ht
    have hown2 : Owns sb (tabOf sb u.disk (s.icache e).inum (s.icache e).din.truncated) u.disk := by
      refine hown'.keep (Others.refl ..) hi ht' ht ?_ (fun _ _ => rfl) hsb.data
      intro q
      rw [← hd]
      rfl
    rw [hd]
    refine ⟨u.put sb (s.icache e).inum (s.icache e).din.truncated, ?_, ?_, ino_put_self .., ?_, ?_⟩
    · simp [State.withDin, State.update]
    · exact owns_put u _ _ hsb hi ht hown2
    · exact (hfreed.others hown).trans (others_put u _ _ hsb hi hown')
    · exact (hfreed.frame.mono fun _ => Or.inl).trans ((frame_put ..).mono fun _ => Or.inr)
  · exact hfreed.frame.held.trans hh
  · exact hop.trans_eq hfreed.frame.outstanding.symm

end BossOs.Fs
