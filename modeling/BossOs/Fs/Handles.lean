import BossOs.Fs.Writei
import Mathlib.Data.Multiset.Count

/-!
# References and locks

Inside a call the running process has references `R` to entries of the inode cache and
holds the locks of the entries `L`. `Cached` says that the cache agrees with both.
`Quiet` is what the functions that only look do to the nodes: nothing, apart from
inodes with no link and no reference, which the last `iput` frees.
-/

namespace BossOs.Fs

open Lib
open Prog (sat_bind sat_fail sat_ite sat_pure)

variable {sb : Superblock}

def Node.dirent (nd : Node) (k : Nat) : Dirent :=
  Dirent.decode (nd.read (k * Dirent.bytes) Dirent.bytes)

def Node.slots (nd : Node) : Nat := nd.size / Dirent.bytes

def DirOk (sb : Superblock) (nd : Node) : Prop :=
  nd.type = T_DIR → Dirent.bytes ∣ nd.size ∧ ∀ k, k < nd.slots → (nd.dirent k).inum < sb.ninodes

theorem dirOk_of_type {nd : Node} (h : nd.type ≠ T_DIR) : DirOk sb nd := fun ht => absurd ht h

theorem dirOk_free : DirOk sb Node.free := dirOk_of_type (by decide)

structure Cached (sb : Superblock) (R : Multiset Entry) (L : List Entry) (s : State) : Prop where
  good : Good sb s
  dirs : ∀ i, i < sb.ninodes → DirOk sb (s.node sb i)
  inum : ∀ e ∈ R, (s.icache e).inum < sb.ninodes
  ref : ∀ e, (s.icache e).ref = (R.count e : Int)
  locked : ∀ e, (s.icache e).locked = true ↔ e ∈ L
  valid : ∀ e ∈ L, e ∈ R ∧ (s.icache e).valid = true

/-- An inode in use that has no link, and none of the references `R`. -/
structure Loose (sb : Superblock) (R : Multiset Entry) (s : State) (j : Nat) : Prop where
  inum : j < sb.ninodes
  type : (s.node sb j).type ≠ 0
  nlink : (s.node sb j).nlink = 0
  unref : ∀ e ∈ R, (s.icache e).inum ≠ j

def looseFoot (sb : Superblock) (R : Multiset Entry) (s : State) (b : Nat) : Prop :=
  ∃ j, Loose sb R s j ∧ (b = sb.iblock j ∨ ∃ c, c < sb.size ∧ b = sb.bblock c)

structure Quiet (sb : Superblock) (R : Multiset Entry) (s t : State) : Prop where
  node : ∀ j, j < sb.ninodes →
    t.node sb j = s.node sb j ∨ Loose sb R s j ∧ t.node sb j = Node.free
  inum : ∀ e ∈ R, (t.icache e).inum = (s.icache e).inum
  valid : ∀ e ∈ R, (s.icache e).valid = true → (t.icache e).valid = true
  inodes : ∀ j, j < sb.ninodes → ¬ Loose sb R s j → ino sb t.blk.disk j = ino sb s.blk.disk j
  frame : Frame (looseFoot sb R s) s.blk t.blk

namespace Quiet

variable {R R' : Multiset Entry} {s t u : State}

theorem refl (R : Multiset Entry) (s : State) : Quiet sb R s s :=
  ⟨fun _ _ => Or.inl rfl, fun _ _ => rfl, fun _ _ h => h, fun _ _ _ => rfl, Frame.refl ..⟩

section
variable (h : Quiet sb R s t)
include h

theorem loose {j : Nat} (hj : Loose sb R t j) : Loose sb R s j := by
  have hnode : t.node sb j = s.node sb j := by
    rcases h.node j hj.inum with heq | ⟨-, hfree⟩
    · exact heq
    · have ht := hj.type
      rw [hfree] at ht
      exact absurd rfl ht
  refine ⟨hj.inum, hnode ▸ hj.type, hnode ▸ hj.nlink, ?_⟩
  intro e he heq
  exact hj.unref e he ((h.inum e he).trans heq)

theorem looseFoot {b : Nat} (hb : looseFoot sb R t b) :
    Fs.looseFoot sb R s b := by
  obtain ⟨j, hj, hb⟩ := hb
  exact ⟨j, h.loose hj, hb⟩

theorem trans (h' : Quiet sb R t u) : Quiet sb R s u := by
  refine ⟨?_, fun e he => (h'.inum e he).trans (h.inum e he),
    fun e he hv => h'.valid e he (h.valid e he hv), ?_,
    h.frame.trans (h'.frame.mono fun _ => h.looseFoot)⟩
  · intro j hj
    rcases h'.node j hj with heq | ⟨hl, hfree⟩
    · rw [heq]
      exact h.node j hj
    · exact Or.inr ⟨h.loose hl, hfree⟩
  · intro j hj hl
    rw [h'.inodes j hj fun hl' => hl (h.loose hl'), h.inodes j hj hl]

theorem mono (hR : R' ⊆ R) : Quiet sb R' s t := by
  have hl : ∀ j, Loose sb R s j → Loose sb R' s j := fun j hj =>
    ⟨hj.inum, hj.type, hj.nlink, fun e he => hj.unref e (hR he)⟩
  refine ⟨fun j hj => (h.node j hj).imp_right fun ⟨h1, h2⟩ => ⟨hl j h1, h2⟩,
    fun e he => h.inum e (hR he), fun e he => h.valid e (hR he),
    fun j hj hn => h.inodes j hj fun hl' => hn (hl j hl'), h.frame.mono ?_⟩
  rintro b ⟨j, hj, hb⟩
  exact ⟨j, hl j hj, hb⟩

theorem nodeAt {e : Entry} (he : e ∈ R) (hi : (s.icache e).inum < sb.ninodes) :
    t.nodeAt sb e = s.nodeAt sb e := by
  rw [State.nodeAt, h.inum e he]
  rcases h.node _ hi with heq | ⟨hl, -⟩
  · exact heq
  · exact absurd rfl (hl.unref e he)

end

theorem set {e : Entry} {ip : Inode}
    (hi : e ∈ R → ip.inum = (s.icache e).inum ∧ ((s.icache e).valid = true → ip.valid = true)) :
    Quiet sb R s (s.set e s.blk ip) := by
  refine ⟨fun _ _ => Or.inl rfl, ?_, ?_, fun _ _ _ => rfl, Frame.refl ..⟩
  · intro e' he'
    by_cases he : e' = e
    · subst he
      rw [set_icache_self]
      exact (hi he').1
    · rw [set_icache_of_ne _ _ _ _ he]
  · intro e' he'
    by_cases he : e' = e
    · subst he
      rw [set_icache_self]
      exact (hi he').2
    · rw [set_icache_of_ne _ _ _ _ he]
      exact id

end Quiet

namespace Cached

variable {R R' : Multiset Entry} {L L' : List Entry} {s t : State} {e : Entry}

theorem ref_pos (h : Cached sb R L s) : 0 < (s.icache e).ref ↔ e ∈ R := by
  rw [h.ref, ← Multiset.count_pos]
  exact Int.natCast_pos

theorem inum_lt (h : Cached sb R L s) (he : e ∈ R) : (s.icache e).inum < sb.ninodes := h.inum e he

section Locked

variable (h : Cached sb R L s) (he : e ∈ L)
include h he

theorem mem_of_locked : e ∈ R := (h.valid e he).1

theorem ref_of_locked : 0 < (s.icache e).ref := h.ref_pos.mpr (h.valid e he).1

theorem din_type : (s.icache e).din.type = (s.nodeAt sb e).type := by
  rw [h.good.nodeAt_eq (h.ref_of_locked he) (h.valid e he).2]

theorem din_nlink : (s.icache e).din.nlink = (s.nodeAt sb e).nlink := by
  rw [h.good.nodeAt_eq (h.ref_of_locked he) (h.valid e he).2]

theorem din_size : (s.icache e).din.size.toNat = (s.nodeAt sb e).size := by
  rw [h.good.nodeAt_eq (h.ref_of_locked he) (h.valid e he).2]

theorem type_ne : (s.nodeAt sb e).type ≠ 0 := by
  rw [← h.din_type he]
  exact h.good.typed e (h.ref_of_locked he) (h.valid e he).2

end Locked

theorem perm (h : Cached sb R L s) (hL : ∀ e, e ∈ L' ↔ e ∈ L) : Cached sb R L' s :=
  ⟨h.good, h.dirs, h.inum, h.ref, fun e => (h.locked e).trans (hL e).symm,
    fun e he => h.valid e ((hL e).mp he)⟩

theorem congr (h : Cached sb R L s)
    (hdisk : t.blk.disk = s.blk.disk) (hheld : t.blk.held = s.blk.held) (hi : t.icache = s.icache) :
    Cached sb R L t := by
  refine ⟨⟨?_, ?_, ?_, ?_, ?_, ?_⟩, ?_, ?_, ?_, ?_, ?_⟩
  · rw [hdisk]
    exact h.good.disk
  · rw [hheld]
    exact h.good.held
  · rw [hi]
    exact h.good.unique
  · rw [hi]
    exact h.good.inum
  · rw [hdisk, hi]
    exact h.good.sync
  · rw [hi]
    exact h.good.typed
  · intro i hlt
    rw [State.node, hdisk]
    exact h.dirs i hlt
  · rw [hi]
    exact h.inum
  · rw [hi]
    exact h.ref
  · rw [hi]
    exact h.locked
  · rw [hi]
    exact h.valid

theorem set (h : Cached sb R L s) {u : Blk} {ip : Inode} (hg : Good sb (s.set e u ip))
    (hinum : e ∈ R' → ip.inum < sb.ninodes)
    (hdirs : ∀ i < sb.ninodes, DirOk sb (node sb u.disk i))
    (href : ip.ref = (R'.count e : Int)) (hR : ∀ e' ≠ e, R'.count e' = R.count e')
    (hlock : ip.locked = true ↔ e ∈ L') (hL : ∀ e' ≠ e, (e' ∈ L' ↔ e' ∈ L))
    (hval : e ∈ L' → e ∈ R' ∧ ip.valid = true) : Cached sb R' L' (s.set e u ip) := by
  refine ⟨hg, hdirs, ?_, ?_, ?_, ?_⟩
  · intro e' hR'
    by_cases he : e' = e
    · subst he
      rw [set_icache_self]
      exact hinum hR'
    · rw [set_icache_of_ne _ _ _ _ he]
      apply h.inum
      rw [← Multiset.count_pos, ← hR e' he, Multiset.count_pos]
      exact hR'
  · intro e'
    by_cases he : e' = e
    · subst he
      rw [set_icache_self, href]
    · rw [set_icache_of_ne _ _ _ _ he, hR e' he]
      exact h.ref e'
  · intro e'
    by_cases he : e' = e
    · subst he
      rw [set_icache_self, hlock]
    · rw [set_icache_of_ne _ _ _ _ he, hL e' he]
      exact h.locked e'
  · intro e' hl
    by_cases he : e' = e
    · subst he
      rw [set_icache_self]
      exact hval hl
    · have hv := h.valid e' ((hL e' he).mp hl)
      rw [set_icache_of_ne _ _ _ _ he]
      refine ⟨?_, hv.2⟩
      rw [← Multiset.count_pos, hR e' he, Multiset.count_pos]
      exact hv.1

theorem changed (h : Cached sb R L s) (he : e ∈ L) {F : Nat → Prop} {nd : Node}
    (hc : Changed sb s e F nd t) (hd : DirOk sb nd) : Cached sb R L t := by
  obtain ⟨u, d, rfl⟩ := hc.cache
  have hv := h.valid e he
  refine h.set hc.good (h.inum e) ?_ (h.ref e) (fun _ _ => rfl) (h.locked e) (fun _ _ => Iff.rfl)
    fun _ => hv
  intro i hi
  by_cases heq : i = (s.icache e).inum
  · subst heq
    have hn := hc.node
    rw [State.node] at hn
    exact hn.symm ▸ hd
  · have ho := hc.others i hi heq
    rw [State.node] at ho
    exact ho.symm ▸ h.dirs i hi

end Cached

section Handles

variable {R : Multiset Entry} {L : List Entry} {s : State} {e : Entry} {E : Stop → State → Prop}

theorem Cached.dup (h : Cached sb R L s) (he : e ∈ R) {t : State}
    (ht : t = s.update e fun ip => { ip with ref := ip.ref + 1 }) :
    Cached sb (e ::ₘ R) L t ∧ Quiet sb R s t ∧ t.blk = s.blk := by
  subst ht
  have hr := h.ref_pos.mpr he
  refine ⟨h.set (h.good.set hr h.good.disk h.good.held (Others.refl ..) rfl ?_)
    (fun _ => h.inum e he) h.dirs ?_ ?_ (h.locked e) (fun _ _ => Iff.rfl) ?_, Quiet.set fun _ =>
      ⟨rfl, id⟩, rfl⟩
  · intro hv
    exact h.good.agree hr hv
  · rw [Multiset.count_cons_self]
    simp only [h.ref e]
    rfl
  · intro e' hne
    exact Multiset.count_cons_of_ne hne R
  · intro hl
    exact ⟨Multiset.mem_cons_self e R, (h.valid e hl).2⟩

theorem sat_idup (h : Cached sb R L s) (he : e ∈ R) : ((idup e).run s).Sat
      (fun e' t => e' = e ∧ Cached sb (e ::ₘ R) L t ∧ Quiet sb R s t ∧ t.blk = s.blk) E := by
  simp only [idup, sat_bind, sat_setInode]
  rw [sat_pure]
  exact ⟨rfl, h.dup he rfl⟩

def Inode.more (ip : Inode) : Inode := { ip with ref := ip.ref + 1 }

def Inode.reuse (ip : Inode) (i : Nat) : Inode := { ip with inum := i, ref := 1, valid := false }

/-- What `iget` does: an entry for inode `i` gets one more reference, or a free one is taken. -/
inductive Got (s : State) (i : Nat) (e : Entry) : State → Prop
  | found (hr : 0 < (s.icache e).ref) (hi : (s.icache e).inum = i) :
    Got s i e (s.set e s.blk (s.icache e).more)
  | taken (h0 : (s.icache e).ref = 0) (hno : ∀ e', 0 < (s.icache e').ref → (s.icache e').inum ≠ i) :
    Got s i e (s.set e s.blk ((s.icache e).reuse i))

theorem iget_got (i : Nat) : ((iget i).run s).Sat (fun e t => Got s i e t)
      (fun x _ => x = .panic .noEntries ∧ ∀ e, (s.icache e).ref ≠ 0) := by
  unfold iget
  simp only
  split
  · rename_i e hfind
    have hp : 0 < (s.icache e).ref ∧ (s.icache e).inum = i := by simpa using List.find?_some hfind
    rw [Outcome.sat_ok]
    exact Got.found hp.1 hp.2
  · rename_i hnone
    split
    · rename_i e hfind
      rw [Outcome.sat_ok]
      refine Got.taken (by simpa using List.find?_some hfind) ?_
      intro e' hr heq
      have := List.find?_eq_none.mp hnone e' (List.mem_finRange e')
      simp [hr, heq] at this
    · rename_i hfull
      rw [Outcome.sat_stop]
      refine ⟨rfl, fun e h0 => ?_⟩
      have := List.find?_eq_none.mp hfull e (List.mem_finRange e)
      simp [h0] at this

theorem Got.good {i : Nat} {t : State} (h : Got s i e t) (hg : Good sb s) : Good sb t := by
  cases h with
  | found hr hi => exact hg.set hr hg.disk hg.held (Others.refl ..) rfl (hg.agree hr)
  | taken h0 hno =>
    have hold : ∀ e' ≠ e, ∀ ip, ((s.set e s.blk ip).icache e') = s.icache e' :=
      fun e' hne ip => set_icache_of_ne s e s.blk ip hne
    -- the entry that was taken is not valid
    have hvalid : ∀ {e' : Entry}, ((s.set e s.blk ((s.icache e).reuse i)).icache e').valid = true →
        e' ≠ e := by
      rintro e' hv rfl
      rw [set_icache_self] at hv
      exact absurd hv Bool.false_ne_true
    refine ⟨hg.disk, hg.held, ?_, ?_, ?_, ?_⟩
    · intro e₁ e₂
      by_cases h₁ : e₁ = e <;> by_cases h₂ : e₂ = e
      · intro _ _ _
        rw [h₁, h₂]
      · rw [h₁, set_icache_self, hold e₂ h₂]
        exact fun _ hr heq => absurd heq.symm (hno e₂ hr)
      · rw [h₂, set_icache_self, hold e₁ h₁]
        exact fun hr _ heq => absurd heq (hno e₁ hr)
      · rw [hold e₁ h₁, hold e₂ h₂]
        exact hg.unique e₁ e₂
    · intro e' hr hv
      have hne := hvalid hv
      rw [hold e' hne] at hr hv ⊢
      exact hg.inum e' hr hv
    · intro e' hr hv
      have hne := hvalid hv
      rw [hold e' hne] at hr hv ⊢
      exact hg.sync e' hr hv
    · intro e' hr hv
      have hne := hvalid hv
      rw [hold e' hne] at hr hv ⊢
      exact hg.typed e' hr hv

theorem iget_spec (h : Cached sb R L s) {i : Nat} (hi : i < sb.ninodes) : ((iget i).run s).Sat
      (fun e t => Cached sb (e ::ₘ R) L t ∧ (t.icache e).inum = i ∧ Quiet sb R s t ∧
        t.blk = s.blk ∧ (e ∉ R → (t.icache e).valid = false))
      (fun x _ => x = .panic .noEntries ∧ ∀ e, e ∈ R) := by
  refine (iget_got i).mono ?_ ?_
  · intro e t hgot
    have hgood := hgot.good h.good
    cases hgot with
    | found hr hi' =>
      have he := h.ref_pos.mp hr
      obtain ⟨hc, hq, hb⟩ := h.dup he rfl
      exact ⟨hc, (hq.inum e he).trans hi', hq, hb, fun hn => absurd he hn⟩
    | taken h0 hno =>
      have he : e ∉ R := by
        intro he
        have := h.ref_pos.mpr he
        omega
      have hl : e ∉ L := fun hl => he (h.valid e hl).1
      refine ⟨h.set hgood (fun _ => hi) h.dirs ?_ (fun e' hne => Multiset.count_cons_of_ne hne R)
        (h.locked e) (fun _ _ => Iff.rfl) (fun hl' => absurd hl' hl), ?_,
        Quiet.set fun he' => absurd he' he, rfl, fun _ => ?_⟩
      · rw [Multiset.count_cons_self, Multiset.count_eq_zero.mpr he]
        rfl
      · rw [set_icache_self]
        rfl
      · rw [set_icache_self]
        rfl
  · rintro x _ ⟨hx, hfull⟩
    refine ⟨hx, fun e => ?_⟩
    have hne := hfull e
    rw [h.ref e] at hne
    rw [← Multiset.count_pos]
    omega

theorem sat_acquiresleep {Q : Unit → State → Prop} :
    ((acquiresleep e).run s).Sat Q E = if (s.icache e).locked = true then E .deadlock s
      else Q () (s.set e s.blk { s.icache e with locked := true }) := by
  unfold acquiresleep
  simp only
  split
  · rw [Outcome.sat_stop]
  · rw [Outcome.sat_ok]
    rfl

def State.loaded (s : State) (sb : Superblock) (e : Entry) : State := s.set e s.blk
  { s.icache e with locked := true, valid := true, din := ino sb s.blk.disk (s.icache e).inum }

theorem sat_ilock_invalid (hh : s.blk.held = []) (hr : 0 < (s.icache e).ref)
    (hl : ¬ (s.icache e).locked = true) (hv : ¬ (s.icache e).valid = true) {Q : Unit → State → Prop}
    (h0 : (ino sb s.blk.disk (s.icache e).inum).type = 0 → E (.panic .noType) (s.loaded sb e))
    (hne : (ino sb s.blk.disk (s.icache e).inum).type ≠ 0 → Q () (s.loaded sb e)) :
    ((ilock sb e).run s).Sat Q E := by
  simp only [ilock, sat_bind, sat_inode]
  rw [if_neg (by omega), sat_bind, sat_acquiresleep, if_neg hl, if_neg hv]
  simp only [sat_bind, sat_lift]
  rw [sat_bread (by exact hh ▸ List.not_mem_nil), sat_setInode, sat_brelse rfl, sat_setInode]
  simp only [State.set, State.update, Function.update_self, Function.update_idem]
  change ((ite _ _ _ : FsM Unit).run (s.loaded sb e)).Sat _ _
  apply sat_ite
  · intro hfree
    rw [panic, sat_fail]
    exact h0 hfree
  · intro hused
    rw [sat_pure]
    exact hne hused

theorem ilock_spec (h : Cached sb R L s) (he : e ∈ R) : ((ilock sb e).run s).Sat
      (fun _ t => Cached sb R (e :: L) t ∧ Quiet sb R s t ∧ t.blk = s.blk ∧ e ∉ L)
      (fun x _ => (x = .deadlock ∧ e ∈ L) ∨ (x = .panic .noType ∧ (s.nodeAt sb e).type = 0)) := by
  have hr := h.ref_pos.mpr he
  by_cases hl : e ∈ L
  · simp only [ilock, sat_bind, sat_inode]
    rw [if_neg (by omega), sat_bind, sat_acquiresleep, if_pos ((h.locked e).mpr hl)]
    exact Or.inl ⟨rfl, hl⟩
  have hunlocked : ¬ (s.icache e).locked = true := fun hc => hl ((h.locked e).mp hc)
  have hcons : ∀ e' ≠ e, (e' ∈ e :: L ↔ e' ∈ L) := fun e' hne => by
    rw [List.mem_cons, or_iff_right hne]
  by_cases hv : (s.icache e).valid = true
  · simp only [ilock, sat_bind, sat_inode]
    rw [if_neg (by omega), sat_bind, sat_acquiresleep, if_neg hunlocked, if_pos hv,
      sat_pure]
    refine ⟨h.set (h.good.set hr h.good.disk h.good.held (Others.refl ..) rfl ?_)
      (fun _ => h.inum e he) h.dirs (h.ref e) (fun _ _ => rfl) ?_ hcons fun _ => ⟨he, hv⟩,
      Quiet.set fun _ => ⟨rfl, id⟩, rfl, hl⟩
    · intro _
      exact h.good.agree hr hv
    · exact iff_of_true rfl List.mem_cons_self
  · refine sat_ilock_invalid h.good.held (by omega) hunlocked hv ?_ ?_
    · intro h0
      exact Or.inr ⟨rfl, (nodeOf_type ..).trans h0⟩
    · intro h0
      refine ⟨h.set (h.good.set hr h.good.disk h.good.held (Others.refl ..) rfl ?_)
        (fun _ => h.inum e he) h.dirs (h.ref e) (fun _ _ => rfl) ?_ hcons fun _ => ⟨he, rfl⟩,
        Quiet.set fun _ => ⟨rfl, fun _ => rfl⟩, rfl, hl⟩
      · intro _
        exact ⟨h.inum e he, rfl, h0⟩
      · exact iff_of_true rfl List.mem_cons_self

theorem ilock_alive (h : Cached sb R L s) (he : e ∈ R) (hl : e ∉ L) (h0 : (s.nodeAt sb e).type ≠ 0) :
    ((ilock sb e).run s).Sat
      (fun _ t => Cached sb R (e :: L) t ∧ Quiet sb R s t ∧ t.blk = s.blk) E := by
  refine (ilock_spec h he).mono (fun _ _ ⟨hc, hq, hb, _⟩ => ⟨hc, hq, hb⟩) ?_
  rintro x _ (⟨-, hm⟩ | ⟨-, hz⟩)
  · exact absurd hm hl
  · exact absurd hz h0

theorem iunlock_spec (h : Cached sb R (e :: L) s) (hl : e ∉ L) : ((iunlock e).run s).Sat
      (fun _ t => Cached sb R L t ∧ Quiet sb R s t ∧ t.blk = s.blk ∧ t.icache e = { s.icache e with
        locked := false }) E := by
  have he : e ∈ e :: L := List.mem_cons_self
  have hr := h.ref_of_locked he
  have hv := (h.valid e he).2
  simp only [iunlock, sat_bind, sat_inode]
  have hlk := (h.locked e).mpr he
  rw [if_neg (by rw [hlk]; simp; omega), releasesleep, sat_setInode]
  have hcons : ∀ e' ≠ e, (e' ∈ L ↔ e' ∈ e :: L) := fun e' hne => by
    rw [List.mem_cons, or_iff_right hne]
  refine ⟨h.set (h.good.set hr h.good.disk h.good.held (Others.refl ..) rfl ?_) (h.inum e)
    h.dirs (h.ref e) (fun _ _ => rfl) ?_ hcons fun hl' => absurd hl' hl, Quiet.set fun _ =>
      ⟨rfl, id⟩, rfl, ?_⟩
  · intro _
    exact h.good.agree hr hv
  · exact iff_of_false Bool.false_ne_true hl
  · exact Function.update_self ..

end Handles

end BossOs.Fs
