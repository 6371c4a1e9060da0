import BossOs.Fs.Settle
import BossOs.Fs.Sys

/-!
# `sys_link`

What the call does to the table of nodes, and why it may stop.
-/

namespace BossOs.Fs

open Lib
open Function (update update_eq_self update_idem update_of_ne)
open Prog (sat_bind sat_ite sat_pure)

variable {sb : Superblock}

def Node.relink (nd : Node) (n : Int16) : Node := { nd with nlink := n }

def Dinode.relink (d : Dinode) (g : Int16 → Int16) : Dinode := { d with nlink := g d.nlink }

section Relink

variable {R : Multiset Entry} {L : List Entry} {s : State} {e : Entry} {E : Stop → State → Prop}

theorem relink_spec (hsb : sb.Wf) (h : Cached sb R L s) (he : e ∈ L) (hop : 1 ≤ s.blk.outstanding)
    (g : Int16 → Int16) : ((setDin e fun d => { d with nlink := g d.nlink }).run s).Sat
      (fun _ t => ((iupdate sb e).run t).Sat (fun _ u => Cached sb R L u ∧
        Changed sb s e (· = sb.iblock (s.icache e).inum)
          ((s.nodeAt sb e).relink (g (s.nodeAt sb e).nlink)) u ∧
        ino sb u.blk.disk (s.icache e).inum =
          (ino sb s.blk.disk (s.icache e).inum).relink g) E) E := by
  have hspec := update_spec (E := E) hsb h he hop (fun d => { d with nlink := g d.nlink })
    (fun _ => rfl) (fun _ => rfl) (fun _ => rfl)
  have hnode := h.good.nodeAt_eq (h.ref_of_locked he) (h.valid e he).2
  have heq : (s.nodeAt sb e).setFields (s.icache e).din.major (s.icache e).din.minor
      (g (s.icache e).din.nlink) = (s.nodeAt sb e).relink (g (s.nodeAt sb e).nlink) := by
    rw [hnode]
    rfl
  rw [← heq]
  exact hspec

end Relink

theorem Dinode.relink_back (d : Dinode) : (d.relink (· + 1)).relink (· - 1) = d := by
  change { d with nlink := d.nlink + 1 - 1 } = d
  rw [Int16.add_sub_cancel]

theorem Node.relink_back (nd : Node) :
    (nd.relink (nd.nlink + 1)).relink ((nd.relink (nd.nlink + 1)).nlink - 1) = nd := by
  change nd.relink (nd.nlink + 1 - 1) = nd
  rw [Int16.add_sub_cancel]
  rfl

section Link

variable {R : Multiset Entry} {s : State} {P : Nat → Prop}

theorem linkBad_spec (hsb : sb.Wf) {t : State} {ip : Entry} {i : Nat} {I D : List Nat}
    (hop : 1 ≤ s.blk.outstanding) (h : Cached sb (ip ::ₘ R) [] t) (hi : (t.icache ip).inum = i)
    (hN : (s.node sb i).type ≠ 0)
    (hnode : t.nodeAt sb ip = (s.node sb i).relink ((s.node sb i).nlink + 1))
    (hs : Settles sb R s (update (s.node sb) i
      ((s.node sb i).relink ((s.node sb i).nlink + 1))) I D t) (hino : ¬ Loose sb R s i →
      ino sb t.blk.disk i = (ino sb s.blk.disk i).relink (· + 1)) {E : Stop → State → Prop} :
    ((linkBad sb ip).run t).Sat
      (fun r u => r = false ∧ Cached sb R [] u ∧ Settles sb R s (s.node sb) (i :: I) D u ∧
        (¬ Loose sb R s i → ino sb u.blk.disk i = ino sb s.blk.disk i)) E := by
  have hip : ip ∈ ip ::ₘ R := Multiset.mem_cons_self ip R
  have hsub : R ⊆ ip ::ₘ R := fun _ => Multiset.mem_cons_of_mem
  simp only [linkBad, sat_bind]
  refine (ilock_alive h hip List.not_mem_nil (hnode ▸ hN)).imp ?_
  rintro _ t1 ⟨hc1, hq1, hb1⟩
  have hs1 := hs.quiet (hq1.mono hsub)
  have hn1 : t1.nodeAt sb ip = (s.node sb i).relink ((s.node sb i).nlink + 1) :=
    (hq1.nodeAt hip (h.inum_lt hip)).trans hnode
  have hi1 : (t1.icache ip).inum = i := (hq1.inum ip hip).trans hi
  refine (relink_spec hsb hc1 (List.mem_singleton_self ip) (hs1.op hop) (· - 1)).imp ?_
  intro _ t2 ht2
  refine ht2.imp ?_
  rintro _ t3 ⟨hc3, hch, hino3⟩
  have hs3 := hs1.stored hch
  rw [hi1, hn1] at hs3
  rw [Node.relink_back, update_idem, update_eq_self] at hs3
  refine (iunlockput_spec hsb hc3 List.not_mem_nil (hs3.op hop)).imp ?_
  intro _ u hp
  rw [sat_pure]
  refine ⟨rfl, hp.cached, hs3.quiet hp.quiet, fun hl => ?_⟩
  have hlt : i < sb.ninodes := hi ▸ h.inum_lt hip
  have hl3 : ¬ Loose sb R t3 i := by
    intro hl3
    have hn3 := hs3.node_of_type hlt hl3.type
    refine hl ⟨hlt, hN, hn3 ▸ hl3.nlink, ?_⟩
    intro e he heq
    exact hl3.unref e he ((hs3.inum e he).trans heq)
  rw [hi1, hb1, hino hl, Dinode.relink_back] at hino3
  rw [hp.quiet.inodes i hlt hl3, hino3]

structure LinkDone (sb : Superblock) (P : Nat → Prop) (N : Nat → Node) (name : Str) (i d : Nat)
    (M : Nat → Node) : Prop where
  file_lt : i < sb.ninodes
  dir_lt : d < sb.ninodes
  file : (N i).type ≠ 0 ∧ (N i).type ≠ T_DIR
  dir : (N d).type = T_DIR
  file_prop : P i
  dir_prop : P d
  absent : (N d).find name = none
  table : M = update (update N i ((N i).relink ((N i).nlink + 1))) d
    ((N d).write ((N d).hole * Dirent.bytes) (newDirent name i).encode)

inductive CallStop (sb : Superblock) (R : Multiset Entry) (P : Nat → Prop) (s : State) :
    Stop → Prop
  | name {x : Stop} (h : NameStop sb R P s x) : CallStop sb R P s x
  | outOfBlocks : CallStop sb R P s (.panic .outOfBlocks)
  | noInodes : CallStop sb R P s (.panic .noInodes)
  | dirlink : CallStop sb R P s (.panic .dirlink)

def SelfEntry (N : Nat → Node) (w : Option Nat) (name : Str) : Prop :=
  ∃ d k, w = some d ∧ (N d).find name = some k ∧ ((N d).dirent k).inum = d

/-- `dirlink` puts the directory that `sys_link` has locked: the old path is that of a file, and
the last name of the new one is in an entry for the directory that it is looked up in. -/
def LinkWaits (sb : Superblock) (s : State) (cwd : Entry) (old new : Str) : Prop :=
  (∃ i, walk (s.node sb) false (old.length + 1) old (startOf s cwd old) = some i ∧
    (s.node sb i).type ≠ T_DIR) ∧
  SelfEntry (s.node sb) (walk (s.node sb) true (new.length + 1) new (startOf s cwd new))
    (lastElem (new.length + 1) new [])

/-- The call has raised the link count of `i` and holds a reference to it. -/
structure Raised (sb : Superblock) (R : Multiset Entry) (s : State) (i : Nat) (I D : List Nat)
    (ip : Entry) (t : State) : Prop where
  inum : (t.icache ip).inum = i
  typed : (s.node sb i).type ≠ 0
  node : t.nodeAt sb ip = (s.node sb i).relink ((s.node sb i).nlink + 1)
  settles : Settles sb R s (update (s.node sb) i
    ((s.node sb i).relink ((s.node sb i).nlink + 1))) I D t
  inode : ¬ Loose sb R s i → ino sb t.blk.disk i = (ino sb s.blk.disk i).relink (· + 1)

namespace Raised

variable {t u : State} {ip : Entry} {i : Nat} {I D : List Nat}

section
variable (h : Raised sb R s i I D ip t)
include h

theorem quiet (hi : i < sb.ninodes) {R' : Multiset Entry}
    (hR : R ⊆ R') (hip : ip ∈ R') (hq : Quiet sb R' t u) : Raised sb R s i I D ip u :=
  ⟨(hq.inum ip hip).trans h.inum, h.typed,
    (hq.nodeAt hip (by rw [h.inum]; exact hi)).trans h.node, h.settles.quiet (hq.mono hR),
    fun hl => (hq.inodes i hi fun hl' => hl'.unref ip hip h.inum).trans (h.inode hl)⟩

theorem node_of_ne {j : Nat} (hj : j < sb.ninodes) (hne : j ≠ i)
    (ht : (t.node sb j).type ≠ 0) : t.node sb j = s.node sb j := by
  rw [h.settles.node_of_type hj ht, update_of_ne hne]

theorem nameStop {x : Stop}
    (hx : NameStop sb (ip ::ₘ R) P t x) : NameStop sb R P s x := by
  refine hx.imp_right fun ⟨hx, j, hj, hp, hcase⟩ => ⟨hx, j, hj, hp, ?_⟩
  have hni : (t.node sb i).type ≠ 0 := by
    have hn := h.node
    rw [State.nodeAt, h.inum] at hn
    rw [hn]
    exact h.typed
  rcases hcase with h0 | hl
  · have hji : j ≠ i := by
      rintro rfl
      exact hni h0
    rcases h.settles.node j hj with heq | ⟨⟨h1, h2, h3⟩, -⟩
    · rw [update_of_ne hji] at heq
      exact Or.inl (heq ▸ h0)
    · rw [update_of_ne hji] at h1 h2
      exact Or.inr ⟨hj, h1, h2, h3⟩
  · have hji : j ≠ i := by
      rintro rfl
      exact hl.unref ip (Multiset.mem_cons_self ip R) h.inum
    have heq := h.node_of_ne hj hji hl.type
    refine Or.inr ⟨hj, heq ▸ hl.type, heq ▸ hl.nlink, ?_⟩
    intro e he heq'
    exact hl.unref e (Multiset.mem_cons_of_mem he) ((h.settles.inum e he).trans heq')

end

end Raised

theorem relink_same (N : Nat → Node) (i : Nat) (n : Int16) (j : Nat) :
    (update N i ((N i).relink n) j).type = (N j).type ∧
      (update N i ((N i).relink n) j).find = (N j).find ∧
      (update N i ((N i).relink n) j).dirent = (N j).dirent := by
  by_cases hji : j = i
  · subst hji
    rw [Function.update_self]
    exact ⟨rfl, rfl, rfl⟩
  · rw [update_of_ne hji]
    exact ⟨rfl, rfl, rfl⟩

theorem Closed.relink {N : Nat → Node} (hP : Closed sb N P) (i : Nat) (n : Int16) :
    Closed sb (update N i ((N i).relink n)) P := by
  refine hP.of_table fun j _ ht => ?_
  by_cases hji : j = i
  · subst hji
    rw [Function.update_self] at ht ⊢
    exact ⟨ht, rfl, rfl⟩
  · rw [update_of_ne hji] at ht ⊢
    exact ⟨ht, rfl, rfl⟩

def LinkPost (sb : Superblock) (R : Multiset Entry) (P : Nat → Prop) (s : State) (waits : Prop)
    (name : Str) (r : Bool) (t : State) : Prop :=
  ¬ waits ∧ Cached sb R [] t ∧ ∃ M I D, Settles sb R s M I D t ∧ I.length ≤ 2 ∧ D.length ≤ 2 ∧
    (r = false ∧ M = s.node sb ∧ (∀ j, j < sb.ninodes → ¬ Loose sb R s j →
        ino sb t.blk.disk j = ino sb s.blk.disk j) ∨
      r = true ∧ ∃ i d, LinkDone sb P (s.node sb) name i d M)

theorem linkNew_spec (hsb : sb.Wf) (hP : Closed sb (s.node sb) P) {cwd : Entry} (new : Str)
    (hop : 1 ≤ s.blk.outstanding) (hcwd : cwd ∈ R) (hroot : P ROOTINO)
    (hstart : P (s.icache cwd).inum) {t : State} {ip : Entry} {i : Nat} (hi : i < sb.ninodes)
    (hfile : (s.node sb i).type ≠ T_DIR) (hpi : P i) (h : Cached sb (ip ::ₘ R) [] t)
    (hr : Raised sb R s i [i] [] ip t) :
    ((linkNew sb cwd new ip).run t).Sat
      (LinkPost sb R P s (SelfEntry (s.node sb)
        (walk (s.node sb) true (new.length + 1) new (startOf s cwd new))
        (lastElem (new.length + 1) new [])) (lastElem (new.length + 1) new []))
      (fun x _ => CallStop sb R P s x ∨ x = .deadlock ∧ SelfEntry (s.node sb)
        (walk (s.node sb) true (new.length + 1) new (startOf s cwd new))
        (lastElem (new.length + 1) new [])) := by
  have hip : ip ∈ ip ::ₘ R := Multiset.mem_cons_self ip R
  have hsub : R ⊆ ip ::ₘ R := fun _ => Multiset.mem_cons_of_mem
  have hbad : ∀ {u : State} {E : Stop → State → Prop} {waits : Prop}, ¬ waits →
      Cached sb (ip ::ₘ R) [] u → Raised sb R s i [i] [] ip u → ((linkBad sb ip).run u).Sat
        (LinkPost sb R P s waits (lastElem (new.length + 1) new [])) E := by
    intro u E waits hnot hc hr
    refine (linkBad_spec hsb hop hc hr.inum hr.typed hr.node hr.settles hr.inode).imp ?_
    rintro r v ⟨rfl, hcv, hsv, hino⟩
    refine ⟨hnot, hcv, _, _, _, hsv, Nat.le_refl 2, Nat.zero_le 2, Or.inl ⟨rfl, rfl, fun j hj hl => ?_⟩⟩
    by_cases hji : j = i
    · rw [hji] at hl ⊢
      exact hino hl
    · refine hsv.inodes j hj ?_ hl
      simp [hji]
  rw [linkNew, sat_bind]
  -- the walk is over the table with the link count raised, which has the same entries
  obtain ⟨w, hw⟩ : ∃ w, w = walk (s.node sb) true (new.length + 1) new (startOf s cwd new) := ⟨_, rfl⟩
  have hwalk : walk (update (s.node sb) i ((s.node sb i).relink ((s.node sb i).nlink + 1))) true
      (new.length + 1) new (startOf t cwd new) = w := by
    rw [walk_congr (relink_same _ _ _), hw, startOf, startOf, hr.settles.inum cwd hcwd]
  rw [← hw]
  refine (nameiparent_spec hsb (hP.relink i _) (fun j => hr.settles.node_of_type) new h
    (hr.settles.op hop) (hsub hcwd) hroot ?_).mono ?_ fun x _ hx => Or.inl (.name (hr.nameStop hx))
  · rw [hr.settles.inum cwd hcwd]
    exact hstart
  rw [hwalk]
  rintro r t1 (⟨rfl, hc1, hq1, rfl⟩ | ⟨dp, rfl, hlocked⟩)
  · refine hbad ?_ hc1 (hr.quiet hi hsub hip hq1)
    rintro ⟨_, _, hnone, -⟩
    cases hnone
  have hdp : dp ∈ dp ::ₘ ip ::ₘ R := Multiset.mem_cons_self ..
  have hsub2 : ip ::ₘ R ⊆ dp ::ₘ ip ::ₘ R := fun _ => Multiset.mem_cons_of_mem
  simp only [sat_bind]
  refine (hlocked _).imp ?_
  rintro _ t2 ⟨hin, ht2, rfl⟩
  have hc2 := hin.cached
  have hr2 := hr.quiet hi hsub hip hin.quiet
  have hlock : dp ∈ [dp] := List.mem_singleton_self dp
  -- the directory is not the inode that gets the link
  have hd2 : (t2.icache dp).inum < sb.ninodes := hc2.inum_lt hdp
  have hne : (t2.icache dp).inum ≠ i := by
    intro heq
    have hn := hr2.node
    rw [State.nodeAt, hr2.inum] at hn
    rw [State.nodeAt, heq, hn] at ht2
    exact hfile ht2
  have hnd : t2.nodeAt sb dp = s.node sb (t2.icache dp).inum :=
    hr2.node_of_ne hd2 hne (hc2.type_ne hlock)
  have hpd2 : P (t2.icache dp).inum := hin.prop
  rw [sat_inode, hr2.inum]
  refine (dirlink_spec hsb hc2 List.not_mem_nil ht2 (hr2.settles.op hop) hi).mono ?_ ?_
  rotate_left
  · rintro x _ (rfl | rfl | rfl | ⟨rfl, k, hk, e, he, heq⟩)
    · exact Or.inl (.name (Or.inl rfl))
    · exact Or.inl .outOfBlocks
    · exact Or.inl .dirlink
    · obtain rfl := List.mem_singleton.mp he
      rw [hnd] at hk heq
      exact Or.inr ⟨rfl, _, k, rfl, hk, heq.symm⟩
  rintro ok t3 (⟨rfl, ⟨k, hk, hothers⟩, hc3, hq3⟩ | ⟨rfl, hnone, hw⟩)
  · have hr3 := hr2.quiet hi (fun _ hx => hsub2 (hsub hx)) (hsub2 hip) hq3
    rw [if_neg Bool.false_ne_true, sat_bind]
    refine (iunlockput_spec hsb hc3 List.not_mem_nil (hr3.settles.op hop)).imp ?_
    intro _ t4 hp
    refine hbad ?_ hp.cached (hr3.quiet hi hsub hip hp.quiet)
    rintro ⟨d, k', hd, hk', hself⟩
    cases hd
    rw [hnd] at hk hothers
    cases hk.symm.trans hk'
    exact hothers dp hlock hself.symm
  · obtain ⟨D, hD, hs3⟩ := hr2.settles.wrote hw hlock (length_strncpy ..)
    rw [if_pos rfl, sat_bind]
    refine (iunlockput_spec hsb hw.cached List.not_mem_nil (hs3.op hop)).imp ?_
    intro _ t4 hp
    have hs4 := hs3.quiet (hp.quiet.mono hsub)
    rw [sat_bind]
    refine (iput_spec hsb hp.cached (hs4.op hop)).mono ?_ fun x _ hx => absurd hx.2 List.not_mem_nil
    rintro _ t5 ⟨hp5, -⟩
    rw [sat_pure]
    rw [hnd] at hnone ht2 hs4
    refine ⟨?_, hp5.cached, _, _, D, hs4.quiet hp5.quiet, Nat.le_refl 2, hD,
      Or.inr ⟨rfl, i, (t2.icache dp).inum, ?_⟩⟩
    · rintro ⟨d, k, hd, hk, -⟩
      cases hd
      cases hnone.symm.trans hk
    · exact ⟨hi, hd2, ⟨hr.typed, hfile⟩, ht2, hpi, hpd2, hnone, rfl⟩

theorem link_spec (hsb : sb.Wf) (hP : Closed sb (s.node sb) P) {cwd : Entry} (old new : Str)
    (h : Cached sb R [] s) (hop : 1 ≤ s.blk.outstanding) (hcwd : cwd ∈ R) (hroot : P ROOTINO)
    (hstart : P (s.icache cwd).inum) :
    ((link sb cwd old new).run s).Sat
      (LinkPost sb R P s (LinkWaits sb s cwd old new) (lastElem (new.length + 1) new []))
      (fun x _ => CallStop sb R P s x ∨ x = .deadlock ∧ LinkWaits sb s cwd old new) := by
  have hquiet : ∀ {t : State}, ¬ LinkWaits sb s cwd old new → Cached sb R [] t → Quiet sb R s t →
      LinkPost sb R P s (LinkWaits sb s cwd old new) (lastElem (new.length + 1) new []) false t :=
    fun hnot hc hq => ⟨hnot, hc, _, _, _, hq.settles, Nat.zero_le 2, Nat.zero_le 2,
      Or.inl ⟨rfl, rfl, hq.inodes⟩⟩
  rw [link, sat_bind]
  refine (namei_locked_spec hsb hP old h hop hcwd hroot hstart).mono ?_ fun x _ hx => Or.inl (.name hx)
  rintro r t (⟨rfl, hc, hq, hnone⟩ | ⟨ip, rfl, hlocked⟩)
  · rw [sat_pure]
    refine hquiet ?_ hc hq
    rintro ⟨⟨i, hi, -⟩, -⟩
    cases hnone.symm.trans hi
  have hip : ip ∈ ip ::ₘ R := Multiset.mem_cons_self ip R
  have hsub : R ⊆ ip ::ₘ R := fun _ => Multiset.mem_cons_of_mem
  have hlock : ip ∈ [ip] := List.mem_singleton_self ip
  simp only [sat_bind]
  refine hlocked.mono ?_ fun x _ hx => Or.inl (.name hx)
  rintro _ t1 ⟨hin, hwalk⟩
  have hc1 := hin.cached
  have hs1 := hin.quiet.settles
  rw [sat_inode, hc1.din_type hlock]
  apply sat_ite
  · intro hdir
    rw [sat_bind]
    refine (iunlockput_spec hsb hc1 List.not_mem_nil (hs1.op hop)).imp ?_
    intro _ t2 hp
    rw [sat_pure]
    refine hquiet ?_ hp.cached (hin.quiet.trans hp.quiet)
    rintro ⟨⟨i, hi, hfile⟩, -⟩
    cases hwalk.symm.trans hi
    exact hfile (hin.node ▸ hdir)
  intro hdir
  simp only [sat_bind]
  refine (relink_spec hsb hc1 hlock (hs1.op hop) (· + 1)).imp ?_
  intro _ t2 ht2
  refine ht2.imp ?_
  rintro _ t3 ⟨hc3, hch, hino3⟩
  -- the link count is one too high from here on
  have hnode := hin.node
  have hs3 := hs1.stored hch
  have hinum := (hch.entry ip).1
  have hraised : Raised sb R s (t1.icache ip).inum [(t1.icache ip).inum] [] ip t3 := by
    refine ⟨hinum, ?_, ?_, ?_, ?_⟩
    · rw [← hnode]
      exact hc1.type_ne hlock
    · rw [State.nodeAt, hinum, hch.node, hnode]
    · rw [hnode] at hs3
      exact hs3
    · intro hl
      rw [hino3, hs1.inodes _ (hc1.inum_lt hip) List.not_mem_nil hl]
  refine (iunlock_spec hc3 List.not_mem_nil).imp ?_
  rintro _ t4 ⟨hc4, hq4, -, -⟩
  have hfile : (s.node sb (t1.icache ip).inum).type ≠ T_DIR := hnode ▸ hdir
  refine (linkNew_spec hsb hP new hop hcwd hroot hstart (hc1.inum_lt hip) hfile hin.prop hc4
    (hraised.quiet (hc1.inum_lt hip) hsub hip hq4)).mono ?_ ?_
  · rintro r u ⟨hnot, hu⟩
    exact ⟨fun hwaits => hnot hwaits.2, hu⟩
  · rintro x _ (hx | ⟨hx, hself⟩)
    · exact Or.inl hx
    · exact Or.inr ⟨hx, ⟨_, hwalk, hfile⟩, hself⟩

end Link

end BossOs.Fs
