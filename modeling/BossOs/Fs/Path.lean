import BossOs.Fs.Entries
import BossOs.Fs.Names
import Mathlib.Data.Fintype.Card

/-!
# Path lookup

`namex` walks from the root or the current directory, with one lock and one reference at
a time. What it finds is described by a property `P` of inode numbers that the start has and
that directory entries hand on.
-/

namespace BossOs.Fs

open Lib
open Prog (sat_bind sat_ite sat_pure)

variable {sb : Superblock}

def lastElem : Nat → Str → Str → Str
  | 0, _, name => name
  | fuel + 1, path, name =>
    match skipelem path with
    | none => name
    | some (rest, name) => lastElem fuel rest name

theorem lastElem_of_end {fuel : Nat} {path name : Str} (h : path.headD 0 = 0) :
    lastElem fuel path name = name := by
  cases fuel with
  | zero => rfl
  | succ fuel => rw [lastElem, skipelem_none h]

/-- The inode in which a walk over the path ends, from inode `i`; `parent` stops it one element
early. -/
def walk (N : Nat → Node) (parent : Bool) : Nat → Str → Nat → Option Nat
  | 0, _, _ => none
  | fuel + 1, path, i =>
    match skipelem path with
    | none => if parent then none else some i
    | some (rest, name) =>
      if (N i).type ≠ T_DIR then none
      else if parent ∧ rest.headD 0 = 0 then some i
      else ((N i).find name).bind fun k => walk N parent fuel rest ((N i).dirent k).inum

theorem walk_congr {N N' : Nat → Node} (h : ∀ j, (N' j).type = (N j).type ∧
      (N' j).find = (N j).find ∧ (N' j).dirent = (N j).dirent) (parent : Bool) (fuel : Nat)
    (path : Str) (i : Nat) : walk N' parent fuel path i = walk N parent fuel path i := by
  induction fuel generalizing path i with
  | zero => rfl
  | succ fuel ih =>
    obtain ⟨htype, hfind, hdirent⟩ := h i
    simp only [walk, htype, hfind, hdirent, ih]

def Closed (sb : Superblock) (N : Nat → Node) (P : Nat → Prop) : Prop :=
  ∀ i, i < sb.ninodes → P i → (N i).type = T_DIR → ∀ k, k < (N i).slots →
    ((N i).dirent k).inum ≠ 0 → P ((N i).dirent k).inum

theorem Closed.of_table {N N' : Nat → Node} {P : Nat → Prop} (hP : Closed sb N P)
    (h : ∀ j < sb.ninodes, (N' j).type = T_DIR →
      (N j).type = T_DIR ∧ (N' j).slots = (N j).slots ∧ (N' j).dirent = (N j).dirent) :
    Closed sb N' P := by
  intro i hi hp ht k hk hlive
  obtain ⟨ht', hslots, hde⟩ := h i hi ht
  rw [hslots] at hk
  rw [hde] at hlive ⊢
  exact hP i hi hp ht' k hk hlive

section Namex

variable {R : Multiset Entry} {s : State} {P : Nat → Prop}

def Named (sb : Superblock) (R : Multiset Entry) (P : Nat → Prop) (parent : Bool) (s : State)
    (w : Option Nat) (last : Str) (r : Option (Entry × Str)) (t : State) : Prop :=
  Quiet sb R s t ∧ (r = none ∧ w = none ∧ Cached sb R [] t ∨ ∃ e, r = some (e, last) ∧
    w = some (t.icache e).inum ∧ Cached sb (e ::ₘ R) [] t ∧ P (t.icache e).inum ∧
    (parent = true → (t.nodeAt sb e).type = T_DIR))

def NameStop (sb : Superblock) (R : Multiset Entry) (P : Nat → Prop) (s : State) (x : Stop) : Prop :=
  x = .panic .noEntries ∨ x = .panic .noType ∧ ∃ i, i < sb.ninodes ∧ P i ∧
    ((s.node sb i).type = 0 ∨ Loose sb R s i)

def Crowded (R : Multiset Entry) (x : Stop) : Prop :=
  x = .panic .noEntries → NINODE ≤ R.toFinset.card + 1

theorem crowded_of_all {x : Stop} {e : Entry} (h : ∀ e', e' ∈ e ::ₘ R) : Crowded R x := by
  intro _
  have huniv : insert e R.toFinset = Finset.univ := by
    ext e'
    simpa using h e'
  have hcard : (insert e R.toFinset).card = NINODE := by
    rw [huniv, Finset.card_univ, Fintype.card_fin]
  exact hcard.symm.le.trans (Finset.card_insert_le _ _)

theorem NameStop.of_quiet {t : State} {x : Stop} (hq : Quiet sb R s t) (h : NameStop sb R P t x) :
    NameStop sb R P s x := by
  refine h.imp_right fun ⟨hx, i, hi, hp, hcase⟩ => ⟨hx, i, hi, hp, ?_⟩
  rcases hcase with h0 | hl
  · rcases hq.node i hi with heq | ⟨hl, -⟩
    · exact Or.inl (heq ▸ h0)
    · exact Or.inr hl
  · exact Or.inr (hq.loose hl)

theorem namexFrom_spec (hsb : sb.Wf) {N : Nat → Node} (hP : Closed sb N P) (parent : Bool)
    (fuel : Nat) {path name : Str} {ip : Entry} (hfuel : path.length < fuel)
    (h : Cached sb (ip ::ₘ R) [] s) (hop : 1 ≤ s.blk.outstanding)
    (hN : ∀ j < sb.ninodes, (s.node sb j).type ≠ 0 → s.node sb j = N j)
    (h0 : P (s.icache ip).inum) : ((namexFrom sb parent fuel path name ip).run s).Sat
      (Named sb R P parent s (walk N parent fuel path (s.icache ip).inum) (lastElem fuel path name))
      (fun x _ => NameStop sb R P s x ∧ Crowded R x) := by
  induction fuel generalizing s path name ip with
  | zero => omega
  | succ fuel ih =>
    have hip : ip ∈ ip ::ₘ R := Multiset.mem_cons_self ip R
    have hsub : R ⊆ ip ::ₘ R := fun _ => Multiset.mem_cons_of_mem
    rw [namexFrom, lastElem, walk]
    cases helem : skipelem path with
    | none =>
      simp only
      apply sat_ite
      · intro hpar
        rw [sat_bind]
        refine (iput_spec hsb h hop).mono ?_ fun x _ hx => absurd hx.2 List.not_mem_nil
        rintro _ t ⟨hp, -⟩
        rw [sat_pure, if_pos hpar]
        exact ⟨hp.quiet, Or.inl ⟨rfl, rfl, hp.cached⟩⟩
      · intro hpar
        rw [sat_pure, if_neg hpar]
        exact ⟨Quiet.refl R s, Or.inr ⟨ip, rfl, rfl, h, h0, fun hc => absurd hc hpar⟩⟩
    | some p =>
      obtain ⟨rest, name'⟩ := p
      have hrest := (skipelem_some helem).1
      simp only
      rw [sat_bind]
      refine (ilock_spec h hip).mono ?_ ?_
      rotate_left
      · rintro x _ (⟨-, hd⟩ | ⟨rfl, hz⟩)
        · exact absurd hd List.not_mem_nil
        · exact ⟨Or.inr ⟨rfl, _, h.inum_lt hip, h0, Or.inl hz⟩, fun hx => by cases hx⟩
      rintro _ t ⟨hc, hq, hb, -⟩
      have hq1 : Quiet sb R s t := hq.mono hsub
      have hop1 : 1 ≤ t.blk.outstanding := by
        rw [hb]
        exact hop
      have hlock : ip ∈ [ip] := List.mem_singleton_self ip
      -- the inode is in use, so it is the one of the table
      have hinum := hq.inum ip hip
      have hnode : t.nodeAt sb ip = N (s.icache ip).inum := by
        have hsame : t.nodeAt sb ip = s.nodeAt sb ip := hq.nodeAt hip (h.inum_lt hip)
        rw [hsame]
        apply hN _ (h.inum_lt hip)
        rw [← State.nodeAt, ← hsame]
        exact hc.type_ne hlock
      rw [sat_bind, sat_inode, hc.din_type hlock, hnode]
      apply sat_ite
      · intro hdir
        rw [sat_bind, if_pos hdir]
        refine (iunlockput_spec hsb hc List.not_mem_nil hop1).imp ?_
        intro _ u hp
        rw [sat_pure]
        exact ⟨hq1.trans hp.quiet, Or.inl ⟨rfl, rfl, hp.cached⟩⟩
      intro hdir
      rw [if_neg hdir]
      have ht : (t.nodeAt sb ip).type = T_DIR := by
        rw [hnode]
        exact not_not.mp hdir
      apply sat_ite
      · intro hend
        rw [sat_bind, if_pos hend]
        refine (iunlock_spec hc List.not_mem_nil).imp ?_
        rintro _ u ⟨hc2, hq2, hb2, -⟩
        rw [sat_pure, lastElem_of_end hend.2]
        have hinum2 : (u.icache ip).inum = (s.icache ip).inum := (hq2.inum ip hip).trans hinum
        refine ⟨hq1.trans (hq2.mono hsub), Or.inr ⟨ip, rfl, ?_, hc2, ?_, fun _ => ?_⟩⟩
        · rw [hinum2]
        · rw [hinum2]
          exact h0
        · rw [hq2.nodeAt hip (hc.inum_lt hip)]
          exact ht
      intro hend
      rw [sat_bind, if_neg hend]
      refine (dirlookup_spec hc hlock ht name').mono ?_ fun x _ hx =>
        ⟨Or.inl hx.1, crowded_of_all hx.2⟩
      rintro r u (⟨hnone, rfl, rfl⟩ | ⟨k, next, hsome, rfl, hc2, hq2, hb2, hi⟩)
      · simp only
        rw [hnode] at hnone
        rw [sat_bind, hnone]
        refine (iunlockput_spec hsb hc List.not_mem_nil hop1).imp ?_
        intro _ u hp
        rw [sat_pure]
        exact ⟨hq1.trans hp.quiet, Or.inl ⟨rfl, rfl, hp.cached⟩⟩
      · simp only
        rw [hnode] at hsome hi
        rw [hsome, Option.bind_some]
        rw [Multiset.cons_swap] at hc2
        rw [sat_bind]
        refine (iunlockput_spec hsb hc2 List.not_mem_nil (by rw [hb2]; exact hop1)).imp ?_
        intro _ v hp
        have hq3 : Quiet sb R s v := (hq1.trans (hq2.mono hsub)).trans
          (hp.quiet.mono fun _ => Multiset.mem_cons_of_mem)
        have hnext : (v.icache next).inum = ((N (s.icache ip).inum).dirent k).inum :=
          (hp.quiet.inum next (Multiset.mem_cons_self next R)).trans hi
        -- it has the property, by the entry of the directory
        have hprop : P (v.icache next).inum := by
          obtain ⟨hk, hlive, -⟩ := Node.find_some hsome
          rw [hnext]
          exact hP _ (h.inum_lt hip) h0 (not_not.mp hdir) k hk hlive
        rw [← hnext]
        refine (ih (by omega) hp.cached (hop.trans_eq hq3.frame.outstanding.symm) ?_ hprop).mono ?_ ?_
        · intro j hj hne
          rcases hq3.node j hj with heq | ⟨-, hfree⟩
          · rw [heq] at hne ⊢
            exact hN j hj hne
          · rw [hfree] at hne
            exact absurd rfl hne
        · rintro r w ⟨hq4, hr⟩
          exact ⟨hq3.trans hq4, hr⟩
        · rintro x _ ⟨hx, hcrowd⟩
          exact ⟨hx.of_quiet hq3, hcrowd⟩

def startOf (s : State) (cwd : Entry) (path : Str) : Nat :=
  if path.headD 0 = slash then ROOTINO else (s.icache cwd).inum

variable {cwd : Entry}

theorem namex_spec (hsb : sb.Wf) {N : Nat → Node} (hP : Closed sb N P)
    (hN : ∀ j < sb.ninodes, (s.node sb j).type ≠ 0 → s.node sb j = N j) (parent : Bool)
    (path : Str) (h : Cached sb R [] s) (hop : 1 ≤ s.blk.outstanding) (hcwd : cwd ∈ R)
    (hroot : P ROOTINO) (hstart : P (s.icache cwd).inum) : ((namex sb cwd path parent).run s).Sat
      (Named sb R P parent s (walk N parent (path.length + 1) path (startOf s cwd path))
        (lastElem (path.length + 1) path [])) (fun x _ => NameStop sb R P s x ∧ Crowded R x) := by
  have hfrom : ∀ {e : Entry} {t : State}, Cached sb (e ::ₘ R) [] t → Quiet sb R s t → t.blk = s.blk →
      P (t.icache e).inum →
      ((namexFrom sb parent (path.length + 1) path [] e).run t).Sat
        (Named sb R P parent s (walk N parent (path.length + 1) path (t.icache e).inum)
          (lastElem (path.length + 1) path []))
        (fun x _ => NameStop sb R P s x ∧ Crowded R x) := by
    intro e t hc hq hb hp
    refine (namexFrom_spec hsb hP parent _ (Nat.lt_succ_self _) hc (by rw [hb]; exact hop) ?_
      hp).mono ?_ fun x _ hx => ⟨hx.1.of_quiet hq, hx.2⟩
    · intro j hj
      rw [State.node, hb]
      exact hN j hj
    · rintro r u ⟨hq2, hr⟩
      exact ⟨hq.trans hq2, hr⟩
  rw [namex, startOf]
  apply sat_ite
  · intro habs
    rw [sat_bind, if_pos habs]
    refine (iget_spec h hsb.root).mono ?_ fun x _ hx =>
      ⟨Or.inl hx.1, crowded_of_all (e := cwd) fun e => Multiset.mem_cons_of_mem (hx.2 e)⟩
    rintro e t ⟨hc, hi, hq, hb, -⟩
    rw [← hi]
    exact hfrom hc hq hb (by rw [hi]; exact hroot)
  · intro hrel
    rw [sat_bind, if_neg hrel]
    refine (sat_idup h hcwd).imp ?_
    rintro _ t ⟨rfl, hc, hq, hb⟩
    rw [← hq.inum _ hcwd]
    exact hfrom hc hq hb (by rw [hq.inum _ hcwd]; exact hstart)

theorem namei_spec (hsb : sb.Wf) (hP : Closed sb (s.node sb) P) (path : Str)
    (h : Cached sb R [] s) (hop : 1 ≤ s.blk.outstanding) (hcwd : cwd ∈ R) (hroot : P ROOTINO)
    (hstart : P (s.icache cwd).inum) : ((namei sb cwd path).run s).Sat (fun r t => Quiet sb R s t ∧
        walk (s.node sb) false (path.length + 1) path (startOf s cwd path) =
          r.map (fun e => (t.icache e).inum) ∧ (r = none ∧ Cached sb R [] t ∨
        ∃ e, r = some e ∧ Cached sb (e ::ₘ R) [] t ∧ P (t.icache e).inum))
      (fun x _ => NameStop sb R P s x ∧ Crowded R x) := by
  rw [namei, sat_bind]
  refine (namex_spec hsb hP (fun _ _ _ => rfl) false path h hop hcwd hroot hstart).imp ?_
  rintro r t ⟨hq, ⟨rfl, hw, hc⟩ | ⟨e, rfl, hw, hc, hp, -⟩⟩
  · rw [sat_pure]
    exact ⟨hq, hw, Or.inl ⟨rfl, hc⟩⟩
  · rw [sat_pure]
    exact ⟨hq, hw, Or.inr ⟨e, rfl, hc, hp⟩⟩

/-- The process has locked the inode of entry `ip`, found by name. -/
structure Reached (sb : Superblock) (R : Multiset Entry) (P : Nat → Prop) (s : State) (ip : Entry)
    (t : State) : Prop where
  cached : Cached sb (ip ::ₘ R) [ip] t
  quiet : Quiet sb R s t
  prop : P (t.icache ip).inum
  node : t.nodeAt sb ip = s.node sb (t.icache ip).inum

theorem reached_spec {t : State} {ip : Entry} (h : Cached sb (ip ::ₘ R) [] t) (hq : Quiet sb R s t)
    (hp : P (t.icache ip).inum) : ((ilock sb ip).run t).Sat
      (fun _ u => Reached sb R P s ip u ∧ (u.icache ip).inum = (t.icache ip).inum ∧
        u.nodeAt sb ip = t.nodeAt sb ip)
      (fun x _ => NameStop sb R P s x ∧ (t.nodeAt sb ip).type = 0) := by
  have hip : ip ∈ ip ::ₘ R := Multiset.mem_cons_self ip R
  refine (ilock_spec h hip).mono ?_ ?_
  · rintro _ u ⟨hcu, hqu, -, -⟩
    have hq' := hq.trans (hqu.mono fun _ => Multiset.mem_cons_of_mem)
    refine ⟨⟨hcu, hq', ?_, ?_⟩, hqu.inum ip hip, hqu.nodeAt hip (h.inum_lt hip)⟩
    · rw [hqu.inum ip hip]
      exact hp
    · rcases hq'.node _ (hcu.inum_lt hip) with heq | ⟨-, hfree⟩
      · exact heq
      · exact absurd (congrArg Node.type hfree) (hcu.type_ne (List.mem_singleton_self ip))
  · rintro x _ (⟨-, hd⟩ | ⟨rfl, h0⟩)
    · exact absurd hd List.not_mem_nil
    · exact ⟨NameStop.of_quiet hq (Or.inr ⟨rfl, _, h.inum_lt hip, hp, Or.inl h0⟩), h0⟩

theorem nameiparent_spec (hsb : sb.Wf) {N : Nat → Node} (hP : Closed sb N P)
    (hN : ∀ j < sb.ninodes, (s.node sb j).type ≠ 0 → s.node sb j = N j) (path : Str)
    (h : Cached sb R [] s) (hop : 1 ≤ s.blk.outstanding) (hcwd : cwd ∈ R) (hroot : P ROOTINO)
    (hstart : P (s.icache cwd).inum) : ((nameiparent sb cwd path).run s).Sat
      (fun r t => r = none ∧ Cached sb R [] t ∧ Quiet sb R s t ∧
          walk N true (path.length + 1) path (startOf s cwd path) = none ∨
        ∃ dp, r = some (dp, lastElem (path.length + 1) path []) ∧ ∀ E : Stop → State → Prop,
          ((ilock sb dp).run t).Sat (fun _ u => Reached sb R P s dp u ∧
            (u.nodeAt sb dp).type = T_DIR ∧
            walk N true (path.length + 1) path (startOf s cwd path) =
              some (u.icache dp).inum) E) (fun x _ => NameStop sb R P s x) := by
  rw [nameiparent]
  refine (namex_spec hsb hP hN true path h hop hcwd hroot hstart).mono ?_ fun x _ hx => hx.1
  rintro r t ⟨hq, ⟨rfl, hw, hc⟩ | ⟨dp, rfl, hw, hc, hpd, htype⟩⟩
  · exact Or.inl ⟨rfl, hc, hq, hw⟩
  refine Or.inr ⟨dp, rfl, fun E => (reached_spec hc hq hpd).mono ?_ ?_⟩
  · rintro _ u ⟨hu, hinum, hnode⟩
    refine ⟨hu, ?_, ?_⟩
    · rw [hnode]
      exact htype rfl
    · rw [hinum]
      exact hw
  · rintro x _ ⟨-, h0⟩
    rw [htype rfl] at h0
    exact absurd h0 (by decide)

theorem namei_locked_spec (hsb : sb.Wf) (hP : Closed sb (s.node sb) P) (path : Str)
    (h : Cached sb R [] s) (hop : 1 ≤ s.blk.outstanding) (hcwd : cwd ∈ R) (hroot : P ROOTINO)
    (hstart : P (s.icache cwd).inum) : ((namei sb cwd path).run s).Sat
      (fun r t => r = none ∧ Cached sb R [] t ∧ Quiet sb R s t ∧
          walk (s.node sb) false (path.length + 1) path (startOf s cwd path) = none ∨
        ∃ ip, r = some ip ∧ ((ilock sb ip).run t).Sat (fun _ u => Reached sb R P s ip u ∧
            walk (s.node sb) false (path.length + 1) path (startOf s cwd path) =
              some (u.icache ip).inum)
          (fun x _ => NameStop sb R P s x)) (fun x _ => NameStop sb R P s x) := by
  refine (namei_spec hsb hP path h hop hcwd hroot hstart).mono ?_ fun x _ hx => hx.1
  rintro r t ⟨hq, hw, ⟨rfl, hc⟩ | ⟨ip, rfl, hc, hp⟩⟩
  · exact Or.inl ⟨rfl, hc, hq, hw⟩
  · refine Or.inr ⟨ip, rfl, (reached_spec hc hq hp).mono ?_ fun _ _ hx => hx.1⟩
    rintro _ u ⟨hu, hinum, -⟩
    exact ⟨hu, hinum ▸ hw⟩

end Namex

end BossOs.Fs
