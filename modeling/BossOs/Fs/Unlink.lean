import BossOs.Fs.Both

/-!
# `sys_unlink`

What the call does to the table of nodes, and why it may stop.
-/

namespace BossOs.Fs

open Function (update update_self update_of_ne update_idem)
open Lib
open Prog (sat_bind sat_fail sat_ite sat_pure)

variable {sb : Superblock}

def Node.isEmpty (nd : Node) : Bool :=
  (firstFrom (fun k => (nd.dirent k).inum ≠ 0) (nd.slots - 2) 2).isNone

section Unlink

variable {R : Multiset Entry} {L : List Entry} {s : State} {P : Nat → Prop}

variable {E : Stop → State → Prop}

theorem sat_isdiremptyFrom {dp : Entry} {m : Nat} {de : Nat → Dirent} (h : DirView sb s dp m de)
    (hsize : (s.icache dp).din.size.toNat = m * Dirent.bytes) (fuel k : Nat)
    (hfuel : m < fuel + k) {Q : Bool → State → Prop} :
    ((isdiremptyFrom sb dp fuel (k * Dirent.bytes)).run s).Sat Q E =
      Q (firstFrom (fun k => (de k).inum ≠ 0) (m - k) k).isNone s := by
  induction fuel generalizing k with
  | zero =>
    rw [isdiremptyFrom, sat_pure, show m - k = 0 by omega]
    rfl
  | succ fuel ih =>
    rw [isdiremptyFrom, sat_bind, sat_inode]
    by_cases hlt : k < m
    · rw [if_pos (h.more hlt), sat_bind, h.sat_read hlt,
        show m - k = m - (k + 1) + 1 by omega, firstFrom]
      simp only [decide_eq_true_eq]
      by_cases h0 : (de k).inum ≠ 0
      · rw [if_pos h0, if_pos h0, sat_pure]
        rfl
      · rw [if_neg h0, if_neg h0, show k * Dirent.bytes + Dirent.bytes = (k + 1) * Dirent.bytes by
          rw [Nat.add_mul, Nat.one_mul]]
        exact ih (k + 1) (by omega)
    · rw [if_neg (by rw [hsize, dirent_bytes]; omega), sat_pure, show m - k = 0 by omega]
      rfl

theorem sat_isdirempty {dp : Entry} (h : Cached sb R L s) (hdp : dp ∈ L)
    (ht : (s.nodeAt sb dp).type = T_DIR) {Q : Bool → State → Prop} :
    ((isdirempty sb dp).run s).Sat Q E = Q (s.nodeAt sb dp).isEmpty s := by
  obtain ⟨hview, hsize⟩ := h.view hdp ht
  rw [isdirempty, sat_bind, sat_inode]
  exact sat_isdiremptyFrom hview hsize _ 2 (by rw [h.din_size hdp, Node.slots]; omega)

/-- The directory after the entry in slot `k` was removed; `isDir` says what it was for. -/
def Node.removed (nd : Node) (k : Nat) (isDir : Prop) [Decidable isDir] : Node :=
  let nd' := nd.write (k * Dirent.bytes) noDirent.encode
  if isDir then nd'.relink (nd.nlink - 1) else nd'

/-- The entry for `i` in slot `k` of directory `d` was removed. -/
structure UnlinkDone (sb : Superblock) (P : Nat → Prop) (N : Nat → Node) (name : Str) (i d k : Nat)
    (M : Nat → Node) : Prop where
  file_lt : i < sb.ninodes
  dir_lt : d < sb.ninodes
  dir : (N d).type = T_DIR
  dir_prop : P d
  found : (N d).find name = some k
  entry : ((N d).dirent k).inum = i
  dots : namecmp name dot ≠ 0 ∧ namecmp name dotdot ≠ 0
  ne : i ≠ d
  typed : (N i).type ≠ 0
  linked : ¬ (N i).nlink < 1
  empty : (N i).type = T_DIR → (N i).isEmpty = true
  table : M = update (update N d ((N d).removed k ((N i).type = T_DIR))) i
    ((N i).relink ((N i).nlink - 1))

def UnlinkPost (sb : Superblock) (R : Multiset Entry) (P : Nat → Prop) (s : State) (w : Option Nat)
    (name : Str) (r : Bool) (t : State) : Prop :=
  Cached sb R [] t ∧ ∃ M I D, Settles sb R s M I D t ∧ I.length ≤ 3 ∧ D.length ≤ 2 ∧
    (r = false ∧ M = s.node sb ∧ I = [] ∨ r = true ∧ ∃ i d k, w = some d ∧
      UnlinkDone sb P (s.node sb) name i d k M ∧
      ((M i).nlink = 0 → (∀ e ∈ R, (s.icache e).inum ≠ i) → t.node sb i = Node.free))

inductive UnlinkStop (sb : Superblock) (R : Multiset Entry) (P : Nat → Prop) (s : State)
    (name : Str) : Stop → Prop
  | call {x : Stop} (h : CallStop sb R P s x) : UnlinkStop sb R P s name x
  /-- An entry names the directory it is in. -/
  | deadlock {d k : Nat} (hd : d < sb.ninodes) (hp : P d) (ht : (s.node sb d).type = T_DIR)
    (hdots : namecmp name dot ≠ 0 ∧ namecmp name dotdot ≠ 0)
    (hk : (s.node sb d).find name = some k) (hi : ((s.node sb d).dirent k).inum = d) :
    UnlinkStop sb R P s name .deadlock
  /-- An inode has an entry and no link. -/
  | nlink {d k : Nat} (hd : d < sb.ninodes) (hp : P d) (ht : (s.node sb d).type = T_DIR)
    (hdots : namecmp name dot ≠ 0 ∧ namecmp name dotdot ≠ 0)
    (hk : (s.node sb d).find name = some k)
    (hi : (s.node sb ((s.node sb d).dirent k).inum).nlink < 1) :
    UnlinkStop sb R P s name (.panic .unlinkNlink)

section Entry

variable {dp ip : Entry} {d i : Nat} {t : State} {M : Nat → Node} {I D : List Nat}
  (hsb : sb.Wf) (hop : 1 ≤ s.blk.outstanding)
include hsb hop

theorem dropLink_spec (h : Both sb R s dp ip d i M I D t) :
    ((do
      iunlockput sb dp
      setDin ip fun d => { d with nlink := d.nlink - 1 }
      iupdate sb ip
      iunlockput sb ip
      pure true : FsM Bool).run t).Sat
      (fun r u => r = true ∧ Cached sb R [] u ∧
        Settles sb R s (update M i ((M i).relink ((M i).nlink - 1))) (i :: I) D u ∧
        ((M i).nlink - 1 = 0 → (∀ e ∈ R, (s.icache e).inum ≠ i) → u.node sb i = Node.free)) E := by
  simp only [sat_bind]
  refine (h.unlockput hsb hop).imp ?_
  rintro _ t1 ⟨hc1, hs1, hi1, hn1⟩
  refine (relink_spec hsb hc1 (List.mem_singleton_self ip) (hs1.op hop) (· - 1)).imp ?_
  intro _ t2 ht2
  refine ht2.imp ?_
  rintro _ t3 ⟨hc3, hch, -⟩
  have hs3 := hs1.stored hch
  have hn3 := hch.nodeAt
  have hi3 : (t3.icache ip).inum = i := (hch.entry ip).1.trans hi1
  rw [hi1, hn1] at hs3
  rw [hn1] at hn3
  refine (iunlockput_spec hsb hc3 List.not_mem_nil (hs3.op hop)).imp ?_
  intro _ u hp
  rw [sat_pure]
  refine ⟨rfl, hp.cached, hs3.quiet hp.quiet, ?_⟩
  intro h0 hun
  have hnot : ip ∉ R := fun hip => hun ip hip ((hs1.inum ip hip).symm.trans hi1)
  have hfreed := hp.freed (hc3.valid ip (List.mem_singleton_self ip)).2 hnot (by rw [hn3]; exact h0)
  rwa [hi3] at hfreed

theorem refused_spec (h : Both sb R s dp ip d i (s.node sb) [] [] t) {w : Option Nat} {name : Str} :
    ((do iunlockput sb ip; iunlockput sb dp; pure false : FsM Bool).run t).Sat
      (UnlinkPost sb R P s w name) E := by
  simp only [sat_bind]
  refine (h.swap.unlockput hsb hop).imp ?_
  rintro _ t2 ⟨hc2, hs2, -, -⟩
  refine (iunlockput_spec hsb hc2 List.not_mem_nil (hs2.op hop)).imp ?_
  intro _ t3 hp3
  rw [sat_pure]
  exact ⟨hp3.cached, _, _, _, hs2.quiet hp3.quiet, Nat.zero_le 3, Nat.zero_le 2, Or.inl ⟨rfl, rfl, rfl⟩⟩

theorem removed_spec (h : Both sb R s dp ip d i (s.node sb) [] [] t) {k : Nat}
    (hdir : (s.node sb d).type = T_DIR) (hk : k < (s.node sb d).slots) :
    ((do
      let w ← writei sb dp noDirent.encode (k * Dirent.bytes)
      if w ≠ some Dirent.bytes then panic .unlinkWritei
      else if (s.node sb i).type = T_DIR then do
        setDin dp fun d => { d with nlink := d.nlink - 1 }
        iupdate sb dp
        iunlockput sb dp
        setDin ip fun d => { d with nlink := d.nlink - 1 }
        iupdate sb ip
        iunlockput sb ip
        pure true
      else do
        iunlockput sb dp
        setDin ip fun d => { d with nlink := d.nlink - 1 }
        iupdate sb ip
        iunlockput sb ip
        pure true : FsM Bool).run t).Sat
      (fun r u => r = true ∧ Cached sb R [] u ∧ ∃ I D, I.length ≤ 3 ∧ D.length ≤ 2 ∧
        Settles sb R s (update (update (s.node sb) d
          ((s.node sb d).removed k ((s.node sb i).type = T_DIR))) i
          ((s.node sb i).relink ((s.node sb i).nlink - 1))) I D u ∧
        ((s.node sb i).nlink - 1 = 0 → (∀ e ∈ R, (s.icache e).inum ≠ i) → u.node sb i = Node.free))
      (fun x _ => x = .panic .outOfBlocks) := by
  rw [sat_bind]
  refine (h.writeSlot hsb hop hdir hk).imp ?_
  rintro _ t1 ⟨rfl, D, hD, h1⟩
  rw [if_neg (fun hc => hc rfl), Node.removed]
  apply sat_ite
  · intro hisdir
    rw [sat_bind]
    refine (h1.relink hsb hop (· - 1)).imp ?_
    intro _ t2 ht2
    rw [sat_bind]
    refine ht2.imp ?_
    intro _ t3 h3
    refine (dropLink_spec hsb hop h3).imp ?_
    rintro r u ⟨rfl, hc, hs4, hfreed⟩
    rw [update_idem, update_self, update_of_ne h.ne] at hs4 hfreed
    refine ⟨rfl, hc, [i, d, d], D, Nat.le_refl 3, hD, ?_, hfreed⟩
    rw [if_pos hisdir]
    exact hs4
  · intro hfile
    refine (dropLink_spec hsb hop h1).imp ?_
    rintro r u ⟨rfl, hc, hs2, hfreed⟩
    rw [update_of_ne h.ne] at hs2 hfreed
    refine ⟨rfl, hc, [i, d], D, Nat.le_succ 2, hD, ?_, hfreed⟩
    rw [if_neg hfile]
    exact hs2

end Entry

theorem unlinkEntry_spec (hsb : sb.Wf) (hP : Closed sb (s.node sb) P) {name : Str}
    (hop : 1 ≤ s.blk.outstanding) {t : State} {dp ip : Entry} {d i k : Nat}
    (h : Cached sb (ip ::ₘ dp ::ₘ R) [dp] t) (hq : Quiet sb R s t) (hdir : (t.icache dp).inum = d)
    (hfile : (t.icache ip).inum = i) (hnd : t.nodeAt sb dp = s.node sb d)
    (ht : (s.node sb d).type = T_DIR) (hpd : P d)
    (hdots : namecmp name dot ≠ 0 ∧ namecmp name dotdot ≠ 0)
    (hk : (s.node sb d).find name = some k) (hi : ((s.node sb d).dirent k).inum = i)
    {w : Option Nat} (hw : w = some d) :
    ((unlinkEntry sb dp ip (k * Dirent.bytes)).run t).Sat (UnlinkPost sb R P s w name)
      (fun x _ => UnlinkStop sb R P s name x) := by
  have hip : ip ∈ ip ::ₘ dp ::ₘ R := Multiset.mem_cons_self ..
  have hdp : dp ∈ ip ::ₘ dp ::ₘ R := Multiset.mem_cons_of_mem (Multiset.mem_cons_self ..)
  have hsub : R ⊆ ip ::ₘ dp ::ₘ R := fun _ hx =>
    Multiset.mem_cons_of_mem (Multiset.mem_cons_of_mem hx)
  have hd : d < sb.ninodes := hdir ▸ h.inum_lt hdp
  have hlt : i < sb.ninodes := hfile ▸ h.inum_lt hip
  obtain ⟨hslot, hlive, -⟩ := Node.find_some hk
  have hpi : P i := by
    have hp := hP d hd hpd ht k hslot hlive
    rwa [hi] at hp
  simp only [unlinkEntry, sat_bind]
  refine (ilock_spec h hip).mono ?_ ?_
  rotate_left
  · rintro x _ (⟨rfl, hm⟩ | ⟨rfl, h0⟩)
    · obtain rfl := List.mem_singleton.mp hm
      exact .deadlock hd hpd ht hdots hk (hi.trans (hfile.symm.trans hdir))
    · rw [State.nodeAt, hfile] at h0
      exact .call (.name (NameStop.of_quiet hq (Or.inr ⟨rfl, i, hlt, hpi, Or.inl h0⟩)))
  rintro _ t1 ⟨hc1, hq1, -, hne⟩
  have hs1 := (hq.trans (hq1.mono hsub)).settles
  have hlock : ip ∈ ip :: [dp] := List.mem_cons_self
  have hi1 : (t1.icache ip).inum = i := (hq1.inum ip hip).trans hfile
  -- both inodes are as at the start of the call
  have hni1 : t1.nodeAt sb ip = s.node sb i := by
    rw [State.nodeAt, hi1]
    apply hs1.node_of_type hlt
    rw [← hi1]
    exact hc1.type_ne hlock
  have htype : (s.node sb i).type ≠ 0 := by
    rw [← hni1]
    exact hc1.type_ne hlock
  have hu : Both sb R s dp ip d i (s.node sb) [] [] t1 := by
    refine Both.swap ⟨hc1, hs1, hi1, (hq1.inum dp hdp).trans hdir, hni1,
      (hq1.nodeAt hdp (h.inum_lt hdp)).trans hnd, fun heq => hne (List.mem_singleton.mpr heq)⟩
  rw [sat_inode, hc1.din_nlink hlock, hc1.din_type hlock, hni1]
  apply sat_ite
  · intro hlow
    rw [panic, sat_fail]
    rw [← hi] at hlow
    exact .nlink hd hpd ht hdots hk hlow
  intro hlinked
  have hremoved := fun (hempty : (s.node sb i).type = T_DIR → (s.node sb i).isEmpty = true) =>
    (removed_spec hsb hop hu ht hslot).mono
      (fun r u hpost => show UnlinkPost sb R P s w name r u by
        obtain ⟨hr, hc, I, D, hI, hD, hs, hfreed⟩ := hpost
        refine ⟨hc, _, I, D, hs, hI, hD, Or.inr ⟨hr, i, d, k, hw, ⟨hlt, hd, ht, hpd, hk, hi, hdots,
          hu.ne, htype, hlinked, hempty, rfl⟩, fun h0 => ?_⟩⟩
        rw [update_self] at h0
        exact hfreed h0)
      (fun x _ hx => show UnlinkStop sb R P s name x from hx ▸ .call .outOfBlocks)
  apply sat_ite
  · intro hisdir
    rw [sat_bind, sat_bind, sat_isdirempty hc1 hlock (by rw [hni1]; exact hisdir), hni1,
      sat_pure]
    apply sat_ite
    · intro _
      exact refused_spec hsb hop hu
    · intro hempty
      exact hremoved fun _ => by simpa using hempty
  · intro hreg
    rw [sat_bind, sat_pure, if_neg Bool.false_ne_true]
    exact hremoved fun hc => absurd hc hreg

theorem unlink_spec (hsb : sb.Wf) (hP : Closed sb (s.node sb) P) {cwd : Entry} (path : Str)
    (h : Cached sb R [] s) (hop : 1 ≤ s.blk.outstanding) (hcwd : cwd ∈ R) (hroot : P ROOTINO)
    (hstart : P (s.icache cwd).inum) : ((unlink sb cwd path).run s).Sat (UnlinkPost sb R P s
      (walk (s.node sb) true (path.length + 1) path (startOf s cwd path))
      (lastElem (path.length + 1) path []))
      (fun x _ => UnlinkStop sb R P s (lastElem (path.length + 1) path []) x) := by
  have hquiet : ∀ {t : State}, Cached sb R [] t → Quiet sb R s t →
      UnlinkPost sb R P s (walk (s.node sb) true (path.length + 1) path (startOf s cwd path))
        (lastElem (path.length + 1) path []) false t := fun hc hq =>
    ⟨hc, _, _, _, hq.settles, Nat.zero_le 3, Nat.zero_le 2, Or.inl ⟨rfl, rfl, rfl⟩⟩
  rw [unlink, sat_bind]
  refine (nameiparent_spec hsb hP (fun _ _ _ => rfl) path h hop hcwd hroot hstart).mono ?_
    fun x _ hx => .call (.name hx)
  rintro r t (⟨rfl, hc, hq, -⟩ | ⟨dp, rfl, hlock⟩)
  · rw [sat_pure]
    exact hquiet hc hq
  have hdp : dp ∈ dp ::ₘ R := Multiset.mem_cons_self dp R
  have hsub : R ⊆ dp ::ₘ R := fun _ => Multiset.mem_cons_of_mem
  simp only [sat_bind]
  refine (hlock _).imp ?_
  rintro _ t1 ⟨hin, ht, hwalk⟩
  have hnode := hin.node
  have hput : ∀ {E : Stop → State → Prop}, ((do iunlockput sb dp; pure false : FsM Bool).run t1).Sat
      (UnlinkPost sb R P s
      (walk (s.node sb) true (path.length + 1) path (startOf s cwd path))
      (lastElem (path.length + 1) path [])) E := by
    intro E
    rw [sat_bind]
    refine (iunlockput_spec hsb hin.cached List.not_mem_nil (hin.quiet.settles.op hop)).imp ?_
    intro _ u hp
    rw [sat_pure]
    exact hquiet hp.cached (hin.quiet.trans hp.quiet)
  apply sat_ite
  · intro _
    exact hput
  intro hdots
  rw [not_or] at hdots
  rw [sat_bind]
  refine (dirlookup_spec hin.cached (List.mem_singleton_self dp) ht _).mono ?_ fun x _ hx => .call
    (.name (Or.inl hx.1))
  rintro r u (⟨-, rfl, rfl⟩ | ⟨k, ip, hk, rfl, hc2, hq2, hb2, hi⟩)
  · exact hput
  · rw [hnode] at hk hi ht
    have hnode2 : u.nodeAt sb dp = s.node sb (t1.icache dp).inum :=
      (hq2.nodeAt hdp (hin.cached.inum_lt hdp)).trans hnode
    exact unlinkEntry_spec hsb hP hop hc2 (hin.quiet.trans (hq2.mono hsub)) (hq2.inum dp hdp) hi hnode2
      ht hin.prop hdots hk rfl hwalk

end Unlink

end BossOs.Fs
