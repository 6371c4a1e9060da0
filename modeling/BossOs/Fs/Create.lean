import BossOs.Fs.Both

/-!
# `create`

What `create` does to the table of nodes, for files, devices and directories, and why it may
stop. It never waits for a lock that it holds.
-/

namespace BossOs.Fs

open Function (update update_self update_of_ne update_idem update_comm)
open Lib
open Prog (sat_bind sat_ite sat_pure)

variable {sb : Superblock}

def Node.newborn (type major minor : Int16) : Node := (Node.fresh type).setFields major minor 1

def Node.newDir (major minor : Int16) (i d : Nat) : Node :=
  ((Node.newborn T_DIR major minor).link dot i).link dotdot d

def created (N : Nat → Node) (d i : Nat) (name : Str) (type major minor : Int16) : Nat → Node :=
  if type = T_DIR then
    update (update N i (Node.newDir major minor i d)) d
      (((N d).relink ((N d).nlink + 1)).link name i)
  else
    update (update N i (Node.newborn type major minor)) d ((N d).link name i)

theorem Node.slots_newborn (type major minor : Int16) :
    (Node.newborn type major minor).slots = 0 := Nat.zero_div _

theorem Node.find_newborn (type major minor : Int16) (name : Str) :
    (Node.newborn type major minor).find name = none := by
  rw [Node.find, Node.slots_newborn]
  rfl

theorem Node.find_link {nd : Node} {name other : Str} {inum : Nat} (hdvd : Dirent.bytes ∣ nd.size)
    (h16 : inum < 2 ^ 16) (hnone : nd.find other = none)
    (hne : namecmp other (strncpy name DIRSIZ) ≠ 0) : (nd.link name inum).find other = none := by
  obtain ⟨hhole, -⟩ := Node.hole_spec nd
  have hname : (newDirent name inum).name.length = DIRSIZ := length_strncpy ..
  have hlen := Dirent.length_encode_of hname
  cases hf : (nd.link name inum).find other with
  | none => rfl
  | some k =>
    obtain ⟨hk, hlive, hcmp⟩ := Node.find_some hf
    rw [Node.link, (Node.slots_write hdvd hhole hlen).2] at hk
    rw [Node.link, Node.dirent_write hdvd hhole hname h16 hk] at hlive hcmp
    by_cases hkh : k = nd.hole
    · rw [if_pos hkh] at hcmp
      exact absurd hcmp hne
    · rw [if_neg hkh] at hlive hcmp
      exact absurd hcmp (Node.find_none hnone (by omega) hlive)

section Create

variable {R : Multiset Entry} {s : State} {P : Nat → Prop} {type major minor : Int16}

/-- Inode `i` is free, or will be as soon as its last reference is dropped. -/
structure Vacant (sb : Superblock) (R : Multiset Entry) (s : State) (i : Nat) : Prop where
  lt : i < sb.ninodes
  pos : 0 < i
  free : (s.node sb i).type = 0 ∨ Loose sb R s i
  unref : ∀ e ∈ R, (s.icache e).inum ≠ i

structure CreateDone (sb : Superblock) (R : Multiset Entry) (P : Nat → Prop) (s : State)
    (type major minor : Int16) (name : Str) (i d : Nat) (M : Nat → Node) : Prop where
  vacant : Vacant sb R s i
  dir_lt : d < sb.ninodes
  dir : (s.node sb d).type = T_DIR
  dir_prop : P d
  absent : (s.node sb d).find name = none
  ne : i ≠ d
  table : M = created (s.node sb) d i name type major minor

def Created (sb : Superblock) (R : Multiset Entry) (P : Nat → Prop) (s : State)
    (type major minor : Int16) (name : Str) (d : Nat) (ip : Entry) (t : State) : Prop :=
  Cached sb (ip ::ₘ R) [ip] t ∧ ∃ i D M, (t.icache ip).inum = i ∧ t.nodeAt sb ip = M i ∧
    Settles sb R s M [i, d] D t ∧ D.length ≤ 6 ∧
    CreateDone sb R P s type major minor name i d M

theorem CallStop.of_full {x : Stop} (h : Both.Full x) : CallStop sb R P s x := by
  rcases h with rfl | rfl | rfl
  · exact .name (Or.inl rfl)
  · exact .outOfBlocks
  · exact .dirlink

section New

variable {dp ip : Entry} {d i : Nat} {t : State} {M : Nat → Node} {I D : List Nat}
  (hsb : sb.Wf) (hop : 1 ≤ s.blk.outstanding)
include hsb hop

theorem newborn_spec (major minor : Int16) (ht0 : type ≠ 0) (h0 : Cached sb R [] s)
    (halive : ∀ e ∈ R, (s.nodeAt sb e).type ≠ 0) (h : Cached sb (dp ::ₘ R) [dp] t)
    (hq : Quiet sb R s t) (hdir : (t.icache dp).inum = d) (hnd : t.nodeAt sb dp = s.node sb d) :
    ((ialloc sb type).run t).Sat (fun ip t1 => ((ilock sb ip).run t1).Sat (fun _ t2 =>
      ((setDin ip fun d => { d with major := major, minor := minor, nlink := 1 }).run t2).Sat
        (fun _ t3 => ((iupdate sb ip).run t3).Sat (fun _ u => ∃ i, Vacant sb R s i ∧
          Both sb R s dp ip d i (update (s.node sb) i (Node.newborn type major minor))
            [i, i] [] u)
          fun x _ => CallStop sb R P s x) fun x _ => CallStop sb R P s x)
      fun x _ => CallStop sb R P s x) (fun x _ => CallStop sb R P s x) := by
  have hdp : dp ∈ dp ::ₘ R := Multiset.mem_cons_self ..
  have hsub : R ⊆ dp ::ₘ R := fun _ => Multiset.mem_cons_of_mem
  have hs := hq.settles
  have htd : (s.node sb d).type ≠ 0 := by
    rw [← hnd]
    exact h.type_ne (List.mem_singleton_self dp)
  refine (ialloc_spec hsb h (hs.op hop) ht0).mono ?_ ?_
  rotate_left
  · rintro x _ (rfl | rfl)
    · exact .noInodes
    · exact .name (Or.inl rfl)
  intro ip t1 ha
  have hnew : ip ∉ dp ::ₘ R := by
    apply ha.new
    intro e he
    rcases Multiset.mem_cons.mp he with rfl | he
    · rw [hnd]
      exact htd
    · rw [hq.nodeAt he (h0.inum_lt he)]
      exact halive e he
  obtain ⟨i, hi⟩ : ∃ i, (t1.icache ip).inum = i := ⟨_, rfl⟩
  have hip : ip ∈ ip ::ₘ dp ::ₘ R := Multiset.mem_cons_self ..
  have hs1 := hs.alloc ha hsub
  have hnode := ha.node
  have hold := ha.old
  rw [hi] at hs1 hnode hold
  have hlt : i < sb.ninodes := hi ▸ ha.cached.inum_lt hip
  have hid : i ≠ d := by
    rintro rfl
    rw [State.nodeAt, hdir] at hnd
    rw [hnd] at hold
    exact htd hold
  have hfree : (s.node sb i).type = 0 ∨ Loose sb R s i := by
    rcases hs.node i hlt with heq | ⟨⟨h1, h2, h3⟩, -⟩
    · exact Or.inl (heq ▸ hold)
    · exact Or.inr ⟨hlt, h1, h2, h3⟩
  have hvacant : Vacant sb R s i := by
    refine ⟨hlt, hi ▸ ha.pos, hfree, ?_⟩
    intro e he heq
    rcases hfree with hz | hl
    · rw [← heq] at hz
      exact halive e he hz
    · exact hl.unref e he heq
  refine (ilock_alive ha.cached hip (fun hm => hnew (List.mem_singleton.mp hm ▸ hdp)) ?_).imp ?_
  · rw [State.nodeAt, hi, hnode]
    exact ht0
  rintro _ t2 ⟨hc2, hq2, -⟩
  have hb2 : Both sb R s ip dp i d (update (s.node sb) i (Node.fresh type)) [i] [] t2 := by
    have hdp1 : dp ∈ ip ::ₘ dp ::ₘ R := Multiset.mem_cons_of_mem hdp
    have hd1 : (t1.icache dp).inum = d := (ha.inum dp hdp).trans hdir
    refine ⟨hc2, hs1.quiet (hq2.mono fun _ hx => Multiset.mem_cons_of_mem (hsub hx)),
      (hq2.inum ip hip).trans hi, (hq2.inum dp hdp1).trans hd1, ?_, ?_, ?_⟩
    · rw [hq2.nodeAt hip (ha.cached.inum_lt hip), State.nodeAt, hi, hnode, update_self]
    · rw [hq2.nodeAt hdp1 (ha.cached.inum_lt hdp1), State.nodeAt, hd1, update_of_ne hid.symm,
        ha.others d (hd1 ▸ ha.cached.inum_lt hdp1) (by rw [hi]; exact hid.symm), ← hnd, State.nodeAt,
        hdir]
    · rintro rfl
      exact hnew hdp
  refine (update_spec hsb hc2 List.mem_cons_self (hb2.settles.op hop)
    (fun d => { d with major := major, minor := minor, nlink := 1 }) (fun _ => rfl) (fun _ => rfl)
    (fun _ => rfl)).imp ?_
  intro _ t3 ht3
  refine ht3.imp ?_
  rintro _ u ⟨hc4, hch, -⟩
  have hs4 := hb2.settles.stored hch
  rw [hb2.dirNode, update_self] at hch hs4
  have hb4 := hb2.change hc4 hch hs4
  rw [update_idem] at hb4
  exact ⟨i, hvacant, hb4.swap⟩

theorem enter_spec (h : Both sb R s dp ip d i M I D t) (hv : Vacant sb R s i) {name : Str}
    (ht : (s.node sb d).type = T_DIR) (hpd : P d) (hnone : (s.node sb d).find name = none)
    (htype : (M d).type = T_DIR) (hfind : (M d).find name = none) (hD : D.length ≤ 4)
    (hI : I ⊆ [i, d])
    (htable : update M d ((M d).link name i) =
      created (s.node sb) d i name type major minor) :
    ((do
      let ok ← dirlink sb dp name i
      if ok then do
        iunlockput sb dp
        pure ip
      else panic .createDirlink : FsM Entry).run t).Sat
      (Created sb R P s type major minor name d) (fun x _ => CallStop sb R P s x) := by
  rw [sat_bind]
  refine (h.dirlink hsb hop htype hfind h.swap.dir_lt).mono ?_ fun x _ hx => .of_full hx
  rintro _ t1 ⟨rfl, D', hD', h1⟩
  rw [if_pos rfl, sat_bind]
  refine (h1.unlockput hsb hop).imp ?_
  rintro _ u ⟨hc, hs, hi, hn⟩
  rw [htable] at hs hn
  rw [sat_pure]
  refine ⟨hc, i, D', _, hi, hn, hs.mono ?_, by omega, hv, h.dir_lt, ht, hpd, hnone, h.ne, rfl⟩
  intro j hj
  rcases List.mem_cons.mp hj with rfl | hj
  · exact List.mem_cons_of_mem _ (List.mem_singleton_self j)
  · exact hI hj

theorem dots_spec (h : Both sb R s ip dp i d M I [] t) (hM : M i = Node.newborn T_DIR major minor) :
    ((Fs.dirlink sb ip dot i).run t).Sat (fun ok t1 => ok = true ∧
      ((Fs.dirlink sb ip dotdot d).run t1).Sat (fun ok u => ok = true ∧ ∃ D, D.length ≤ 4 ∧
        Both sb R s ip dp i d (update M i (Node.newDir major minor i d)) (i :: i :: I) D u)
      fun x _ => CallStop sb R P s x) (fun x _ => CallStop sb R P s x) := by
  have h16 : i < 2 ^ 16 := Nat.lt_of_lt_of_le h.dir_lt hsb.ninodes_le
  refine (h.dirlink hsb hop (by rw [hM]; rfl) (by rw [hM]; exact Node.find_newborn ..)
    h.dir_lt).mono ?_ fun x _ hx => .of_full hx
  rintro _ t1 ⟨rfl, D1, hD1, h1⟩
  have hM1 : update M i ((M i).link dot i) i = (Node.newborn T_DIR major minor).link dot i := by
    rw [update_self, hM]
  have hnone : ((Node.newborn T_DIR major minor).link dot i).find dotdot = none :=
    Node.find_link (Nat.dvd_zero _) h16 (Node.find_newborn ..) (by decide)
  refine ⟨rfl, (h1.dirlink hsb hop (by rw [hM1]; rfl) (by rw [hM1]; exact hnone)
    h1.swap.dir_lt).mono ?_ fun x _ hx => .of_full hx⟩
  rintro _ u ⟨rfl, D2, hD2, h2⟩
  rw [hM1, update_idem] at h2
  exact ⟨rfl, D2, hD2.trans (Nat.add_le_add_right hD1 2), h2⟩

theorem createNew_spec (ht0 : type ≠ 0) (h0 : Cached sb R [] s)
    (halive : ∀ e ∈ R, (s.nodeAt sb e).type ≠ 0) (h : Cached sb (dp ::ₘ R) [dp] t)
    (hq : Quiet sb R s t) (hdir : (t.icache dp).inum = d) (hnd : t.nodeAt sb dp = s.node sb d)
    (ht : (s.node sb d).type = T_DIR) (hpd : P d) {name : Str}
    (hnone : (s.node sb d).find name = none) : ((createNew sb dp name type major minor).run t).Sat
      (Created sb R P s type major minor name d) (fun x _ => CallStop sb R P s x) := by
  simp only [createNew, sat_bind]
  refine (newborn_spec hsb hop major minor ht0 h0 halive h hq hdir hnd).imp ?_
  intro ip t1 h1
  refine h1.imp ?_
  intro _ t2 h2
  refine h2.imp ?_
  intro _ t3 h3
  refine h3.imp ?_
  rintro _ u ⟨i, hv, hb⟩
  have hmd : update (s.node sb) i (Node.newborn type major minor) d = s.node sb d :=
    update_of_ne hb.ne.symm ..
  rw [sat_inode, hb.file]
  apply sat_ite
  · intro hisdir
    rw [hisdir] at hb hmd
    simp only [sat_bind]
    refine (hb.relink hsb hop (· + 1)).imp ?_
    intro _ t5 h5
    refine h5.imp ?_
    intro _ t6 hb6
    rw [hmd] at hb6
    rw [sat_inode, hb6.dir]
    have hborn : update (update (s.node sb) i (Node.newborn T_DIR major minor)) d
        ((s.node sb d).relink ((s.node sb d).nlink + 1)) i = Node.newborn T_DIR major minor := by
      rw [update_of_ne hb.ne, update_self]
    refine (dots_spec hsb hop hb6.swap hborn).imp ?_
    rintro _ t7 ⟨rfl, h7⟩
    rw [if_pos rfl, sat_bind]
    refine h7.imp ?_
    rintro _ t8 ⟨rfl, D, hD, hb8⟩
    rw [if_pos rfl]
    rw [update_comm hb.ne.symm, update_idem] at hb8
    refine enter_spec hsb hop hb8.swap hv ht hpd hnone ?_ ?_ hD ?_ ?_
    · rw [update_self]
      exact ht
    · rw [update_self]
      exact hnone
    · intro j hj
      simp only [List.mem_cons, List.not_mem_nil, or_false] at hj ⊢
      omega
    · rw [created, if_pos hisdir, update_self, update_idem]
  · intro hreg
    refine enter_spec hsb hop hb hv ht hpd hnone ?_ ?_ (Nat.zero_le 4) ?_ ?_
    · rw [hmd]
      exact ht
    · rw [hmd]
      exact hnone
    · intro j hj
      simp only [List.mem_cons, List.not_mem_nil, or_false, or_self] at hj ⊢
      exact Or.inl hj
    · rw [created, if_neg hreg, hmd]

end New

def Taken (sb : Superblock) (s : State) (w : Option Nat) (name : Str) : Prop :=
  ∀ d, w = some d → (s.node sb d).find name ≠ none

/-- What `create` returns: nothing, a file that is there, or a new inode; it is locked. The
directory is `w`. -/
def CreatePost (sb : Superblock) (R : Multiset Entry) (P : Nat → Prop) (s : State)
    (type major minor : Int16) (w : Option Nat) (name : Str) (r : Option Entry) (t : State) : Prop :=
  (r = none ∧ Cached sb R [] t ∧ Quiet sb R s t ∧ Taken sb s w name) ∨ ∃ ip, r = some ip ∧
    (Reached sb R P s ip t ∧ type = T_FILE ∧ (t.nodeAt sb ip).type = T_FILE ∧ Taken sb s w name ∨
      ∃ d, w = some d ∧ Created sb R P s type major minor name d ip t)

theorem create_spec (hsb : sb.Wf) (hP : Closed sb (s.node sb) P) {cwd : Entry} (path : Str)
    (ht0 : type ≠ 0) (h : Cached sb R [] s) (halive : ∀ e ∈ R, (s.nodeAt sb e).type ≠ 0)
    (hop : 1 ≤ s.blk.outstanding) (hcwd : cwd ∈ R) (hroot : P ROOTINO)
    (hstart : P (s.icache cwd).inum) : ((create sb cwd path type major minor).run s).Sat
      (CreatePost sb R P s type major minor
        (walk (s.node sb) true (path.length + 1) path (startOf s cwd path))
        (lastElem (path.length + 1) path [])) (fun x _ => CallStop sb R P s x) := by
  rw [create, sat_bind]
  refine (nameiparent_spec hsb hP (fun _ _ _ => rfl) path h hop hcwd hroot hstart).mono ?_
    fun x _ hx => .name hx
  rintro r t (⟨rfl, hc, hq, hw⟩ | ⟨dp, rfl, hlock⟩)
  · rw [sat_pure]
    refine Or.inl ⟨rfl, hc, hq, fun d hd => ?_⟩
    rw [hw] at hd
    cases hd
  have hdp : dp ∈ dp ::ₘ R := Multiset.mem_cons_self dp R
  have hsub : R ⊆ dp ::ₘ R := fun _ => Multiset.mem_cons_of_mem
  simp only [sat_bind]
  refine (hlock _).imp ?_
  rintro _ t1 ⟨hin, ht, hwalk⟩
  have hnode := hin.node
  refine (dirlookup_spec hin.cached (List.mem_singleton_self dp) ht _).mono ?_ fun x _ hx => .name
    (Or.inl hx.1)
  rintro r u (⟨hnone, rfl, rfl⟩ | ⟨k, ip, hk, rfl, hc2, hq2, hb2, hi⟩)
  · simp only [sat_bind]
    rw [hnode] at hnone ht
    refine (createNew_spec hsb hop ht0 h halive hin.cached hin.quiet rfl hnode ht hin.prop hnone).imp ?_
    intro e v hv
    rw [sat_pure]
    exact Or.inr ⟨e, rfl, Or.inr ⟨_, hwalk, hv⟩⟩
  · -- the name is there
    have hip : ip ∈ ip ::ₘ R := Multiset.mem_cons_self ip R
    have hsub' : R ⊆ ip ::ₘ R := fun _ => Multiset.mem_cons_of_mem
    have hq02 : Quiet sb R s u := hin.quiet.trans (hq2.mono hsub)
    rw [hnode] at hk hi ht
    obtain ⟨hslot, hlive, -⟩ := Node.find_some hk
    have htaken : Taken sb s (walk (s.node sb) true (path.length + 1) path (startOf s cwd path))
        (lastElem (path.length + 1) path []) := by
      intro d hd
      rw [hwalk] at hd
      cases hd
      rw [hk]
      exact Option.some_ne_none k
    have hpi : P (u.icache ip).inum := by
      rw [hi]
      exact hP _ (hin.cached.inum_lt hdp) hin.prop ht k hslot hlive
    rw [Multiset.cons_swap] at hc2
    simp only [sat_bind]
    refine (iunlockput_spec hsb hc2 List.not_mem_nil (hq02.settles.op hop)).imp ?_
    intro _ v hp
    have hq03 := hq02.trans (hp.quiet.mono hsub')
    have hpv : P (v.icache ip).inum := by
      rw [hp.quiet.inum ip hip]
      exact hpi
    refine (reached_spec hp.cached hq03 hpv).mono ?_ fun x _ hx => .name hx.1
    rintro _ w ⟨hw, -, -⟩
    rw [sat_inode, hw.cached.din_type (List.mem_singleton_self ip)]
    apply sat_ite
    · rintro ⟨hf, hf'⟩
      rw [sat_pure]
      exact Or.inr ⟨ip, rfl, Or.inl ⟨hw, hf, hf', htaken⟩⟩
    · intro _
      rw [sat_bind]
      refine (iunlockput_spec hsb hw.cached List.not_mem_nil (hw.quiet.settles.op hop)).imp ?_
      intro _ x hx
      rw [sat_pure]
      exact Or.inl ⟨rfl, hx.cached, hw.quiet.trans hx.quiet, htaken⟩

end Create

end BossOs.Fs
