import BossOs.Fs.DirOpen
import BossOs.Lib.Slots
import BossOs.Lib.Transition

/-!
# A directory is a map

Along any sequence of `dirlink` calls and removals, the slots of a directory hold a map from
names, as far as `DIRSIZ` bytes, to inode numbers. Calls that find an entry for the directory
itself are left out: giving that reference back waits for a lock that the caller holds.
-/

namespace BossOs.Fs

open Dirent (bytes)
open Lib

variable {sb : Superblock}

def Node.binding (nd : Node) (k : Nat) : Option (Str × Nat) :=
  if (nd.dirent k).inum = 0 then none
  else some (nameKey (nd.dirent k).name, (nd.dirent k).inum)

abbrev Node.Holds (nd : Node) (M : Str → Option Nat) : Prop := Slots nd.slots nd.binding M

namespace Node.Holds

variable {nd : Node} {M : Str → Option Nat} {name : Str} {inum : Nat}

variable {k : Nat}

theorem binding_eq {x : Str} {i : Nat} (h : nd.binding k = some (x, i)) :
    (nd.dirent k).inum = i ∧ i ≠ 0 ∧ nameKey (nd.dirent k).name = x := by
  unfold Node.binding at h
  split at h
  · cases h
  · rename_i hne
    simp only [Option.some.injEq, Prod.mk.injEq] at h
    exact ⟨h.2, h.2 ▸ hne, h.1⟩

theorem binding_live (h : (nd.dirent k).inum ≠ 0) :
    nd.binding k = some (nameKey (nd.dirent k).name, (nd.dirent k).inum) := if_neg h

theorem binding_find (hf : nd.find name = some k) :
    nd.binding k = some (nameKey name, (nd.dirent k).inum) := by
  obtain ⟨-, hlive, hcmp⟩ := Node.find_some hf
  rw [binding_live hlive, namecmp_eq_zero_iff.mp hcmp]

theorem find_eq_none (h : nd.Holds M) : nd.find name = none ↔ M (nameKey name) = none := by
  constructor
  · intro hf
    by_contra hne
    obtain ⟨i, hi⟩ := Option.ne_none_iff_exists'.mp hne
    obtain ⟨k, hk, hb⟩ := (h.mem_iff _ _).mp hi
    obtain ⟨hinum, h0, hkey⟩ := binding_eq hb
    exact Node.find_none hf hk (by rw [hinum]; exact h0) (namecmp_eq_zero_iff.mpr hkey.symm)
  · intro hM
    cases hf : nd.find name with
    | none => rfl
    | some k =>
      have hk := (Node.find_some hf).1
      exact absurd (binding_find hf) (h.not_mem hM hk)

theorem find_eq_some (h : nd.Holds M) {i : Nat} (hM : M (nameKey name) = some i) :
    ∃ k, nd.find name = some k ∧ (nd.dirent k).inum = i := by
  cases hf : nd.find name with
  | none =>
    rw [h.find_eq_none.mp hf] at hM
    cases hM
  | some k =>
    have hk := (Node.find_some hf).1
    have hM' := (h.mem_iff _ _).mpr ⟨k, hk, binding_find hf⟩
    rw [hM, Option.some.injEq] at hM'
    exact ⟨k, rfl, hM'.symm⟩

theorem binding_write {j : Nat} {de : Dirent} (hdvd : bytes ∣ nd.size) (hj : j ≤ nd.slots)
    (hname : de.name.length = DIRSIZ) (hinum : de.inum < 2 ^ 16)
    (hk : k < max nd.slots (j + 1)) :
    (nd.write (j * bytes) de.encode).binding k =
      if k = j then (if de.inum = 0 then none else some (nameKey de.name, de.inum))
      else nd.binding k := by
  unfold Node.binding
  rw [Node.dirent_write hdvd hj hname hinum hk]
  split
  · rfl
  · rfl

theorem slots_write {j : Nat} {de : Dirent} (hdvd : bytes ∣ nd.size) (hj : j ≤ nd.slots)
    (hname : de.name.length = DIRSIZ) :
    (nd.write (j * bytes) de.encode).slots = max nd.slots (j + 1) :=
  (Node.slots_write hdvd hj (Dirent.length_encode_of hname)).2

theorem link (h : nd.Holds M) (hdvd : bytes ∣ nd.size) (hf : nd.find name = none)
    (h0 : inum ≠ 0) (h16 : inum < 2 ^ 16) :
    (nd.write (nd.hole * bytes) (newDirent name inum).encode).Holds
      (Function.update M (nameKey name) (some inum)) := by
  obtain ⟨hhole, hempty⟩ := Node.hole_spec nd
  have hlen : (newDirent name inum).name.length = DIRSIZ := length_strncpy ..
  unfold Node.Holds
  rw [slots_write hdvd hhole hlen]
  refine h.insert (h.find_eq_none.mp hf) hhole ?_ ?_
  · intro hlt
    rw [Node.binding, if_pos (hempty hlt)]
  · intro k hk
    rw [binding_write hdvd hhole hlen h16 hk]
    have hne : (newDirent name inum).inum ≠ 0 := h0
    have hkey : nameKey (newDirent name inum).name = nameKey name := nameKey_strncpy name
    rw [if_neg hne, hkey]
    rfl

theorem remove (h : nd.Holds M) (hdvd : bytes ∣ nd.size) (hf : nd.find name = some k) :
    (nd.write (k * bytes) noDirent.encode).Holds (Function.update M (nameKey name) none) := by
  have hk := (Node.find_some hf).1
  have hlen : noDirent.name.length = DIRSIZ := by decide
  unfold Node.Holds
  rw [slots_write hdvd (Nat.le_of_lt hk) hlen, Nat.max_eq_left hk]
  refine h.erase hk (binding_find hf) ?_
  intro j hj
  rw [binding_write hdvd (Nat.le_of_lt hk) hlen (by decide) (by omega)]
  rfl

theorem of_size_zero (h : nd.size = 0) : nd.Holds fun _ => none := by
  apply Slots.empty
  intro k hk
  rw [Node.slots, h, Nat.zero_div] at hk
  exact absurd hk (Nat.not_lt_zero k)

end Node.Holds

inductive DirOp
  | link (name : Str) (inum : Nat)
  | remove (name : Str)

def dirOp (sb : Superblock) (dp : Entry) : DirOp → FsM Bool
  | .link name inum => dirlink sb dp name inum
  | .remove name => removeEntry sb dp name

def dirStep (sb : Superblock) (dp : Entry) (s : State) (op : DirOp) : Option State :=
  match (dirOp sb dp op).run s with
  | .ok _ t => some t
  | .stop _ _ => none

def DirOp.apply (M : Str → Option Nat) : DirOp → Str → Option Nat
  | .link name inum =>
    if M (nameKey name) = none then Function.update M (nameKey name) (some inum) else M
  | .remove name => Function.update M (nameKey name) none

/-- The operation does not find an entry for the directory itself; inode numbers are those that
an entry can have. -/
def DirOp.Ok (sb : Superblock) (dp : Entry) (s : State) : DirOp → Prop
  | .link name inum => inum ≠ 0 ∧ inum < 2 ^ 16 ∧ NotSelf sb dp s name
  | .remove name => NotSelf sb dp s name

instance (dp : Entry) (s : State) (name : Str) : Decidable (NotSelf sb dp s name) :=
  inferInstanceAs (Decidable (∀ k ∈ (s.nodeAt sb dp).find name,
    ((s.nodeAt sb dp).dirent k).inum ≠ (s.icache dp).inum))

instance (dp : Entry) (s : State) : ∀ op : DirOp, Decidable (op.Ok sb dp s)
  | .link name inum =>
    inferInstanceAs (Decidable (inum ≠ 0 ∧ inum < 2 ^ 16 ∧ NotSelf sb dp s name))
  | .remove name => inferInstanceAs (Decidable (NotSelf sb dp s name))

section Runs

variable {dp : Entry} {s t : State} {M : Str → Option Nat}

theorem dirStep_holds (hsb : sb.Wf) (h : DirOpen sb dp s) (hM : (s.nodeAt sb dp).Holds M)
    {op : DirOp} (hok : op.Ok sb dp s) (hstep : dirStep sb dp s op = some t) :
    DirOpen sb dp t ∧ (t.icache dp).inum = (s.icache dp).inum ∧
      (t.nodeAt sb dp).Holds (op.apply M) := by
  cases op with
  | link name inum =>
    obtain ⟨h0, h16, hself⟩ := hok
    have hspec := h.dirlink hsb inum hself
    unfold dirStep dirOp at hstep
    cases hrun : (dirlink sb dp name inum).run s with
    | stop x u =>
      simp only [hrun] at hstep
      cases hstep
    | ok r u =>
      simp only [hrun, Option.some.injEq] at hstep
      subst hstep
      rw [hrun, Outcome.sat_ok] at hspec
      obtain ⟨hunt, ⟨-, ⟨k, hf⟩, hb⟩ | ⟨-, hf, hnode⟩⟩ := hspec
      · have hne : M (nameKey name) ≠ none := by
          intro hc
          rw [hM.find_eq_none.mpr hc] at hf
          cases hf
        have hsame : u.nodeAt sb dp = s.nodeAt sb dp := by
          rw [State.nodeAt, hunt.inum, State.node, hb, State.nodeAt, State.node]
        refine ⟨hunt.dir, hunt.inum, ?_⟩
        rw [DirOp.apply, if_neg hne, hsame]
        exact hM
      · refine ⟨hunt.dir, hunt.inum, ?_⟩
        rw [DirOp.apply, if_pos (hM.find_eq_none.mp hf), hnode]
        exact hM.link h.dvd hf h0 h16
  | remove name =>
    have hspec := h.removeEntry hsb (E := fun _ _ => False) hok
    unfold dirStep dirOp at hstep
    cases hrun : (removeEntry sb dp name).run s with
    | stop x u =>
      simp only [hrun] at hstep
      cases hstep
    | ok r u =>
      simp only [hrun, Option.some.injEq] at hstep
      subst hstep
      rw [hrun, Outcome.sat_ok] at hspec
      obtain ⟨hunt, ⟨-, hf, rfl⟩ | ⟨-, k, hf, hnode⟩⟩ := hspec
      · refine ⟨hunt.dir, hunt.inum, ?_⟩
        rw [DirOp.apply, Function.update_eq_self_iff.mpr (hM.find_eq_none.mp hf).symm]
        exact hM
      · refine ⟨hunt.dir, hunt.inum, ?_⟩
        rw [DirOp.apply, hnode]
        exact hM.remove h.dvd hf

theorem run_holds (hsb : sb.Wf) {ops : List DirOp}
    (hrun : Run (DirOp.Ok sb dp) (dirStep sb dp) s ops t) (h : DirOpen sb dp s)
    (hM : (s.nodeAt sb dp).Holds M) : DirOpen sb dp t ∧ (t.icache dp).inum = (s.icache dp).inum ∧
      (t.nodeAt sb dp).Holds (ops.foldl DirOp.apply M) := by
  induction hrun generalizing M with
  | nil => exact ⟨h, rfl, hM⟩
  | cons hok hstep _ ih =>
    obtain ⟨h', hi, hM'⟩ := dirStep_holds hsb h hM hok hstep
    obtain ⟨h'', hi', hM''⟩ := ih h' hM'
    exact ⟨h'', hi'.trans hi, hM''⟩

end Runs

structure ActsAs (sb : Superblock) (dp : Entry) (t : State) (M : Str → Option Nat) : Prop where
  aligned : Dirent.bytes ∣ (t.nodeAt sb dp).size
  unique : ∀ j k, j < (t.nodeAt sb dp).slots → k < (t.nodeAt sb dp).slots →
    ((t.nodeAt sb dp).dirent j).inum ≠ 0 → ((t.nodeAt sb dp).dirent k).inum ≠ 0 →
    nameKey ((t.nodeAt sb dp).dirent j).name = nameKey ((t.nodeAt sb dp).dirent k).name → j = k
  absent : ∀ name, M (nameKey name) = none → (dirlookup sb dp name).run t = .ok none t
  present : ∀ name i, M (nameKey name) = some i → ∃ e k u,
    (dirlookup sb dp name).run t = .ok (some (e, k * Dirent.bytes)) u ∧ (u.icache e).inum = i ∧
      u.blk = t.blk ∧ k < (t.nodeAt sb dp).slots ∧ ((t.nodeAt sb dp).dirent k).inum = i ∧
      nameKey ((t.nodeAt sb dp).dirent k).name = nameKey name
  again : ∀ name i inum, M (nameKey name) = some i → i ≠ (t.icache dp).inum →
    ∃ u, (dirlink sb dp name inum).run t = .ok false u ∧ u.blk = t.blk ∧ Untouched sb dp t u
  insert : ∀ name inum, M (nameKey name) = none → inum < 2 ^ 16 →
    ¬ NoRoom sb t.blk.disk (t.nodeAt sb dp) (t.nodeAt sb dp).hole →
    ∃ u, (dirlink sb dp name inum).run t = .ok true u
  inserted : ∀ name inum r u, M (nameKey name) = none → inum < 2 ^ 16 →
    (dirlink sb dp name inum).run t = .ok r u →
    r = true ∧ Untouched sb dp t u ∧ ∃ j,
      (∀ k, k < (u.nodeAt sb dp).slots → (u.nodeAt sb dp).dirent k =
        if k = j then newDirent name inum else (t.nodeAt sb dp).dirent k) ∧
      (j < (t.nodeAt sb dp).slots ∧ ((t.nodeAt sb dp).dirent j).inum = 0 ∧
          (u.nodeAt sb dp).size = (t.nodeAt sb dp).size ∨
        j = (t.nodeAt sb dp).slots ∧ (u.nodeAt sb dp).size = (t.nodeAt sb dp).size + Dirent.bytes ∧
          ∀ k, k < (t.nodeAt sb dp).slots → ((t.nodeAt sb dp).dirent k).inum ≠ 0)
  removed : ∀ name, NotSelf sb dp t name → ∃ r u, (removeEntry sb dp name).run t = .ok r u ∧
    (u.nodeAt sb dp).size = (t.nodeAt sb dp).size ∧ Untouched sb dp t u

section Acts

variable {dp : Entry} {t : State} {M : Str → Option Nat} (h : DirOpen sb dp t)
  (hM : (t.nodeAt sb dp).Holds M)
include h hM

theorem dirlookup_present {name : Str} {i : Nat} (hi : M (nameKey name) = some i) : ∃ e k u,
    (dirlookup sb dp name).run t = .ok (some (e, k * bytes)) u ∧ (u.icache e).inum = i ∧
      u.blk = t.blk ∧ k < (t.nodeAt sb dp).slots ∧ ((t.nodeAt sb dp).dirent k).inum = i ∧
      nameKey ((t.nodeAt sb dp).dirent k).name = nameKey name := by
  obtain ⟨k, hf, hinum⟩ := hM.find_eq_some hi
  obtain ⟨hk, -, hcmp⟩ := Node.find_some hf
  have hrun : ((dirlookup sb dp name).run t).Sat (fun r u => ∃ e, r = some (e, k * bytes) ∧
      Got t ((t.nodeAt sb dp).dirent k).inum e u) fun _ _ => False := by
    rw [h.sat_dirlookup, hf, Found]
    refine (h.iget _).imp ?_
    intro e u hgot
    exact ⟨e, rfl, hgot⟩
  obtain ⟨_, u, heq, e, rfl, hgot⟩ := hrun.exists_ok
  exact ⟨e, k, u, heq, hgot.inum.trans hinum, hgot.blk, hk, hinum, (namecmp_eq_zero_iff.mp hcmp).symm⟩

theorem dirlookup_absent {name : Str} (hn : M (nameKey name) = none) :
    (dirlookup sb dp name).run t = .ok none t := by
  apply Outcome.eq_ok_of_sat
  rw [h.sat_dirlookup, hM.find_eq_none.mpr hn]
  exact ⟨rfl, rfl⟩

theorem dirlink_present (hsb : sb.Wf) {name : Str} {i : Nat} (hi : M (nameKey name) = some i)
    (hself : i ≠ (t.icache dp).inum) (inum : Nat) :
    ∃ u, (dirlink sb dp name inum).run t = .ok false u ∧ u.blk = t.blk ∧ Untouched sb dp t u := by
  obtain ⟨k, hf, hinum⟩ := hM.find_eq_some hi
  have hns : NotSelf sb dp t name := by
    intro k' hk'
    obtain rfl : k = k' := Option.some.inj (hf.symm.trans hk')
    rw [hinum]
    exact hself
  obtain ⟨r, u, heq, hunt, ⟨rfl, -, hblk⟩ | ⟨-, hnone, -⟩⟩ :=
    ((h.dirlink hsb inum hns).mono (fun _ _ hq => hq)
      fun _ _ hx => by
        rw [hf] at hx
        cases hx.1).exists_ok
  · exact ⟨u, heq, hblk, hunt⟩
  · rw [hf] at hnone
    cases hnone

omit h in
theorem notSelf_absent {name : Str} (hn : M (nameKey name) = none) : NotSelf sb dp t name := by
  intro k hk
  rw [hM.find_eq_none.mpr hn] at hk
  cases hk

theorem dirlink_absent (hsb : sb.Wf) {name : Str} {inum : Nat} (hn : M (nameKey name) = none)
    (hroom : ¬ NoRoom sb t.blk.disk (t.nodeAt sb dp) (t.nodeAt sb dp).hole) :
    ∃ u, (dirlink sb dp name inum).run t = .ok true u := by
  obtain ⟨r, u, heq, -, ⟨-, ⟨k, hk⟩, -⟩ | ⟨rfl, -⟩⟩ :=
    ((h.dirlink hsb inum (notSelf_absent hM hn)).mono (fun _ _ hq => hq)
      fun _ _ hx => hroom hx.2).exists_ok
  · rw [hM.find_eq_none.mpr hn] at hk
    cases hk
  · exact ⟨u, heq⟩

theorem dirlink_inserted (hsb : sb.Wf) {name : Str} {inum : Nat} {r : Bool} {u : State}
    (hn : M (nameKey name) = none) (h16 : inum < 2 ^ 16)
    (hrun : (dirlink sb dp name inum).run t = .ok r u) :
    r = true ∧ Untouched sb dp t u ∧ ∃ j,
      (∀ k < (u.nodeAt sb dp).slots, (u.nodeAt sb dp).dirent k =
        if k = j then newDirent name inum else (t.nodeAt sb dp).dirent k) ∧
      (j < (t.nodeAt sb dp).slots ∧ ((t.nodeAt sb dp).dirent j).inum = 0 ∧
          (u.nodeAt sb dp).size = (t.nodeAt sb dp).size ∨
        j = (t.nodeAt sb dp).slots ∧ (u.nodeAt sb dp).size = (t.nodeAt sb dp).size + bytes ∧
          ∀ k < (t.nodeAt sb dp).slots, ((t.nodeAt sb dp).dirent k).inum ≠ 0) := by
  have hspec := h.dirlink hsb inum (notSelf_absent hM hn)
  rw [hrun, Outcome.sat_ok] at hspec
  obtain ⟨hunt, ⟨-, ⟨k, hk⟩, -⟩ | ⟨rfl, -, hnode⟩⟩ := hspec
  · rw [hM.find_eq_none.mpr hn] at hk
    cases hk
  obtain ⟨hhole, hempty⟩ := Node.hole_spec (t.nodeAt sb dp)
  have hlen : (newDirent name inum).name.length = DIRSIZ := length_strncpy ..
  have hslots := Node.Holds.slots_write h.dvd hhole hlen
  rw [← hnode] at hslots
  have hsize : (u.nodeAt sb dp).size = (u.nodeAt sb dp).slots * bytes :=
    Node.size_eq hunt.dir.dvd
  have hsize' : (t.nodeAt sb dp).size = (t.nodeAt sb dp).slots * bytes := Node.size_eq h.dvd
  refine ⟨rfl, hunt, (t.nodeAt sb dp).hole, ?_, ?_⟩
  · intro k hk
    rw [hslots] at hk
    rw [hnode]
    exact Node.dirent_write h.dvd hhole hlen h16 hk
  · rcases Nat.lt_or_eq_of_le hhole with hlt | heq
    · refine Or.inl ⟨hlt, hempty hlt, ?_⟩
      rw [hsize, hsize', hslots, Nat.max_eq_left hlt]
    · refine Or.inr ⟨heq, ?_, fun k hk => Node.hole_eq heq hk⟩
      rw [hsize, hsize', hslots, heq, Nat.max_eq_right (Nat.le_succ _), Nat.succ_mul]

omit hM in
theorem removeEntry_size (hsb : sb.Wf) {name : Str} (hself : NotSelf sb dp t name) :
    ∃ r u, (removeEntry sb dp name).run t = .ok r u ∧
      (u.nodeAt sb dp).size = (t.nodeAt sb dp).size ∧ Untouched sb dp t u := by
  obtain ⟨r, u, heq, hunt, ⟨-, -, rfl⟩ | ⟨-, k, hf, hnode⟩⟩ :=
    (h.removeEntry hsb (E := fun _ _ => False) hself).exists_ok
  · exact ⟨r, u, heq, rfl, hunt⟩
  · refine ⟨r, u, heq, ?_, hunt⟩
    have hk := (Node.find_some hf).1
    rw [Node.size_eq hunt.dir.dvd, Node.size_eq h.dvd, hnode,
      Node.Holds.slots_write h.dvd (Nat.le_of_lt hk) (by decide), Nat.max_eq_left hk]

end Acts

/-- In every run of operations none of which finds an entry for the directory itself, the
directory behaves as the map that the operations make. -/
theorem directory_is_map (hsb : sb.Wf) {dp : Entry} {s t : State} (h : DirOpen sb dp s)
    (hempty : (s.nodeAt sb dp).size = 0) {ops : List DirOp}
    (hrun : Run (DirOp.Ok sb dp) (dirStep sb dp) s ops t) :
    ActsAs sb dp t (ops.foldl DirOp.apply fun _ => none) := by
  obtain ⟨ht, -, hM⟩ := run_holds hsb hrun h (Node.Holds.of_size_zero hempty)
  refine ⟨ht.dvd, ?_, fun _ => dirlookup_absent ht hM, fun _ _ => dirlookup_present ht hM,
    fun _ _ inum hi hself => dirlink_present ht hM hsb hi hself inum,
    fun _ _ hn _ hroom => dirlink_absent ht hM hsb hn hroom,
    fun _ _ _ _ hn h16 heq => dirlink_inserted ht hM hsb hn h16 heq,
    fun _ hself => removeEntry_size ht hsb hself⟩
  intro j k hj hk hlj hlk hkey
  have hbj := Node.Holds.binding_live hlj
  rw [hkey] at hbj
  exact hM.unique j k _ _ _ hj hk hbj (Node.Holds.binding_live hlk)

def emptyRoot (sb : Superblock) : State := rootAt (blankRoot sb 1) rootBlank true

theorem emptyRoot_node (sb : Superblock) : ((emptyRoot sb).nodeAt sb rootEntry).type = T_DIR ∧
    ((emptyRoot sb).nodeAt sb rootEntry).size = 0 := by
  have hino : ino sb (emptyRoot sb).blk.disk ROOTINO = rootBlank := ino_blankRoot 1
  have hinum : ((emptyRoot sb).icache rootEntry).inum = ROOTINO := by rw [emptyRoot, rootAt_self]
  have ht : rootBlank.type ≠ 0 := by decide
  rw [State.nodeAt, hinum, State.node, Fs.node, hino, nodeOf, if_neg ht]
  exact ⟨rfl, rfl⟩

theorem emptyRoot_open (h : Formats sb) : DirOpen sb rootEntry (emptyRoot sb) := by
  have hino : ino sb (emptyRoot sb).blk.disk ROOTINO = rootBlank := ino_blankRoot 1
  have hself : (emptyRoot sb).icache rootEntry = ⟨ROOTINO, 1, true, true, rootBlank⟩ := rootAt_self
  refine ⟨rootAt_good h.wf.root (h.diskOk_blankRoot 1) rfl hino (by decide), ?_, ?_, ?_, ?_, ?_,
    Nat.le_refl 1, ?_, ?_⟩
  · rw [hself]
    exact Int.one_pos
  · rw [hself]
  · rw [hself]
  · exact (emptyRoot_node sb).1
  · rw [(emptyRoot_node sb).2]
    exact Nat.dvd_zero _
  · intro e he
    rw [emptyRoot, rootAt_of_ne he]
    exact ⟨Int.le_refl 0, rfl⟩
  · refine ⟨⟨1, by decide⟩, by decide, ?_⟩
    rw [emptyRoot, rootAt_of_ne (by decide)]

/-- Two names with the same first `DIRSIZ` bytes: the second is not linked, and looking it up
gives what the first was linked to. -/
theorem directory_is_map_two : ∃ t, Run (DirOp.Ok tiny rootEntry) (dirStep tiny rootEntry)
    (emptyRoot tiny) [.link (List.replicate 14 97) 2, .link (List.replicate 15 97) 3] t ∧
    ∃ e k u, (dirlookup tiny rootEntry (List.replicate 16 97)).run t =
      .ok (some (e, k * Dirent.bytes)) u ∧ (u.icache e).inum = 2 := by
  obtain ⟨t, hrun, -⟩ : ∃ t, Run (DirOp.Ok tiny rootEntry) (dirStep tiny rootEntry)
      (emptyRoot tiny) [.link (List.replicate 14 97) 2, .link (List.replicate 15 97) 3] t ∧
      () = () := by
    apply Run.of_exec_map (f := fun _ => ())
    decide +kernel
  obtain ⟨e, k, u, heq, hi, -⟩ := (directory_is_map tiny_formats.wf (emptyRoot_open tiny_formats)
    (emptyRoot_node tiny).2 hrun).present (List.replicate 16 97) 2 (by decide)
  exact ⟨t, hrun, e, k, u, heq, hi⟩

/-- Linking `.` again waits for the lock of the directory, which the caller holds. -/
theorem dirlink_dot_deadlock : DirOpen tiny rootEntry (emptyRoot tiny) ∧
    ((emptyRoot tiny).nodeAt tiny rootEntry).size = 0 ∧
    ∃ t, Run (fun _ _ => True) (dirStep tiny rootEntry) (emptyRoot tiny) [.link dot ROOTINO] t ∧
      ((dirlink tiny rootEntry dot 2).run t).stopped = some .deadlock := by
  refine ⟨emptyRoot_open tiny_formats, (emptyRoot_node tiny).2, ?_⟩
  apply Run.of_exec_map (f := fun t => ((dirlink tiny rootEntry dot 2).run t).stopped)
  decide +kernel

end BossOs.Fs
