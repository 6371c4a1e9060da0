import BossOs.Fs.Path
import BossOs.Fs.Format

/-!
# Paths resolve by their components

On a file system in which every entry names an inode in use, `namei` and `nameiparent` look
the components of the path up one after another. The result depends on the components and on
where the walk starts only.
-/

namespace BossOs.Fs

open Lib

variable {sb : Superblock}

def lookupAll (N : Nat → Node) : Nat → List Str → Option Nat
  | i, [] => some i
  | i, name :: names =>
    if (N i).type = T_DIR then
      ((N i).find name).bind fun k => lookupAll N ((N i).dirent k).inum names
    else none

def lookupParent (N : Nat → Node) (i : Nat) (names : List Str) : Option Nat :=
  if names = [] then none
  else (lookupAll N i names.dropLast).filter fun d => (N d).type = T_DIR

theorem filter_bind {α β : Type} (o : Option α) (f : α → Option β) (p : β → Bool) :
    (o.bind f).filter p = o.bind fun a => (f a).filter p := by
  cases o with
  | none => rfl
  | some a => rfl

variable {path : Str}

theorem components_ne_nil (hslash : path.headD 0 ≠ slash) (h0 : path.headD 0 ≠ 0) :
    components path ≠ [] := by
  obtain ⟨c, l, rfl, hc⟩ := exists_cons_of_head h0
  have hcs : c ≠ slash := hslash
  have hdrop : (c :: l).dropWhile (· = slash) = c :: l :=
    List.dropWhile_cons_of_neg (by simp [hcs])
  cases hs : skipelem (c :: l) with
  | none =>
    unfold skipelem at hs
    simp only [hdrop, if_neg h0] at hs
    cases hs
  | some p =>
    obtain ⟨rest, name⟩ := p
    rw [(skipelem_some hs).2.2]
    exact List.cons_ne_nil _ _

section Walk

variable (N : Nat → Node)

theorem walk_eq_lookupAll (fuel : Nat) (hfuel : path.length < fuel) (i : Nat) :
    walk N false fuel path i = lookupAll N i (components path) := by
  induction fuel generalizing path i with
  | zero => exact absurd hfuel (Nat.not_lt_zero _)
  | succ fuel ih =>
    rw [walk]
    cases hs : skipelem path with
    | none =>
      rw [skipelem_eq_none hs]
      rfl
    | some p =>
      obtain ⟨rest, name⟩ := p
      obtain ⟨hlt, -, hcomp⟩ := skipelem_some hs
      simp only
      rw [hcomp, lookupAll]
      by_cases ht : (N i).type = T_DIR
      · rw [if_neg (not_not.mpr ht), if_pos ht, if_neg (fun hc => Bool.false_ne_true hc.1)]
        congr 1
        funext k
        exact ih (by omega) _
      · rw [if_pos ht, if_neg ht]

theorem walk_eq_lookupParent (fuel : Nat) (hfuel : path.length < fuel) (i : Nat) :
    walk N true fuel path i = lookupParent N i (components path) := by
  induction fuel generalizing path i with
  | zero => exact absurd hfuel (Nat.not_lt_zero _)
  | succ fuel ih =>
    rw [walk]
    cases hs : skipelem path with
    | none =>
      rw [skipelem_eq_none hs]
      rfl
    | some p =>
      obtain ⟨rest, name⟩ := p
      obtain ⟨hlt, hslash, hcomp⟩ := skipelem_some hs
      simp only
      rw [hcomp, lookupParent, if_neg (List.cons_ne_nil _ _)]
      by_cases h0 : rest.headD 0 = 0
      · -- the last element
        rw [components_nil h0, List.dropLast_singleton, lookupAll, if_pos (And.intro trivial h0)]
        by_cases ht : (N i).type = T_DIR
        · simp [ht, Option.filter]
        · simp [ht, Option.filter]
      · have hne := components_ne_nil hslash h0
        rw [List.dropLast_cons_of_ne_nil hne, lookupAll]
        by_cases ht : (N i).type = T_DIR
        · rw [if_neg (not_not.mpr ht), if_pos ht, if_neg (fun hc => h0 hc.2), filter_bind]
          congr 1
          funext k
          rw [ih (by omega), lookupParent, if_neg hne]
        · rw [if_pos ht, if_neg ht]
          rfl

end Walk

theorem lastElem_eq (fuel : Nat) (hfuel : path.length < fuel) (name : Str) :
    lastElem fuel path name = (components path).getLastD name := by
  induction fuel generalizing path name with
  | zero => exact absurd hfuel (Nat.not_lt_zero _)
  | succ fuel ih =>
    rw [lastElem]
    cases hs : skipelem path with
    | none =>
      rw [skipelem_eq_none hs]
      rfl
    | some p =>
      obtain ⟨rest, name'⟩ := p
      obtain ⟨hlt, -, hcomp⟩ := skipelem_some hs
      simp only
      rw [hcomp, ih (by omega), List.getLastD_cons]

/-- Every directory entry and every reference is for an inode in use, and an inode in use has
a link or a reference. -/
structure Sound (sb : Superblock) (R : Multiset Entry) (s : State) : Prop where
  cached : Cached sb R [] s
  root : (s.node sb ROOTINO).type = T_DIR
  entries : ∀ i, i < sb.ninodes → (s.node sb i).type = T_DIR → ∀ k, k < (s.node sb i).slots →
    ((s.node sb i).dirent k).inum ≠ 0 → (s.node sb ((s.node sb i).dirent k).inum).type ≠ 0
  refs : ∀ e ∈ R, (s.nodeAt sb e).type ≠ 0
  tight : ∀ i, ¬ Loose sb R s i

namespace Sound

variable {R : Multiset Entry} {s t : State}

def inUse (sb : Superblock) (s : State) (i : Nat) : Prop := (s.node sb i).type ≠ 0

theorem closed (h : Sound sb R s) : Closed sb (s.node sb) (inUse sb s) :=
  fun i hi _ ht k hk hlive => h.entries i hi ht k hk hlive

theorem root_inUse (h : Sound sb R s) : inUse sb s ROOTINO := by
  unfold inUse
  rw [h.root]
  decide

theorem nodes (h : Sound sb R s) (hq : Quiet sb R s t) {i : Nat} (hi : i < sb.ninodes) :
    t.node sb i = s.node sb i := by
  rcases hq.node i hi with heq | ⟨hl, -⟩
  · exact heq
  · exact absurd hl (h.tight i)

theorem noEntries (h : Sound sb R s) {x : Stop} (hx : NameStop sb R (inUse sb s) s x) :
    x = .panic .noEntries := by
  rcases hx with hx | ⟨-, i, -, hi, h0 | hl⟩
  · exact hx
  · exact absurd h0 hi
  · exact absurd hl (h.tight i)

end Sound

section Resolve

variable {R : Multiset Entry} {s : State} {cwd : Entry}

theorem namei_run (hsb : sb.Wf) (h : Sound sb R s) (hop : 1 ≤ s.blk.outstanding) (hcwd : cwd ∈ R)
    (hroom : R.toFinset.card + 1 < NINODE) (path : Str) :
    ∃ r t, (namei sb cwd path).run s = .ok r t ∧ (∀ i < sb.ninodes, t.node sb i = s.node sb i) ∧
      r.map (fun e => (t.icache e).inum) =
        lookupAll (s.node sb) (startOf s cwd path) (components path) := by
  have hspec := namei_spec hsb h.closed path h.cached hop hcwd h.root_inUse (h.refs cwd hcwd)
  obtain ⟨r, t, hrun, hq, hw, -⟩ := (hspec.mono (fun _ _ hQ => hQ) fun x _ hx => by
    have := hx.2 (h.noEntries hx.1)
    omega).exists_ok
  refine ⟨r, t, hrun, fun i hi => h.nodes hq hi, ?_⟩
  rw [← hw, walk_eq_lookupAll _ _ (Nat.lt_succ_self _)]

theorem nameiparent_run (hsb : sb.Wf) (h : Sound sb R s) (hop : 1 ≤ s.blk.outstanding)
    (hcwd : cwd ∈ R) (hroom : R.toFinset.card + 1 < NINODE) (path : Str) :
    ∃ r t, (nameiparent sb cwd path).run s = .ok r t ∧
      (∀ i < sb.ninodes, t.node sb i = s.node sb i) ∧
      r.map (fun p => ((t.icache p.1).inum, p.2)) =
        (lookupParent (s.node sb) (startOf s cwd path) (components path)).map
          fun d => (d, (components path).getLastD []) := by
  have hspec := namex_spec hsb h.closed (fun _ _ _ => rfl) true path h.cached hop hcwd
    h.root_inUse (h.refs cwd hcwd)
  rw [walk_eq_lookupParent _ _ (Nat.lt_succ_self _), lastElem_eq _ (Nat.lt_succ_self _)] at hspec
  obtain ⟨r, t, hrun, hq, hw⟩ := (hspec.mono (fun _ _ hQ => hQ) fun x _ hx => by
    have := hx.2 (h.noEntries hx.1)
    omega).exists_ok
  refine ⟨r, t, hrun, fun i hi => h.nodes hq hi, ?_⟩
  rcases hw with ⟨rfl, hw, -⟩ | ⟨e, rfl, hw, -⟩
  · rw [hw]
    rfl
  · rw [hw]
    rfl

theorem path_resolves (hsb : sb.Wf) (h : Sound sb R s) (hop : 1 ≤ s.blk.outstanding)
    (hcwd : cwd ∈ R) (hroom : R.toFinset.card + 1 < NINODE) (path : Str) :
    Skips path (components path) ∧ (∃ r t, (namei sb cwd path).run s = .ok r t ∧
      (∀ i, i < sb.ninodes → t.node sb i = s.node sb i) ∧ r.map (fun e => (t.icache e).inum) =
        lookupAll (s.node sb) (startOf s cwd path) (components path)) ∧
    (∃ r t, (nameiparent sb cwd path).run s = .ok r t ∧
      (∀ i, i < sb.ninodes → t.node sb i = s.node sb i) ∧
      r.map (fun p => ((t.icache p.1).inum, p.2)) =
        (lookupParent (s.node sb) (startOf s cwd path) (components path)).map
          fun d => (d, (components path).getLastD [])) ∧
    ∀ path' : Str, (path'.headD 0 = slash ↔ path.headD 0 = slash) →
      components path' = components path →
      (∃ r r' t t', (namei sb cwd path).run s = .ok r t ∧ (namei sb cwd path').run s = .ok r' t' ∧
        r.map (fun e => (t.icache e).inum) = r'.map (fun e => (t'.icache e).inum)) ∧
      ∃ r r' t t', (nameiparent sb cwd path).run s = .ok r t ∧
        (nameiparent sb cwd path').run s = .ok r' t' ∧ r.map (fun p => ((t.icache p.1).inum, p.2)) =
          r'.map (fun p => ((t'.icache p.1).inum, p.2)) := by
  refine ⟨skips_components _ (Nat.lt_succ_self _), namei_run hsb h hop hcwd hroom path,
    nameiparent_run hsb h hop hcwd hroom path, ?_⟩
  intro path' hslash hcomp
  have hstart : startOf s cwd path' = startOf s cwd path := by
    unfold startOf
    simp only [hslash]
  constructor
  · obtain ⟨r, t, hrun, -, hr⟩ := namei_run hsb h hop hcwd hroom path
    obtain ⟨r', t', hrun', -, hr'⟩ := namei_run hsb h hop hcwd hroom path'
    refine ⟨r, r', t, t', hrun, hrun', ?_⟩
    rw [hr, hr', hstart, hcomp]
  · obtain ⟨r, t, hrun, -, hr⟩ := nameiparent_run hsb h hop hcwd hroom path
    obtain ⟨r', t', hrun', -, hr'⟩ := nameiparent_run hsb h hop hcwd hroom path'
    refine ⟨r, r', t, t', hrun, hrun', ?_⟩
    rw [hr, hr', hstart, hcomp]

end Resolve

theorem Sound.of_root {R : Multiset Entry} {s : State} (hc : Cached sb R [] s)
    (hroot : s.node sb ROOTINO = rootNode)
    (hfree : ∀ i < sb.ninodes, i ≠ ROOTINO → s.node sb i = Node.free)
    (hR : ∀ e ∈ R, (s.icache e).inum = ROOTINO) : Sound sb R s := by
  have htype : rootNode.type = T_DIR := rfl
  have honly : ∀ i < sb.ninodes, (s.node sb i).type ≠ 0 → i = ROOTINO := by
    intro i hi ht
    by_contra hne
    rw [hfree i hi hne] at ht
    exact ht rfl
  refine ⟨hc, ?_, ?_, ?_, ?_⟩
  · rw [hroot, htype]
  · intro i hi ht k hk _
    obtain rfl := honly i hi (by rw [ht]; decide)
    rw [hroot] at hk ⊢
    rw [rootNode_dirent hk, hroot, htype]
    decide
  · intro e he
    rw [State.nodeAt, hR e he, hroot, htype]
    decide
  · intro i hl
    obtain rfl := honly i hl.inum hl.type
    have h0 := hl.nlink
    rw [hroot] at h0
    exact absurd h0 (by decide)

theorem rootOpen_sound (h : Formats sb) : Sound sb {rootEntry} (rootOpen sb false) := by
  obtain ⟨-, hroot, hfree⟩ := h.newFs_spec 1
  refine Sound.of_root (rootOpen_cached false h) hroot hfree fun e he => ?_
  rw [Multiset.mem_singleton.mp he, rootOpen_entry]

theorem path_resolves_root :
    ∃ r t, (namei tiny rootEntry [47, 47, 46, 47, 46, 46]).run (rootOpen tiny false) = .ok r t ∧
      r.map (fun e => (t.icache e).inum) = some ROOTINO := by
  obtain ⟨-, ⟨r, t, hrun, -, hr⟩, -⟩ := path_resolves tiny_formats.wf (rootOpen_sound tiny_formats)
    (Nat.le_refl 1) (Multiset.mem_singleton_self rootEntry) (by decide) [47, 47, 46, 47, 46, 46]
  refine ⟨r, t, hrun, hr.trans ?_⟩
  have hnode : (rootOpen tiny false).node tiny ROOTINO = rootNode := by
    have h := rootOpen_node false tiny_formats
    rw [State.nodeAt, rootOpen_entry] at h
    exact h
  have hcomp : components [47, 47, 46, 47, 46, 46] = [dot, dotdot] := by decide
  have hstart : startOf (rootOpen tiny false) rootEntry [47, 47, 46, 47, 46, 46] = ROOTINO := rfl
  have htype : rootNode.type = T_DIR := rfl
  have hdot : rootNode.find dot = some 0 := by decide
  have hdots : rootNode.find dotdot = some 1 := by decide
  rw [hcomp, hstart, lookupAll, hnode, if_pos htype, hdot, Option.bind_some, rootNode_dirent (by decide),
    lookupAll, hnode, if_pos htype, hdots, Option.bind_some, rootNode_dirent (by decide), lookupAll]

end BossOs.Fs
