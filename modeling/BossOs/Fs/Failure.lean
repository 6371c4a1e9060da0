import BossOs.Fs.Runs
import BossOs.Fs.Resolve

/-!
# Calls that fail

A call on names that returns -1 has changed nothing: no inode, no file or directory, no file
table and no process. `sys_open` is the exception: a file that it has made stays when there is
no `struct file` or no descriptor for it.
-/

namespace BossOs.Fs

open Lib

variable {sb : Superblock}

/-- The inodes, with the addresses of their blocks, the contents of files and directories, the
file table and the processes are the same. -/
structure Unchanged (sb : Superblock) (s t : Sys) : Prop where
  inodes : ∀ i, i < sb.ninodes → ino sb t.fs.blk.disk i = ino sb s.fs.blk.disk i
  contents : ∀ i, i < sb.ninodes → t.fs.node sb i = s.fs.node sb i
  ftable : t.ftable = s.ftable
  procs : t.procs = s.procs

def Call.onNames : Call → Prop
  | .link _ | .unlink _ | .mkdir _ | .mknod _ | .chdir _ => True
  | _ => False

section Failed

variable {s t : Sys} {P : Nat → Prop} {p : Pid} {cwd : Entry}

theorem Unchanged.refl (s : Sys) : Unchanged sb s s :=
  ⟨fun _ _ => rfl, fun _ _ => rfl, rfl, rfl⟩

theorem Unchanged.of_done (h : Sound sb s.refs s.fs) (ht : t = s.withFs t.fs)
    (hdone : Done sb P s (s.fs.node sb) t) (hino : SameInodes sb s.refs s.fs t.fs) :
    Unchanged sb s t := by
  have hrefs : t.refs = s.refs := by
    rw [ht]
    rfl
  refine ⟨fun i hi => hino i hi (h.tight i), fun i hi => ?_, by rw [ht]; rfl, by rw [ht]; rfl⟩
  rcases hdone.turns.node i hi with heq | ⟨⟨ht0, h0, hun⟩, -⟩
  · exact heq
  · refine absurd ⟨hi, ht0, h0, fun e he => ?_⟩ (h.tight i)
    rw [hrefs] at hun
    rw [← hdone.turns.inum e (hrefs ▸ he) he]
    exact hun e he

theorem NamePost.unchanged {A : (Nat → Node) → Prop} (h : Sound sb s.refs s.fs)
    (hn : NamePost sb P s A (-1) t) : Unchanged sb s t := by
  obtain ⟨ht, M, hdone, ⟨-, rfl, hino⟩ | ⟨hr, -⟩⟩ := hn
  · exact .of_done h ht hdone hino
  · exact absurd hr (by decide)

theorem failed_call_unchanged (hsb : sb.Wf) (h : Ok sb s) (hs : Sound sb s.refs s.fs)
    (hp : (s.procs p).cwd = some cwd) {c : Call} (hc : c.onNames)
    (hrun : (call sb p cwd c).run s = .ok (-1) t) : Unchanged sb s t := by
  have hcwd : cwd ∈ s.refs := mem_refs.mpr (Or.inr ⟨p, hp⟩)
  have hstart := hs.refs cwd hcwd
  have hname : ∀ {A : (Nat → Node) → Prop} {E : Stop → Sys → Prop},
      ((call sb p cwd c).run s).Sat (NamePost sb (Sound.inUse sb s.fs) s A) E → Unchanged sb s t := by
    intro A E hspec
    rw [hrun, Outcome.sat_ok] at hspec
    exact hspec.unchanged hs
  cases c with
  | link args =>
    exact hname ((sysLink_spec hsb h hs.closed hcwd hs.root_inUse hstart args).imp fun _ _ ht => ht.1)
  | unlink path =>
    have hspec := sysUnlink_spec hsb h hs.closed hcwd hs.root_inUse hstart path
    change ((call sb p cwd (.unlink path)).run s).Sat _ _ at hspec
    rw [hrun, Outcome.sat_ok] at hspec
    exact hspec.unchanged hs
  | mkdir path =>
    refine hname (sysCreate_spec hsb h hs.closed hcwd hs.root_inUse hstart _ fun a ha => ?_)
    obtain ⟨_, -, rfl⟩ := Option.map_eq_some_iff.mp ha
    exact ⟨show T_DIR ≠ 0 by decide, show T_DIR ≠ T_FILE by decide⟩
  | mknod args =>
    refine hname (sysCreate_spec hsb h hs.closed hcwd hs.root_inUse hstart _ fun a ha => ?_)
    obtain ⟨_, -, rfl⟩ := Option.map_eq_some_iff.mp ha
    exact ⟨show T_DEV ≠ 0 by decide, show T_DEV ≠ T_FILE by decide⟩
  | chdir path =>
    have hspec := sysChdir_spec hsb h hs.closed hcwd hs.root_inUse hstart hp path
    change ((call sb p cwd (.chdir path)).run s).Sat _ _ at hspec
    rw [hrun, Outcome.sat_ok] at hspec
    rcases hspec with hn | ⟨hr, -⟩
    · exact hn.unchanged hs
    · exact absurd hr (by decide)
  | open_ args => exact hc.elim
  | exec path reads => exact hc.elim
  | dup fd => exact hc.elim
  | read fd n => exact hc.elim
  | write fd src => exact hc.elim
  | close fd => exact hc.elim
  | fstat fd => exact hc.elim
  | fork q => exact hc.elim
  | exit => exact hc.elim

end Failed

theorem boot_sound (h : Formats sb) (input : List (Option (List UInt8))) :
    Sound sb (boot (newFs sb 0).disk input).refs (boot (newFs sb 0).disk input).fs := by
  obtain ⟨-, hroot, hfree⟩ := h.newFs_spec 0
  rw [boot_refs]
  refine Sound.of_root (boot_cached h.wf h.wellFormed) hroot hfree fun e he => ?_
  rw [Multiset.mem_singleton.mp he, boot_entry]

/-- `link("a", "a")` raises `nlink` before it finds that there is an `a`. -/
theorem failed_call_unchanged_link : ∃ s t, Run (fun _ _ => True) (step tiny) tinyBoot [openNew] s ∧
    (call tiny initproc rootEntry (.link (some ([97], [97])))).run s = .ok (-1) t ∧
      Unchanged tiny s t := by
  have hexec : (Lib.exec (fun _ _ => True) (step tiny) tinyBoot [openNew]).map (fun s =>
      ((s.procs initproc).cwd, (s.fs.node tiny ROOTINO).type,
        (decide (∀ i < tiny.ninodes, (s.fs.node tiny i).type = T_DIR → ∀ k < (s.fs.node tiny i).slots,
          ((s.fs.node tiny i).dirent k).inum ≠ 0 →
            (s.fs.node tiny ((s.fs.node tiny i).dirent k).inum).type ≠ 0),
        decide (∀ i < tiny.ninodes, (s.fs.node tiny i).type ≠ 0 → (s.fs.node tiny i).nlink ≠ 0)),
        ((call tiny initproc rootEntry (.link (some ([97], [97])))).run s).view fun r _ => r)) =
      some (some rootEntry, T_DIR, (true, true), some (-1)) := by decide +kernel
  obtain ⟨s, hrun, hs⟩ := Run.of_exec_map hexec
  obtain ⟨hcwd, hs⟩ := Prod.mk.inj hs
  obtain ⟨hroot, hs⟩ := Prod.mk.inj hs
  obtain ⟨hall, hview⟩ := Prod.mk.inj hs
  obtain ⟨hentries, hlinks⟩ := Prod.mk.inj hall
  obtain ⟨r, t, hr, hneg⟩ := Outcome.of_view hview
  subst hneg
  have hok := run_ok tiny_formats.wf tinyBoot_ok hrun
  have hsound : Sound tiny s.refs s.fs := ⟨hok.cached, hroot, of_decide_eq_true hentries, hok.alive,
    fun i hi => of_decide_eq_true hlinks i hi.inum hi.type hi.nlink⟩
  have hnames : (Call.link (some ([97], [97]))).onNames := trivial
  exact ⟨s, t, hrun, hr, failed_call_unchanged tiny_formats.wf hok hsound hcwd hnames hr⟩

/-- If a new file is to be made, there are a `struct file` and a descriptor for it. -/
def OpenRoom (sb : Superblock) (s : Sys) (p : Pid) (cwd : Entry) (path : Str) (omode : UInt32) : Prop :=
  omode &&& O_CREATE ≠ 0 → ∀ d,
    lookupParent (s.fs.node sb) (startOf s.fs cwd path) (components path) = some d →
    (s.fs.node sb d).find ((components path).getLastD []) = none →
    (∃ f, (s.ftable f).ref = 0) ∧ ∃ fd, (s.procs p).ofile fd = none

theorem CreateDone.changes {s t : Sys} {P : Nat → Prop} {name : Str} {i d : Nat} {M : Nat → Node}
    (hs : Sound sb s.refs s.fs) (hdone : Done sb P s M t)
    (h : CreateDone sb s.refs P s.fs T_FILE 0 0 name i d M) : ¬ Unchanged sb s t := by
  intro hsame
  have hfile : (M i).type = T_FILE ∧ (M i).nlink = 1 := by
    rw [h.table, created, if_neg (by decide), Function.update_of_ne h.ne, Function.update_self]
    exact ⟨rfl, rfl⟩
  have hfree : (t.fs.node sb i).type = 0 := by
    rw [hsame.contents i h.vacant.lt]
    exact h.vacant.free.resolve_right (hs.tight i)
  rcases hdone.turns.node i h.vacant.lt with heq | ⟨⟨-, h0, -⟩, -⟩
  · rw [heq, hfile.1] at hfree
    exact absurd hfree (by decide)
  · rw [hfile.2] at h0
    exact absurd h0 (by decide)

/-- A call of `sys_open` that fails has changed nothing if and only if there was room for the
file that it was to make, if any. -/
theorem failed_open_unchanged {s t : Sys} {p : Pid} {cwd : Entry} (hsb : sb.Wf) (h : Ok sb s)
    (hs : Sound sb s.refs s.fs) (hp : (s.procs p).cwd = some cwd) (args : Option (Str × UInt32))
    (hrun : (sysOpen sb p cwd args).run s = .ok (-1) t) : Unchanged sb s t ↔
      ∀ path omode, args = some (path, omode) → OpenRoom sb s p cwd path omode := by
  have hcwd : cwd ∈ s.refs := mem_refs.mpr (Or.inr ⟨p, hp⟩)
  have hspec := sysOpen_spec hsb h hs.closed hcwd hs.root_inUse (hs.refs cwd hcwd) hp args
  rw [hrun, Outcome.sat_ok] at hspec
  rcases hspec with ⟨-, rfl, rfl⟩ | ⟨path, omode, rfl, M, hdone, htable, hcase⟩
  · refine ⟨fun _ _ _ hargs => ?_, fun _ => .refl t⟩
    cases hargs
  rw [walk_eq_lookupParent _ _ (Nat.lt_succ_self _), lastElem_eq _ (Nat.lt_succ_self _)] at htable
  rcases hcase with ⟨-, ht, hwhy⟩ | ⟨fd, f, ip, hr, -⟩
  · rcases htable with ⟨rfl, hino, htaken⟩ | ⟨hcreate, i, d, hw, hnew⟩
    · refine ⟨fun _ _ _ hargs => ?_, fun _ => .of_done hs ht hdone hino⟩
      cases hargs
      exact fun hcreate d hd hnone => absurd hnone (htaken hcreate d hd)
    · refine ⟨fun hsame => absurd hsame (hnew.changes hs hdone), fun hroom => ?_⟩
      obtain ⟨⟨f, hf⟩, fd, hfd⟩ := hroom path omode rfl hcreate d hw hnew.absent
      rcases hwhy with ⟨rfl, hino⟩ | hfull | hfull
      · exact .of_done hs ht hdone hino
      · exact absurd hf (hfull f)
      · exact absurd hfd (hfull fd)
  · have hneg : (0 : Int) ≤ (fd : Fin NOFILE) := Int.natCast_nonneg _
    omega

theorem failed_open_unchanged_absent :
    ∃ t, (sysOpen tiny initproc rootEntry (some ([47, 120], O_RDONLY))).run tinyBoot = .ok (-1) t ∧
      Unchanged tiny tinyBoot t := by
  obtain ⟨r, t, hrun, hr⟩ := Outcome.of_view (b := -1) (f := fun r (_ : Sys) => r)
    (r := (sysOpen tiny initproc rootEntry (some ([47, 120], O_RDONLY))).run tinyBoot)
    (by decide +kernel)
  subst hr
  refine ⟨t, hrun, (failed_open_unchanged tiny_formats.wf tinyBoot_ok (boot_sound tiny_formats [])
    tinyBoot_cwd _ hrun).mpr fun path omode hargs hcreate => ?_⟩
  cases hargs
  exact absurd (by decide) hcreate

/-- The descriptors of the first process are all in use for the root directory. -/
def openRoots : List (Pid × Call) := List.replicate NOFILE (initproc, .open_ (some ([47], O_RDONLY)))

/-- With no descriptor left, `open("a", O_CREATE | O_RDWR)` returns -1 and leaves a new file. -/
theorem failed_open_creates : ∃ s t, Run (fun _ _ => True) (step tiny) tinyBoot openRoots s ∧
      (sysOpen tiny initproc rootEntry (some ([97], O_CREATE ||| O_RDWR))).run s = .ok (-1) t ∧
      (s.fs.node tiny 2).type = 0 ∧ (t.fs.node tiny 2).type = T_FILE := by
  have hexec : (Lib.exec (fun _ _ => True) (step tiny) tinyBoot openRoots).map (fun s =>
      ((s.fs.node tiny 2).type,
        ((sysOpen tiny initproc rootEntry (some ([97], O_CREATE ||| O_RDWR))).run s).view
          fun r t => (r, (t.fs.node tiny 2).type))) = some (0, some (-1, T_FILE)) := by
    decide +kernel
  obtain ⟨s, hrun, hs⟩ := Run.of_exec_map hexec
  obtain ⟨hfree, hopen⟩ := Prod.mk.inj hs
  obtain ⟨r, t, ht, hview⟩ := Outcome.of_view hopen
  obtain ⟨rfl, htype⟩ := Prod.mk.inj hview
  exact ⟨s, t, hrun, ht, hfree, htype⟩

end BossOs.Fs
