import BossOs.Syscall.Calls

/-!
# System calls on files, over whole runs

What holds however many calls were made since boot: for which reasons a call may not return, that
the counts of open files are right, and what `unlink` does to the directory and the inode.
-/

namespace BossOs.Fs

open Lib

variable {sb : Superblock} {D : Nat → Block} {input : List (Option (List UInt8))}
variable {as : List (Pid × Call)} {s : Sys}

def logged (sb : Superblock) (p : Pid) (cwd : Entry) (c : Call) : SysM Int :=
  capped sb (fun u => u.fs.blk) (call sb p cwd c)

theorem tiny_opened : ∃ s, Run (fun _ _ => True) (step tiny) tinyBoot [openNew] s ∧
    (s.procs initproc).cwd = some rootEntry ∧
    ((logged tiny initproc rootEntry (.link (some ([97], dot)))).run s).stopped.isSome = true ∧
    ((sysUnlink tiny rootEntry (some [97])).run s).view (fun r _ => r) = some 0 := by
  have hexec : (Lib.exec (fun _ _ => True) (step tiny) tinyBoot [openNew]).map (fun s =>
      ((s.procs initproc).cwd,
        ((logged tiny initproc rootEntry (.link (some ([97], dot)))).run s).stopped.isSome,
        ((sysUnlink tiny rootEntry (some [97])).run s).view fun r _ => r)) =
      some (some rootEntry, true, some 0) := by decide +kernel
  obtain ⟨s, hrun, hs⟩ := Run.of_exec_map hexec
  simp only [Prod.mk.injEq] at hs
  exact ⟨s, hrun, hs⟩

/-- The count of a file is the number of descriptors for it, and the count is 0 for a free file
only; a descriptor is for an inode, and is one of a process in use. -/
theorem files_counted (hsb : sb.Wf) (hD : WellFormed sb D)
    (hrun : Run (fun _ _ => True) (step sb) (boot D input) as s) :
    (∀ f, (s.ftable f).ref = (Finset.univ.filter fun q : Pid × Fin NOFILE =>
      (s.procs q.1).ofile q.2 = some f).card) ∧
    (∀ f, (s.ftable f).ref = 0 ↔ (s.ftable f).type = .none) ∧
    ∀ p fd f, (s.procs p).ofile fd = some f →
      (s.procs p).cwd ≠ none ∧ ∃ ip, (s.ftable f).type = .inode ip ∧
        ((s.ftable f).writable = true → (s.fs.nodeAt sb ip).type ≠ T_DIR) := by
  have h := run_ok hsb (boot_ok hsb hD) hrun
  refine ⟨fun f => ?_, fun f => ?_, fun p fd f hfd => ?_⟩
  · rw [h.tables.ref, Sys.fds, count_gather]
  · rw [h.tables.ref, Nat.cast_eq_zero, Multiset.count_eq_zero]
    exact ⟨h.tables.free f, fun hn hf => h.opened f hf hn⟩
  · refine ⟨fun hn => ?_, ?_⟩
    · have hnone := h.unused p hn fd
      rw [hfd] at hnone
      cases hnone
    · cases ht : (s.ftable f).type with
      | none => exact absurd ht (h.opened f (mem_fds.mpr ⟨p, fd, hfd⟩))
      | inode ip => exact ⟨ip, rfl, h.writable f ip ht⟩

theorem files_counted_dup : ∃ s, Run (fun _ _ => True) (step tiny) tinyBoot
    [openNew, (initproc, .dup 0)] s ∧ (s.ftable file0).ref = 2 ∧
    (Finset.univ.filter fun q : Pid × Fin NOFILE => (s.procs q.1).ofile q.2 = some file0).card = 2 := by
  have hexec : (Lib.exec (fun _ _ => True) (step tiny) tinyBoot [openNew, (initproc, .dup 0)]).map
      (fun s => (s.ftable file0).ref) = some 2 := by decide +kernel
  obtain ⟨s, hrun, hs⟩ := Run.of_exec_map hexec
  have hcount := (files_counted tiny_formats.wf tiny_formats.wellFormed hrun).1 file0
  rw [hs] at hcount
  exact ⟨s, hrun, hs, by exact_mod_cast hcount.symm⟩

/-- What `unlink` leaves in the inode of the file, in the directory and in the others. -/
def unlinked (N : Nat → Node) (d k i j : Nat) : Node :=
  if j = i then (N i).relink ((N i).nlink - 1)
  else if j = d then (N d).removed k ((N i).type = T_DIR) else N j

/-- `unlink` that succeeds empties the slot where the last name of the path is, and takes a link
from the inode; an inode left without links and references is freed, that of the file for sure. -/
theorem unlink_removes (hsb : sb.Wf) (hD : WellFormed sb D)
    (hrun : Run (fun _ _ => True) (step sb) (boot D input) as s) {p : Pid} {cwd : Entry}
    (hp : (s.procs p).cwd = some cwd) {path : Str} {t : Sys}
    (hr : (sysUnlink sb cwd (some path)).run s = .ok 0 t) :
    ∃ d k i, lookupParent (s.fs.node sb) (startOf s.fs cwd path) (components path) = some d ∧
      (s.fs.node sb d).find ((components path).getLastD []) = some k ∧
      ((s.fs.node sb d).dirent k).inum = i ∧ i ≠ d ∧
      ((s.fs.node sb i).type = T_DIR → (s.fs.node sb i).isEmpty = true) ∧
      (∀ j < sb.ninodes, t.fs.node sb j = unlinked (s.fs.node sb) d k i j ∨
        t.fs.node sb j = Node.free ∧ (unlinked (s.fs.node sb) d k i j).nlink = 0 ∧
        ∀ e ∈ t.refs, (t.fs.icache e).inum ≠ j) ∧
      ((s.fs.node sb i).nlink = 1 → (∀ e ∈ s.refs, (s.fs.icache e).inum ≠ i) →
        t.fs.node sb i = Node.free) := by
  have h := run_ok hsb (boot_ok hsb hD) hrun
  have hcwd : cwd ∈ s.refs := mem_refs.mpr (Or.inr ⟨p, hp⟩)
  have hspec := sysUnlink_spec hsb h (closed_true _) hcwd trivial trivial (some path)
  rw [hr, Outcome.sat_ok] at hspec
  obtain ⟨-, M, hdone, ⟨h0, -⟩ | ⟨-, path', i, d, k, hpath, hw, hu, hfree⟩⟩ := hspec
  · exact absurd h0 (by decide)
  cases hpath
  rw [walk_eq_lookupParent _ _ (Nat.lt_succ_self _)] at hw
  have hfound := hu.found
  rw [lastElem_eq _ (Nat.lt_succ_self _)] at hfound
  have hM : ∀ j, M j = unlinked (s.fs.node sb) d k i j := by
    intro j
    rw [hu.table]
    simp only [unlinked, Function.update_apply]
  refine ⟨d, k, i, hw, hfound, hu.entry, hu.ne, hu.empty, fun j hj => ?_, fun h1 hun => ?_⟩
  · rw [← hM]
    rcases hdone.turns.node j hj with heq | ⟨⟨-, h0, hun⟩, hfr⟩
    · exact Or.inl heq
    · exact Or.inr ⟨hfr, h0, hun⟩
  · refine hfree ?_ hun
    rw [hM, unlinked, if_pos rfl, Node.relink, h1]
    rfl

theorem unlink_removes_open : ∃ s t, Run (fun _ _ => True) (step tiny) tinyBoot [openNew] s ∧
    (sysUnlink tiny rootEntry (some [97])).run s = .ok 0 t ∧
    ∃ d k i, lookupParent (s.fs.node tiny) (startOf s.fs rootEntry [97]) [[97]] = some d ∧
      (s.fs.node tiny d).find [97] = some k ∧ ((s.fs.node tiny d).dirent k).inum = i := by
  obtain ⟨s, hrun, hp, -, hview⟩ := tiny_opened
  obtain ⟨r, t, hr, h0⟩ := Outcome.of_view hview
  subst h0
  obtain ⟨d, k, i, hd, hk, hi, -⟩ :=
    unlink_removes tiny_formats.wf tiny_formats.wellFormed hrun hp hr
  exact ⟨s, t, hrun, hr, d, k, i, hd, hk, hi⟩

end BossOs.Fs
