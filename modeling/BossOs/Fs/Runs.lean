import BossOs.Fs.ProcCalls
import BossOs.Fs.Format

/-!
# Runs of system calls

From a well-formed disk and the state in which the first process starts, every call that returns
leads from an `Ok` state to an `Ok` state. `call_spec` says what a call may do to the inodes, and
why it may stop.
-/

namespace BossOs.Fs

open Lib

variable {sb : Superblock}

def CallEnds (sb : Superblock) (P : Nat → Prop) (s : Sys) (cwd : Entry) (c : Call) (x : Stop) : Prop :=
  CallStop sb s.refs P s.fs x ∨
    (∃ old new, c = .link (some (old, new)) ∧ x = .deadlock ∧ LinkWaits sb s.fs cwd old new) ∨
    ∃ path, c = .unlink (some path) ∧
      UnlinkStop sb s.refs P s.fs (lastElem (path.length + 1) path []) x

def closed (s t : Sys) : Multiset Entry :=
  gather Finset.univ fun f => if f ∈ t.fds then none else (s.ftable f).type.entry

def Moves (s : Sys) (p : Pid) (cwd : Entry) (r : Int) (t : Sys) : Call → Prop
  | .open_ _ => r = -1 ∧ t.refs = s.refs ∨ ∃ fd f ip, r = (fd : Fin NOFILE) ∧
    (t.procs p).ofile fd = some f ∧ (t.ftable f).type = .inode ip ∧ t.refs = ip ::ₘ s.refs
  | .chdir _ => r = -1 ∧ t.refs = s.refs ∨
    r = 0 ∧ ∃ ip, (t.procs p).cwd = some ip ∧ cwd ::ₘ t.refs = ip ::ₘ s.refs
  | .close _ => r = -1 ∧ t.refs = s.refs ∨ r = 0 ∧ ∃ fd f, (s.procs p).ofile fd = some f ∧
    (f ∈ t.fds ∧ t.refs = s.refs ∨
      f ∉ t.fds ∧ ∃ ip, (s.ftable f).type = .inode ip ∧ s.refs = ip ::ₘ t.refs)
  | .exit => s.refs = cwd ::ₘ (closed s t + t.refs)
  | .fork _ => t.refs = cwd ::ₘ s.refs
  | _ => t.refs = s.refs

variable {t : Sys}

theorem refs_exit {s : Sys} {p : Pid} {cwd : Entry} (hp : (s.procs p).cwd = some cwd)
    (ht : Tables t.fds t) (hprocs : t.procs = (s.withProc p ⟨none, fun _ => none⟩).procs)
    (hfiles : ∀ f ∈ t.fds, (t.ftable f).type = (s.ftable f).type) :
    s.refs = cwd ::ₘ (closed s t + t.refs) := by
  have hcwds : gather Finset.univ (fun q => (s.procs q).cwd) =
      cwd ::ₘ gather Finset.univ fun q => (t.procs q).cwd := by
    apply gather_cons (Finset.mem_univ p) _ hp
    · intro q _ hq
      rw [hprocs, withProc_of_ne _ _ hq]
    · rw [hprocs, withProc_self]
  have hsplit : gather Finset.univ (fun f => (s.ftable f).type.entry) =
      closed s t + gather Finset.univ fun f => (t.ftable f).type.entry := by
    have hclosed : closed s t =
        gather (Finset.univ.filter (· ∉ t.fds)) fun f => (s.ftable f).type.entry := by
      rw [closed, gather_split (Finset.filter_subset (· ∉ t.fds) Finset.univ) (g := fun _ => none)]
      · rw [gather_eq_zero fun _ _ => rfl, add_zero]
        apply gather_congr
        intro f hf
        rw [if_neg (Finset.mem_filter.mp hf).2]
      · intro f hf hout
        rw [if_pos (by simpa using hout)]
      · exact fun _ _ => rfl
    rw [hclosed]
    apply gather_split (Finset.filter_subset _ _)
    · intro f _ hf
      rw [hfiles f (by simpa using hf)]
    · intro f hf
      rw [ht.free f (Finset.mem_filter.mp hf).2]
      rfl
  unfold Sys.refs
  rw [hcwds, hsplit, Multiset.add_cons, add_assoc]

section Call

variable {s : Sys} {P : Nat → Prop} {p : Pid} {cwd : Entry} (hsb : sb.Wf) (h : Ok sb s)
  (hP : Closed sb (s.fs.node sb) P) (hp : (s.procs p).cwd = some cwd) (hroot : P ROOTINO)
  (hstart : P (s.fs.icache cwd).inum)

/-- A call that returns `r` in state `t`; only `write` changes what is in a file that is held. -/
def Returns (sb : Superblock) (P : Nat → Prop) (s : Sys) (p : Pid) (cwd : Entry) (c : Call) (r : Int)
    (t : Sys) : Prop :=
  ∃ M, Done sb P s M t ∧ Moves s p cwd r t c ∧
    ((∃ fd src, c = .write fd src) ∨ ∀ j, ¬ Vacant sb s.refs s.fs j → Kept (s.fs.node sb) M j)

theorem Returns.look {c : Call} {r : Int} (hdone : Done sb P s (s.fs.node sb) t)
    (hmove : Moves s p cwd r t c) : Returns sb P s p cwd c r t :=
  ⟨_, hdone, hmove, Or.inr fun j _ => Kept.refl _ j⟩

theorem NamePost.returns {A : (Nat → Node) → Prop} {c : Call} {r : Int}
    (hpost : NamePost sb P s A r t) (hmove : t.refs = s.refs → Moves s p cwd r t c)
    (hA : ∀ M, A M → ∀ j, ¬ Vacant sb s.refs s.fs j → Kept (s.fs.node sb) M j) :
    Returns sb P s p cwd c r t := by
  obtain ⟨ht, M, hdone, hM⟩ := hpost
  refine ⟨M, hdone, hmove (by rw [ht]; rfl), Or.inr ?_⟩
  rcases hM with ⟨-, rfl, -⟩ | ⟨-, hdone⟩
  · exact fun j _ => Kept.refl _ j
  · exact hA M hdone

include hsb h hP hp hroot hstart

theorem call_spec (c : Call) (hc : s.enabled p c = true) :
    ((call sb p cwd c).run s).Sat (Returns sb P s p cwd c)
      (fun x _ => CallEnds sb P s cwd c x) := by
  have hcwd : cwd ∈ s.refs := mem_refs.mpr (Or.inr ⟨p, hp⟩)
  have hcreate : ∀ {M : Nat → Node}, (∃ name type major minor i d,
      CreateDone sb s.refs P s.fs type major minor name i d M) →
      ∀ j, ¬ Vacant sb s.refs s.fs j → Kept (s.fs.node sb) M j := by
    rintro M ⟨_, _, _, _, _, _, hdone⟩ j hj
    exact hdone.kept hj
  cases c with
  | open_ args =>
    refine (sysOpen_spec hsb h hP hcwd hroot hstart hp args).mono ?_ fun x _ hx => Or.inl hx
    rintro r t (⟨rfl, rfl, -⟩ | ⟨_, _, -, M, hdone, htable, hres⟩)
    · exact .look h.done_refl (Or.inl ⟨rfl, rfl⟩)
    refine ⟨M, hdone, ?_, Or.inr ?_⟩
    · rcases hres with ⟨rfl, ht, -⟩ | ⟨fd, f, ip, rfl, ho⟩
      · exact Or.inl ⟨rfl, by rw [ht]; rfl⟩
      · refine Or.inr ⟨fd, f, ip, rfl, ?_, ?_, ?_⟩
        · rw [ho.state]
          exact (withFd_ofile _ _ (p, fd)).trans (if_pos rfl)
        · rw [ho.state, withFile_self]
          rfl
        · have hnone := h.tables.free f (h.tables.not_mem ho.file)
          rw [ho.state]
          exact (refs_open (s := (s.withFs t.fs).withFd p fd (some f)) hnone rfl).trans
            (congrArg _ (refs_withFd (s.withFs t.fs) (some f)))
    · rcases htable with ⟨rfl, -⟩ | ⟨-, i, d, -, hdone⟩
      · exact fun j _ => Kept.refl _ j
      · exact fun _ hj => hdone.kept hj
  | mkdir path =>
    refine (sysCreate_spec hsb h hP hcwd hroot hstart _ ?_).mono
      (fun _ _ ht => ht.returns id fun _ => hcreate) fun x _ hx => Or.inl hx
    intro a ha
    obtain ⟨_, -, rfl⟩ := Option.map_eq_some_iff.mp ha
    exact ⟨show T_DIR ≠ 0 by decide, show T_DIR ≠ T_FILE by decide⟩
  | mknod args =>
    refine (sysCreate_spec hsb h hP hcwd hroot hstart _ ?_).mono
      (fun _ _ ht => ht.returns id fun _ => hcreate) fun x _ hx => Or.inl hx
    intro a ha
    obtain ⟨_, -, rfl⟩ := Option.map_eq_some_iff.mp ha
    exact ⟨show T_DEV ≠ 0 by decide, show T_DEV ≠ T_FILE by decide⟩
  | link args =>
    refine (sysLink_spec hsb h hP hcwd hroot hstart args).mono (fun _ _ ht => ht.1.returns id ?_) ?_
    · rintro M ⟨_, _, _, hdone⟩ j -
      exact hdone.kept j
    · rintro x _ (hx | ⟨hx, old, new, rfl, hdead⟩)
      · exact Or.inl hx
      · exact Or.inr (Or.inl ⟨old, new, rfl, hx, hdead⟩)
  | unlink path =>
    refine (sysUnlink_spec hsb h hP hcwd hroot hstart path).mono (fun _ _ ht => ht.returns id ?_) ?_
    · rintro M ⟨_, _, _, _, -, -, hdone, -⟩ j -
      exact hdone.kept j
    · rintro x _ ⟨path', rfl, hx⟩
      exact Or.inr (Or.inr ⟨path', rfl, hx⟩)
  | chdir path =>
    refine (sysChdir_spec hsb h hP hcwd hroot hstart hp path).mono ?_ fun x _ hx => Or.inl hx
    rintro r t (⟨ht, M, hdone, ⟨rfl, rfl, -⟩ | ⟨-, hno⟩⟩ | ⟨rfl, ip, ht, hrefs, -, -, hdone⟩)
    · exact .look hdone (Or.inl ⟨rfl, by rw [ht]; rfl⟩)
    · exact hno.elim
    · refine .look hdone (Or.inr ⟨rfl, ip, ?_, hrefs⟩)
      rw [ht, Sys.withCwd, withProc_self]
  | exec path reads =>
    refine (exec_spec hsb h hP hcwd hroot hstart path reads).mono ?_ fun x _ hx => Or.inl hx
    rintro r t ⟨hdone, ht⟩
    exact .look hdone (show t.refs = s.refs by rw [ht]; rfl)
  | dup fd =>
    refine (sysDup_spec (P := P) h (by rw [hp]; exact Option.some_ne_none _) fd).imp ?_
    rintro r t (⟨-, rfl⟩ | ⟨_, _, -, hdone, hsh⟩)
    · exact .look h.done_refl rfl
    · exact .look hdone hsh.refs
  | read fd n =>
    refine (sysRead_spec (P := P) h fd n).imp ?_
    rintro r t (⟨-, rfl⟩ | ⟨_, f, _, _, -, -, -, hdone, off, ht, -⟩)
    · exact .look h.done_refl rfl
    · refine .look hdone (show t.refs = s.refs from ?_)
      rw [ht]
      exact refs_withFile (s := s.withFs t.fs) rfl
  | write fd src =>
    refine (sysWrite_spec hsb h fd src).mono ?_ fun x _ hx => Or.inl (hx ▸ .outOfBlocks)
    rintro r t (⟨-, rfl⟩ | ⟨_, f, ip, _, -, hf, hwr, -, _, ⟨_, _, hch, -⟩, -⟩)
    · exact .look h.done_refl rfl
    · refine ⟨_, hch.done (mem_refs_of_file hf) (h.writable f ip hf hwr), ?_, Or.inl ⟨fd, src, rfl⟩⟩
      change t.refs = s.refs
      rw [hch.state]
      exact refs_withFile (s := s.withFs t.fs) rfl
  | close fd =>
    refine (sysClose_spec (P := P) hsb h fd).imp ?_
    rintro r t (⟨rfl, rfl⟩ | ⟨rfl, fd', f, hof, hdone, -, hcl⟩)
    · exact .look h.done_refl (Or.inl ⟨rfl, rfl⟩)
    · refine .look hdone (Or.inr ⟨rfl, fd', f, hof, ?_⟩)
      have hlast := hcl.last
      rw [refs_withFd] at hlast
      exact hlast.imp (fun hl => ⟨hl.1, hl.2.1⟩) id
  | fstat fd =>
    refine (sysFstat_spec (P := P) h fd).imp ?_
    rintro r t ⟨hdone, ht⟩
    exact .look hdone (show t.refs = s.refs by rw [ht]; rfl)
  | fork q =>
    have hq : (s.procs q).cwd = none := by
      simp only [Sys.enabled, Bool.and_eq_true, Option.isNone_iff_eq_none] at hc
      exact hc.2
    refine (fork_spec (P := P) h hp hq).imp ?_
    rintro r t ⟨-, hdone, hrefs, -⟩
    exact .look hdone hrefs
  | exit =>
    refine (exit_spec (P := P) hsb h hp).imp ?_
    rintro r t ⟨-, hdone, -, hprocs, hfiles⟩
    exact .look hdone (refs_exit hp hdone.ok.tables hprocs hfiles)

end Call

theorem closed_true (N : Nat → Node) : Closed sb N fun _ => True := fun _ _ _ _ _ _ _ => trivial

theorem step_returns (hsb : sb.Wf) {s : Sys} (h : Ok sb s) {a : Pid × Call}
    (hstep : step sb s a = some t) :
    ∃ cwd r, (s.procs a.1).cwd = some cwd ∧ Returns sb (fun _ => True) s a.1 cwd a.2 r t := by
  obtain ⟨p, c⟩ := a
  simp only [step] at hstep
  cases hp : (s.procs p).cwd with
  | none =>
    rw [hp] at hstep
    cases hstep
  | some cwd =>
    simp only [hp] at hstep
    split at hstep
    · rename_i hen
      have hspec := call_spec hsb h (closed_true _) hp trivial trivial c hen
      cases hrun : (call sb p cwd c).run s with
      | ok r u =>
        rw [hrun] at hstep hspec
        simp only at hstep
        split at hstep
        · cases hstep
        · cases hstep
          rw [Outcome.sat_ok] at hspec
          exact ⟨cwd, r, rfl, hspec⟩
      | stop x u =>
        rw [hrun] at hstep
        cases hstep
    · cases hstep

theorem run_ok (hsb : sb.Wf) {s : Sys} {as : List (Pid × Call)} (h : Ok sb s)
    (hrun : Run (fun _ _ => True) (step sb) s as t) : Ok sb t := by
  refine hrun.invariant (fun s a t hs _ hstep => ?_) h
  obtain ⟨_, _, -, _, hdone, -⟩ := step_returns hsb hs hstep
  exact hdone.ok

structure WellFormed (sb : Superblock) (D : Nat → Block) : Prop where
  disk : DiskOk sb D
  dirs : ∀ i, i < sb.ninodes → DirOk sb (node sb D i)
  root : (node sb D ROOTINO).type = T_DIR

def initproc : Pid := ⟨0, nproc_pos⟩

/-- After `userinit`: the first process has the root directory as its current directory, and the
entry that `namei` took for it has not been read from disk. -/
def boot (D : Nat → Block) (input : List (Option (List UInt8))) : Sys where
  fs := ⟨⟨D, [], 0, [], [], false, 0⟩, Function.update (fun _ => ⟨0, 0, false, false, Dinode.fresh 0⟩)
    rootEntry ⟨ROOTINO, 1, false, false, Dinode.fresh 0⟩, input⟩
  ftable := fun _ => ⟨.none, 0, false, false, 0⟩
  procs := Function.update (fun _ => ⟨none, fun _ => none⟩) initproc
    ⟨some rootEntry, fun _ => none⟩

section Boot

variable {D : Nat → Block} {input : List (Option (List UInt8))}

theorem boot_initproc : (boot D input).procs initproc = ⟨some rootEntry, fun _ => none⟩ := by
  simp only [boot, Function.update_self]

theorem boot_procs {p : Pid} (h : p ≠ initproc) :
    (boot D input).procs p = ⟨none, fun _ => none⟩ := by
  simp only [boot, Function.update_of_ne h]

theorem boot_ofile (p : Pid) (fd : Fin NOFILE) : ((boot D input).procs p).ofile fd = none := by
  by_cases h : p = initproc
  · rw [h, boot_initproc]
  · rw [boot_procs h]

theorem boot_fds : (boot D input).fds = 0 := by
  refine Multiset.eq_zero_of_forall_notMem fun f hf => ?_
  obtain ⟨p, fd, hp⟩ := mem_fds.mp hf
  rw [boot_ofile] at hp
  cases hp

theorem boot_refs : (boot D input).refs = {rootEntry} := by
  have hp : ((boot D input).procs initproc).cwd = some rootEntry := by rw [boot_initproc]
  rw [refs_leave hp, ← Multiset.cons_zero]
  congr 1
  refine Multiset.eq_zero_of_forall_notMem fun e he => ?_
  rcases mem_refs.mp he with ⟨f, hf⟩ | ⟨q, hq⟩
  · cases hf
  · by_cases h0 : q = initproc
    · rw [h0, Sys.withCwd, withProc_self] at hq
      cases hq
    · rw [Sys.withCwd, withProc_of_ne _ _ h0, boot_procs h0] at hq
      cases hq

theorem boot_entry :
    (boot D input).fs.icache rootEntry = ⟨ROOTINO, 1, false, false, Dinode.fresh 0⟩ := by
  simp only [boot, Function.update_self]

theorem boot_of_ne {e : Entry} (h : e ≠ rootEntry) :
    (boot D input).fs.icache e = ⟨0, 0, false, false, Dinode.fresh 0⟩ := by
  simp only [boot, Function.update_of_ne h]

theorem boot_valid (e : Entry) : ((boot D input).fs.icache e).valid = false := by
  by_cases he : e = rootEntry
  · rw [he, boot_entry]
  · rw [boot_of_ne he]

theorem boot_ref {e : Entry} (h : 0 < ((boot D input).fs.icache e).ref) : e = rootEntry := by
  by_contra hne
  rw [boot_of_ne hne] at h
  exact absurd h (by decide)

theorem boot_cached (hsb : sb.Wf) (h : WellFormed sb D) :
    Cached sb {rootEntry} [] (boot D input).fs := by
  have hinv : ∀ {e : Entry} {Q : Prop}, ((boot D input).fs.icache e).valid = true → Q := by
    intro e Q hv
    rw [boot_valid] at hv
    cases hv
  refine ⟨⟨h.disk, rfl, ?_, fun _ _ hv => hinv hv, fun _ _ hv => hinv hv, fun _ _ hv => hinv hv⟩,
    h.dirs, ?_, ?_, ?_, fun _ he => absurd he List.not_mem_nil⟩
  · intro e e' he he' _
    rw [boot_ref he, boot_ref he']
  · intro e he
    rw [Multiset.mem_singleton.mp he, boot_entry]
    exact hsb.root
  · intro e
    by_cases he : e = rootEntry
    · rw [he, boot_entry, Multiset.count_singleton_self]
      rfl
    · rw [boot_of_ne he, Multiset.count_eq_zero.mpr (by simpa using he)]
      rfl
  · intro e
    refine iff_of_false ?_ List.not_mem_nil
    by_cases he : e = rootEntry
    · rw [he, boot_entry]
      decide
    · rw [boot_of_ne he]
      decide

theorem boot_ok (hsb : sb.Wf) (h : WellFormed sb D) : Ok sb (boot D input) := by
  have hnode : (boot D input).fs.nodeAt sb rootEntry = node sb D ROOTINO := by
    rw [State.nodeAt, boot_entry]
    rfl
  refine ⟨⟨?_, ?_, ?_, rfl, rfl, rfl, ?_, ?_⟩, ⟨?_, fun _ _ => rfl⟩, ?_, ?_⟩
  · rw [boot_refs]
    exact boot_cached hsb h
  · rw [boot_refs]
    intro e he
    rw [Multiset.mem_singleton.mp he, hnode, h.root]
    decide
  · rw [boot_refs]
    intro e he
    rw [Multiset.mem_singleton.mp he, boot_entry]
    exact Or.inr rfl
  · intro _ _ hf
    cases hf
  · intro _ _ hf
    cases hf
  · intro f
    rw [boot_fds]
    rfl
  · rw [boot_fds]
    exact fun f hf => absurd hf (Multiset.notMem_zero f)
  · intro q _ fd
    exact boot_ofile q fd

end Boot

theorem Formats.wellFormed (h : Formats sb) : WellFormed sb (newFs sb 0).disk := by
  obtain ⟨hdisk, hroot, hothers⟩ := h.newFs_spec 0
  refine ⟨hdisk, ?_, ?_⟩
  · intro i hi ht
    by_cases hne : i = ROOTINO
    · subst hne
      rw [hroot]
      refine ⟨by decide, fun k hk => ?_⟩
      rw [rootNode_dirent hk]
      exact h.wf.root
    · rw [hothers i hi hne] at ht
      exact absurd ht (by decide)
  · rw [hroot]
    rfl

def tinyBoot : Sys := boot (newFs tiny 0).disk []

def openNew : Pid × Call := (initproc, .open_ (some ([97], O_CREATE ||| O_RDWR)))

def file0 : Fin NFILE := ⟨0, by decide⟩

theorem tinyBoot_ok : Ok tiny tinyBoot := boot_ok tiny_formats.wf tiny_formats.wellFormed

theorem tinyBoot_cwd : (tinyBoot.procs initproc).cwd = some rootEntry := by
  rw [tinyBoot, boot_initproc]

end BossOs.Fs
