import BossOs.Fs.NameCalls

/-!
# `sys_open` as a whole

The inode is found or made first, and the file and the descriptor are taken after that. A call
that fails for want of one of these gives back the inode, but a file it has made stays.
-/

namespace BossOs.Fs

open Function (update update_self update_of_ne update_eq_self update_idem)
open Lib
open Prog (sat_bind sat_pure)

variable {sb : Superblock}

def OpenTable (sb : Superblock) (R : Multiset Entry) (P : Nat → Prop) (s : State) (omode : UInt32)
    (w : Option Nat) (name : Str) (M : Nat → Node) (t : State) : Prop :=
  M = s.node sb ∧ SameInodes sb R s t ∧ (omode &&& O_CREATE ≠ 0 → Taken sb s w name) ∨
    omode &&& O_CREATE ≠ 0 ∧ ∃ i d, w = some d ∧ CreateDone sb R P s T_FILE 0 0 name i d M

def openFile (ip : Entry) (omode : UInt32) : File :=
  ⟨.inode ip, 1, omode &&& O_WRONLY = 0, omode &&& O_WRONLY ≠ 0 ∨ omode &&& O_RDWR ≠ 0, 0⟩

structure Opened (s : Sys) (p : Pid) (omode : UInt32) (fd : Fin NOFILE) (f : Fin NFILE) (ip : Entry)
    (t : Sys) : Prop where
  file : (s.ftable f).ref = 0
  slot : (s.procs p).ofile fd = none
  state : t = ((s.withFs t.fs).withFd p fd (some f)).withFile f (openFile ip omode)

def Exhausted (s : Sys) (p : Pid) : Prop :=
  (∀ f, (s.ftable f).ref ≠ 0) ∨ ∀ fd, (s.procs p).ofile fd ≠ none

def OpenCall (sb : Superblock) (P : Nat → Prop) (s : Sys) (p : Pid) (omode : UInt32)
    (w : Option Nat) (name : Str) (r : Int) (t : Sys) : Prop :=
  ∃ M, Done sb P s M t ∧ OpenTable sb s.refs P s.fs omode w name M t.fs ∧
    (r = -1 ∧ t = s.withFs t.fs ∧
        (M = s.fs.node sb ∧ SameInodes sb s.refs s.fs t.fs ∨ Exhausted s p) ∨
      ∃ fd f ip, r = (fd : Fin NOFILE) ∧ Opened s p omode fd f ip t)

structure Opening (sb : Superblock) (R : Multiset Entry) (P : Nat → Prop) (s : State)
    (omode : UInt32) (w : Option Nat) (name : Str) (ip : Entry) (M : Nat → Node) (t : State) :
    Prop where
  cached : Cached sb (ip ::ₘ R) [ip] t
  dir : (t.nodeAt sb ip).type = T_DIR → omode = O_RDONLY
  settles : ∃ I D, I.length ≤ 3 ∧ D.length ≤ 6 ∧ Settles sb R s M I D t
  table : OpenTable sb R P s omode w name M t

theorem OpenPost.opening {R : Multiset Entry} {P : Nat → Prop} {s t : State} {omode : UInt32}
    {w : Option Nat} {name : Str} {r : Option Entry} (h : OpenPost sb R P s omode w name r t) :
    (r = none ∧ Cached sb R [] t ∧ Quiet sb R s t ∧ (omode &&& O_CREATE ≠ 0 → Taken sb s w name)) ∨
      ∃ ip M, r = some ip ∧ Opening sb R P s omode w name ip M t := by
  rcases h with h | ⟨ip, rfl, ⟨hin, hdir, htaken⟩ | ⟨hcreate, d, hw, hc, i, D, M, -, hn, hs, hD, hdone⟩⟩
  · exact Or.inl h
  · exact Or.inr ⟨ip, _, rfl, hin.cached, hdir,
      ⟨[], [], Nat.zero_le 3, Nat.zero_le 6, hin.quiet.settles⟩,
      Or.inl ⟨rfl, hin.quiet.inodes, htaken⟩⟩
  · refine Or.inr ⟨ip, M, rfl, hc, fun ht => ?_, ⟨[i, d], D, Nat.le_succ 2, hD, hs⟩,
      Or.inr ⟨hcreate, i, d, hw, hdone⟩⟩
    -- a new file is no directory
    have hfile : (M i).type = T_FILE := by
      rw [hdone.table, created, if_neg (by decide), update_of_ne hdone.ne,
        update_self]
      rfl
    rw [hn, hfile] at ht
    exact absurd ht (by decide)

section Open

variable {R : Multiset Entry} {P : Nat → Prop} {s : Sys} {u v : State} {omode : UInt32}
  {w : Option Nat} {name : Str} {ip : Entry} {M : Nat → Node}

theorem OpenTable.begun {s : State} (h : OpenTable sb R P s.begun omode w name M u) :
    OpenTable sb R P s omode w name M u.ended := by
  rcases h with ⟨hM, hino, htaken⟩ | ⟨hcreate, i, d, hw, hdone⟩
  · exact Or.inl ⟨hM, fun j hj hl => hino j hj fun hb => hl (loose_begun.mp hb), htaken⟩
  · exact Or.inr ⟨hcreate, i, d, hw, hdone.begun⟩

theorem OpenTable.act {s t : State} (h : OpenTable sb R P s omode w name M u) :
    Act sb R P s t M := by
  rcases h with ⟨rfl, -⟩ | ⟨-, i, d, -, hdone⟩
  · exact .look
  · exact .create (by decide) hdone

theorem Opening.quiet {s t u : State} (h : Opening sb R P s omode w name ip M t)
    (hq : Quiet sb R t u) : OpenTable sb R P s omode w name M u ∧
      ∃ I D, I.length ≤ 3 ∧ D.length ≤ 6 ∧ Settles sb R s M I D u := by
  obtain ⟨I, D, hI, hD, hs⟩ := h.settles
  refine ⟨?_, I, D, hI, hD, hs.quiet hq⟩
  rcases h.table with ⟨rfl, hino, htaken⟩ | hnew
  · refine Or.inl ⟨rfl, fun j hj hl => ?_, htaken⟩
    refine (hq.inodes j hj fun hlt => hl ?_).trans (hino j hj hl)
    have hn := hs.node_of_type hlt.inum hlt.type
    exact ⟨hlt.inum, hn ▸ hlt.type, hn ▸ hlt.nlink,
      fun e he heq => hlt.unref e he ((hs.inum e he).trans heq)⟩
  · exact Or.inr hnew

end Open

def File.taken (ff : File) : File := { ff with ref := 1 }

theorem fileclose_fresh {s : Sys} {f : Fin NFILE} (href : (s.ftable f).ref = 0)
    (htype : (s.ftable f).type = .none) {Q : Unit → Sys → Prop} {E : Stop → Sys → Prop} :
    ((fileclose sb f).run (s.withFile f (s.ftable f).taken)).Sat Q E = Q () s := by
  have hback : { s.ftable f with type := .none, ref := 0 } = s.ftable f := by rw [← htype, ← href]
  have hone : (s.ftable f).taken.ref = 1 := rfl
  simp only [fileclose, sat_bind]
  rw [sat_file, withFile_self, hone, if_neg (by decide), if_neg (by decide), sat_bind,
    sat_setFile, withFile_self]
  simp only [File.taken, htype, sat_pure]
  simp only [Sys.withFile, update_idem]
  rw [hback, update_eq_self]

section Calls

variable {s : Sys} {P : Nat → Prop} {cwd : Entry} {p : Pid} {omode : UInt32} {w : Option Nat}
  {name : Str} {ip : Entry} {M : Nat → Node} {u : State} (hsb : sb.Wf) (h : Ok sb s)
include h

theorem openCall_failed (ho : Opening sb s.refs P s.fs.begun omode w name ip M u)
    (hwhy : Exhausted s p) {v : State} (hp : Put sb s.refs [] ip u v) :
    OpenCall sb P s p omode w name (-1) (s.withFs v.ended) := by
  obtain ⟨htable, I, D, hI, hD, hs⟩ := ho.quiet hp.quiet
  have htable' := htable.begun
  exact ⟨M, h.settle hp.cached hs htable'.act hI hD, htable', Or.inl ⟨rfl, rfl, Or.inr hwhy⟩⟩

theorem openCall_opened (ho : Opening sb s.refs P s.fs.begun omode w name ip M u) {v : State}
    (hc : Cached sb (ip ::ₘ s.refs) [] v) (hq : Quiet sb (ip ::ₘ s.refs) u v) {f : Fin NFILE}
    {fd : Fin NOFILE} {t : Sys} (hp : (s.procs p).cwd = some cwd) (ho' : Opened s p omode fd f ip t)
    (hfs : t.fs = v.ended) : OpenCall sb P s p omode w name (fd : Fin NOFILE) t := by
  have hmem : ip ∈ ip ::ₘ s.refs := Multiset.mem_cons_self ip s.refs
  have hsub : s.refs ⊆ ip ::ₘ s.refs := fun _ => Multiset.mem_cons_of_mem
  obtain ⟨htable, I, D, hI, hD, hs⟩ := ho.quiet (hq.mono hsub)
  have htable' := htable.begun
  have hf := h.tables.not_mem ho'.file
  have htype := h.tables.free f hf
  have hnode : v.nodeAt sb ip = u.nodeAt sb ip := hq.nodeAt hmem (ho.cached.inum_lt hmem)
  have hne : (u.nodeAt sb ip).type ≠ 0 := ho.cached.type_ne (List.mem_singleton_self ip)
  have hvalid := hq.valid ip hmem (ho.cached.valid ip (List.mem_singleton_self ip)).2
  have hft : t.ftable = update s.ftable f (openFile ip omode) := by
    rw [ho'.state]
    rfl
  have hprocs : t.procs = (s.withFd p fd (some f)).procs := by
    rw [ho'.state]
    rfl
  have hrefs : t.refs = ip ::ₘ s.refs := by
    rw [ho'.state]
    refine (refs_open (s := (s.withFs t.fs).withFd p fd (some f)) htype rfl).trans ?_
    exact congrArg (ip ::ₘ ·) (refs_withFd (s.withFs t.fs) (some f))
  have hfds : t.fds = f ::ₘ s.fds := by
    rw [ho'.state]
    exact fds_install (s := s.withFs t.fs) ho'.slot
  rw [← hrefs] at hc
  obtain ⟨hok, hturns⟩ := h.toFsOk.settle hc hs htable'.act (h.fits hs hI hD) hfs
    (by rw [hrefs]; exact hsub)
    (by
      intro e he
      rw [hrefs] at he
      rcases Multiset.mem_cons.mp he with rfl | he
      · exact Or.inr ⟨hnode ▸ hne, hvalid⟩
      · exact Or.inl he)
    (by
      intro g e _
      by_cases hg : g = f
      · subst hg
        refine Or.inr ?_
        rw [hft, update_self]
        refine ⟨fun hw hdir => ?_, fun _ => Nat.zero_le _⟩
        have heq : e = ip := by
          rename_i hge
          rw [hft, update_self] at hge
          cases hge
          rfl
        rw [heq, hnode] at hdir
        rw [ho.dir hdir] at hw
        exact absurd hw (show ¬ (decide (O_RDONLY &&& O_WRONLY ≠ 0 ∨ O_RDONLY &&& O_RDWR ≠ 0) = true)
          by decide)
      · refine Or.inl ?_
        rw [hft, update_of_ne hg])
  refine ⟨M, ⟨⟨hok, ?_, ?_, ?_⟩, hturns, ?_⟩, ?_, Or.inr ⟨fd, f, ip, rfl, ho'⟩⟩
  · rw [hfds]
    have hraise := h.tables.raise f (openFile ip omode) (by rw [ho'.file]; rfl)
    exact hraise.congr hft
  · intro g hg
    rw [hft]
    by_cases hgf : g = f
    · rw [hgf, update_self]
      exact nofun
    · rw [update_of_ne hgf]
      rw [hfds] at hg
      exact h.opened g ((Multiset.mem_cons.mp hg).resolve_left hgf)
  · intro q hq fd'
    rw [hprocs, withFd_cwd] at hq
    rw [hprocs]
    have hqp : q ≠ p := by
      rintro rfl
      rw [hp] at hq
      cases hq
    rw [withFd_ofile s (some f) (q, fd'), if_neg fun he => hqp (congrArg Prod.fst he)]
    exact h.unused q hq fd'
  · rw [hfs]
    exact htable'.act
  · rw [hfs]
    exact htable'

include hsb

theorem sysOpen_spec (hP : Closed sb (s.fs.node sb) P) (hcwd : cwd ∈ s.refs) (hroot : P ROOTINO)
    (hstart : P (s.fs.icache cwd).inum) (hp : (s.procs p).cwd = some cwd)
    (args : Option (Str × UInt32)) : ((sysOpen sb p cwd args).run s).Sat
      (fun r t => r = -1 ∧ t = s ∧ args = none ∨ ∃ path omode, args = some (path, omode) ∧
        OpenCall sb P s p omode
          (walk (s.fs.node sb) true (path.length + 1) path (startOf s.fs cwd path))
          (lastElem (path.length + 1) path []) r t) (fun x _ => CallStop sb s.refs P s.fs x) := by
  cases args with
  | none =>
    rw [sysOpen, sat_pure]
    exact Or.inl ⟨rfl, rfl, rfl⟩
  | some args =>
    obtain ⟨path, omode⟩ := args
    simp only [sysOpen, sat_bind]
    rw [sat_begin, sat_fs]
    refine (openInode_spec (s := s.fs.begun) hsb hP path h.begun h.op.ge hcwd hroot hstart h.alive
      omode).mono ?_ fun x _ hx => hx.begun
    intro r u hopen
    rcases hopen.opening with ⟨rfl, hc, hq, htaken⟩ | ⟨ip, M, rfl, ho⟩
    · simp only [sat_bind]
      rw [sat_end hc.good.held (hq.frame.outstanding.trans h.op), sat_pure]
      obtain ⟨hs, M, hdone, hcase⟩ := namePost_failed (P := P) (A := fun _ => False) h hc hq.settles
        (Nat.zero_le 3) (Nat.zero_le 6) hq.inodes
      obtain ⟨-, rfl, hino⟩ := hcase.resolve_right fun hr => hr.2
      exact Or.inr ⟨path, omode, rfl, _, hdone, Or.inl ⟨rfl, hino, htaken⟩,
        Or.inl ⟨rfl, hs, Or.inl ⟨rfl, hino⟩⟩⟩
    have hop : u.blk.outstanding = 1 := by
      obtain ⟨I, D, -, -, hs⟩ := ho.settles
      exact hs.frame.outstanding.trans h.op
    have hput : ∀ {Q : Unit → State → Prop} {E : Stop → State → Prop},
        (∀ v, Put sb s.refs [] ip u v → Q () v) → ((iunlockput sb ip).run u).Sat Q E := fun hQ =>
      (iunlockput_spec hsb ho.cached List.not_mem_nil hop.ge).imp fun _ v hp => hQ v hp
    simp only [sat_bind]
    refine filealloc_spec.imp ?_
    rintro _ _ (⟨rfl, rfl, hfull⟩ | ⟨f, rfl, href, rfl⟩)
    · simp only [sat_bind]
      rw [sat_fs]
      refine hput fun v hp => ?_
      rw [sat_end hp.cached.good.held (hp.quiet.frame.outstanding.trans hop), sat_pure]
      exact Or.inr ⟨path, omode, rfl, openCall_failed h ho (Or.inl hfull) hp⟩
    have htype : (s.ftable f).type = .none := h.tables.free f (h.tables.not_mem href)
    simp only [sat_bind]
    refine fdalloc_spec.imp ?_
    rintro _ _ (⟨rfl, rfl, hfull⟩ | ⟨fd, rfl, hfd, rfl⟩)
    · simp only [sat_bind]
      change ((fileclose sb f).run ((s.withFs u).withFile f ((s.withFs u).ftable f).taken)).Sat _ _
      rw [fileclose_fresh (s := s.withFs u) href htype, sat_fs]
      refine hput fun v hp => ?_
      rw [sat_end hp.cached.good.held (hp.quiet.frame.outstanding.trans hop), sat_pure]
      exact Or.inr ⟨path, omode, rfl, openCall_failed h ho (Or.inr hfull) hp⟩
    · simp only [sat_bind]
      rw [sat_fs]
      refine (iunlock_spec ho.cached List.not_mem_nil).imp ?_
      rintro _ v ⟨hc, hq, hb, -⟩
      rw [sat_end hc.good.held (hb ▸ hop), sat_setFile, sat_pure]
      refine Or.inr ⟨path, omode, rfl, openCall_opened h ho hc hq hp ⟨href, hfd, ?_⟩ rfl⟩
      simp only [Sys.withFile, Sys.withFd, Sys.withProc, Sys.withFs, update_idem,
        update_self]
      rfl

end Calls

end BossOs.Fs
