import BossOs.Fs.FileCalls

/-!
# `exec`, `fork` and `exit`

What they do to files and inodes. `fork` and `exit` go through the descriptors one by one; in
between the new process has descriptors but no current directory yet, so `Ok` is weakened to
`OkBut`.
-/

namespace BossOs.Fs

open Lib
open Prog (sat_bind sat_loop sat_pure)

variable {sb : Superblock}

section Exec

variable {s : Sys} {P : Nat → Prop} {cwd : Entry} (hsb : sb.Wf) (h : Ok sb s)
  (hP : Closed sb (s.fs.node sb) P) (hcwd : cwd ∈ s.refs) (hroot : P ROOTINO)
  (hstart : P (s.fs.icache cwd).inum)
include hsb h hP hcwd hroot hstart

theorem exec_spec (path : Option Str) (reads : List (Nat × Nat)) :
    ((exec sb cwd path reads).run s).Sat
      (fun _ t => Done sb P s (s.fs.node sb) t ∧ t = s.withFs t.fs)
      (fun x _ => CallStop sb s.refs P s.fs x) := by
  have hend : ∀ {u : State}, Cached sb s.refs [] u → Quiet sb s.refs s.fs.begun u →
      Done sb P s (s.fs.node sb) (s.withFs u.ended) := fun hc hq =>
    h.settle hc hq.settles .look (Nat.zero_le 3) (Nat.zero_le 6)
  cases path with
  | none =>
    rw [exec, sat_pure]
    exact ⟨h.done_refl, rfl⟩
  | some path =>
    simp only [exec, sat_bind]
    rw [sat_begin, sat_fs]
    refine (namei_locked_spec (s := s.fs.begun) hsb hP path h.begun h.op.ge hcwd hroot hstart).mono ?_
      fun x _ hx => .name hx.begun
    rintro r u (⟨rfl, hc, hq, -⟩ | ⟨ip, rfl, hlocked⟩)
    · simp only [sat_bind]
      rw [sat_end hc.good.held (hq.frame.outstanding.trans h.op), sat_pure]
      exact ⟨hend hc hq, rfl⟩
    simp only [sat_bind]
    rw [sat_fs]
    refine hlocked.mono ?_ fun x _ hx => .name hx.begun
    rintro _ v ⟨hin, -⟩
    rw [sat_fs]
    refine (execReads_spec reads hin.cached).imp ?_
    intro _ w hw
    have hqw := hin.quiet.trans (hw.quiet.mono fun _ => Multiset.mem_cons_of_mem)
    rw [sat_fs]
    refine (iunlockput_spec hsb hw.cached List.not_mem_nil (hqw.settles.op h.op.ge)).imp ?_
    intro _ x hx
    have hqx := hqw.trans hx.quiet
    rw [sat_end hx.cached.good.held (hqx.frame.outstanding.trans h.op), sat_pure]
    exact ⟨hend hx.cached hqx, rfl⟩

end Exec

/-- `Ok`, but process `q` may have descriptors and no current directory. -/
structure OkBut (sb : Superblock) (q : Pid) (s : Sys) : Prop extends FsOk sb s where
  tables : Tables s.fds s
  opened : ∀ f ∈ s.fds, (s.ftable f).type ≠ .none
  unused : ∀ p, p ≠ q → (s.procs p).cwd = none → ∀ fd, (s.procs p).ofile fd = none

theorem Ok.but {s : Sys} (h : Ok sb s) (q : Pid) : OkBut sb q s :=
  ⟨h.toFsOk, h.tables, h.opened, fun p _ => h.unused p⟩

theorem val_ofNat {i : Nat} (hi : i < NOFILE) : (Fin.ofNat NOFILE i).val = i := Nat.mod_eq_of_lt hi

variable {E : Stop → Sys → Prop}

section Fork

variable {s : Sys} {p q : Pid}

structure Forked (sb : Superblock) (p q : Pid) (s : Sys) (i : Nat) (t : Sys) : Prop where
  ok : OkBut sb q t
  fs : t.fs = s.fs
  refs : t.refs = s.refs
  cwd : ∀ r, (t.procs r).cwd = (s.procs r).cwd
  others : ∀ r, r ≠ q → t.procs r = s.procs r
  rest : ∀ fd : Fin NOFILE, i ≤ fd.val → (t.procs q).ofile fd = none
  copied : ∀ fd : Fin NOFILE, fd.val < i → (t.procs q).ofile fd = (s.procs p).ofile fd
  files : ∀ f, (t.ftable f).type = (s.ftable f).type ∧
    (t.ftable f).writable = (s.ftable f).writable ∧ (t.ftable f).off = (s.ftable f).off

theorem forkFd_spec (hpq : p ≠ q) {i : Nat} (hi : i < NOFILE) {t : Sys} (h : Forked sb p q s i t) :
    ((forkFd p q i).run t).Sat (fun _ u => Forked sb p q s (i + 1) u) E := by
  have hfd : (Fin.ofNat NOFILE i).val = i := val_ofNat hi
  have hpp : t.procs p = s.procs p := h.others p hpq
  have hnext : ∀ {u : Sys}, OkBut sb q u → u.fs = t.fs → u.refs = t.refs →
      (∀ r, (u.procs r).cwd = (t.procs r).cwd) → (∀ r ≠ q, u.procs r = t.procs r) →
      (∀ fd : Fin NOFILE, (u.procs q).ofile fd =
        if fd = Fin.ofNat NOFILE i then (s.procs p).ofile fd else (t.procs q).ofile fd) →
      (∀ f, (u.ftable f).type = (t.ftable f).type ∧
        (u.ftable f).writable = (t.ftable f).writable ∧ (u.ftable f).off = (t.ftable f).off) →
      Forked sb p q s (i + 1) u := by
    intro u hok hfs hrefs hcwd hoth hfile hft
    refine ⟨hok, hfs.trans h.fs, hrefs.trans h.refs, fun r => (hcwd r).trans (h.cwd r),
      fun r hr => (hoth r hr).trans (h.others r hr), ?_, ?_, ?_⟩
    · intro fd hle
      have hne : fd ≠ Fin.ofNat NOFILE i := by
        rintro rfl
        rw [hfd] at hle
        omega
      rw [hfile, if_neg hne]
      exact h.rest fd (by omega)
    · intro fd hlt
      rw [hfile]
      split
      · rfl
      · rename_i hne
        apply h.copied
        have hv : fd.val ≠ i := fun hv => hne (Fin.ext (hv.trans hfd.symm))
        omega
    · intro f
      obtain ⟨h1, h2, h3⟩ := hft f
      obtain ⟨h4, h5, h6⟩ := h.files f
      exact ⟨h1.trans h4, h2.trans h5, h3.trans h6⟩
  have hfree : (t.procs q).ofile (Fin.ofNat NOFILE i) = none := h.rest _ (Nat.le_of_eq hfd.symm)
  rw [forkFd, sat_bind, sat_myproc, hpp]
  cases hof : (s.procs p).ofile (Fin.ofNat NOFILE i) with
  | none =>
    rw [sat_pure]
    refine hnext h.ok rfl rfl (fun _ => rfl) (fun _ _ => rfl) ?_ fun _ => ⟨rfl, rfl, rfl⟩
    intro fd
    split
    · subst fd
      rw [hfree, hof]
    · rfl
  | some f =>
    have hf : f ∈ t.fds := mem_fds.mpr ⟨p, Fin.ofNat NOFILE i, by rw [hpp]; exact hof⟩
    simp only [sat_bind]
    rw [sat_filedup (h.ok.tables.ref_pos hf), sat_setFd]
    have hsh := Shares.of_free h.ok.toFsOk h.ok.tables h.ok.opened hf hfree rfl
    have hcwd : ∀ r, ((t.withFd q (Fin.ofNat NOFILE i) (some f)).procs r).cwd = (t.procs r).cwd :=
      withFd_cwd t (some f)
    have hoth : ∀ r ≠ q, (t.withFd q (Fin.ofNat NOFILE i) (some f)).procs r = t.procs r :=
      fun r hr => withProc_of_ne _ _ hr
    refine hnext (u := (t.withFile f (t.ftable f).more).withFd q (Fin.ofNat NOFILE i) (some f))
      ⟨hsh.fs, hsh.tables, hsh.opened, ?_⟩ rfl hsh.refs hcwd hoth ?_ hsh.files
    · intro r hr hnone fd
      have hfile := h.ok.unused r hr ((hcwd r).symm.trans hnone) fd
      rw [← hoth r hr] at hfile
      exact hfile
    · intro fd
      have hfile : ((t.withFd q (Fin.ofNat NOFILE i) (some f)).procs q).ofile fd = _ :=
        withFd_ofile t (some f) (q, fd)
      refine hfile.trans ?_
      by_cases he : fd = Fin.ofNat NOFILE i
      · rw [he, if_pos rfl, if_pos rfl, hof]
      · rw [if_neg he, if_neg fun hx => he (congrArg Prod.snd hx)]

theorem fork_spec (h : Ok sb s) {cwd : Entry} {P : Nat → Prop} (hp : (s.procs p).cwd = some cwd)
    (hq : (s.procs q).cwd = none) :
    ((fork p q cwd).run s).Sat (fun r t => r = q ∧ Done sb P s (s.fs.node sb) t ∧
      t.refs = cwd ::ₘ s.refs ∧ t.procs = (s.withProc q (s.procs p)).procs) E := by
  have hpq : p ≠ q := by
    rintro rfl
    rw [hp] at hq
    cases hq
  have hcwd : cwd ∈ s.refs := mem_refs.mpr (Or.inr ⟨p, hp⟩)
  have hinit : Forked sb p q s 0 s :=
    ⟨h.but q, rfl, rfl, fun _ => rfl, fun _ _ => rfl, fun fd _ => h.unused q hq fd,
      fun fd hlt => absurd hlt (Nat.not_lt_zero _), fun _ => ⟨rfl, rfl, rfl⟩⟩
  simp only [fork, sat_bind]
  refine (sat_loop (I := Forked sb p q s) (fun i t _ hlt ht => forkFd_spec hpq (by omega) ht)
    hinit).imp ?_
  intro _ t ht
  rw [Nat.zero_add] at ht
  rw [sat_fs, ht.fs]
  refine (sat_idup h.cached hcwd).imp ?_
  rintro _ u ⟨rfl, hc, hqu, hb⟩
  rw [sat_setProc, sat_pure]
  rename_i cwd
  obtain ⟨w, hw⟩ : ∃ w, w = (t.withFs u).withCwd q (some cwd) := ⟨_, rfl⟩
  change (q : Int) = q ∧ Done sb P s (s.fs.node sb) ((t.withFs u).withCwd q (some cwd)) ∧
    ((t.withFs u).withCwd q (some cwd)).refs = _ ∧ ((t.withFs u).withCwd q (some cwd)).procs = _
  rw [← hw]
  have hwt : w.ftable = t.ftable := by
    rw [hw]
    rfl
  have hrefs : w.refs = cwd ::ₘ s.refs := by
    have hnone : ((t.withFs u).procs q).cwd = none := (ht.cwd q).trans hq
    rw [hw, refs_enter hnone, ← ht.refs]
    rfl
  have hfds : w.fds = t.fds := by
    rw [hw]
    exact fds_withCwd (t.withFs u) q (some cwd)
  have hoth : ∀ r ≠ q, w.procs r = t.procs r := by
    intro r hr
    rw [hw]
    exact withProc_of_ne _ _ hr
  have hself : w.procs q = s.procs p := by
    rw [hw, Sys.withCwd, withProc_self, ← hp]
    have hof : (t.procs q).ofile = (s.procs p).ofile := funext fun fd => ht.copied fd fd.isLt
    exact congrArg (Proc.mk (s.procs p).cwd) hof
  have hfiles : ∀ f ip, (w.ftable f).type = .inode ip → Carried sb s w s.fs f ip := by
    intro f ip hf
    obtain ⟨h1, h2, h3⟩ := ht.files f
    rw [hwt, h1] at hf
    refine Or.inr ⟨?_, ?_⟩
    · rw [hwt, h2]
      exact h.writable f ip hf
    · rw [hwt, h3]
      exact h.offsets f ip hf
  obtain ⟨hok, hturns⟩ := h.toFsOk.look (t := w) (by rw [hrefs, hw]; exact hc) (by rw [hw]; exact hqu)
    (by rw [hw]; exact hb) (by
      intro e
      rw [hrefs, Multiset.mem_cons]
      exact or_iff_right_of_imp fun he => he ▸ hcwd) hfiles
  refine ⟨rfl, ⟨⟨hok, ?_, ?_, ?_⟩, hturns, .look⟩, hrefs, ?_⟩
  · rw [hfds]
    exact ht.ok.tables.congr hwt
  · rw [hfds, hwt]
    exact ht.ok.opened
  · intro r hr fd
    by_cases hrq : r = q
    · rw [hrq, hself, hp] at hr
      cases hr
    · rw [hoth r hrq] at hr ⊢
      exact ht.ok.unused r hrq hr fd
  · funext r
    by_cases hrq : r = q
    · rw [hrq, hself, withProc_self]
    · rw [hoth r hrq, ht.others r hrq, withProc_of_ne _ _ hrq]

end Fork

section Exit

variable {s : Sys} {p : Pid}

structure Exiting (sb : Superblock) (p : Pid) (s : Sys) (i : Nat) (t : Sys) : Prop where
  ok : Ok sb t
  turns : Turns sb s.refs s.fs (s.fs.node sb) t.refs t.fs
  refs : t.refs ⊆ s.refs
  cwd : ∀ r, (t.procs r).cwd = (s.procs r).cwd
  others : ∀ r, r ≠ p → t.procs r = s.procs r
  closed : ∀ fd : Fin NOFILE, fd.val < i → (t.procs p).ofile fd = none
  files : ∀ f ∈ t.fds, (t.ftable f).type = (s.ftable f).type

theorem Exiting.next {i : Nat} (hi : i < NOFILE) {t u : Sys} (hsb : sb.Wf)
    (h : Exiting sb p s i t) {f : Fin NFILE} (hof : (t.procs p).ofile (Fin.ofNat NOFILE i) = some f)
    (hu : Closes sb t (t.withFd p (Fin.ofNat NOFILE i) none).fds f u) :
    Exiting sb p s (i + 1) (u.withFd p (Fin.ofNat NOFILE i) none) := by
  have hfd : (Fin.ofNat NOFILE i).val = i := val_ofNat hi
  have hclear := fds_clear hof
  obtain ⟨v, hv⟩ : ∃ v, v = u.withFd p (Fin.ofNat NOFILE i) none := ⟨_, rfl⟩
  rw [← hv]
  have hvp : v.procs = (t.withFd p (Fin.ofNat NOFILE i) none).procs := by
    rw [hv, Sys.withFd, Sys.withProc, hu.procs]
    rfl
  have hfds : v.fds = (t.withFd p (Fin.ofNat NOFILE i) none).fds := by
    unfold Sys.fds
    rw [hvp]
  have hrefs : v.refs = u.refs := by
    rw [hv]
    exact refs_withFd u none
  have hsub : u.refs ⊆ t.refs := by
    rcases hu.last with ⟨-, heq, -⟩ | ⟨-, ip, -, heq⟩
    · rw [heq]
      exact fun _ he => he
    · rw [heq]
      exact fun _ => Multiset.mem_cons_of_mem
  have hfs : v.fs = u.fs := by
    rw [hv]
    rfl
  have hvt : v.ftable = u.ftable := by
    rw [hv]
    rfl
  have hcwd : ∀ r, (v.procs r).cwd = (t.procs r).cwd := by
    intro r
    rw [hvp]
    exact withFd_cwd t none r
  have hofile : ∀ r fd, (v.procs r).ofile fd =
      if (r, fd) = (p, Fin.ofNat NOFILE i) then none else (t.procs r).ofile fd := by
    intro r fd
    rw [hvp]
    exact withFd_ofile t none (r, fd)
  obtain ⟨hok, -⟩ := hu.fs.look (t := v) (by rw [hrefs, hfs]; exact hu.fs.cached)
    (by rw [hfs]; exact Quiet.refl ..) (by rw [hfs]) (by rw [hrefs]; exact fun _ => Iff.rfl)
    fun f ip _ => Or.inl (by rw [hvt])
  have hopen := hu.opened (by rw [← hclear]; exact h.ok.opened)
  refine ⟨⟨hok, ?_, ?_, ?_⟩, ?_, ?_, fun r => (hcwd r).trans (h.cwd r), ?_, ?_, ?_⟩
  · rw [hfds]
    exact hu.tables.congr hvt
  · rw [hfds, hvt]
    exact hopen
  · intro r hr fd
    rw [hcwd] at hr
    rw [hofile]
    split
    · rfl
    · exact h.ok.unused r hr fd
  · rw [hrefs, hfs]
    exact h.turns.trans hsb hu.turns hsub
  · rw [hrefs]
    exact fun _ he => h.refs (hsub he)
  · intro r hr
    rw [hvp, ← h.others r hr]
    exact withProc_of_ne _ _ hr
  · intro fd hlt
    rw [hofile]
    by_cases he : fd = Fin.ofNat NOFILE i
    · rw [he, if_pos rfl]
    · rw [if_neg fun hx => he (congrArg Prod.snd hx)]
      apply h.closed
      have hne : fd.val ≠ i := fun hx => he (Fin.ext (hx.trans hfd.symm))
      omega
  · intro g hg
    rw [hfds] at hg
    have hgt : g ∈ t.fds := by
      rw [hclear]
      exact Multiset.mem_cons_of_mem hg
    rw [hvt, ← h.files g hgt]
    by_cases hgf : g = f
    · subst hgf
      rcases hu.last with ⟨-, -, ht⟩ | ⟨hn, -⟩
      · exact ht
      · exact absurd hg hn
    · rw [hu.others g hgf]

theorem exitFd_spec (hsb : sb.Wf) {i : Nat} (hi : i < NOFILE) {t : Sys} (h : Exiting sb p s i t) :
    ((exitFd sb p i).run t).Sat (fun _ u => Exiting sb p s (i + 1) u) E := by
  rw [exitFd, sat_bind, sat_myproc]
  cases hof : (t.procs p).ofile (Fin.ofNat NOFILE i) with
  | none =>
    rw [sat_pure]
    refine ⟨h.ok, h.turns, h.refs, h.cwd, h.others, ?_, h.files⟩
    intro fd hlt
    by_cases he : fd.val = i
    · have hfd : fd = Fin.ofNat NOFILE i := Fin.ext (he.trans (val_ofNat hi).symm)
      rw [hfd]
      exact hof
    · exact h.closed fd (by omega)
  | some f =>
    have hf : f ∈ t.fds := mem_fds.mpr ⟨p, _, hof⟩
    have htab := h.ok.tables
    rw [fds_clear hof] at htab
    simp only [sat_bind]
    refine (fileclose_spec hsb h.ok.toFsOk htab (h.ok.opened f hf)).imp ?_
    intro _ u hu
    rw [sat_setFd]
    exact h.next hi hsb hof hu

theorem exit_spec (hsb : sb.Wf) (h : Ok sb s) {cwd : Entry} {P : Nat → Prop}
    (hp : (s.procs p).cwd = some cwd) :
    ((exit sb p cwd).run s).Sat (fun r t => r = 0 ∧ Done sb P s (s.fs.node sb) t ∧
      t.refs ⊆ s.refs ∧ t.procs = (s.withProc p ⟨none, fun _ => none⟩).procs ∧
      ∀ f ∈ t.fds, (t.ftable f).type = (s.ftable f).type) E := by
  have hinit : Exiting sb p s 0 s :=
    ⟨h, Turns.refl .., fun _ he => he, fun _ => rfl, fun _ _ => rfl,
      fun fd hlt => absurd hlt (Nat.not_lt_zero _), fun _ _ => rfl⟩
  simp only [exit, sat_bind]
  refine (sat_loop (I := Exiting sb p s) (fun i t _ hlt ht => exitFd_spec hsb (by omega) ht)
    hinit).imp ?_
  intro _ t ht
  rw [Nat.zero_add] at ht
  have hpt : (t.procs p).cwd = some cwd := (ht.cwd p).trans hp
  have hrefs := refs_leave hpt
  have hc := ht.ok.begun
  rw [hrefs] at hc
  rw [sat_begin, sat_fs]
  refine (iput_spec hsb hc ht.ok.op.ge).mono ?_ fun x _ hx => absurd hx.2 List.not_mem_nil
  rintro _ v ⟨hput, -⟩
  rw [sat_end hput.cached.good.held (hput.quiet.frame.outstanding.trans ht.ok.op), sat_setProc,
    sat_pure]
  obtain ⟨w, hw⟩ : ∃ w, w = (t.withFs v.ended).withCwd p none := ⟨_, rfl⟩
  change (0 : Int) = 0 ∧ Done sb P s (s.fs.node sb) ((t.withFs v.ended).withCwd p none) ∧
    ((t.withFs v.ended).withCwd p none).refs ⊆ _ ∧ ((t.withFs v.ended).withCwd p none).procs = _ ∧
    ∀ f ∈ ((t.withFs v.ended).withCwd p none).fds,
      (((t.withFs v.ended).withCwd p none).ftable f).type = _
  rw [← hw]
  have hwr : w.refs = (t.withCwd p none).refs := by
    rw [hw]
    rfl
  rw [← hwr] at hrefs hput hc
  have hfds : w.fds = t.fds := by
    rw [hw]
    exact fds_withCwd (t.withFs v.ended) p none
  have hwt : w.ftable = t.ftable := by
    rw [hw]
    rfl
  have hsub : w.refs ⊆ t.refs := by
    rw [hrefs]
    exact fun _ => Multiset.mem_cons_of_mem
  have hoth : ∀ r ≠ p, w.procs r = t.procs r := by
    intro r hr
    rw [hw]
    exact withProc_of_ne _ _ hr
  have hself : w.procs p = ⟨none, fun _ => none⟩ := by
    rw [hw, Sys.withCwd, withProc_self]
    exact congrArg (Proc.mk none) (funext fun fd => ht.closed fd fd.isLt)
  obtain ⟨hok, hturns⟩ := ht.ok.toFsOk.of_put hrefs (fun _ he => he) (by rw [hw]; rfl) hc
    (Quiet.refl ..) hput (fun e he => Or.inl (hsub he)) fun f ip _ => by rw [hwt]
  refine ⟨rfl, ⟨⟨hok, ?_, ?_, ?_⟩, ht.turns.trans hsb hturns hsub, .look⟩,
    fun _ he => ht.refs (hsub he), ?_, ?_⟩
  · rw [hfds]
    exact ht.ok.tables.congr hwt
  · rw [hfds, hwt]
    exact ht.ok.opened
  · intro r hr fd
    by_cases hrp : r = p
    · rw [hrp, hself]
    · rw [hoth r hrp] at hr ⊢
      exact ht.ok.unused r hr fd
  · funext r
    by_cases hrp : r = p
    · rw [hrp, hself, withProc_self]
    · rw [hoth r hrp, ht.others r hrp, withProc_of_ne _ _ hrp]
  · rw [hfds, hwt]
    exact ht.files

end Exit

end BossOs.Fs
