import BossOs.Lib.Gather
import BossOs.Fs.Sys
import Mathlib.Data.Fintype.Prod

/-!
# Files and descriptors

The descriptors refer to the file table, and the files and current directories refer to the
inode cache. `Tables F s` says that `F` are the references to the file table, wherever they
are held.
-/

namespace BossOs.Fs

open Lib
open Function (update update_apply update_idem update_of_ne update_self)

def FdType.entry : FdType → Option Entry
  | .none => Option.none
  | .inode ip => some ip

def Sys.fds (s : Sys) : Multiset (Fin NFILE) :=
  gather Finset.univ fun x : Pid × Fin NOFILE => (s.procs x.1).ofile x.2

def Sys.refs (s : Sys) : Multiset Entry :=
  gather Finset.univ (fun f => (s.ftable f).type.entry) +
    gather Finset.univ fun p => (s.procs p).cwd

structure Tables (F : Multiset (Fin NFILE)) (s : Sys) : Prop where
  ref : ∀ f, (s.ftable f).ref = (F.count f : Int)
  free : ∀ f, f ∉ F → (s.ftable f).type = .none

variable {s t : Sys} {p q : Pid} {fd : Fin NOFILE} {f g : Fin NFILE} {ip : Entry}

theorem mem_fds : f ∈ s.fds ↔ ∃ p fd, (s.procs p).ofile fd = some f := by
  unfold Sys.fds
  simp only [mem_gather, Finset.mem_univ, true_and, Prod.exists]

theorem mem_refs : ip ∈ s.refs ↔
    (∃ f, (s.ftable f).type = .inode ip) ∨ ∃ p, (s.procs p).cwd = some ip := by
  unfold Sys.refs
  simp only [Multiset.mem_add, mem_gather, Finset.mem_univ, true_and]
  refine or_congr (exists_congr fun f => ?_) Iff.rfl
  cases (s.ftable f).type with
  | none => simp [FdType.entry]
  | inode ip' => simp [FdType.entry]

theorem mem_refs_of_file (h : (s.ftable f).type = .inode ip) : ip ∈ s.refs :=
  mem_refs.mpr (Or.inl ⟨f, h⟩)

def Sys.withFile (s : Sys) (f : Fin NFILE) (ff : File) : Sys :=
  { s with ftable := update s.ftable f ff }

def Sys.withProc (s : Sys) (p : Pid) (pr : Proc) : Sys :=
  { s with procs := update s.procs p pr }

def Proc.withFd (pr : Proc) (fd : Fin NOFILE) (v : Option (Fin NFILE)) : Proc :=
  { pr with ofile := update pr.ofile fd v }

def Sys.withFd (s : Sys) (p : Pid) (fd : Fin NOFILE) (v : Option (Fin NFILE)) : Sys :=
  s.withProc p ((s.procs p).withFd fd v)

def Sys.withCwd (s : Sys) (p : Pid) (v : Option Entry) : Sys :=
  s.withProc p { s.procs p with cwd := v }

def Sys.withFs (s : Sys) (u : State) : Sys := { s with fs := u }

theorem withFile_self (s : Sys) (f : Fin NFILE) (ff : File) : (s.withFile f ff).ftable f = ff :=
  update_self ..

theorem withFile_of_ne (s : Sys) (ff : File) (h : g ≠ f) : (s.withFile f ff).ftable g = s.ftable g :=
  update_of_ne h ..

theorem withProc_self (s : Sys) (p : Pid) (pr : Proc) : (s.withProc p pr).procs p = pr :=
  update_self ..

theorem withProc_of_ne (s : Sys) (pr : Proc) (h : q ≠ p) : (s.withProc p pr).procs q = s.procs q :=
  update_of_ne h ..

theorem withFd_ofile (s : Sys) (v : Option (Fin NFILE)) (x : Pid × Fin NOFILE) :
    ((s.withFd p fd v).procs x.1).ofile x.2 =
      if x = (p, fd) then v else (s.procs x.1).ofile x.2 := by
  obtain ⟨q, fd'⟩ := x
  simp only [Prod.mk.injEq]
  by_cases hq : q = p
  · subst hq
    rw [Sys.withFd, withProc_self, Proc.withFd]
    simp only [true_and, update_apply]
  · rw [Sys.withFd, withProc_of_ne _ _ hq, if_neg fun he => hq he.1]

theorem withFd_cwd (s : Sys) (v : Option (Fin NFILE)) (q : Pid) :
    ((s.withFd p fd v).procs q).cwd = (s.procs q).cwd := by
  by_cases hq : q = p
  · subst hq
    rw [Sys.withFd, withProc_self, Proc.withFd]
  · rw [Sys.withFd, withProc_of_ne _ _ hq]

theorem withCwd_ofile (s : Sys) (v : Option Entry) (q : Pid) :
    ((s.withCwd p v).procs q).ofile = (s.procs q).ofile := by
  by_cases hq : q = p
  · subst hq
    rw [Sys.withCwd, withProc_self]
  · rw [Sys.withCwd, withProc_of_ne _ _ hq]

theorem fds_install (h : (s.procs p).ofile fd = none) : (s.withFd p fd (some f)).fds = f ::ₘ s.fds := by
  apply gather_cons (i := (p, fd)) (Finset.mem_univ (p, fd)) h
  · rw [withFd_ofile, if_pos rfl]
  · intro x _ hx
    rw [withFd_ofile, if_neg hx]

theorem fds_clear (h : (s.procs p).ofile fd = some f) : s.fds = f ::ₘ (s.withFd p fd none).fds := by
  apply gather_cons (i := (p, fd)) (Finset.mem_univ (p, fd)) _ h
  · intro x _ hx
    rw [withFd_ofile, if_neg hx]
  · rw [withFd_ofile, if_pos rfl]

theorem fds_withCwd (s : Sys) (p : Pid) (v : Option Entry) : (s.withCwd p v).fds = s.fds := by
  apply gather_congr
  intro x _
  rw [withCwd_ofile]

theorem refs_withFd (s : Sys) (v : Option (Fin NFILE)) : (s.withFd p fd v).refs = s.refs := by
  unfold Sys.refs
  congr 1
  apply gather_congr
  intro q _
  exact withFd_cwd s v q

variable {ff : File}

theorem refs_withFile (h : ff.type = (s.ftable f).type) : (s.withFile f ff).refs = s.refs := by
  unfold Sys.refs
  congr 1
  apply gather_congr
  intro g _
  by_cases hg : g = f
  · rw [hg, withFile_self, h]
  · rw [withFile_of_ne _ _ hg]

theorem refs_open (h : (s.ftable f).type = .none) (hff : ff.type = .inode ip) :
    (s.withFile f ff).refs = ip ::ₘ s.refs := by
  unfold Sys.refs
  rw [← Multiset.cons_add]
  congr 1
  apply gather_cons (Finset.mem_univ f)
  · rw [h]
    rfl
  · rw [withFile_self, hff]
    rfl
  · intro g _ hg
    rw [withFile_of_ne _ _ hg]

theorem refs_close (h : (s.ftable f).type = .inode ip) (hff : ff.type = .none) :
    s.refs = ip ::ₘ (s.withFile f ff).refs := by
  unfold Sys.refs
  rw [← Multiset.cons_add]
  congr 1
  apply gather_cons (Finset.mem_univ f)
  · rw [withFile_self, hff]
    rfl
  · rw [h]
    rfl
  · intro g _ hg
    rw [withFile_of_ne _ _ hg]

theorem refs_enter (h : (s.procs p).cwd = none) : (s.withCwd p (some ip)).refs = ip ::ₘ s.refs := by
  unfold Sys.refs
  rw [← Multiset.add_cons]
  congr 1
  apply gather_cons (Finset.mem_univ p) h
  · rw [Sys.withCwd, withProc_self]
  · intro q _ hq
    rw [Sys.withCwd, withProc_of_ne _ _ hq]

theorem refs_leave (h : (s.procs p).cwd = some ip) : s.refs = ip ::ₘ (s.withCwd p none).refs := by
  unfold Sys.refs
  rw [← Multiset.add_cons]
  congr 1
  apply gather_cons (Finset.mem_univ p) _ h
  · intro q _ hq
    rw [Sys.withCwd, withProc_of_ne _ _ hq]
  · rw [Sys.withCwd, withProc_self]

theorem refs_move (e : Entry) : (s.withCwd p (some e)).refs = e ::ₘ (s.withCwd p none).refs := by
  have hnone : ((s.withCwd p none).procs p).cwd = none := by rw [Sys.withCwd, withProc_self]
  have htwice : s.withCwd p (some e) = (s.withCwd p none).withCwd p (some e) := by
    simp only [Sys.withCwd, Sys.withProc, update_self, update_idem]
  rw [htwice, refs_enter hnone]

namespace Tables

variable {F F' : Multiset (Fin NFILE)}

theorem set (h : Tables F s) (hF : ∀ g ≠ f, F'.count g = F.count g)
    (href : ff.ref = (F'.count f : Int)) (hfree : f ∉ F' → ff.type = .none) :
    Tables F' (s.withFile f ff) := by
  refine ⟨?_, ?_⟩
  · intro g
    by_cases hg : g = f
    · rw [hg, withFile_self, href]
    · rw [withFile_of_ne _ _ hg, hF g hg]
      exact h.ref g
  · intro g hn
    by_cases hg : g = f
    · rw [hg, withFile_self]
      exact hfree (hg ▸ hn)
    · rw [withFile_of_ne _ _ hg]
      apply h.free
      intro hm
      apply hn
      rw [← Multiset.count_pos, hF g hg]
      exact Multiset.count_pos.mpr hm

theorem congr (h : Tables F s) (ht : t.ftable = s.ftable) : Tables F t := by
  refine ⟨?_, ?_⟩
  · rw [ht]
    exact h.ref
  · rw [ht]
    exact h.free

theorem ref_pos (h : Tables F s) (hf : f ∈ F) : ¬ (s.ftable f).ref < 1 := by
  have hpos := Multiset.count_pos.mpr hf
  rw [h.ref]
  omega

theorem not_mem (h : Tables F s) (hf : (s.ftable f).ref = 0) : f ∉ F := by
  rw [h.ref] at hf
  exact Multiset.count_eq_zero.mp (Int.ofNat_eq_zero.mp hf)

theorem raise (h : Tables F s) (f : Fin NFILE) (ff : File) (href : ff.ref = (s.ftable f).ref + 1) :
    Tables (f ::ₘ F) (s.withFile f ff) := by
  refine h.set (fun g hg => Multiset.count_cons_of_ne hg F) ?_ fun hf =>
    absurd (Multiset.mem_cons_self f F) hf
  rw [href, Multiset.count_cons_self, h.ref]
  push_cast
  rfl

theorem lower (h : Tables (f ::ₘ F) s) (ff : File) (href : ff.ref = (s.ftable f).ref - 1)
    (hfree : f ∉ F → ff.type = .none) : Tables F (s.withFile f ff) := by
  refine h.set (fun g hg => (Multiset.count_cons_of_ne hg F).symm) ?_ hfree
  rw [href, h.ref, Multiset.count_cons_self]
  push_cast
  omega

end Tables

section Rules

variable {E : Stop → Sys → Prop}

theorem sat_fs {α : Type} (m : FsM α) {Q : α → Sys → Prop} : ((liftM m : SysM α).run s).Sat Q E =
      (m.run s.fs).Sat (fun a u => Q a (s.withFs u)) (fun x u => E x (s.withFs u)) :=
  Prog.sat_zoom ..

theorem sat_file {Q : File → Sys → Prop} : ((file f).run s).Sat Q E = Q (s.ftable f) s :=
  Outcome.sat_ok ..

variable {Q : Unit → Sys → Prop}

theorem sat_setFile {h : File → File} :
    ((setFile f h).run s).Sat Q E = Q () (s.withFile f (h (s.ftable f))) := Prog.sat_modify ..

theorem sat_myproc {Q : Proc → Sys → Prop} : ((myproc p).run s).Sat Q E = Q (s.procs p) s :=
  Outcome.sat_ok ..

theorem sat_setProc {h : Proc → Proc} :
    ((setProc p h).run s).Sat Q E = Q () (s.withProc p (h (s.procs p))) := Prog.sat_modify ..

theorem sat_setFd {v : Option (Fin NFILE)} :
    ((setFd p fd v).run s).Sat Q E = Q () (s.withFd p fd v) := Prog.sat_modify ..

theorem filealloc_spec : (filealloc.run s).Sat
    (fun r t => r = none ∧ t = s ∧ (∀ f, (s.ftable f).ref ≠ 0) ∨
      ∃ f, r = some f ∧ (s.ftable f).ref = 0 ∧ t = s.withFile f { s.ftable f with ref := 1 }) E := by
  unfold filealloc
  simp only
  split
  · rename_i f hfind
    rw [Outcome.sat_ok]
    exact Or.inr ⟨f, rfl, by simpa using List.find?_some hfind, rfl⟩
  · rename_i hnone
    rw [Outcome.sat_ok]
    refine Or.inl ⟨rfl, rfl, fun f h0 => ?_⟩
    have hf := List.find?_eq_none.mp hnone f (List.mem_finRange f)
    simp [h0] at hf

theorem fdalloc_spec : ((fdalloc p f).run s).Sat
    (fun r t => r = none ∧ t = s ∧ (∀ fd, (s.procs p).ofile fd ≠ none) ∨
      ∃ fd, r = some fd ∧ (s.procs p).ofile fd = none ∧ t = s.withFd p fd (some f)) E := by
  rw [fdalloc, Prog.sat_bind, sat_myproc]
  cases hfind : (List.finRange NOFILE).find? fun fd => (s.procs p).ofile fd = none with
  | none =>
    rw [Prog.sat_pure]
    refine Or.inl ⟨rfl, rfl, fun fd h0 => ?_⟩
    have hf := List.find?_eq_none.mp hfind fd (List.mem_finRange fd)
    simp [h0] at hf
  | some fd =>
    rw [Prog.sat_bind, sat_setFd, Prog.sat_pure]
    exact Or.inr ⟨fd, rfl, by simpa using List.find?_some hfind, rfl⟩

theorem sat_argfd {n : Int} {Q : Option (Fin NOFILE × Fin NFILE) → Sys → Prop} (hnone : Q none s)
    (hsome : ∀ fd f, (s.procs p).ofile fd = some f → Q (some (fd, f)) s) :
    ((argfd p n).run s).Sat Q E := by
  rw [argfd, Prog.sat_bind, sat_myproc]
  apply Prog.sat_ite
  · intro _
    rw [Prog.sat_pure]
    exact hnone
  · intro _
    rw [Prog.sat_pure]
    generalize hr : Option.map _ _ = r
    cases r with
    | none => exact hnone
    | some x =>
      obtain ⟨g, hg, rfl⟩ := Option.map_eq_some_iff.mp hr
      exact hsome _ g hg

end Rules

end BossOs.Fs
