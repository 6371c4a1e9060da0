import BossOs.Fs.WriteCall

/-!
# System calls on descriptors

`sys_read`, `sys_fstat`, `sys_dup` and `sys_close`, and what they have in common with the other
calls: each leaves the state in which the next one may start.
-/

namespace BossOs.Fs

open Lib
open Prog (sat_bind sat_ite sat_pure)

variable {sb : Superblock}

theorem Ok.done_refl {s : Sys} {P : Nat → Prop} (h : Ok sb s) : Done sb P s (s.fs.node sb) s :=
  ⟨h, Turns.refl .., .look⟩

variable {E : Stop → Sys → Prop}

section Dup

variable {s : Sys} {p : Pid} {P : Nat → Prop}

def File.more (ff : File) : File := { ff with ref := ff.ref + 1 }

theorem sat_filedup {f : Fin NFILE} (h : ¬ (s.ftable f).ref < 1) {Q : Unit → Sys → Prop} :
    ((filedup f).run s).Sat Q E = Q () (s.withFile f (s.ftable f).more) := by
  simp only [filedup, sat_bind]
  rw [sat_file, if_neg h, sat_setFile]
  rfl

/-- The descriptor `fd` of process `p` has become one more for the open file `f`. -/
structure Shares (sb : Superblock) (s : Sys) (p : Pid) (fd : Fin NOFILE) (f : Fin NFILE) (t : Sys) :
    Prop where
  state : t = (s.withFd p fd (some f)).withFile f (s.ftable f).more
  fs : FsOk sb t
  turns : Turns sb s.refs s.fs (s.fs.node sb) t.refs t.fs
  refs : t.refs = s.refs
  tables : Tables t.fds t
  opened : ∀ g ∈ t.fds, (t.ftable g).type ≠ .none
  files : ∀ g, (t.ftable g).type = (s.ftable g).type ∧
    (t.ftable g).writable = (s.ftable g).writable ∧ (t.ftable g).off = (s.ftable g).off

theorem Shares.of_free {fd : Fin NOFILE} {f : Fin NFILE} {t : Sys} (h : FsOk sb s)
    (htab : Tables s.fds s) (hopen : ∀ g ∈ s.fds, (s.ftable g).type ≠ .none) (hf : f ∈ s.fds)
    (hfree : (s.procs p).ofile fd = none)
    (ht : t = (s.withFd p fd (some f)).withFile f (s.ftable f).more) : Shares sb s p fd f t := by
  have hft : t.ftable = (s.withFile f (s.ftable f).more).ftable := by
    rw [ht]
    rfl
  have hfds : t.fds = f ::ₘ s.fds := by
    rw [ht]
    exact fds_install hfree
  have hrefs : t.refs = s.refs := by
    have hmore : ((s.withFd p fd (some f)).withFile f (s.ftable f).more).refs =
        (s.withFd p fd (some f)).refs := refs_withFile rfl
    rw [ht, hmore, refs_withFd]
  have hfs : t.fs = s.fs := by
    rw [ht]
    rfl
  have hsame : ∀ g, (t.ftable g).type = (s.ftable g).type ∧
      (t.ftable g).writable = (s.ftable g).writable ∧ (t.ftable g).off = (s.ftable g).off := by
    intro g
    rw [hft]
    by_cases hg : g = f
    · rw [hg, withFile_self]
      exact ⟨rfl, rfl, rfl⟩
    · rw [withFile_of_ne _ _ hg]
      exact ⟨rfl, rfl, rfl⟩
  have hfiles : ∀ g ip, (t.ftable g).type = .inode ip → Carried sb s t s.fs g ip := by
    intro g ip hg
    obtain ⟨h1, h2, h3⟩ := hsame g
    rw [h1] at hg
    refine Or.inr ⟨?_, ?_⟩
    · rw [h2]
      exact h.writable g ip hg
    · rw [h3]
      exact h.offsets g ip hg
  obtain ⟨hok, hturns⟩ := h.look (t := t) (by rw [hrefs, hfs]; exact h.cached)
    (by rw [hfs]; exact Quiet.refl ..) (by rw [hfs]) (by rw [hrefs]; exact fun _ => Iff.rfl) hfiles
  refine ⟨ht, hok, hturns, hrefs, ?_, ?_, hsame⟩
  · rw [hfds]
    exact (htab.raise f _ rfl).congr hft
  · intro g hg
    rw [(hsame g).1]
    rw [hfds] at hg
    rcases Multiset.mem_cons.mp hg with rfl | hg
    · exact hopen g hf
    · exact hopen g hg

theorem sysDup_spec (h : Ok sb s) (hp : (s.procs p).cwd ≠ none) (fd : Int) :
    ((sysDup p fd).run s).Sat (fun r t => r = -1 ∧ t = s ∨ ∃ (fd' : Fin NOFILE) (f : Fin NFILE),
      r = fd' ∧ Done sb P s (s.fs.node sb) t ∧ Shares sb s p fd' f t) E := by
  simp only [sysDup, sat_bind]
  apply sat_argfd
  · rw [sat_pure]
    exact Or.inl ⟨rfl, rfl⟩
  intro fd₀ f hofile
  have hf : f ∈ s.fds := mem_fds.mpr ⟨p, fd₀, hofile⟩
  simp only [sat_bind]
  refine fdalloc_spec.imp ?_
  rintro _ _ (⟨rfl, rfl, -⟩ | ⟨fd', rfl, hfree, rfl⟩)
  · rw [sat_pure]
    exact Or.inl ⟨rfl, rfl⟩
  simp only [sat_bind]
  rw [sat_filedup (s := s.withFd p fd' (some f)) (h.tables.ref_pos hf), sat_pure]
  have hsh := Shares.of_free h.toFsOk h.tables h.opened hf hfree rfl
  refine Or.inr ⟨fd', f, rfl, ⟨⟨hsh.fs, hsh.tables, hsh.opened, ?_⟩, hsh.turns, .look⟩, hsh⟩
  intro q hq fd
  have hcwd : (s.procs q).cwd = none := (withFd_cwd s (some f) q).symm.trans hq
  have hqp : q ≠ p := by
    rintro rfl
    exact hp hcwd
  have hfile : ((s.withFd p fd' (some f)).procs q).ofile fd = _ := withFd_ofile s (some f) (q, fd)
  rw [if_neg fun he => hqp (congrArg Prod.fst he), h.unused q hcwd fd] at hfile
  exact hfile

end Dup

section Read

variable {s : Sys} {p : Pid} {P : Nat → Prop} {f : Fin NFILE} {ip : Entry} (h : Ok sb s)
include h

theorem Ok.relocked (hf : (s.ftable f).type = .inode ip) {t : Sys} {off : UInt32}
    (ht : t = (s.withFs t.fs).withFile f ((s.ftable f).seek off)) (hc : Cached sb s.refs [] t.fs)
    (hq : Quiet sb s.refs s.fs t.fs) (hb : t.fs.blk = s.fs.blk)
    (hoff : (s.fs.nodeAt sb ip).type ≠ T_DEV → off.toNat ≤ (s.fs.nodeAt sb ip).size) :
    Done sb P s (s.fs.node sb) t := by
  have hrefs : t.refs = s.refs := by
    rw [ht]
    exact refs_withFile (s := s.withFs t.fs) rfl
  have hft : t.ftable = (s.withFile f ((s.ftable f).seek off)).ftable := by
    rw [ht]
    rfl
  have hprocs : t.procs = s.procs := by
    rw [ht]
    rfl
  have hfds : t.fds = s.fds := by
    rw [ht]
    rfl
  have htype : ∀ g, (t.ftable g).type = (s.ftable g).type := by
    intro g
    rw [hft]
    by_cases hg : g = f
    · rw [hg, withFile_self]
      rfl
    · rw [withFile_of_ne _ _ hg]
  obtain ⟨hok, hturns⟩ := h.toFsOk.look (t := t) (by rw [hrefs]; exact hc) hq hb
    (by rw [hrefs]; exact fun _ => Iff.rfl) (by
      intro g e hg
      by_cases hgf : g = f
      · subst hgf
        rw [htype, hf] at hg
        cases hg
        refine Or.inr ?_
        rw [hft, withFile_self]
        exact ⟨h.writable g ip hf, hoff⟩
      · refine Or.inl ?_
        rw [hft]
        exact withFile_of_ne _ _ hgf)
  refine ⟨⟨hok, ?_, ?_, ?_⟩, hturns, .look⟩
  · rw [hfds]
    have hset : Tables s.fds (s.withFile f ((s.ftable f).seek off)) :=
      h.tables.set (fun _ _ => rfl) (h.tables.ref f) (h.tables.free f)
    exact hset.congr hft
  · intro g hg
    rw [htype]
    exact h.opened g (hfds ▸ hg)
  · rw [hprocs]
    exact h.unused

def ReadPost (sb : Superblock) (P : Nat → Prop) (s : Sys) (f : Fin NFILE) (ip : Entry) (n : Nat)
    (r : Int) (t : Sys) : Prop :=
  Done sb P s (s.fs.node sb) t ∧ ∃ off, t = (s.withFs t.fs).withFile f ((s.ftable f).seek off) ∧
    ((s.fs.nodeAt sb ip).type ≠ T_DEV → n < 2 ^ 31 →
      r = ((s.fs.nodeAt sb ip).read (s.ftable f).off.toNat n).length ∧
      off.toNat = (s.ftable f).off.toNat +
        ((s.fs.nodeAt sb ip).read (s.ftable f).off.toNat n).length)

theorem fileread_spec (hf : (s.ftable f).type = .inode ip) (hrd : (s.ftable f).readable = true)
    (n : Nat) : ((fileread sb f n).run s).Sat (ReadPost sb P s f ip n) E := by
  have hip := mem_refs_of_file hf
  simp only [fileread, sat_bind]
  rw [sat_file, hrd, if_neg (by decide)]
  simp only [hf, sat_bind]
  rw [sat_fs]
  refine (ilock_alive h.cached hip List.not_mem_nil (h.alive ip hip)).imp ?_
  rintro _ u ⟨hc, hq, hb⟩
  have hnode : u.nodeAt sb ip = s.fs.nodeAt sb ip := hq.nodeAt hip (h.cached.inum_lt hip)
  rw [sat_fs]
  refine (readi_spec hc List.not_mem_nil _ _).imp ?_
  rw [hnode]
  rintro r v ⟨hsame, hread⟩
  have hqv : Quiet sb s.refs s.fs v := hq.trans hsame.quiet
  -- sizes are small, so a read of a file does not fail
  have hsome : (s.fs.nodeAt sb ip).type ≠ T_DEV → n < 2 ^ 31 →
      r = some ((s.fs.nodeAt sb ip).read (s.ftable f).off.toNat n) := by
    intro hdev hn
    have hoff := h.offsets f ip hf hdev
    have hsize := h.size_le hf
    rw [maxBytes_eq] at hsize
    have hno : ¬ ((s.fs.nodeAt sb ip).size < (s.ftable f).off.toNat ∨
        ((s.ftable f).off.toNat + n) % 2 ^ 32 < (s.ftable f).off.toNat) := by omega
    exact (hread hdev).2.trans (if_neg hno)
  -- the end of both branches
  have hend : ∀ (r' : Int) (off : UInt32),
      ((s.fs.nodeAt sb ip).type ≠ T_DEV → off.toNat ≤ (s.fs.nodeAt sb ip).size) →
      ((s.fs.nodeAt sb ip).type ≠ T_DEV → n < 2 ^ 31 →
        r' = ((s.fs.nodeAt sb ip).read (s.ftable f).off.toNat n).length ∧
        off.toNat = (s.ftable f).off.toNat +
          ((s.fs.nodeAt sb ip).read (s.ftable f).off.toNat n).length) →
      ((do
        liftM (iunlock ip)
        pure r' : SysM Int).run ((s.withFs v).withFile f ((s.ftable f).seek off))).Sat
        (ReadPost sb P s f ip n) E := by
    intro r' off hoff hres
    rw [sat_bind, sat_fs]
    refine (iunlock_spec hsame.cached List.not_mem_nil).imp ?_
    rintro _ w ⟨hcw, hqw, hbw, -⟩
    rw [sat_pure]
    exact ⟨h.relocked hf rfl hcw (hqv.trans hqw) (hbw.trans (hsame.blk.trans hb)) hoff, off, rfl, hres⟩
  cases r with
  | none =>
    have hnone := hend (-1) _ (h.offsets f ip hf) fun hdev hn => absurd (hsome hdev hn) nofun
    have hseek : (s.withFs v).withFile f ((s.ftable f).seek (s.ftable f).off) = s.withFs v :=
      seek_self (s.withFs v) f
    rw [hseek] at hnone
    exact hnone
  | some l =>
    rw [sat_bind, sat_setFile]
    have hl : (s.fs.nodeAt sb ip).type ≠ T_DEV → l = (s.fs.nodeAt sb ip).read
      (s.ftable f).off.toNat n := by
      intro hdev
      have heq := (hread hdev).2
      split at heq
      · cases heq
      · exact Option.some.inj heq
    have hadv : (s.fs.nodeAt sb ip).type ≠ T_DEV →
        ((s.ftable f).off + UInt32.ofNat l.length).toNat = (s.ftable f).off.toNat + l.length ∧
          (s.ftable f).off.toNat + l.length ≤ (s.fs.nodeAt sb ip).size := by
      intro hdev
      have hoff := h.offsets f ip hf hdev
      have hsize := h.size_le hf
      rw [maxBytes_eq] at hsize
      have hlen : l.length ≤ (s.fs.nodeAt sb ip).size - (s.ftable f).off.toNat := by
        rw [hl hdev, Node.read, List.length_map, List.length_range]
        exact Nat.min_le_right ..
      exact ⟨toNat_advance (by omega), by omega⟩
    refine hend _ ((s.ftable f).off + UInt32.ofNat l.length) ?_ ?_
    · intro hdev
      rw [(hadv hdev).1]
      exact (hadv hdev).2
    · intro hdev _
      rw [(hadv hdev).1, hl hdev]
      exact ⟨rfl, rfl⟩

theorem sysRead_spec (fd : Int) (n : Option Nat) :
    ((sysRead sb p fd n).run s).Sat (fun r t => r = -1 ∧ t = s ∨ ∃ fd' f ip m,
      (s.procs p).ofile fd' = some f ∧ (s.ftable f).type = .inode ip ∧ n = some m ∧
        ReadPost sb P s f ip m r t) E := by
  simp only [sysRead, sat_bind]
  apply sat_argfd
  · rw [sat_pure]
    exact Or.inl ⟨rfl, rfl⟩
  intro fd' f hofile
  cases n with
  | none =>
    rw [sat_pure]
    exact Or.inl ⟨rfl, rfl⟩
  | some m =>
    cases htype : (s.ftable f).type with
    | none => exact absurd htype (h.opened f (mem_fds.mpr ⟨p, fd', hofile⟩))
    | inode ip =>
      cases hrd : (s.ftable f).readable with
      | false =>
        simp only [fileread, sat_bind]
        rw [sat_file, hrd, if_pos (by decide), sat_pure]
        exact Or.inl ⟨rfl, rfl⟩
      | true =>
        refine (fileread_spec (P := P) h htype hrd m).imp ?_
        intro r u hu
        exact Or.inr ⟨fd', f, ip, m, hofile, htype, rfl, hu⟩

theorem sysFstat_spec (fd : Int) :
    ((sysFstat sb p fd).run s).Sat (fun _ t => Done sb P s (s.fs.node sb) t ∧ t = s.withFs t.fs) E := by
  simp only [sysFstat, sat_bind]
  apply sat_argfd
  · rw [sat_pure]
    exact ⟨h.done_refl, rfl⟩
  intro fd' f hofile
  simp only [filestat, sat_bind]
  rw [sat_file]
  cases htype : (s.ftable f).type with
  | none => exact absurd htype (h.opened f (mem_fds.mpr ⟨p, fd', hofile⟩))
  | inode ip =>
    have hip := mem_refs_of_file htype
    simp only [sat_bind]
    rw [sat_fs]
    refine (ilock_alive h.cached hip List.not_mem_nil (h.alive ip hip)).imp ?_
    rintro _ u ⟨hc, hq, hb⟩
    rw [sat_fs]
    refine (iunlock_spec hc List.not_mem_nil).imp ?_
    rintro _ v ⟨hcv, hqv, hbv, -⟩
    rw [sat_pure]
    have hseek : s.withFs v = (s.withFs v).withFile f ((s.ftable f).seek (s.ftable f).off) :=
      (seek_self (s.withFs v) f).symm
    exact ⟨h.relocked htype hseek hcv (hq.trans hqv) (hbv.trans hb) (h.offsets f ip htype), rfl⟩

end Read

theorem sysWrite_spec {s : Sys} {p : Pid} (hsb : sb.Wf) (h : Ok sb s) (fd : Int)
    (src : Option (List UInt8)) :
    ((sysWrite sb p fd src).run s).Sat (fun r t => r = -1 ∧ t = s ∨ ∃ fd' f ip bytes,
      (s.procs p).ofile fd' = some f ∧ (s.ftable f).type = .inode ip ∧
        (s.ftable f).writable = true ∧ src = some bytes ∧ ∃ all, WritePost sb s f ip bytes all t ∧
        r = if all = true then (bytes.length : Int) else -1)
      (fun x _ => x = .panic .outOfBlocks) := by
  simp only [sysWrite, sat_bind]
  apply sat_argfd
  · rw [sat_pure]
    exact Or.inl ⟨rfl, rfl⟩
  intro fd' f hofile
  cases src with
  | none =>
    rw [sat_pure]
    exact Or.inl ⟨rfl, rfl⟩
  | some bytes =>
    cases htype : (s.ftable f).type with
    | none => exact absurd htype (h.opened f (mem_fds.mpr ⟨p, fd', hofile⟩))
    | inode ip =>
      cases hwr : (s.ftable f).writable with
      | false =>
        simp only [filewrite, sat_bind]
        rw [sat_file, hwr, if_pos (by decide), sat_pure]
        exact Or.inl ⟨rfl, rfl⟩
      | true =>
        refine (filewrite_spec hsb bytes h htype hwr).mono ?_ fun x _ hx => hx.1
        rintro r u ⟨all, hu, hr⟩
        exact Or.inr ⟨fd', f, ip, bytes, hofile, htype, hwr, rfl, all, hu, hr⟩

def File.less (ff : File) : File := { ff with ref := ff.ref - 1 }

def File.closed (ff : File) : File := { ff with ref := 0, type := .none }

/-- One of the references to file `f` is given up; `F` are the others. -/
structure Closes (sb : Superblock) (s : Sys) (F : Multiset (Fin NFILE)) (f : Fin NFILE) (t : Sys) :
    Prop where
  fs : FsOk sb t
  turns : Turns sb s.refs s.fs (s.fs.node sb) t.refs t.fs
  tables : Tables F t
  procs : t.procs = s.procs
  others : ∀ g, g ≠ f → t.ftable g = s.ftable g
  last : f ∈ F ∧ t.refs = s.refs ∧ (t.ftable f).type = (s.ftable f).type ∨
    f ∉ F ∧ ∃ ip, (s.ftable f).type = .inode ip ∧ s.refs = ip ::ₘ t.refs

theorem fileclose_spec (hsb : sb.Wf) {s : Sys} {F : Multiset (Fin NFILE)} {f : Fin NFILE}
    (h : FsOk sb s) (ht : Tables (f ::ₘ F) s) (hopen : (s.ftable f).type ≠ .none)
    : ((fileclose sb f).run s).Sat (fun _ t => Closes sb s F f t) E := by
  have href := ht.ref f
  rw [Multiset.count_cons_self] at href
  simp only [fileclose, sat_bind]
  rw [sat_file, if_neg (by omega)]
  apply sat_ite
  · intro hpos
    have hmem : f ∈ F := Multiset.count_pos.mp (by omega)
    rw [sat_setFile]
    have hrefs : (s.withFile f (s.ftable f).less).refs = s.refs := refs_withFile rfl
    have htype : ∀ g, ((s.withFile f (s.ftable f).less).ftable g).type = (s.ftable g).type := by
      intro g
      by_cases hg : g = f
      · rw [hg, withFile_self]
        rfl
      · rw [withFile_of_ne _ _ hg]
    obtain ⟨hok, hturns⟩ := h.look (t := s.withFile f (s.ftable f).less)
      (by rw [hrefs]; exact h.cached) (Quiet.refl ..) rfl (by rw [hrefs]; exact fun _ => Iff.rfl) (by
        intro g ip hg
        rw [htype] at hg
        by_cases hgf : g = f
        · subst hgf
          refine Or.inr ?_
          rw [withFile_self]
          exact ⟨h.writable g ip hg, h.offsets g ip hg⟩
        · exact Or.inl (withFile_of_ne _ _ hgf))
    exact ⟨hok, hturns, ht.lower _ rfl fun hf => absurd hmem hf, rfl,
      fun g hg => withFile_of_ne _ _ hg, Or.inl ⟨hmem, hrefs, htype f⟩⟩
  · intro hlast
    have hmem : f ∉ F := fun hm => hlast (by have := Multiset.count_pos.mpr hm; omega)
    rw [sat_bind, sat_setFile]
    cases htype : (s.ftable f).type with
    | none => exact absurd htype hopen
    | inode ip =>
      simp only [sat_bind]
      rw [sat_begin, sat_fs]
      have hrefs : s.refs = ip ::ₘ (s.withFile f (s.ftable f).closed).refs := refs_close htype rfl
      have hc := h.begun
      rw [hrefs] at hc
      refine (iput_spec hsb hc h.op.ge).mono ?_ fun x _ hx => absurd hx.2 List.not_mem_nil
      rintro _ v ⟨hput, -⟩
      rw [sat_end hput.cached.good.held (hput.quiet.frame.outstanding.trans h.op)]
      obtain ⟨t, hst⟩ : ∃ t, t = (s.withFs v.ended).withFile f (s.ftable f).closed := ⟨_, rfl⟩
      change Closes sb s F f ((s.withFs v.ended).withFile f (s.ftable f).closed)
      rw [← hst]
      have htrefs : t.refs = (s.withFile f (s.ftable f).closed).refs := by
        rw [hst]
        rfl
      rw [← htrefs] at hrefs hput hc
      obtain ⟨hok, hturns⟩ := h.of_put hrefs (fun _ he => he) (by rw [hst]; rfl) hc (Quiet.refl ..)
        hput (fun e he => Or.inl (by rw [hrefs]; exact Multiset.mem_cons_of_mem he)) (by
          intro g e hg
          rw [hst] at hg ⊢
          by_cases hgf : g = f
          · rw [hgf, withFile_self] at hg
            cases hg
          · exact withFile_of_ne _ _ hgf)
      refine ⟨hok, hturns, ?_, ?_, ?_, Or.inr ⟨hmem, ip, htype, hrefs⟩⟩
      · have hlow := ht.lower (s.ftable f).closed (by
          change (0 : Int) = _
          omega) fun _ => rfl
        exact hlow.congr (by rw [hst]; rfl)
      · rw [hst]
        rfl
      · intro g hg
        rw [hst]
        exact withFile_of_ne _ _ hg

theorem Closes.opened {s t : Sys} {F : Multiset (Fin NFILE)} {f : Fin NFILE}
    (h : Closes sb s F f t) (hs : ∀ g ∈ f ::ₘ F, (s.ftable g).type ≠ .none) :
    ∀ g ∈ F, (t.ftable g).type ≠ .none := by
  intro g hg
  by_cases hgf : g = f
  · subst hgf
    rcases h.last with ⟨-, -, ht⟩ | ⟨hn, -⟩
    · rw [ht]
      exact hs g (Multiset.mem_cons_self g F)
    · exact absurd hg hn
  · rw [h.others g hgf]
    exact hs g (Multiset.mem_cons_of_mem hg)

theorem sysClose_spec {s : Sys} {p : Pid} {P : Nat → Prop} (hsb : sb.Wf) (h : Ok sb s) (fd : Int) :
    ((sysClose sb p fd).run s).Sat (fun r t => r = -1 ∧ t = s ∨ r = 0 ∧ ∃ fd' f,
      (s.procs p).ofile fd' = some f ∧ Done sb P s (s.fs.node sb) t ∧
        t.procs = (s.withFd p fd' none).procs ∧ Closes sb (s.withFd p fd' none) t.fds f t) E := by
  simp only [sysClose, sat_bind]
  apply sat_argfd
  · rw [sat_pure]
    exact Or.inl ⟨rfl, rfl⟩
  intro fd' f hofile
  have hfds := fds_clear hofile
  have hrefs : (s.withFd p fd' none).refs = s.refs := refs_withFd s none
  have hf : f ∈ s.fds := mem_fds.mpr ⟨p, fd', hofile⟩
  obtain ⟨hok, -⟩ := h.toFsOk.look (t := s.withFd p fd' none) (by rw [hrefs]; exact h.cached)
    (Quiet.refl ..) rfl (by rw [hrefs]; exact fun _ => Iff.rfl) fun _ _ _ => Or.inl rfl
  have htab := h.tables
  rw [hfds] at htab
  simp only [sat_bind]
  rw [sat_setFd]
  refine (fileclose_spec hsb hok (htab.congr rfl) (h.opened f hf)).imp ?_
  intro _ u hu
  rw [sat_pure]
  have hufds : u.fds = (s.withFd p fd' none).fds := by
    unfold Sys.fds
    rw [hu.procs]
  have hturns := hu.turns
  rw [hrefs] at hturns
  rw [← hufds] at hu
  refine Or.inr ⟨rfl, fd', f, hofile, ⟨⟨hu.fs, hu.tables, ?_, ?_⟩, hturns, .look⟩, hu.procs, hu⟩
  · apply hu.opened
    rw [hufds, ← hfds]
    exact h.opened
  · intro q hq fd
    rw [hu.procs, withFd_cwd] at hq
    rw [hu.procs, withFd_ofile s none (q, fd)]
    split
    · rfl
    · exact h.unused q hq fd

end BossOs.Fs
