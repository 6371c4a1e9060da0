import BossOs.Fs.Invariant

/-!
# System calls on names

`sys_link`, `sys_unlink`, `sys_mkdir` and `sys_mknod` as a whole. Each is one transaction and
leaves the files, the descriptors and the current directories as they are.
-/

namespace BossOs.Fs

open Lib
open Prog (sat_bind sat_pure)

variable {sb : Superblock}

def SameInodes (sb : Superblock) (R : Multiset Entry) (s t : State) : Prop :=
  ∀ j, j < sb.ninodes → ¬ Loose sb R s j → ino sb t.blk.disk j = ino sb s.blk.disk j

def NamePost (sb : Superblock) (P : Nat → Prop) (s : Sys) (A : (Nat → Node) → Prop) (r : Int)
    (t : Sys) : Prop :=
  t = s.withFs t.fs ∧ ∃ M, Done sb P s M t ∧
    (r = -1 ∧ M = s.fs.node sb ∧ SameInodes sb s.refs s.fs t.fs ∨ r = 0 ∧ A M)

section Calls

variable {s : Sys} {P : Nat → Prop} {cwd : Entry} (hsb : sb.Wf) (h : Ok sb s)
  (hP : Closed sb (s.fs.node sb) P) (hcwd : cwd ∈ s.refs) (hroot : P ROOTINO)
  (hstart : P (s.fs.icache cwd).inum)

include h in
theorem namePost_refused {A : (Nat → Node) → Prop} : NamePost sb P s A (-1) s := by
  exact ⟨rfl, _, ⟨h, .refl .., .look⟩, Or.inl ⟨rfl, rfl, fun _ _ _ => rfl⟩⟩

include h in
theorem namePost_failed {A : (Nat → Node) → Prop} {u : State} {I D : List Nat}
    (hc : Cached sb s.refs [] u) (hs : Settles sb s.refs s.fs.begun (s.fs.node sb) I D u)
    (hI : I.length ≤ 3) (hD : D.length ≤ 6) (hino : SameInodes sb s.refs s.fs.begun u) :
    NamePost sb P s A (-1) (s.withFs u.ended) := by
  refine ⟨rfl, _, h.settle hc hs .look hI hD, Or.inl ⟨rfl, rfl, fun j hj hl => ?_⟩⟩
  exact hino j hj fun hb => hl (loose_begun.mp hb)

include hsb h hP hcwd hroot hstart

theorem sysLink_spec (args : Option (Str × Str)) : ((sysLink sb cwd args).run s).Sat
      (fun r t => NamePost sb P s (fun M => ∃ name i d, LinkDone sb P (s.fs.node sb) name i d M) r t ∧
        ∀ old new, args = some (old, new) → ¬ LinkWaits sb s.fs cwd old new)
      (fun x _ => CallStop sb s.refs P s.fs x ∨ x = .deadlock ∧ ∃ old new, args = some (old, new) ∧
        LinkWaits sb s.fs cwd old new) := by
  cases args with
  | none =>
    rw [sysLink, sat_pure]
    exact ⟨namePost_refused h, fun _ _ harg => by cases harg⟩
  | some args =>
    obtain ⟨old, new⟩ := args
    simp only [sysLink, sat_bind]
    rw [sat_begin, sat_fs]
    refine (link_spec (s := s.fs.begun) hsb hP old new h.begun h.op.ge hcwd hroot hstart).mono ?_ ?_
    · rintro r u ⟨hnot, hc, M, I, D, hs, hI, hD, hr⟩
      rw [sat_end hc.good.held (hs.frame.outstanding.trans h.op), sat_pure]
      refine ⟨?_, fun _ _ harg => by cases harg; exact hnot⟩
      rcases hr with ⟨rfl, rfl, hino⟩ | ⟨rfl, i, d, hdone⟩
      · exact namePost_failed h hc hs (by omega) (by omega) hino
      · exact ⟨rfl, M, h.settle hc hs (.link hdone) (by omega) (by omega),
          Or.inr ⟨rfl, _, i, d, hdone⟩⟩
    · rintro x _ (hx | ⟨hx, hdead⟩)
      · exact Or.inl hx.begun
      · exact Or.inr ⟨hx, old, new, rfl, hdead⟩

theorem sysUnlink_spec (path : Option Str) : ((sysUnlink sb cwd path).run s).Sat
      (fun r t => NamePost sb P s (fun M => ∃ path' i d k, path = some path' ∧
        walk (s.fs.node sb) true (path'.length + 1) path' (startOf s.fs cwd path') = some d ∧
        UnlinkDone sb P (s.fs.node sb) (lastElem (path'.length + 1) path' []) i d k M ∧
        ((M i).nlink = 0 → (∀ e ∈ s.refs, (s.fs.icache e).inum ≠ i) →
          t.fs.node sb i = Node.free)) r t) (fun x _ => ∃ path', path = some path' ∧
        UnlinkStop sb s.refs P s.fs (lastElem (path'.length + 1) path' []) x) := by
  cases path with
  | none =>
    rw [sysUnlink, sat_pure]
    exact namePost_refused h
  | some path =>
    simp only [sysUnlink, sat_bind]
    rw [sat_begin, sat_fs]
    refine (unlink_spec (s := s.fs.begun) hsb hP path h.begun h.op.ge hcwd hroot hstart).mono ?_ ?_
    · rintro r u ⟨hc, M, I, D, hs, hI, hD, hr⟩
      rw [sat_end hc.good.held (hs.frame.outstanding.trans h.op), sat_pure]
      rcases hr with ⟨rfl, rfl, rfl⟩ | ⟨rfl, i, d, k, hw, hdone, hfree⟩
      · exact namePost_failed h hc hs hI (by omega) fun j hj => hs.inodes j hj List.not_mem_nil
      · exact ⟨rfl, M, h.settle hc hs (.unlink hdone hfree) hI (by omega),
          Or.inr ⟨rfl, path, i, d, k, rfl, hw, hdone, hfree⟩⟩
    · intro x _ hx
      exact ⟨path, rfl, hx.begun⟩

theorem sysCreate_spec (args : Option (Str × Int16 × Int16 × Int16))
    (htype : ∀ a, args = some a → a.2.1 ≠ 0 ∧ a.2.1 ≠ T_FILE) : ((sysCreate sb cwd args).run s).Sat
      (NamePost sb P s fun M => ∃ name type major minor i d,
        CreateDone sb s.refs P s.fs type major minor name i d M)
      (fun x _ => CallStop sb s.refs P s.fs x) := by
  cases args with
  | none =>
    simp only [sysCreate, sat_bind]
    rw [sat_begin, sat_end (s := s.withFs s.fs.begun) h.begun.good.held h.op, sat_pure]
    exact namePost_failed h h.begun (Quiet.refl ..).settles (Nat.zero_le 3) (Nat.zero_le 6)
      (Quiet.refl ..).inodes
  | some args =>
    obtain ⟨path, type, major, minor⟩ := args
    obtain ⟨ht0, htf⟩ := htype _ rfl
    simp only [sysCreate, sat_bind]
    rw [sat_begin, sat_fs]
    refine (create_spec (s := s.fs.begun) hsb hP path ht0 h.begun h.alive h.op.ge hcwd hroot
      hstart).mono ?_
      fun x _ hx => hx.begun
    rintro r u (⟨rfl, hc, hq, -⟩ | ⟨ip, rfl, ⟨-, hf, -⟩ | ⟨d, -, hc, i, D, M, hi, hn, hs, hD, hdone⟩⟩)
    · simp only [sat_bind]
      rw [sat_end hc.good.held (hq.frame.outstanding.trans h.op), sat_pure]
      exact namePost_failed h hc hq.settles (Nat.zero_le 3) (Nat.zero_le 6) hq.inodes
    · exact absurd hf htf
    · simp only [sat_bind]
      rw [sat_fs]
      refine (iunlockput_spec hsb hc List.not_mem_nil (hs.op h.op.ge)).imp ?_
      intro _ v hp
      have hsv := hs.quiet hp.quiet
      rw [sat_end hp.cached.good.held (hsv.frame.outstanding.trans h.op), sat_pure]
      have hdone' := hdone.begun
      exact ⟨rfl, M, h.settle hp.cached hsv (.create ht0 hdone') (Nat.le_succ 2) hD,
        Or.inr ⟨rfl, _, type, major, minor, i, d, hdone'⟩⟩

def ChdirPost (sb : Superblock) (P : Nat → Prop) (s : Sys) (p : Pid) (cwd : Entry) (r : Int)
    (t : Sys) : Prop :=
  NamePost sb P s (fun _ => False) r t ∨ r = 0 ∧ ∃ ip, t = (s.withFs t.fs).withCwd p (some ip) ∧
    cwd ::ₘ t.refs = ip ::ₘ s.refs ∧ (t.fs.nodeAt sb ip).type = T_DIR ∧ P (t.fs.icache ip).inum ∧
    Done sb P s (s.fs.node sb) t

theorem sysChdir_spec {p : Pid} (hp : (s.procs p).cwd = some cwd) (path : Option Str) :
    ((sysChdir sb p cwd path).run s).Sat (ChdirPost sb P s p cwd)
      (fun x _ => CallStop sb s.refs P s.fs x) := by
  cases path with
  | none =>
    simp only [sysChdir, sat_bind]
    rw [sat_begin, sat_end (s := s.withFs s.fs.begun) h.begun.good.held h.op, sat_pure]
    exact Or.inl (namePost_failed h h.begun (Quiet.refl ..).settles (Nat.zero_le 3) (Nat.zero_le 6)
      (Quiet.refl ..).inodes)
  | some path =>
    simp only [sysChdir, sat_bind]
    rw [sat_begin, sat_fs]
    refine (chdirInode_spec (s := s.fs.begun) hsb hP path h.begun h.op.ge hcwd hroot hstart).mono ?_
      fun x _ hx => hx.begun
    rintro r u (⟨rfl, hc, hq⟩ | ⟨ip, rfl, hu⟩)
    · simp only [sat_bind]
      rw [sat_end hc.good.held (hq.frame.outstanding.trans h.op), sat_pure]
      exact Or.inl (namePost_failed h hc hq.settles (Nat.zero_le 3) (Nat.zero_le 6) hq.inodes)
    obtain ⟨R₀, hR₀⟩ : ∃ R₀, (s.withCwd p none).refs = R₀ := ⟨_, rfl⟩
    have hold := refs_leave hp
    rw [hR₀] at hold
    have hc := hu.cached
    rw [hold, Multiset.cons_swap] at hc
    have hq := hu.quiet
    simp only [sat_bind]
    rw [sat_fs]
    refine (iput_spec hsb hc (hq.settles.op h.op.ge)).mono ?_ fun x _ hx =>
      absurd hx.2 List.not_mem_nil
    rintro _ v ⟨hput, -⟩
    have hop : v.blk.outstanding = 1 :=
      hput.quiet.frame.outstanding.trans (hq.frame.outstanding.trans h.op)
    rw [sat_end hput.cached.good.held hop, sat_setProc, sat_pure]
    obtain ⟨t, ht⟩ : ∃ t, t = (s.withFs v.ended).withCwd p (some ip) := ⟨_, rfl⟩
    change ChdirPost sb P s p cwd 0 ((s.withFs v.ended).withCwd p (some ip))
    rw [← ht]
    have hrefs : t.refs = ip ::ₘ R₀ := by
      rw [ht, ← hR₀]
      exact refs_move (s := s.withFs v.ended) ip
    have hip : ip ∈ t.refs := by
      rw [hrefs]
      exact Multiset.mem_cons_self ip R₀
    have hfds : t.fds = s.fds := by
      rw [ht]
      exact fds_withCwd (s.withFs v.ended) p (some ip)
    rw [← hrefs] at hc hput
    have hnew : ∀ e ∈ t.refs, e ∈ s.refs ∨ (u.nodeAt sb e).type ≠ 0 ∧ (u.icache e).valid = true := by
      intro e he
      rw [hrefs] at he
      rcases Multiset.mem_cons.mp he with rfl | he
      · refine Or.inr ⟨?_, hu.valid⟩
        rw [hu.type]
        decide
      · rw [hold]
        exact Or.inl (Multiset.mem_cons_of_mem he)
    obtain ⟨hfs, hturns⟩ := h.toFsOk.of_put hold (by rw [hrefs]; exact fun _ => Multiset.mem_cons_of_mem)
      (by rw [ht]; rfl) hc hq hput hnew (by rw [ht]; exact fun _ _ _ => rfl)
    have hnode : t.fs.nodeAt sb ip = u.nodeAt sb ip := by
      rw [ht]
      exact hput.quiet.nodeAt hip (hc.inum_lt (Multiset.mem_cons_of_mem hip))
    have hinum : (t.fs.icache ip).inum = (u.icache ip).inum := by
      rw [ht]
      exact hput.quiet.inum ip hip
    refine Or.inr ⟨rfl, ip, by rw [ht]; rfl, ?_, ?_, ?_, ⟨hfs, ?_, ?_, ?_⟩, hturns, .look⟩
    · rw [hrefs, hold, Multiset.cons_swap]
    · rw [hnode]
      exact hu.type
    · rw [hinum]
      exact hu.prop
    · rw [hfds]
      exact h.tables.congr (by rw [ht]; rfl)
    · rw [hfds, ht]
      exact h.opened
    · intro q hq fd
      rw [ht] at hq ⊢
      rw [withCwd_ofile]
      apply h.unused q
      by_cases hqp : q = p
      · rw [hqp, Sys.withCwd, withProc_self] at hq
        cases hq
      · rw [Sys.withCwd, withProc_of_ne _ _ hqp] at hq
        exact hq

end Calls

end BossOs.Fs
