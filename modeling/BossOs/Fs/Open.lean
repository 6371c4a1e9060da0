import BossOs.Fs.Create

/-!
# Lookups of `sys_open`, `sys_chdir` and `exec`

The parts of these calls that use the file system only.
-/

namespace BossOs.Fs

open Lib
open Prog (sat_bind sat_ite sat_pure)

variable {sb : Superblock}

section Lookup

variable {R : Multiset Entry} {s : State} {P : Nat → Prop} {cwd : Entry}

/-- What `sys_open` has before it allocates a file: nothing, an inode that is there, or a new
one; it is locked. The directory is `w`. -/
def OpenPost (sb : Superblock) (R : Multiset Entry) (P : Nat → Prop) (s : State) (omode : UInt32)
    (w : Option Nat) (name : Str) (r : Option Entry) (t : State) : Prop :=
  (r = none ∧ Cached sb R [] t ∧ Quiet sb R s t ∧ (omode &&& O_CREATE ≠ 0 → Taken sb s w name)) ∨
    ∃ ip, r = some ip ∧ (Reached sb R P s ip t ∧
        ((t.nodeAt sb ip).type = T_DIR → omode = O_RDONLY) ∧
        (omode &&& O_CREATE ≠ 0 → Taken sb s w name) ∨
      omode &&& O_CREATE ≠ 0 ∧ ∃ d, w = some d ∧ Created sb R P s T_FILE 0 0 name d ip t)

structure ChdirTo (sb : Superblock) (R : Multiset Entry) (P : Nat → Prop) (s : State) (ip : Entry)
    (t : State) : Prop where
  cached : Cached sb (ip ::ₘ R) [] t
  quiet : Quiet sb R s t
  valid : (t.icache ip).valid = true
  prop : P (t.icache ip).inum
  node : t.nodeAt sb ip = s.node sb (t.icache ip).inum
  type : (t.nodeAt sb ip).type = T_DIR

variable (hsb : sb.Wf) (hP : Closed sb (s.node sb) P) (path : Str) (h : Cached sb R [] s)
  (hop : 1 ≤ s.blk.outstanding) (hcwd : cwd ∈ R) (hroot : P ROOTINO)
  (hstart : P (s.icache cwd).inum)
include hsb hP h hop hcwd hroot hstart

theorem openInode_spec (halive : ∀ e ∈ R, (s.nodeAt sb e).type ≠ 0) (omode : UInt32) :
    ((openInode sb cwd path omode).run s).Sat
      (OpenPost sb R P s omode (walk (s.node sb) true (path.length + 1) path (startOf s cwd path))
        (lastElem (path.length + 1) path [])) (fun x _ => CallStop sb R P s x) := by
  rw [openInode]
  apply sat_ite
  · intro hcreate
    refine (create_spec hsb hP path (by decide) h halive hop hcwd hroot hstart).imp ?_
    rintro r t (⟨rfl, hc, hq, htaken⟩ | ⟨ip, rfl, ⟨hin, -, hfile, htaken⟩ | hnew⟩)
    · exact Or.inl ⟨rfl, hc, hq, fun _ => htaken⟩
    · refine Or.inr ⟨ip, rfl, Or.inl ⟨hin, fun hdir => ?_, fun _ => htaken⟩⟩
      rw [hfile] at hdir
      exact absurd hdir (by decide)
    · exact Or.inr ⟨ip, rfl, Or.inr ⟨hcreate, hnew⟩⟩
  · intro hopen
    have htaken := fun hcreate : omode &&& O_CREATE ≠ 0 => (absurd hcreate hopen :
      Taken sb s (walk (s.node sb) true (path.length + 1) path (startOf s cwd path))
        (lastElem (path.length + 1) path []))
    rw [sat_bind]
    refine (namei_locked_spec hsb hP path h hop hcwd hroot hstart).mono ?_ fun x _ hx => .name hx
    rintro r t (⟨rfl, hc, hq, -⟩ | ⟨ip, rfl, hlocked⟩)
    · rw [sat_pure]
      exact Or.inl ⟨rfl, hc, hq, htaken⟩
    simp only [sat_bind]
    refine hlocked.mono ?_ fun x _ hx => .name hx
    rintro _ u ⟨hin, -⟩
    rw [sat_inode, hin.cached.din_type (List.mem_singleton_self ip)]
    apply sat_ite
    · intro _
      rw [sat_bind]
      refine (iunlockput_spec hsb hin.cached List.not_mem_nil (hin.quiet.settles.op hop)).imp ?_
      intro _ v hp
      rw [sat_pure]
      exact Or.inl ⟨rfl, hp.cached, hin.quiet.trans hp.quiet, htaken⟩
    · intro hmode
      rw [sat_pure]
      refine Or.inr ⟨ip, rfl, Or.inl ⟨hin, fun hdir => ?_, htaken⟩⟩
      by_contra hne
      exact hmode ⟨hdir, hne⟩

theorem chdirInode_spec : ((chdirInode sb cwd path).run s).Sat
      (fun r t => r = none ∧ Cached sb R [] t ∧ Quiet sb R s t ∨
        ∃ ip, r = some ip ∧ ChdirTo sb R P s ip t) (fun x _ => CallStop sb R P s x) := by
  rw [chdirInode, sat_bind]
  refine (namei_locked_spec hsb hP path h hop hcwd hroot hstart).mono ?_ fun x _ hx => .name hx
  rintro r t (⟨rfl, hc, hq, -⟩ | ⟨ip, rfl, hlocked⟩)
  · rw [sat_pure]
    exact Or.inl ⟨rfl, hc, hq⟩
  simp only [sat_bind]
  refine hlocked.mono ?_ fun x _ hx => .name hx
  rintro _ u ⟨hin, -⟩
  have hlock : ip ∈ [ip] := List.mem_singleton_self ip
  rw [sat_inode, hin.cached.din_type hlock]
  apply sat_ite
  · intro _
    rw [sat_bind]
    refine (iunlockput_spec hsb hin.cached List.not_mem_nil (hin.quiet.settles.op hop)).imp ?_
    intro _ v hp
    rw [sat_pure]
    exact Or.inl ⟨rfl, hp.cached, hin.quiet.trans hp.quiet⟩
  · intro hdir
    rw [sat_bind]
    refine (iunlock_spec hin.cached List.not_mem_nil).imp ?_
    rintro _ v ⟨hc, hq, hb, hentry⟩
    rw [sat_pure]
    have hinum : (v.icache ip).inum = (u.icache ip).inum := by rw [hentry]
    have hnode : v.nodeAt sb ip = u.nodeAt sb ip := by
      rw [State.nodeAt, hinum, State.node, hb, State.nodeAt, State.node]
    refine Or.inr ⟨ip, rfl, hc, hin.quiet.trans (hq.mono fun _ => Multiset.mem_cons_of_mem), ?_,
      ?_, ?_, ?_⟩
    · rw [hentry]
      exact (hin.cached.valid ip hlock).2
    · rw [hinum]
      exact hin.prop
    · rw [hnode, hinum]
      exact hin.node
    · rw [hnode]
      exact not_not.mp hdir

end Lookup

theorem execReads_spec {R : Multiset Entry} {s : State} {ip : Entry} {E : Stop → State → Prop}
    (reads : List (Nat × Nat)) (h : Cached sb R [ip] s) :
    ((execReads sb ip reads).run s).Sat (fun _ t => Same sb R [ip] s t) E := by
  induction reads generalizing s with
  | nil =>
    rw [execReads, sat_pure]
    exact Same.refl h
  | cons r reads ih =>
    rw [execReads, sat_bind]
    refine (readi_spec h List.not_mem_nil r.1 r.2).imp ?_
    rintro _ t ⟨ht, -⟩
    refine (ih ht.cached).imp ?_
    intro _ u hu
    exact ⟨hu.cached, ht.quiet.trans hu.quiet, hu.blk.trans ht.blk⟩

end BossOs.Fs
