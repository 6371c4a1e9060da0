import BossOs.Fs.Failure
import BossOs.Fs.Offsets

/-!
# What calls leave behind

After any run of system calls every block has one owner or is free, and the counters of the inode
cache are the references of files and current directories.
-/

namespace BossOs.Fs

open Lib

variable {sb : Superblock}

def callStops : List Stop := [.deadlock, .panic .noEntries, .panic .noType, .panic .outOfBlocks,
  .panic .noInodes, .panic .dirlink, .panic .unlinkNlink]

theorem CallStop.mem {R : Multiset Entry} {P : Nat → Prop} {s : State} {x : Stop}
    (h : CallStop sb R P s x) : x ∈ callStops := by
  cases h with
  | name h =>
    rcases h with rfl | ⟨rfl, -⟩
    · decide
    · decide
  | outOfBlocks => decide
  | noInodes => decide
  | dirlink => decide

theorem CallStop.ne_deadlock {R : Multiset Entry} {P : Nat → Prop} {s : State} {x : Stop}
    (h : CallStop sb R P s x) : x ≠ .deadlock := by
  rintro rfl
  cases h with
  | name h => rcases h with h | ⟨h, -⟩ <;> cases h

theorem CallEnds.mem {P : Nat → Prop} {s : Sys} {cwd : Entry} {c : Call} {x : Stop}
    (h : CallEnds sb P s cwd c x) : x ∈ callStops := by
  rcases h with h | ⟨_, _, -, rfl, -⟩ | ⟨_, -, h⟩
  · exact h.mem
  · decide
  · cases h with
    | call h => exact h.mem
    | deadlock => decide
    | nlink => decide

section Runs

variable {D : Nat → Block} {input : List (Option (List UInt8))} {as : List (Pid × Call)} {s : Sys}

/-- A data block is free, or the only one of its inode's places has it; what `balloc` would return
next is a data block, and `bfree` never finds a block free. -/
theorem blocks_owned (hsb : sb.Wf) (hD : WellFormed sb D)
    (hrun : Run (fun _ _ => True) (step sb) (boot D input) as s) {disk : Nat → Block}
    (hdisk : disk = s.fs.blk.disk) : (∀ b, sb.datastart ≤ b → b < sb.size →
      used sb disk b = false ∧ (∀ r, refBlock sb (ino sb disk) disk r ≠ b) ∨
      used sb disk b = true ∧ ∃! r, refBlock sb (ino sb disk) disk r = b) ∧
    (∀ r, refBlock sb (ino sb disk) disk r ≠ 0 →
      sb.datastart ≤ refBlock sb (ino sb disk) disk r ∧ refBlock sb (ino sb disk) disk r < sb.size) ∧
    (∀ b u, (balloc sb).run s.fs.blk.begin = .ok b u → sb.datastart ≤ b ∧ b < sb.size) ∧
    ∀ p cwd c x t, (s.procs p).cwd = some cwd → s.enabled p c = true →
      (call sb p cwd c).run s = .stop x t → x ≠ .panic .freeingFree := by
  have h := run_ok hsb (boot_ok hsb hD) hrun
  have hgood := h.cached.good
  obtain ⟨howned, hreserved⟩ := hgood.disk.owns
  subst hdisk
  refine ⟨?_, howned.range, ?_, ?_⟩
  · intro b hlo hhi
    have hpos := sb.datastart_pos
    have hmark := howned.marked b hlo hhi
    cases hb : used sb s.fs.blk.disk b with
    | false =>
      rw [hb] at hmark
      exact Or.inl ⟨rfl, fun r hr => absurd (hmark.mpr ⟨r, hr⟩) Bool.false_ne_true⟩
    | true =>
      obtain ⟨r, hr⟩ := hmark.mp hb
      refine Or.inr ⟨rfl, r, hr, fun r' hr' => ?_⟩
      exact howned.inj r' r (by omega) (hr'.trans hr.symm)
  · intro b u hr
    have hop : 1 ≤ s.fs.blk.begin.outstanding := h.op.ge
    have hunheld : s.fs.blk.begin.Unheld sb := unheld_nil hgood.held
    have hspec := balloc_spec hop hunheld
    rw [hr, Outcome.sat_ok] at hspec
    obtain ⟨hlt, hfree, -, -⟩ := hspec
    refine ⟨?_, hlt⟩
    by_contra hlow
    have hused : used sb s.fs.blk.begin.disk b = true := hreserved b (by omega)
    rw [hfree] at hused
    cases hused
  · rintro p cwd c x t hp hc hr rfl
    have hspec := call_spec hsb h (closed_true _) hp trivial trivial c hc
    rw [hr, Outcome.sat_stop] at hspec
    exact absurd hspec.mem (by decide)

theorem blocks_owned_root : ∃ s, Run (fun _ _ => True) (step tiny) tinyBoot [openNew] s ∧
    ∃! r, refBlock tiny (ino tiny s.fs.blk.disk) s.fs.blk.disk r = tiny.datastart := by
  have hexec : (Lib.exec (fun _ _ => True) (step tiny) tinyBoot [openNew]).map (fun s =>
      used tiny s.fs.blk.disk tiny.datastart) = some true := by decide +kernel
  obtain ⟨s, hrun, hused⟩ := Run.of_exec_map hexec
  obtain ⟨hblocks, -⟩ := blocks_owned tiny_formats.wf tiny_formats.wellFormed hrun rfl
  rcases hblocks tiny.datastart (Nat.le_refl _) (by decide) with ⟨hfree, -⟩ | ⟨-, hone⟩
  · rw [hused] at hfree
    cases hfree
  · exact ⟨s, hrun, hone⟩

end Runs

end BossOs.Fs
