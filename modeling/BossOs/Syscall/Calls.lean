import BossOs.Fs.Balance

/-!
# One system call on files

A call gives back its locks, ends its transactions, and logs no more in one of them than it has
reserved.
-/

namespace BossOs.Fs

open Lib

variable {sb : Superblock}

theorem card_le_of_subset {sec F : List Nat} (hF : F.length ≤ MAXOPBLOCKS) (h : ∀ b ∈ sec, b ∈ F) :
    sec.toFinset.card ≤ MAXOPBLOCKS := by
  refine le_trans (Finset.card_le_card fun b hb => ?_) ((List.toFinset_card_le F).trans hF)
  exact List.mem_toFinset.mpr (h b (List.mem_toFinset.mp hb))

theorem Fits.card_le {L : Nat → Prop} (hL : ∀ j, ¬ L j) (hone : sb.size ≤ BPB) {sec : List Nat}
    (hfit : Fits sb L sec) : sec.toFinset.card ≤ MAXOPBLOCKS := by
  rcases hfit with ⟨I, D, hI, hD, hb⟩ | ⟨F, hF, hb⟩
  · refine card_le_of_subset (F := I.map sb.iblock ++ sb.bblock 0 :: D) ?_ fun b hmem => ?_
    · rw [List.length_append, List.length_map, List.length_cons]
      change _ ≤ 10
      omega
    · rcases hb b hmem with ⟨j, hj, -⟩ | ⟨i, hi, rfl⟩ | ⟨c, hc, rfl⟩ | hd
      · exact absurd hj (hL j)
      · exact List.mem_append_left _ (List.mem_map_of_mem hi)
      · have h0 : sb.bblock c = sb.bblock 0 := by
          rw [Superblock.bblock, Superblock.bblock, Nat.div_eq_of_lt (by omega), Nat.zero_div]
        rw [h0]
        exact List.mem_append_right _ List.mem_cons_self
      · exact List.mem_append_right _ (List.mem_cons_of_mem _ hd)
  · exact card_le_of_subset hF hb

theorem not_slack {R : Multiset Entry} {s : State} (htight : ∀ j, ¬ Loose sb R s j)
    (hroot : (s.node sb ROOTINO).nlink ≠ 0) (j : Nat) : ¬ Slack sb R s j := by
  rintro (hl | ⟨rfl, h0⟩)
  · exact htight j hl
  · exact hroot h0

section Call

variable {s : Sys} {p : Pid} {cwd : Entry} (hsb : sb.Wf) (h : Ok sb s)
include hsb h

/-- A call that returns holds no lock, has ended its transactions and begun none inside another,
and the references are what they were but for those that it opens, closes or exchanges. -/
theorem calls_balanced (hp : (s.procs p).cwd = some cwd) (c : Call) (hc : s.enabled p c = true) :
    ((call sb p cwd c).run s).Sat
      (fun r t => t.fs.blk.outstanding = 0 ∧ t.fs.blk.nested = false ∧ t.fs.blk.held = [] ∧
        (∀ e, (t.fs.icache e).locked = false) ∧
        (∀ e, (s.fs.icache e).ref = s.refs.count e ∧ (t.fs.icache e).ref = t.refs.count e) ∧
        (∀ e ∈ s.refs, e ∈ t.refs → (t.fs.icache e).inum = (s.fs.icache e).inum) ∧
        Moves s p cwd r t c)
      (fun x _ => x ≠ .panic .iunlock ∧ x ≠ .panic .brelse ∧ x ≠ .panic .bwrite) := by
  refine (call_spec hsb h (closed_true _) hp trivial trivial c hc).mono ?_ ?_
  · rintro r t ⟨M, hdone, hmoves, -⟩
    have hok := hdone.ok
    refine ⟨hok.outstanding, hok.nested, hok.cached.good.held, fun e => ?_,
      fun e => ⟨h.cached.ref e, hok.cached.ref e⟩, fun e he het => hdone.turns.inum e het he, hmoves⟩
    rw [Bool.eq_false_iff]
    exact fun hl => List.not_mem_nil ((hok.cached.locked e).mp hl)
  · intro x _ hx
    refine ⟨?_, ?_, ?_⟩ <;> rintro rfl <;> exact absurd hx.mem (by decide)

/-- Every transaction of a call fits its reservation if the free map is one block; the chunks of a
write do so for any free map. -/
theorem sections_fit (htight : ∀ j, ¬ Loose sb s.refs s.fs j)
    (hroot : (s.fs.node sb ROOTINO).nlink ≠ 0) (hp : (s.procs p).cwd = some cwd) (c : Call)
    (hc : s.enabled p c = true) (hone : sb.size ≤ BPB ∨ ∃ fd src, c = .write fd src) :
    ((call sb p cwd c).run s).Sat
      (fun _ t => ∃ secs, t.fs.blk.sections = s.fs.blk.sections ++ secs ∧
        ∀ sec ∈ secs, sec.toFinset.card ≤ MAXOPBLOCKS) (fun x _ => x ∈ callStops) := by
  have hslack := not_slack htight hroot
  have hspec := call_spec hsb h (closed_true _) hp trivial trivial c hc
  rcases hone with hone | ⟨fd, src, rfl⟩
  · refine hspec.mono ?_ fun x _ hx => hx.mem
    rintro r t ⟨M, hdone, -⟩
    obtain ⟨secs, hsecs, hfit, -⟩ := hdone.turns.sections
    exact ⟨secs, hsecs, fun sec hsec => (hfit sec hsec).card_le hslack hone⟩
  · refine (sysWrite_spec hsb h fd src).mono ?_ fun x _ hx => hx ▸ by decide
    rintro r t (⟨-, rfl⟩ | ⟨_, f, ip, _, -, -, -, -, _, ⟨_, _, hch, -⟩, -⟩)
    · exact ⟨[], (List.append_nil _).symm, nofun⟩
    · obtain ⟨secs, hsecs, hfit, -⟩ := hch.sections
      refine ⟨secs, hsecs, fun sec hsec => ?_⟩
      obtain ⟨F, hF, hb⟩ := hfit sec hsec
      exact card_le_of_subset hF hb

/-- With no lock held at its start, a call takes one that it holds already if and only if it is a
`link` that waits and no panic ends it before; a call that returns has ended its transactions. -/
theorem locks_taken_once (hself : ∀ d < sb.ninodes, (s.fs.node sb d).type = T_DIR →
      ∀ k < (s.fs.node sb d).slots, ((s.fs.node sb d).dirent k).inum = d →
      namecmp ((s.fs.node sb d).dirent k).name dot = 0 ∨
        namecmp ((s.fs.node sb d).dirent k).name dotdot = 0)
    (hp : (s.procs p).cwd = some cwd) (c : Call) (hc : s.enabled p c = true) :
    ((call sb p cwd c).run s).Sat (fun _ t => t.fs.blk.outstanding = 0)
      (fun x _ => x ∈ callStops) ∧
    ((∃ t, (call sb p cwd c).run s = .stop .deadlock t) ↔
      (∃ old new, c = .link (some (old, new)) ∧ LinkWaits sb s.fs cwd old new) ∧
        ∀ y t, (call sb p cwd c).run s ≠ .stop (.panic y) t) := by
  have hspec := call_spec hsb h (closed_true _) hp trivial trivial c hc
  refine ⟨hspec.mono ?_ fun x _ hx => hx.mem, ?_, ?_⟩
  · rintro r t ⟨M, hdone, -⟩
    exact hdone.ok.outstanding
  · rintro ⟨t, hrun⟩
    rw [hrun, Outcome.sat_stop] at hspec
    refine ⟨?_, fun y u hpanic => by cases hrun.symm.trans hpanic⟩
    rcases hspec with hx | ⟨old, new, hlink, -, hwaits⟩ | ⟨path, -, hx⟩
    · exact absurd rfl hx.ne_deadlock
    · exact ⟨old, new, hlink, hwaits⟩
    · cases hx with
      | call hx => exact absurd rfl hx.ne_deadlock
      | deadlock hd _ ht hdots hk hi =>
        -- `unlink` would need an entry for the directory that it is in, under another name
        obtain ⟨hlt, -, hname⟩ := Node.find_some hk
        have hdot := hself _ hd ht _ hlt hi
        rw [namecmp_eq_zero_iff] at hname
        simp only [namecmp_eq_zero_iff, ← hname] at hdot
        rw [← namecmp_eq_zero_iff, ← namecmp_eq_zero_iff] at hdot
        exact absurd hdot (not_or.mpr hdots)
  · rintro ⟨⟨old, new, rfl, hwaits⟩, hpanic⟩
    have hcwd : cwd ∈ s.refs := mem_refs.mpr (Or.inr ⟨p, hp⟩)
    have hlink : ((call sb p cwd (.link (some (old, new)))).run s).Sat _ _ :=
      sysLink_spec hsb h (closed_true _) hcwd trivial trivial (some (old, new))
    cases hrun : (call sb p cwd (.link (some (old, new)))).run s with
    | ok r t =>
      rw [hrun, Outcome.sat_ok] at hlink
      exact absurd hwaits (hlink.2 old new rfl)
    | stop x t =>
      cases x with
      | deadlock => exact ⟨t, rfl⟩
      | panic y => exact absurd hrun (hpanic y t)

end Call

/-- `link("a", ".")` waits for the lock of the root directory, which it holds. -/
theorem link_dot_deadlock : ∃ s, Run (fun _ _ => True) (step tiny) tinyBoot [openNew] s ∧
    ((call tiny initproc rootEntry (.link (some ([97], dot)))).run s).stopped = some .deadlock := by
  apply Run.of_exec_map (f := fun s =>
    ((call tiny initproc rootEntry (.link (some ([97], dot)))).run s).stopped)
  decide +kernel

/-- `open` of a new file takes one reference and leaves no lock. -/
theorem calls_balanced_open : ∃ r t, (call tiny initproc rootEntry openNew.2).run tinyBoot = .ok r t ∧
    t.fs.blk.held = [] ∧ ∃ ip, t.refs = ip ::ₘ tinyBoot.refs := by
  obtain ⟨r, t, hrun, hr⟩ := Outcome.of_view (b := 0) (f := fun r (_ : Sys) => r)
    (r := (call tiny initproc rootEntry openNew.2).run tinyBoot) (by decide +kernel)
  have hspec := calls_balanced tiny_formats.wf tinyBoot_ok tinyBoot_cwd openNew.2 (by decide)
  rw [hrun, Outcome.sat_ok] at hspec
  obtain ⟨-, -, hheld, -, -, -, ⟨hneg, -⟩ | ⟨_, _, ip, -, -, -, hrefs⟩⟩ := hspec
  · rw [hr] at hneg
    cases hneg
  · exact ⟨r, t, hrun, hheld, ip, hrefs⟩

theorem locks_taken_once_open : ∃ r t,
    (call tiny initproc rootEntry openNew.2).run tinyBoot = .ok r t ∧ t.fs.blk.outstanding = 0 := by
  obtain ⟨r, t, hrun, -⟩ := Outcome.of_view (b := 0) (f := fun r (_ : Sys) => r)
    (r := (call tiny initproc rootEntry openNew.2).run tinyBoot) (by decide +kernel)
  have hspec := (locks_taken_once tiny_formats.wf tinyBoot_ok (by decide +kernel) tinyBoot_cwd
    openNew.2 (by decide)).1
  rw [hrun, Outcome.sat_ok] at hspec
  exact ⟨r, t, hrun, hspec⟩

theorem sections_fit_open : ∃ r t, (call tiny initproc rootEntry openNew.2).run tinyBoot = .ok r t ∧
    ∀ sec ∈ t.fs.blk.sections, sec.toFinset.card ≤ MAXOPBLOCKS := by
  obtain ⟨r, t, hrun, -⟩ := Outcome.of_view (b := 0) (f := fun r (_ : Sys) => r)
    (r := (call tiny initproc rootEntry openNew.2).run tinyBoot) (by decide +kernel)
  have hspec := sections_fit tiny_formats.wf tinyBoot_ok (boot_sound tiny_formats []).tight
    (by decide +kernel) tinyBoot_cwd openNew.2 (by decide) (Or.inl (by decide))
  rw [hrun, Outcome.sat_ok] at hspec
  obtain ⟨secs, hsecs, hfit⟩ := hspec
  have hnil : tinyBoot.fs.blk.sections = [] := rfl
  rw [hnil, List.nil_append] at hsecs
  exact ⟨r, t, hrun, hsecs ▸ hfit⟩

end BossOs.Fs
