import BossOs.Vm.Overflow

/-!
# Arguments and missing page tables

`exec` reads an entry through the null pointer that `walkpgdir` returns if and only if it comes to
put an argument in the gap, whatever the caller's memory holds.
-/

namespace BossOs.Vm

open Lib

variable {im : Image} {K : Multiset Nat} {cur : Nat} {m : Mem}

/-- Arguments are copied through page tables that exist, or refused, unless a program has been
loaded for which one of them strays. -/
theorem exec_copies_through_tables {argv : List (List UInt8)}
    (hfit : ∀ s ∈ argv, s.length < KERNBASE) (h : Accounts im m (space m cur + K))
    (file : Option File) :
    (∃ r m', (exec im (fun _ => pushArgsChecked im argv) cur file).run m = .ok r m' ∧
      (exec im (pushArgs im argv) cur file).run m = .ok r m') ↔
    ∀ d sz m', (execLoad im file).run m = .ok (some (d, sz)) m' →
      ¬ Strays (sz - PGSIZE) argv 0 sz := by
  have hload : ((execLoad im file).run m).Sat _ fun _ _ => False := execLoad_spec h file
  obtain ⟨r, m₁, hrun, hres⟩ := hload.exists_ok
  have hexec : (exec im (fun _ => pushArgsChecked im argv) cur file).run m =
      (execEnter im (fun _ => pushArgsChecked im argv) cur r).run m₁ := by
    rw [exec_run]
    exact Prog.run_bind_of_ok hrun
  have hsame : ∀ {r m'}, (exec im (fun _ => pushArgsChecked im argv) cur file).run m = .ok r m' →
      (exec im (pushArgs im argv) cur file).run m = .ok r m' := fun hr =>
    exec_refines cur file (fun d sz => pushArgsChecked_refines cur d argv sz) hr
  rcases hres with ⟨d, n, rfl, h₁⟩ | ⟨rfl, -, -⟩
  · have hbase : (n + 2) * PGSIZE - PGSIZE = (n + 1) * PGSIZE := by
      rw [pgsize_eq]
      omega
    have hargs := pushArgsChecked_strays h₁.ready hfit
    constructor
    · rintro ⟨r, m', hr, -⟩ d' sz m₂ hrun' hst
      rw [hrun] at hrun'
      cases hrun'
      rw [hbase] at hst
      have hstop : ((execEnter im (fun _ => pushArgsChecked im argv) cur
          (some (d, (n + 2) * PGSIZE))).run m₁).Sat (fun _ _ => False) fun _ _ => True := by
        unfold execEnter
        rw [Prog.sat_bind]
        exact hargs.mono (fun _ _ hn => absurd hst hn.1) fun _ _ _ => trivial
      rw [← hexec, hr, Outcome.sat_ok] at hstop
      exact hstop
    · intro hno
      have hst := hno d _ m₁ hrun
      rw [hbase] at hst
      have hret : ((execEnter im (fun _ => pushArgsChecked im argv) cur
          (some (d, (n + 2) * PGSIZE))).run m₁).Sat _ fun _ _ => False := execEnter_spec h₁
        (hargs.mono (fun _ _ hn => hn.2) fun _ _ hs => hst hs.2)
      obtain ⟨r, m', hr, -⟩ := hret.exists_ok
      rw [← hexec] at hr
      exact ⟨r, m', hr, hsame hr⟩
  · refine ⟨fun _ d sz m' hrun' => ?_, fun _ => ?_⟩
    · rw [hrun] at hrun'
      cases hrun'
    · have hr : (exec im (fun _ => pushArgsChecked im argv) cur file).run m = .ok none m₁ := hexec
      exact ⟨none, m₁, hr, hsame hr⟩

theorem exec_copies_through_tables_boot : ∃ s, Booted image 2 [] s ∧
    ∃ r m', (exec image (fun _ => pushArgsChecked image [[101, 99, 104, 111]])
        (s.proc initproc).pgdir (some emptyElf)).run s.mem = .ok r m' ∧
      (exec image (pushArgs image [[101, 99, 104, 111]]) (s.proc initproc).pgdir
        (some emptyElf)).run s.mem = .ok r m' := by
  obtain ⟨s, hboot⟩ := image_booted
  have htotal := hboot.inv.pages.total
  rw [inUse_space (by rw [hboot.inv.live]; decide)] at htotal
  refine ⟨s, hboot, (exec_copies_through_tables (by decide) htotal _).mpr ?_⟩
  intro d sz m' hrun
  have hload : ((execLoad image (some emptyElf)).run s.mem).Sat _ fun _ _ => False :=
    execLoad_spec htotal _
  rw [hrun, Outcome.sat_ok] at hload
  rcases hload with ⟨d', n, heq, hprog⟩ | ⟨hnone, -⟩
  · cases heq
    have hsize := hprog.map.size
    rintro ⟨-, ⟨hgap, -⟩ | ⟨-, hnil⟩⟩
    · rcases place_cases (show 4 < KERNBASE by decide) hsize with ⟨-, hle, -⟩ | ⟨hge, -⟩
      · change _ ≤ place _ 4 at hgap
        omega
      · rw [pgsize_eq] at hge
        omega
    · exact hnil
  · cases hnone

/-- The first process, grown to 32 MB, passes an argument that fits into its memory. -/
theorem long_argument_reads_null : ∃ s s₁ m', Booted image 2 [] s ∧
    Run (fun _ _ => True) (step image (pushArgs image)) s [.sbrk initproc 33570816] s₁ ∧
    longArg.length < (s₁.proc initproc).sz ∧
    (exec image (fun _ => pushArgsChecked image [longArg]) (s₁.proc initproc).pgdir
      (some emptyElf)).run s₁.mem = .stop .fault m' := by
  obtain ⟨s, hboot⟩ := image_booted
  obtain ⟨s₁, hsbrk, hi, hlive, hsize, -, hcard⟩ := sbrk_long hboot.inv
  have hused : (s₁.proc initproc).state ≠ .unused := by
    rw [hlive]
    decide
  have htotal := hi.total
  rw [inUse_space hused] at htotal hcard
  have hlen : longArg.length = 33566719 := List.length_replicate
  have hexec : ((exec image (fun _ => pushArgsChecked image [longArg]) (s₁.proc initproc).pgdir
      (some emptyElf)).run s₁.mem).Sat (fun _ _ => False) fun e _ => e = .fault := by
    apply exec_empty htotal (by rw [image_pool_card]; omega)
    intro d m₂ h _
    have hfit : ∀ s ∈ [longArg], s.length < KERNBASE := by
      intro s hs
      rw [List.mem_singleton.mp hs, hlen]
      decide
    have hpush := pushArgsChecked_strays h hfit
    rw [Nat.zero_add, Nat.zero_add] at hpush
    have hstray : Strays (1 * PGSIZE) [longArg] 0 (2 * PGSIZE) := by
      refine ⟨by decide, Or.inl ?_⟩
      rw [hlen]
      decide
    exact hpush.mono (fun _ _ hr => absurd hstray hr.1) fun _ _ hr => hr.1
  have hstop : ∃ m', (exec image (fun _ => pushArgsChecked image [longArg])
      (s₁.proc initproc).pgdir (some emptyElf)).run s₁.mem = .stop .fault m' := by
    revert hexec
    generalize (exec image (fun _ => pushArgsChecked image [longArg])
      (s₁.proc initproc).pgdir (some emptyElf)).run s₁.mem = r
    intro hexec
    cases r with
    | ok a m' =>
      rw [Outcome.sat_ok] at hexec
      exact hexec.elim
    | stop e m' =>
      rw [Outcome.sat_stop] at hexec
      exact ⟨m', by rw [hexec]⟩
  obtain ⟨m', hstop⟩ := hstop
  refine ⟨s, s₁, m', hboot, ?_, ?_, hstop⟩
  · exact .cons trivial ((if_pos hboot.inv.live).trans hsbrk) (.nil _)
  · rw [hlen, hsize]
    decide

end BossOs.Vm
