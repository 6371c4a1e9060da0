import BossOs.Vm.Overflow

/-!
# Isolation

What a process can reach lies below `KERNBASE` in frames that no one else has, as long as
`exec` is given short arguments. A long one can be copied over a page table of the caller.
-/

namespace BossOs.Vm

open Lib

variable {im : Image} {s s' : State}

def State.Reaches (s : State) (p : Fin NPROC) (v : Nat) : Prop :=
  (s.proc p).state ≠ .unused ∧ v < VPAGES ∧
    present (lookup s.mem (s.proc p).pgdir v) = true ∧ user (lookup s.mem (s.proc p).pgdir v) = true

def State.frameAt (s : State) (p : Fin NPROC) (v : Nat) : Nat :=
  frame (lookup s.mem (s.proc p).pgdir v)

structure Isolated (im : Image) (s : State) : Prop where
  below : ∀ p v, s.Reaches p v → v * PGSIZE < KERNBASE
  owned : ∀ p v, s.Reaches p v → s.frameAt p v ∈ im.pool ∧
    s.frameAt p v ∈ space s.mem (s.proc p).pgdir ∧ s.pages.count (s.frameAt p v) = 1
  kernel : ∀ p, (s.proc p).state ≠ .unused → ∀ v, KERNBASE ≤ v * PGSIZE → v < VPAGES →
    lookup s.mem (s.proc p).pgdir v = kernelEntry im v ∧ user (kernelEntry im v) = false
  apart : ∀ p q v w, p ≠ q → s.Reaches p v → s.Reaches q w → s.frameAt p v ≠ s.frameAt q w

theorem PageInv.reaches {p : Fin NPROC} {v : Nat} (hi : PageInv im s) (h : s.Reaches p v) :
    v < UPAGES := by
  obtain ⟨hp, hv, -, huser⟩ := h
  by_contra hge
  rw [(hi.map p hp).kernel v (by omega) hv, kernelEntry_not_user] at huser
  exact Bool.false_ne_true huser

theorem PageInv.frameAt_mem {p : Fin NPROC} {v : Nat} (hi : PageInv im s) (h : s.Reaches p v) :
    s.frameAt p v ∈ space s.mem (s.proc p).pgdir := frame_mem_space (hi.reaches h) h.2.2.1

theorem PageInv.isolated (hi : PageInv im s) : Isolated im s := by
  have hpages : s.pages = im.pool := hi.total
  have huse : ∀ {p v}, s.Reaches p v → s.frameAt p v ∈ s.inUse := by
    intro p v h
    rw [inUse_space h.1]
    exact Multiset.mem_add.mpr (Or.inl (hi.frameAt_mem h))
  refine ⟨?_, ?_, ?_, ?_⟩
  · intro p v h
    have hv := hi.reaches h
    rw [upages_eq] at hv
    rw [pgsize_eq]
    unfold KERNBASE
    omega
  · intro p v h
    have hpool := hi.total.mem_pool (huse h)
    refine ⟨hpool, hi.frameAt_mem h, ?_⟩
    rw [hpages]
    exact Multiset.count_eq_one_of_mem im.pool_nodup hpool
  · intro p hp v hv hv'
    refine ⟨(hi.map p hp).kernel v ?_ hv', kernelEntry_not_user v⟩
    rw [pgsize_eq] at hv
    rw [upages_eq]
    unfold KERNBASE at hv
    omega
  · intro p q v w hpq hp hq heq
    have htotal := hi.total
    rw [inUse_space hp.1] at htotal
    apply htotal.disjoint_rest (hi.frameAt_mem hp)
    rw [heq]
    apply Multiset.mem_cons_of_mem
    apply proc_mem_others hpq.symm
    rw [pages_of_used hq.1]
    exact Multiset.mem_cons_of_mem (hi.frameAt_mem hq)

/-- As long as the arguments of `exec` are short, processes are isolated. -/
theorem isolated_of_shortExec {ncpu : Nat} {initcode : List UInt8}
    {acts : List (Act (List (List UInt8)))} (hboot : Booted im ncpu initcode s)
    (hrun : Run ShortExec (step im (pushArgs im)) s acts s') : Isolated im s' :=
  (hboot.inv.pages.run hrun).isolated

theorem isolated_of_shortExec_forkExec : ∃ s s', Booted image 2 [] s ∧
    Run ShortExec (step image (pushArgs image)) s (forkExec (some emptyElf)) s' ∧
    Isolated image s' := by
  obtain ⟨s, s', hboot, hrun⟩ := exists_forkExec (some emptyElf)
  exact ⟨s, s', hboot, hrun, isolated_of_shortExec hboot hrun⟩

theorem Rogue.not_isolated {t : Nat} {m' : Mem} (h : Rogue 255 s t m') :
    ¬ Isolated image { s with mem := m' } := by
  have hused : (s.proc initproc).state ≠ .unused := by
    rw [h.live]
    decide
  have htotal := h.inv.total
  rw [inUse_space hused] at htotal
  have hdir : m'.page (s.proc initproc).pgdir = s.mem.page (s.proc initproc).pgdir := by
    apply h.wiped.page
    · rw [inUse_space hused]
      exact Multiset.mem_add.mpr (Or.inl (dir_mem_space _ _))
    · exact (htotal.tree.table_ne_dir (by decide) h.armed.table).symm
  have htable : tablePage m' (s.proc initproc).pgdir (0 / 1024) = some t := by
    rw [← h.armed.table]
    unfold tablePage
    rw [hdir]
  have hentry : lookup m' (s.proc initproc).pgdir 0 = filledWord 255 := by
    rw [lookup_of_table htable, h.wiped.word _ (by decide)]
  intro hiso
  have hreach : ({ s with mem := m' } : State).Reaches initproc 0 := by
    refine ⟨hused, by decide, ?_, ?_⟩
    · change present (lookup m' (s.proc initproc).pgdir 0) = true
      rw [hentry]
      decide
    · change user (lookup m' (s.proc initproc).pgdir 0) = true
      rw [hentry]
      decide
  have hpool := (hiso.owned initproc 0 hreach).1
  change frame (lookup m' (s.proc initproc).pgdir 0) ∈ image.pool at hpool
  rw [hentry, Image.mem_pool] at hpool
  exact absurd hpool (by decide)

/-- A process that names its own first page table in its memory fills it with an argument that
is long enough, and can then reach what it does not own. -/
theorem long_argument_breaks_isolation : ∃ s bytes s₁ s',
    Booted image 2 [] s ∧
    Run (fun _ _ => True) (step image (pushArgs image)) s
      [.sbrk initproc 33570816, .store initproc 0 bytes] s₁ ∧
    33566719 < (s₁.proc initproc).sz ∧
    step image (pushArgs image) s₁
      (.exec initproc (some emptyElf) [List.replicate 33566719 255]) = some s' ∧
    ¬ Isolated image s' := by
  obtain ⟨s, bytes, s₁, t, m', hboot, hrun, h⟩ := exists_rogue 255
  exact ⟨s, bytes, s₁, { s₁ with mem := m' }, hboot, hrun, h.size, h.call, h.not_isolated⟩

end BossOs.Vm
