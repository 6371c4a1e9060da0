import BossOs.Vm.Ownership

/-!
# The copy that `fork` makes

`copyuvm` of an address space in which the pages below the size are all present: it has
no way to stop the machine, and what it returns is a copy in pages of its own, or nothing
with all pages back on the free list.
-/

namespace BossOs.Vm

open Lib

variable {im : Image} {K : Multiset Nat} {d pgdir : Nat} {m m' : Mem}

/-- The address space `d` is a copy of the pages of `pgdir` below `sz`. -/
structure CopyOf (m : Mem) (pgdir sz : Nat) (m' : Mem) (d : Nat) : Prop where
  flags : ∀ v, v < pages sz → PTE_FLAGS (lookup m' d v) = PTE_FLAGS (lookup m pgdir v)
  bytes : ∀ v, v < pages sz → m'.page (frame (lookup m' d v)) = m.page (frame (lookup m pgdir v))
  distinct : ∀ v w, v < pages sz → w < pages sz →
    frame (lookup m' d v) = frame (lookup m' d w) → v = w
  disjoint : ∀ v w, v < pages sz → w < UPAGES → present (lookup m pgdir w) = true →
    frame (lookup m' d v) ≠ frame (lookup m pgdir w)
  rest : ∀ v, pages sz ≤ v → v < UPAGES → present (lookup m' d v) = false
  kernel : ∀ v, UPAGES ≤ v → v < VPAGES → user (lookup m' d v) = false

theorem CopyOf.of_copied {sz : Nat} (hacc : Accounts im m' (space m' d + K))
    (hmap : UserMap im sz (lookup m' d)) (hsrc : Source K m pgdir (pages sz))
    (h : Copied m pgdir (pages sz) m' d) : CopyOf m pgdir sz m' d := by
  have hpages := pages_le hmap.size
  have hpres : ∀ v < pages sz, present (lookup m' d v) = true := fun v hv =>
    (h v hv).2.present
  refine ⟨fun v hv => (h v hv).1, fun v hv => (h v hv).2.page, ?_, ?_, ?_, ?_⟩
  · intro v w hv hw heq
    exact hacc.frame_inj (by omega) (by omega) (hpres v hv) (hpres w hw) heq
  · intro v w hv hw hp heq
    apply hacc.disjoint_rest (frame_mem_space (show v < UPAGES by omega) (hpres v hv))
    rw [heq]
    exact hsrc.owned _ (frame_mem_space hw hp)
  · intro v hv hu
    rw [hmap.above v hv hu]
    rfl
  · intro v hu hv
    rw [hmap.kernel v hu hv]
    exact kernelEntry_not_user v

/-- The parent keeps its map and the contents of all pages in use. A copy takes 65 pages for the
kernel's part, the frames and their page tables, and fails only if there are no more free. -/
theorem copyuvm_copies {sz : Nat} (hacc : Accounts im m K) (howned : ∀ n ∈ space m pgdir, n ∈ K)
    (hsz : sz < KERNBASE) (hpres : ∀ v, v < pages sz → present (lookup m pgdir v) = true) :
    ∃ r m', (copyuvm im pgdir sz).run m = .ok r m' ∧ Agree m m' K ∧
      (∀ v, v < VPAGES → lookup m' pgdir v = lookup m pgdir v) ∧
      (r = none ∧ (m'.free : Multiset Nat) = m.free ∧
          m.free.length ≤ 65 + pages sz + (pages sz + 1023) / 1024 ∨
        ∃ d, r = some d ∧ CopyOf m pgdir sz m' d ∧ Accounts im m' (space m' d + K)) := by
  have hsrc : Source K m pgdir (pages sz) := ⟨howned, hpres⟩
  have hcopy : ((copyuvm im pgdir sz).run m).Sat _ fun _ _ => ¬ True :=
    copyuvm_spec hacc (Nat.le_of_lt hsz) fun _ => hsrc
  obtain ⟨r, m', hrun, hagree, hres⟩ := (hcopy.mono (fun _ _ h => h)
    (fun _ _ h => absurd trivial h)).exists_ok
  refine ⟨r, m', hrun, hagree, fun v hv => hsrc.lookup_eq hagree hv, ?_⟩
  rcases hres with ⟨d, rfl, hacc', hmap, hcopied⟩ | ⟨rfl, hacc', hfull⟩
  · exact Or.inr ⟨d, rfl, .of_copied hacc' hmap hsrc (hcopied trivial), hacc'⟩
  · unfold Accounts at hacc hacc'
    have hcard := congrArg Multiset.card hacc
    rw [Multiset.card_add, Multiset.coe_card] at hcard
    exact Or.inl ⟨rfl, add_right_cancel (hacc'.trans hacc.symm), by omega⟩

theorem copyuvm_copies_boot : ∃ s, Booted image 2 [] s ∧
    ∃ d m', (copyuvm image (s.proc initproc).pgdir PGSIZE).run s.mem = .ok (some d) m' ∧
      CopyOf s.mem (s.proc initproc).pgdir PGSIZE m' d := by
  obtain ⟨s, hboot⟩ := image_booted
  have htotal := hboot.inv.pages.total
  have hused : (s.proc initproc).state ≠ .unused := by
    rw [hboot.inv.live]
    decide
  have howned : ∀ n ∈ space s.mem (s.proc initproc).pgdir, n ∈ s.inUse := by
    intro n hn
    rw [inUse_space hused]
    exact Multiset.mem_add.mpr (Or.inl hn)
  have hpres : ∀ v, v < pages PGSIZE →
      present (lookup s.mem (s.proc initproc).pgdir v) = true := by
    intro v hv
    obtain rfl : v = 0 := by
      rw [show pages PGSIZE = 1 by decide] at hv
      omega
    exact hboot.inv.first.present
  obtain ⟨r, m', hrun, -, -, hres⟩ := copyuvm_copies htotal howned (by decide) hpres
  rcases hres with ⟨-, -, hfull⟩ | ⟨d, rfl, hcopy, -⟩
  · exfalso
    have hpool := congrArg Multiset.card htotal
    have hcard := hboot.inv.card
    rw [Multiset.card_add, Multiset.coe_card, image_pool_card] at hpool
    rw [show pages PGSIZE = 1 by decide] at hfull
    omega
  · exact ⟨s, hboot, d, m', hrun, hcopy⟩

end BossOs.Vm
