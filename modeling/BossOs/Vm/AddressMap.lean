import BossOs.Vm.Map

/-!
# `mappages` as an operation on an address map

What `walkpgdir` and `mappages` do to the translation of addresses, for any two-level page table:
the frames may belong to anybody.
-/

namespace BossOs.Vm

open Lib

variable {d : Nat} {m : Mem} {E : Stop → Mem → Prop}

def translate (m : Mem) (d va : Nat) : Option (Nat × Nat) :=
  if present (lookup m d (va / PGSIZE)) then
    some (PTE_ADDR (lookup m d (va / PGSIZE)) + va % PGSIZE, PTE_FLAGS (lookup m d (va / PGSIZE)))
  else none

def Meets (va size v : Nat) : Prop := ∃ a, va ≤ a ∧ a < va + size ∧ a / PGSIZE = v

variable {size : Nat}

theorem meets_iff {va v : Nat} (hsize : 1 ≤ size) :
    Meets va size v ↔ va / PGSIZE ≤ v ∧ v ≤ (va + size - 1) / PGSIZE := by
  unfold Meets
  rw [pgsize_eq]
  constructor
  · rintro ⟨a, hlo, hhi, rfl⟩
    exact ⟨Nat.div_le_div_right hlo, Nat.div_le_div_right (by omega)⟩
  · rintro ⟨hlo, hhi⟩
    rcases Nat.eq_or_lt_of_le hlo with heq | hlt
    · exact ⟨va, Nat.le_refl va, by omega, heq⟩
    · exact ⟨v * 4096, by omega, by omega, by omega⟩

def mapUntil (pgdir perm last : Nat) : Nat → Nat → Nat → M Bool
  | 0, _, _ => Prog.fail .hang
  | n + 1, a, pa => do
    if ← mapPage pgdir perm a pa then
      if a = last then pure true
      else mapUntil pgdir perm last n ((a + PGSIZE) % 2 ^ 32) ((pa + PGSIZE) % 2 ^ 32)
    else pure false

theorem addr_succ (a k : Nat) :
    ((a + PGSIZE) % 2 ^ 32 + k * PGSIZE) % 2 ^ 32 = (a + (k + 1) * PGSIZE) % 2 ^ 32 := by
  rw [Nat.mod_add_mod, Nat.succ_mul]
  congr 1
  omega

variable {perm : Nat}

theorem mapUntil_run (k : Nat) : ∀ {n a pa : Nat} {m : Mem}, k < 2 ^ 20 → k < n → a < 2 ^ 32 →
    (mapUntil d perm ((a + k * PGSIZE) % 2 ^ 32) n a pa).run m = (mapFrom d perm k a pa).run m := by
  induction k with
  | zero =>
    intro n a pa m _ hn ha
    obtain ⟨n, rfl⟩ := Nat.exists_eq_succ_of_ne_zero (Nat.ne_of_gt hn)
    rw [Nat.zero_mul, Nat.add_zero, Nat.mod_eq_of_lt ha]
    unfold mapUntil mapFrom
    cases hr : (mapPage d perm a pa).run m with
    | ok b t =>
      rw [Prog.run_bind_of_ok hr, if_pos rfl]
      cases b <;> rfl
    | stop e t => rw [Prog.run_bind_of_stop hr]
  | succ k ih =>
    intro n a pa m hk hn ha
    obtain ⟨n, rfl⟩ := Nat.exists_eq_succ_of_ne_zero (Nat.ne_of_gt (Nat.zero_lt_of_lt hn))
    have hne : a ≠ (a + (k + 1) * PGSIZE) % 2 ^ 32 := by
      rw [pgsize_eq]
      omega
    unfold mapUntil mapFrom
    apply Prog.run_bind_congr rfl
    intro b t _
    rw [if_neg hne]
    cases b with
    | false => rfl
    | true =>
      rw [if_pos rfl, if_pos rfl, ← addr_succ]
      exact ih (by omega) (by omega) (Nat.mod_lt _ (by decide))

theorem mappages_eq {va pa : Nat} (hsize : 1 ≤ size) (hle : va + size ≤ 2 ^ 32) :
    mappages d va size pa perm =
      mapFrom d perm ((va + size - 1) / PGSIZE - va / PGSIZE) (PGROUNDDOWN va) pa := by
  have hrounds : (PGROUNDDOWN ((va + size - 1) % 2 ^ 32) + (2 ^ 32 - PGROUNDDOWN va)) % 2 ^ 32 /
      PGSIZE = (va + size - 1) / PGSIZE - va / PGSIZE := by
    unfold PGROUNDDOWN
    rw [pgsize_eq]
    omega
  rw [← hrounds]
  rfl

theorem mapUntil_eq_mappages {va pa n : Nat} (hsize : 1 ≤ size)
    (hle : va + size ≤ 2 ^ 32) (hn : 2 ^ 20 ≤ n) :
    (mapUntil d perm (PGROUNDDOWN ((va + size - 1) % 2 ^ 32)) n (PGROUNDDOWN va) pa).run m =
      (mappages d va size pa perm).run m := by
  have hk : (va + size - 1) / PGSIZE - va / PGSIZE < 2 ^ 20 := by
    rw [pgsize_eq]
    omega
  have hlast : PGROUNDDOWN ((va + size - 1) % 2 ^ 32) = (PGROUNDDOWN va +
      ((va + size - 1) / PGSIZE - va / PGSIZE) * PGSIZE) % 2 ^ 32 := by
    unfold PGROUNDDOWN
    rw [pgsize_eq]
    omega
  have hva : PGROUNDDOWN va < 2 ^ 32 := by
    unfold PGROUNDDOWN
    rw [pgsize_eq]
    omega
  rw [mappages_eq hsize hle, hlast]
  exact mapUntil_run _ hk (by omega) hva

theorem or_flags_lt {pa : Nat} (hpa : pa < 2 ^ 32) (hperm : perm < 2 ^ 32) :
    pa ||| perm ||| PTE_P < 2 ^ 32 :=
  Nat.or_lt_two_pow (Nat.or_lt_two_pow hpa hperm) (by decide)

theorem mapFrom_edit (hperm : perm < 2 ^ 32) (n : Nat) :
    ∀ {m : Mem} {v pa : Nat}, Tree m d → v + n < VPAGES → pa < 2 ^ 32 →
      (∀ w, v ≤ w → w ≤ v + n → present (lookup m d w) = false) →
      ((mapFrom d perm n (v * PGSIZE) pa).run m).Sat (fun ok m' => Edit d m m' ∧
          (∀ w < VPAGES, ¬ (v ≤ w ∧ w ≤ v + n) → lookup m' d w = lookup m d w) ∧
          (ok = true ∧ (∀ k, k ≤ n →
            lookup m' d (v + k) = (pa + k * PGSIZE) % 2 ^ 32 ||| perm ||| PTE_P) ∨
            ok = false ∧ m'.free = [])) E := by
  induction n with
  | zero =>
    intro m v pa h hv hpa habs
    unfold mapFrom
    apply (mapPage_edit h hv (or_flags_lt hpa hperm) (habs v (Nat.le_refl v) (Nat.le_refl v))).imp
    rintro ok m' ⟨hedit, hsame, hres⟩
    refine ⟨hedit, fun w hw hwv => hsame w hw (by omega), hres.imp_left ?_⟩
    rintro ⟨rfl, hentry⟩
    refine ⟨rfl, ?_⟩
    intro k hk
    obtain rfl : k = 0 := by omega
    rw [Nat.zero_mul, Nat.add_zero, Nat.add_zero, Nat.mod_eq_of_lt hpa]
    exact hentry
  | succ n ih =>
    intro m v pa h hv hpa habs
    have hva : (v * PGSIZE + PGSIZE) % 2 ^ 32 = (v + 1) * PGSIZE := by
      unfold VPAGES at hv
      rw [pgsize_eq]
      omega
    unfold mapFrom
    rw [Prog.sat_bind]
    apply (mapPage_edit h (by omega) (or_flags_lt hpa hperm)
      (habs v (Nat.le_refl v) (by omega))).imp
    rintro ok m₁ ⟨hedit, hsame, ⟨rfl, hentry⟩ | ⟨rfl, hfree⟩⟩
    · rw [if_pos rfl, hva]
      apply (ih hedit.tree (by omega) (Nat.mod_lt _ (by decide)) ?_).imp
      · rintro ok m' ⟨hedit', hsame', hres⟩
        refine ⟨hedit.trans hedit', ?_, hres.imp_left ?_⟩
        · intro w hw hwv
          rw [hsame' w hw (by omega), hsame w hw (by omega)]
        · rintro ⟨rfl, hentries⟩
          refine ⟨rfl, ?_⟩
          intro k hk
          cases k with
          | zero =>
            rw [Nat.add_zero, Nat.zero_mul, Nat.add_zero, Nat.mod_eq_of_lt hpa,
              hsame' v (by omega) (by omega)]
            exact hentry
          | succ k =>
            have hpos : v + (k + 1) = v + 1 + k := by omega
            rw [hpos, hentries k (by omega), addr_succ]
      · intro w hw1 hw2
        rw [hsame w (by omega) (by omega)]
        exact habs w (by omega) (by omega)
    · rw [if_neg Bool.false_ne_true, Prog.sat_pure]
      exact ⟨hedit, fun w hw hwv => hsame w hw (by omega), Or.inr ⟨rfl, hfree⟩⟩

theorem translate_of_entry {a p : Nat} (hperm : perm < PGSIZE)
    (hentry : lookup m d (a / PGSIZE) = p * PGSIZE ||| perm ||| PTE_P) :
    translate m d a = some (p * PGSIZE + a % PGSIZE, perm ||| PTE_P) := by
  have hx := or_perm_lt hperm
  have hframe : PTE_ADDR (p * PGSIZE ||| perm ||| PTE_P) = p * PGSIZE := by
    have hdiv := frame_entry (p := p) hx
    rw [← Nat.or_assoc, frame_eq] at hdiv
    unfold PTE_ADDR
    rw [pgsize_eq] at hdiv ⊢
    rw [hdiv]
  have hflags : PTE_FLAGS (p * PGSIZE ||| perm ||| PTE_P) = perm ||| PTE_P := by
    rw [Nat.or_assoc, flags_entry hx]
  unfold translate
  rw [hentry, present_or_p, if_pos rfl, hframe, hflags]

theorem translate_congr {m' : Mem} {a : Nat}
    (h : lookup m' d (a / PGSIZE) = lookup m d (a / PGSIZE)) :
    translate m' d a = translate m d a := by
  unfold translate
  rw [h]

theorem mappages_maps {va pa : Nat} (h : Tree m d) (hsize : 1 ≤ size)
    (hle : va + size ≤ 2 ^ 32) (hpa : pa < 2 ^ 32) (halign : pa % PGSIZE = 0)
    (hperm : perm < 2 ^ 32) (habs : ∀ v, Meets va size v → present (lookup m d v) = false) :
    (∀ n, 2 ^ 20 ≤ n →
      (mapUntil d perm (PGROUNDDOWN ((va + size - 1) % 2 ^ 32)) n (PGROUNDDOWN va) pa).run m =
        (mappages d va size pa perm).run m) ∧
      ∃ ok m', (mappages d va size pa perm).run m = .ok ok m' ∧ Tree m' d ∧
        (∀ a, a < 2 ^ 32 → ¬ Meets va size (a / PGSIZE) → translate m' d a = translate m d a) ∧
        (ok = true → ∀ i, Meets va size (va / PGSIZE + i) →
          lookup m' d (va / PGSIZE + i) = (pa + i * PGSIZE) % 2 ^ 32 ||| perm ||| PTE_P ∧
          (perm < PGSIZE → ∀ o, o < PGSIZE → translate m' d (PGROUNDDOWN va + i * PGSIZE + o) =
              some ((pa + i * PGSIZE) % 2 ^ 32 + o, perm ||| PTE_P))) ∧
        (ok = false → m'.free = []) := by
  have hlo : va / PGSIZE ≤ (va + size - 1) / PGSIZE := Nat.div_le_div_right (by omega)
  have hhi : (va + size - 1) / PGSIZE < VPAGES := vpage_lt (by omega)
  have hmap := mapFrom_edit (E := fun _ _ => False) hperm
    ((va + size - 1) / PGSIZE - va / PGSIZE) h (by omega) hpa (fun w h1 h2 =>
      habs w ((meets_iff hsize).mpr ⟨h1, by omega⟩))
  rw [← PGROUNDDOWN, ← mappages_eq hsize hle] at hmap
  obtain ⟨ok, m', hrun, hedit, hsame, hres⟩ := hmap.exists_ok
  refine ⟨fun n hn => mapUntil_eq_mappages hsize hle hn, ok, m', hrun, hedit.tree, ?_, ?_, ?_⟩
  · intro a ha hout
    rw [meets_iff hsize] at hout
    exact translate_congr (hsame _ (vpage_lt ha) (by omega))
  · rintro rfl i hmeets
    rw [meets_iff hsize] at hmeets
    rcases hres with ⟨-, hentries⟩ | ⟨hfalse, -⟩
    · have hentry := hentries i (by omega)
      refine ⟨hentry, ?_⟩
      intro hflags o ho
      have hpage : (PGROUNDDOWN va + i * PGSIZE + o) / PGSIZE = va / PGSIZE + i := by
        unfold PGROUNDDOWN
        rw [pgsize_eq] at *
        omega
      have hoff : (PGROUNDDOWN va + i * PGSIZE + o) % PGSIZE = o := by
        unfold PGROUNDDOWN
        rw [pgsize_eq] at *
        omega
      have hphys : (pa + i * PGSIZE) % 2 ^ 32 = (pa + i * PGSIZE) % 2 ^ 32 / PGSIZE * PGSIZE := by
        rw [pgsize_eq] at *
        omega
      rw [hphys] at hentry ⊢
      rw [← hpage] at hentry
      rw [translate_of_entry hflags hentry, hoff]
    · exact absurd hfalse (by decide)
  · rintro rfl
    rcases hres with ⟨htrue, -⟩ | ⟨-, hfree⟩
    · exact absurd htrue (by decide)
    · exact hfree

def emptyDir : Mem := ⟨fun _ => Bytes.zero, [2]⟩

theorem tablePage_emptyDir (i : Nat) : tablePage emptyDir 1 i = none := by
  unfold tablePage emptyDir
  rw [Bytes.word_zero]
  rfl

/-- The last page of the address space, mapped in an empty directory. -/
theorem mappages_maps_last : ∃ m', (mappages 1 (2 ^ 32 - 1) 1 (2 ^ 32 - PGSIZE) PTE_W).run emptyDir =
    .ok true m' ∧ translate m' 1 (2 ^ 32 - 1) = some (2 ^ 32 - 1, PTE_W ||| PTE_P) := by
  have htree : Tree emptyDir 1 := by
    have htables : tables emptyDir 1 = 0 := by
      apply Multiset.eq_zero_of_forall_notMem
      intro t ht
      unfold tables at ht
      obtain ⟨i, -, hi⟩ := mem_gather.mp ht
      rw [tablePage_emptyDir] at hi
      cases hi
    constructor
    · rw [htables]
      decide
    · decide
  have habs : ∀ v, Meets (2 ^ 32 - 1) 1 v → present (lookup emptyDir 1 v) = false := by
    intro v _
    rw [lookup_of_none (tablePage_emptyDir _)]
    rfl
  obtain ⟨-, ok, m', hrun, -, -, hmapped, -⟩ := mappages_maps htree (by decide)
    (by decide) (show 2 ^ 32 - PGSIZE < 2 ^ 32 by decide) (by decide)
    (show PTE_W < 2 ^ 32 by decide) habs
  have hok : ((mappages 1 (2 ^ 32 - 1) 1 (2 ^ 32 - PGSIZE) PTE_W).run emptyDir).view
      (fun ok _ => ok) = some true := by decide +kernel
  rw [hrun] at hok
  obtain rfl : ok = true := Option.some.inj hok
  have htrans := (hmapped rfl 0 ⟨2 ^ 32 - 1, by decide⟩).2 (by decide) (PGSIZE - 1) (by decide)
  exact ⟨m', hrun, htrans⟩

end BossOs.Vm
