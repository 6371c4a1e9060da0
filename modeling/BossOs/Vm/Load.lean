import BossOs.Vm.Exec

/-!
# The program that `exec` loads

`exec` in two parts: what it does before it looks at the arguments, and the rest. The
first part never stops the machine, whatever the file holds, and where it succeeds the
address space shows the bytes that the headers ask for.
-/

namespace BossOs.Vm

open Lib
open Prog (run_bind_assoc run_bind_congr sat_bind sat_pure)

variable {im : Image} {K : Multiset Nat} {d : Nat} {m m' : Mem} {E : Stop → Mem → Prop}

def execLoad (im : Image) (file : Option File) : M (Option (Nat × Nat)) :=
  match file.bind fun ip => (readi ip 0 52).map fun elf => (ip, elf) with
  | none => pure none
  | some (ip, elf) =>
    if elf.length ≠ 52 ∨ field elf 0 4 ≠ ELF_MAGIC then pure none
    else do
      match ← setupkvm im with
      | none => pure none
      | some pgdir =>
        match ← loadSegments im pgdir ip (field elf 44 2) (field elf 28 4) 0 with
        | none =>
          freevm im pgdir
          pure none
        | some sz =>
          match ← makeStack im pgdir sz with
          | none =>
            freevm im pgdir
            pure none
          | some sz => pure (some (pgdir, sz))

def execTail (im : Image) (cur d sz : Nat) : Option Nat → M (Option (Nat × Nat))
  | none => do
    freevm im d
    pure none
  | some _ => do
    freevm im cur
    pure (some (d, sz))

def execEnter (im : Image) (args : Nat → Nat → Nat → M (Option Nat)) (cur : Nat) :
    Option (Nat × Nat) → M (Option (Nat × Nat))
  | none => pure none
  | some (d, sz) => do
    let r ← args cur d sz
    execTail im cur d sz r

theorem exec_run (args : Nat → Nat → Nat → M (Option Nat)) (cur : Nat) (file : Option File)
    (m : Mem) :
    (exec im args cur file).run m = (execLoad im file >>= execEnter im args cur).run m := by
  unfold exec execLoad
  generalize (file.bind fun ip => (readi ip 0 52).map fun elf => (ip, elf)) = o
  rcases o with _ | ⟨ip, elf⟩
  · rfl
  · simp only
    by_cases hbad : elf.length ≠ 52 ∨ field elf 0 4 ≠ ELF_MAGIC
    · rw [if_pos hbad, if_pos hbad]
      rfl
    · rw [if_neg hbad, if_neg hbad, run_bind_assoc]
      apply run_bind_congr rfl
      rintro (_ | d) m₁ _
      · rfl
      · simp only
        rw [run_bind_assoc]
        apply run_bind_congr rfl
        rintro (_ | sz) m₂ _
        · simp only
          rw [run_bind_assoc]
          rfl
        · simp only
          rw [run_bind_assoc]
          apply run_bind_congr rfl
          rintro (_ | sz) m₃ _
          · simp only
            rw [run_bind_assoc]
            rfl
          · apply run_bind_congr rfl
            rintro (_ | sp) m₄ _
            · rfl
            · rfl

def programSegments (ip : File) : List Segment :=
  segments ip (field (ip.bytes 0 52) 44 2) (field (ip.bytes 0 52) 28 4)

def programByte (ip : File) (a : Nat) : UInt8 := loadedByte ip (programSegments ip) a

/-- A new address space with the program of the file, and two pages for the stack. -/
structure Program (im : Image) (K : Multiset Nat) (file : Option File) (d n : Nat) (m m' : Mem) :
    Prop where
  total : Accounts im m' (space m' d + K)
  map : UserMap im ((n + 2) * PGSIZE) (lookup m' d)
  filled : ∀ v, v < n + 2 → present (lookup m' d v) = true
  guard : user (lookup m' d n) = false
  stack : user (lookup m' d (n + 1)) = true
  hole : ∀ i, 568 ≤ i → i < 1016 → tablePage m' d i = none
  agree : Agree m m' K
  shows : ∀ ip, file = some ip → ip.size < 2 ^ 32 →
    (∀ g ∈ programSegments ip, g.vaddr + g.memsz ≤ n * PGSIZE) ∧
    ∀ a, a / PGSIZE < n → byteAt m' d a = programByte ip a

theorem loaded_new (h : NewSpace im K d m m') : Loaded im K d m' 0 m' := by
  refine ⟨h.total, UserMap.new h.entry, ?_, fun _ _ _ => rfl, fun _ _ => rfl⟩
  intro v hv
  rw [show pages 0 = 0 by decide] at hv
  exact absurd hv (Nat.not_lt_zero v)

theorem Loaded.hole {m₁ : Mem} {sz i : Nat} (h : Loaded im K d m₁ sz m') (hnew : NewSpace im K d m m₁)
    (hlo : 568 ≤ i) (hhi : i < 1016) : tablePage m' d i = none := by
  have hi : i < NPDENTRIES := Nat.lt_trans hhi (by decide)
  rw [h.table i hi (by unfold userTable; omega)]
  refine hnew.table i hi ?_
  unfold kernelTables
  rw [Finset.mem_union, Finset.mem_Ico, Finset.mem_Ico]
  omega

theorem freevm_unloaded {m₁ : Mem} (hnew : Agree m m₁ K) (h : Unloaded im K d m₁ m') :
    ((freevm im d).run m').Sat (fun _ m'' => Accounts im m'' K ∧ Agree m m'' K) E := by
  apply (freevm_spec h.total).imp
  rintro _ m'' ⟨hacc, hagree⟩
  exact ⟨hacc, (hnew.trans h.agree).trans hagree⟩

theorem execLoad_spec (h : Accounts im m K) (file : Option File) : ((execLoad im file).run m).Sat
      (fun r m' => (∃ d n, r = some (d, (n + 2) * PGSIZE) ∧ Program im K file d n m m') ∨
        (r = none ∧ Accounts im m' K ∧ Agree m m' K)) E := by
  have hfail : ∀ {m' : Mem}, Accounts im m' K ∧ Agree m m' K →
      ((pure none : M (Option (Nat × Nat))).run m').Sat
        (fun r m' => (∃ d n, r = some (d, (n + 2) * PGSIZE) ∧ Program im K file d n m m') ∨
          (r = none ∧ Accounts im m' K ∧ Agree m m' K)) E := by
    intro m' hm'
    rw [sat_pure]
    exact Or.inr ⟨rfl, hm'⟩
  unfold execLoad
  cases hopen : file.bind fun ip => (readi ip 0 52).map fun elf => (ip, elf) with
  | none => exact hfail ⟨h, fun _ _ => rfl⟩
  | some q =>
    obtain ⟨ip, elf⟩ := q
    simp only
    by_cases hbad : elf.length ≠ 52 ∨ field elf 0 4 ≠ ELF_MAGIC
    · rw [if_pos hbad]
      exact hfail ⟨h, fun _ _ => rfl⟩
    · rw [if_neg hbad, sat_bind]
      apply (setupkvm_spec h).imp
      rintro r m₁ (⟨d, rfl, hnew⟩ | ⟨rfl, hacc, hagree, -⟩)
      · simp only [sat_bind]
        apply (loadSegments_spec _ (loaded_new hnew)).imp
        rintro r m₂ (⟨sz, rfl, h₂, hshow⟩ | ⟨rfl, hu⟩)
        · simp only [sat_bind]
          refine (makeStack_spec h₂).imp ?_
          rintro r m₃ (⟨rfl, h₃, hkeeps, hguard, hstack⟩ | ⟨rfl, hu, -⟩)
          · have hfill := h₃.filled
            rw [pages_mul] at hfill
            rw [sat_pure]
            refine Or.inl ⟨d, pages sz, rfl, h₃.total, h₃.map, hfill, hguard, hstack,
              fun i => h₃.hole hnew, hnew.agree.trans h₃.agree, ?_⟩
            rintro ip' rfl hsize
            rw [Option.bind_some] at hopen
            obtain ⟨elf', hread, heq⟩ := Option.map_eq_some_iff.mp hopen
            obtain ⟨rfl, rfl⟩ := Prod.mk.inj heq
            obtain ⟨-, helf⟩ := readi_full hread (not_not.mp fun hc => hbad (Or.inl hc))
            have hs := hshow hsize [] (.new m₁ d)
            have hle := pages_le h₂.map.size
            rw [List.nil_append, helf] at hs
            refine ⟨fun g hg => ?_, fun a ha => ?_⟩
            · have hbelow := (hs.below g hg).2
              unfold pages
              rw [pgsize_eq]
              omega
            · rw [hkeeps.byteAt (by omega) (h₂.filled _ ha)]
              exact hs.byte a ha
          · simp only [sat_bind]
            exact (freevm_unloaded hnew.agree hu).imp fun _ _ hm' => hfail hm'
        · simp only [sat_bind]
          exact (freevm_unloaded hnew.agree hu).imp fun _ _ hm' => hfail hm'
      · exact hfail ⟨hacc, hagree⟩

/-- Loading returns for every file. Where it succeeds there is room for every segment below the
guard page, and the address space shows the program. -/
theorem exec_loads_program (ip : File) (h : Accounts im m K) (hsize : ip.size < 2 ^ 32) :
    (∀ args cur, (exec im args cur (some ip)).run m =
      (execLoad im (some ip) >>= execEnter im args cur).run m) ∧
      ∃ r m', (execLoad im (some ip)).run m = .ok r m' ∧
        ∀ d sz, r = some (d, sz) → (∀ v, v < pages sz → present (lookup m' d v) = true) ∧
          (∀ g ∈ programSegments ip, g.vaddr + g.memsz + 2 * PGSIZE ≤ sz) ∧
          ∀ a, a + 2 * PGSIZE < sz → byteAt m' d a = programByte ip a := by
  refine ⟨fun args cur => exec_run args cur (some ip) m, ?_⟩
  have hload : ((execLoad im (some ip)).run m).Sat _ fun _ _ => False :=
    execLoad_spec h (some ip)
  obtain ⟨r, m', hrun, hres⟩ := hload.exists_ok
  refine ⟨r, m', hrun, ?_⟩
  rintro d sz rfl
  rcases hres with ⟨d', n, heq, hprog⟩ | ⟨hnone, -⟩
  · obtain ⟨rfl, rfl⟩ := Prod.mk.inj (Option.some.inj heq)
    rw [pages_mul]
    obtain ⟨hsegs, hbyte⟩ := hprog.shows ip rfl hsize
    refine ⟨hprog.filled, fun g hg => ?_, fun a ha => hbyte a ?_⟩
    · have hle := hsegs g hg
      rw [Nat.add_mul]
      omega
    · rw [pgsize_eq] at *
      omega
  · cases hnone

def Image.empty (im : Image) : Mem where
  page _ := Bytes.zero
  free := List.range' (PGROUNDUP im.top / PGSIZE) (PHYSTOP / PGSIZE - PGROUNDUP im.top / PGSIZE)

def oneByte : File where
  size := 85
  byte k := (([0x7F, 0x45, 0x4C, 0x46] ++ List.replicate 24 0 ++ [52] ++ List.replicate 15 0 ++ [1] ++
    List.replicate 7 0 ++ [1, 0, 0, 0, 84] ++ List.replicate 11 0 ++ [1, 0, 0, 0, 1] ++
    List.replicate 11 0 ++ [7] : List UInt8)[k]?).getD 0

theorem execLoad_oneByte (hroom : 2000 ≤ im.pool.card) :
    ((execLoad im (some oneByte)).run im.empty).Sat (fun r _ => ∃ d, r = some (d, 3 * PGSIZE)) E := by
  have hacc : Accounts im im.empty 0 := add_zero _
  obtain ⟨elf, hread, hnum, hoff, hok⟩ : ∃ elf, readi oneByte 0 52 = some elf ∧ field elf 44 2 = 1 ∧
      field elf 28 4 = 52 ∧ ¬ (elf.length ≠ 52 ∨ field elf 0 4 ≠ ELF_MAGIC) :=
    ⟨_, rfl, by decide, by decide, by decide⟩
  obtain ⟨ph, hph, hlen, htype, hpos, haddr, hfile, hmem⟩ : ∃ ph, readi oneByte 52 32 = some ph ∧
      ph.length = 32 ∧ field ph 0 4 = ELF_PROG_LOAD ∧ field ph 4 4 = 84 ∧ field ph 8 4 = 0 ∧
      field ph 16 4 = 1 ∧ field ph 20 4 = 1 :=
    ⟨_, rfl, by decide, by decide, by decide, by decide, by decide, by decide⟩
  have hone : pages 1 = 1 := by decide
  unfold execLoad
  simp only [Option.bind_some, hread, Option.map_some]
  rw [if_neg hok, sat_bind]
  apply (setupkvm_spec hacc).imp
  rintro r m₁ (⟨d, rfl, hnew⟩ | ⟨rfl, -, -, hcard⟩)
  · simp only [sat_bind]
    rw [hnum, hoff, loadSegments, hph]
    dsimp only
    rw [hlen, htype, hpos, haddr, hfile, hmem, if_neg (by decide), if_neg (by decide),
      if_neg (by decide), if_neg (by decide), sat_bind]
    apply (allocuvm_loaded (loaded_new hnew)).imp
    rintro r m₂ (⟨rfl, -, h₂, -⟩ | ⟨rfl, -, hcard⟩)
    · rw [if_neg (by decide), if_neg (by decide), sat_bind]
      apply (loaduvm_spec h₂.total (by decide) (by decide) fun w _ hw => h₂.filled w hw).imp
      rintro ok m₃ ⟨hturn, hdone⟩
      obtain rfl : ok = true := (hdone (by decide)).2 (Or.inr (by decide))
      rw [if_pos rfl, loadSegments, sat_pure]
      simp only [sat_bind]
      apply (makeStack_spec (h₂.keep hturn fun _ hi => hi.elim)).imp
      rintro r m₄ (⟨rfl, -⟩ | ⟨rfl, -, hcard⟩)
      · rw [sat_pure]
        exact ⟨d, rfl⟩
      · exfalso
        have hfull := hcard (by decide)
        rw [show pages (max 0 ((0 + 1) % 2 ^ 32)) = 1 by decide, Multiset.card_zero] at hfull
        omega
    · exfalso
      have hfull := hcard (by decide)
      rw [show pages ((0 + 1) % 2 ^ 32) = 1 by decide, Multiset.card_zero] at hfull
      omega
  · exfalso
    rw [Multiset.card_zero] at hcard
    omega

theorem exec_loads_program_byte : ∃ im : Image, ∃ d m',
    (execLoad im (some oneByte)).run im.empty = .ok (some (d, 3 * PGSIZE)) m' ∧
      byteAt m' d 0 = 7 := by
  have hroom : 2000 ≤ (⟨0x108000, 0x116000, by decide, by decide, by decide, by decide⟩ :
      Image).pool.card := by
    unfold Image.pool
    rw [Finset.card_val, Nat.card_Ico]
    decide
  refine ⟨⟨0x108000, 0x116000, by decide, by decide, by decide, by decide⟩, ?_⟩
  generalize (⟨0x108000, 0x116000, _, _, _, _⟩ : Image) = im at hroom ⊢
  have hacc : Accounts im im.empty 0 := add_zero _
  obtain ⟨-, r, m', hrun, hres⟩ := exec_loads_program oneByte hacc (by decide)
  have hload := execLoad_oneByte (E := fun _ _ => False) hroom
  rw [hrun, Outcome.sat_ok] at hload
  obtain ⟨d, rfl⟩ := hload
  refine ⟨d, m', hrun, ?_⟩
  rw [(hres d _ rfl).2.2 0 (by decide)]
  decide +kernel

end BossOs.Vm
