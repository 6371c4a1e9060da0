import BossOs.Vm.Tables

/-!
# `kalloc`, `kfree` and `walkpgdir`
-/

namespace BossOs.Vm

open Multiset (mem_add mem_cons mem_cons_of_mem mem_cons_self)
open Lib
open Prog (sat_bind sat_get sat_modify sat_pure)

variable {im : Image} {K R : Multiset Nat} {d : Nat} {m : Mem} {E : Stop → Mem → Prop}

variable {Q : Unit → Mem → Prop}

theorem sat_memset (p : Nat) (c : Page) :
    ((memset p c).run m).Sat Q E = Q () (m.write p c) := Outcome.sat_ok ..

theorem sat_load (pte : Pte) {Q : Nat → Mem → Prop} :
    ((load pte).run m).Sat Q E = Q ((m.page pte.1).word pte.2) m := Outcome.sat_ok ..

theorem sat_store (pte : Pte) (e : Nat) : ((store pte e).run m).Sat Q E =
      Q () (m.write pte.1 ((m.page pte.1).setWord pte.2 e)) := Outcome.sat_ok ..

def Mem.pop (m : Mem) : Mem := { m with free := m.free.tail }

def Mem.push (m : Mem) (p : Nat) : Mem := { (m.write p junk) with free := p :: m.free }

variable {p : Nat}

theorem push_page_of_ne (m : Mem) {n : Nat} (h : n ≠ p) : (m.push p).page n = m.page n :=
  Function.update_of_ne h ..

theorem sat_kalloc {Q : Option Nat → Mem → Prop} (hnone : m.free = [] → Q none m)
    (hsome : ∀ p ps, m.free = p :: ps → Q (some p) m.pop) : (kalloc.run m).Sat Q E := by
  unfold kalloc
  rw [sat_bind, sat_get]
  cases hfree : m.free with
  | nil =>
    rw [sat_pure]
    exact hnone hfree
  | cons p ps =>
    have h := hsome p ps hfree
    unfold Mem.pop at h
    rw [hfree] at h
    rw [sat_bind, sat_modify, sat_pure]
    exact h

theorem sat_kfree (hp : p ∈ im.pool) : ((kfree im p).run m).Sat Q E = Q () (m.push p) := by
  obtain ⟨hlo, hhi⟩ := Image.mem_pool.mp hp
  have hrange : ¬ (p * PGSIZE < im.top ∨ PHYSTOP ≤ p * PGSIZE) := by omega
  unfold kfree
  rw [if_neg hrange, sat_bind, sat_memset, sat_modify]
  rfl

variable {A : Multiset Nat}

theorem Accounts.pop {ps : List Nat} (h : Accounts im m A)
    (hfree : m.free = p :: ps) : Accounts im m.pop (p ::ₘ A) := by
  apply h.alloc hfree
  unfold Mem.pop
  rw [hfree]
  rfl

theorem Accounts.push (h : Accounts im m (p ::ₘ A)) : Accounts im (m.push p) A := h.free rfl

theorem Accounts.write (h : Accounts im m A) (p : Nat) (c : Page) :
    Accounts im (m.write p c) A := h.congr rfl rfl

theorem agree_push (h : p ∉ A) : Agree m (m.push p) A :=
  agree_write junk h

section Walk

variable {va : Nat} (hva : va < 2 ^ 32)
include hva

theorem pdx_eq : PDX va = va / PGSIZE / 1024 := by
  unfold PDX
  rw [pgsize_eq]
  omega

omit hva in
theorem ptx_eq : PTX va = va / PGSIZE % 1024 := rfl

theorem vpage_lt : va / PGSIZE < VPAGES := by
  unfold VPAGES
  rw [pgsize_eq]
  omega

theorem sat_walkpgdir {Q : Option Pte → Mem → Prop} : ((walkpgdir d va false).run m).Sat Q E =
      Q ((tablePage m d (va / PGSIZE / 1024)).map fun t => (t, va / PGSIZE % 1024)) m := by
  unfold walkpgdir tablePage
  rw [sat_bind, sat_load, pdx_eq hva, ptx_eq]
  by_cases hp : present ((m.page d).word (va / PGSIZE / 1024)) = true
  · rw [if_pos hp, if_pos hp, sat_pure]
    rfl
  · rw [if_neg hp, if_neg hp, if_neg Bool.false_ne_true, sat_pure]
    rfl

end Walk

def Mem.install (m : Mem) (d i t : Nat) : Mem :=
  (m.pop.write t Bytes.zero).write d
    ((m.page d).setWord i (t * PGSIZE ||| PTE_P ||| PTE_W ||| PTE_U))

section Install

variable {i t : Nat} {ts : List Nat}

section Tree

variable (h : Tree m d) (hfree : m.free = t :: ts) (hi : i < NPDENTRIES)
  (habs : tablePage m d i = none)
include h hfree

theorem head_not_tree : t ∉ d ::ₘ tables m d := fun hmem => h.not_free hmem (by
  rw [hfree]
  exact List.mem_cons_self)

theorem head_ne_dir : t ≠ d := by
  rintro rfl
  exact head_not_tree h hfree (mem_cons_self _ _)

include hi

theorem tablePage_install {j : Nat} (hj : j < NPDENTRIES) :
    tablePage (m.install d i t) d j = if j = i then some t else tablePage m d j := by
  have hlt : t < 2 ^ 20 := by
    apply h.free_lt
    rw [hfree]
    exact List.mem_cons_self
  have hx : PTE_P ||| (PTE_W ||| PTE_U) < PGSIZE := by decide
  have hbound : ∀ k < NPDENTRIES, 4 * k + 4 ≤ PGSIZE := by
    intro k hk
    unfold NPDENTRIES at hk
    rw [pgsize_eq]
    omega
  unfold tablePage Mem.install
  rw [write_page_self, Nat.or_assoc, Nat.or_assoc]
  by_cases hji : j = i
  · subst hji
    rw [if_pos rfl, Bytes.word_setWord_self _ _ (hbound j hj), Nat.mod_eq_of_lt (entry_lt hx hlt),
      present_entry, frame_entry hx]
    rfl
  · rw [if_neg hji, Bytes.word_setWord_of_ne _ _ (hbound j hj) hji]

include habs

theorem lookup_install {v : Nat} (hv : v < VPAGES) :
    lookup (m.install d i t) d v = lookup m d v := by
  have hj := div_lt_of_vpage hv
  have hjt := tablePage_install h hfree hi hj
  have htd := head_ne_dir h hfree
  by_cases hji : v / 1024 = i
  · rw [if_pos hji] at hjt
    rw [lookup_of_table hjt, lookup_of_none (hji ▸ habs)]
    unfold Mem.install
    rw [write_page_of_ne _ _ htd, write_page_self, Bytes.word_zero]
  · rw [if_neg hji] at hjt
    cases hu : tablePage m d (v / 1024) with
    | none => rw [lookup_of_none (hjt.trans hu), lookup_of_none hu]
    | some u =>
      have hud := h.table_ne_dir hj hu
      have hut : u ≠ t := by
        rintro rfl
        exact head_not_tree h hfree (mem_cons_of_mem (mem_tables hj hu))
      rw [lookup_of_table (hjt.trans hu), lookup_of_table hu]
      unfold Mem.install
      rw [write_page_of_ne _ _ hud, write_page_of_ne _ _ hut]
      rfl

theorem tables_install : tables (m.install d i t) d = t ::ₘ tables m d := by
  unfold tables
  apply gather_cons (Finset.mem_range.mpr hi) habs
  · rw [tablePage_install h hfree hi hi, if_pos rfl]
  · intro j hj hji
    rw [tablePage_install h hfree hi (Finset.mem_range.mp hj), if_neg hji]

end Tree

variable (h : Accounts im m (space m d + R)) (hfree : m.free = t :: ts)
include h hfree

theorem head_not_mem : t ∉ space m d + R := fun hmem => h.not_free hmem (by
  rw [hfree]
  exact List.mem_cons_self)

theorem turn_take (hK : ∀ n ∈ K, n ∈ R) (c : Page) {I : Nat → Prop} :
    Turn im K (t ::ₘ R) d I (lookup m d) m (m.pop.write t c) := by
  have ht := head_not_mem h hfree
  have hagree : ∀ A : Multiset Nat, t ∉ A → Agree m (m.pop.write t c) A := fun _ hA =>
    agree_write (m := m.pop) c hA
  have htree : Agree m (m.pop.write t c) (d ::ₘ tables m d) :=
    (hagree _ fun hmem => ht (mem_add.mpr (Or.inl hmem))).of_space
  refine ⟨?_, fun v hv => htree.lookup_eq hv, fun i _ _ => htree.tablePage_eq i, ?_⟩
  · apply ((h.pop hfree).write t c).congr rfl
    rw [htree.space_eq, Multiset.add_cons]
  · exact hagree _ fun hmem => ht (mem_add.mpr (Or.inr (hK t hmem)))

theorem turn_install (hi : i < NPDENTRIES) (habs : tablePage m d i = none)
    (hK : ∀ n ∈ K, n ∈ R) : Turn im K R d (· = i) (lookup m d) m (m.install d i t) := by
  refine ⟨?_, fun v hv => lookup_install h.tree hfree hi habs hv, ?_, ?_⟩
  · have hframes : frames (m.install d i t) d = frames m d := by
      unfold frames
      apply gather_congr
      intro v hv
      unfold framePage
      rw [lookup_install h.tree hfree hi habs (upage_lt (Finset.mem_range.mp hv))]
    have hacc := h.pop hfree
    apply hacc.congr rfl
    unfold space
    rw [tables_install h.tree hfree hi habs, hframes]
    simp only [Multiset.cons_add]
    exact Multiset.cons_swap _ _ _
  · intro j hj hji
    rw [tablePage_install h.tree hfree hi hj, if_neg hji]
  · intro n hn
    have hnd : n ≠ d := by
      rintro rfl
      exact h.disjoint_rest (dir_mem_space m n) (hK n hn)
    have hnt : n ≠ t := by
      rintro rfl
      exact head_not_mem h hfree (mem_add.mpr (Or.inr (hK n hn)))
    unfold Mem.install
    rw [write_page_of_ne _ _ hnd, write_page_of_ne _ _ hnt]
    rfl

end Install

theorem sat_walkpgdir_alloc (h : Tree m d) {va : Nat} (hva : va < 2 ^ 32)
    {Q : Option Pte → Mem → Prop} (hthere : ∀ t, tablePage m d (va / PGSIZE / 1024) = some t →
      Q (some (t, va / PGSIZE % 1024)) m) (hnone : m.free = [] → Q none m)
    (hnew : ∀ t ts, m.free = t :: ts → tablePage m d (va / PGSIZE / 1024) = none →
      Q (some (t, va / PGSIZE % 1024)) (m.install d (va / PGSIZE / 1024) t)) :
    ((walkpgdir d va true).run m).Sat Q E := by
  unfold walkpgdir
  rw [sat_bind, sat_load, pdx_eq hva, ptx_eq]
  by_cases hp : present ((m.page d).word (va / PGSIZE / 1024)) = true
  · rw [if_pos hp, sat_pure]
    exact hthere _ (if_pos hp)
  · rw [if_neg hp, if_pos rfl, sat_bind]
    apply sat_kalloc
    · intro hfree
      rw [sat_pure]
      exact hnone hfree
    · intro t ts hfree
      have htd := head_ne_dir h hfree
      simp only [sat_bind]
      rw [sat_memset, sat_store, sat_pure, write_page_of_ne _ _ htd.symm]
      exact hnew t ts hfree (if_neg hp)

theorem walkpgdir_spec (h : Accounts im m (space m d + R)) (hK : ∀ n ∈ K, n ∈ R) {va : Nat}
    (hva : va < 2 ^ 32) : ((walkpgdir d va true).run m).Sat
      (fun r m' => Turn im K R d (· = va / PGSIZE / 1024) (lookup m d) m m' ∧
        (r = none ∧ m'.free = [] ∨ ∃ t, r = some (t, va / PGSIZE % 1024) ∧
            tablePage m' d (va / PGSIZE / 1024) = some t)) E := by
  have hi := div_lt_of_vpage (vpage_lt hva)
  apply sat_walkpgdir_alloc h.tree hva
  · intro t ht
    exact ⟨.refl h, Or.inr ⟨t, rfl, ht⟩⟩
  · intro hfree
    exact ⟨.refl h, Or.inl ⟨rfl, hfree⟩⟩
  · intro t ts hfree habs
    refine ⟨turn_install h hfree hi habs hK, Or.inr ⟨t, rfl, ?_⟩⟩
    exact (tablePage_install h.tree hfree hi hi).trans (if_pos rfl)

/-- The tree of `d` may have changed, and may have grown at the cost of the free list. -/
structure Edit (d : Nat) (m m' : Mem) : Prop where
  tree : Tree m' d
  free : ∀ n ∈ m'.free, n ∈ m.free
  tables : ∀ n ∈ tables m' d, n ∈ tables m d ∨ n ∈ m.free
  agree : ∀ n, n ∉ d ::ₘ Vm.tables m d → n ∉ m.free → m'.page n = m.page n

namespace Edit

variable {m' m'' : Mem}

theorem refl (h : Tree m d) : Edit d m m :=
  ⟨h, fun _ hn => hn, fun _ hn => Or.inl hn, fun _ _ _ => rfl⟩

theorem trans (h : Edit d m m') (h' : Edit d m' m'') : Edit d m m'' := by
  refine ⟨h'.tree, fun n hn => h.free n (h'.free n hn), ?_, ?_⟩
  · intro n hn
    rcases h'.tables n hn with ht | hf
    · exact h.tables n ht
    · exact Or.inr (h.free n hf)
  · intro n hn hf
    have hn' : n ∉ d ::ₘ Vm.tables m' d := by
      intro hmem
      rcases mem_cons.mp hmem with rfl | ht
      · exact hn (mem_cons_self _ _)
      · rcases h.tables n ht with ht | hfree
        · exact hn (mem_cons_of_mem ht)
        · exact hf hfree
    rw [h'.agree n hn' fun hfree => hf (h.free n hfree), h.agree n hn hf]

end Edit

theorem edit_install {i t : Nat} {ts : List Nat} (h : Tree m d) (hfree : m.free = t :: ts)
    (hi : i < NPDENTRIES) (habs : tablePage m d i = none) : Edit d m (m.install d i t) := by
  have htables := tables_install h hfree hi habs
  have htail : (m.install d i t).free = ts := by
    change m.free.tail = ts
    rw [hfree]
    rfl
  have hsub : ∀ n ∈ ts, n ∈ m.free := by
    intro n hn
    rw [hfree]
    exact List.mem_cons_of_mem t hn
  refine ⟨⟨?_, ?_⟩, ?_, ?_, ?_⟩
  · have hnd := h.nodup
    rw [hfree, ← Multiset.cons_coe, Multiset.cons_add] at hnd
    rw [htables, htail, Multiset.cons_swap, Multiset.add_cons]
    exact hnd
  · rw [htail]
    exact fun n hn => h.free_lt n (hsub n hn)
  · rw [htail]
    exact hsub
  · intro n hn
    rw [htables] at hn
    rcases mem_cons.mp hn with rfl | ht
    · rw [hfree]
      exact Or.inr List.mem_cons_self
    · exact Or.inl ht
  · intro n hn hf
    have hnd : n ≠ d := by
      rintro rfl
      exact hn (mem_cons_self _ _)
    have hnt : n ≠ t := by
      rintro rfl
      rw [hfree] at hf
      exact hf List.mem_cons_self
    unfold Mem.install
    rw [write_page_of_ne _ _ hnd, write_page_of_ne _ _ hnt]
    rfl

theorem edit_setEntry {v t e : Nat} (h : Tree m d) (hv : v < VPAGES)
    (ht : tablePage m d (v / 1024) = some t) : Edit d m (m.setEntry t v e) := by
  have htables := tables_setEntry (e := e) h hv ht
  refine ⟨⟨?_, h.free_lt⟩, fun _ hn => hn, ?_, ?_⟩
  · rw [htables]
    exact h.nodup
  · intro n hn
    rw [htables] at hn
    exact Or.inl hn
  · intro n hn _
    apply write_page_of_ne
    rintro rfl
    exact hn (mem_cons_of_mem (mem_tables (div_lt_of_vpage hv) ht))

theorem walkpgdir_edit (h : Tree m d) {va : Nat} (hva : va < 2 ^ 32) :
    ((walkpgdir d va true).run m).Sat
      (fun r m' => Edit d m m' ∧ (∀ v < VPAGES, lookup m' d v = lookup m d v) ∧
        (r = none ∧ m'.free = [] ∨ ∃ t, r = some (t, va / PGSIZE % 1024) ∧
            tablePage m' d (va / PGSIZE / 1024) = some t)) E := by
  have hi := div_lt_of_vpage (vpage_lt hva)
  apply sat_walkpgdir_alloc h hva
  · intro t ht
    exact ⟨.refl h, fun _ _ => rfl, Or.inr ⟨t, rfl, ht⟩⟩
  · intro hfree
    exact ⟨.refl h, fun _ _ => rfl, Or.inl ⟨rfl, hfree⟩⟩
  · intro t ts hfree habs
    refine ⟨edit_install h hfree hi habs, fun v hv => lookup_install h hfree hi habs hv,
      Or.inr ⟨t, rfl, ?_⟩⟩
    exact (tablePage_install h hfree hi hi).trans (if_pos rfl)

end BossOs.Vm
