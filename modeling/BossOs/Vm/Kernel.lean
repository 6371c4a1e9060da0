import BossOs.Vm.Map

/-!
# A new address space
-/

namespace BossOs.Vm

open Lib
open Prog (sat_bind sat_pure)

variable {im : Image} {K : Multiset Nat} {d : Nat} {m : Mem} {E : Stop → Mem → Prop}

section Row

variable {k : Kmap} (hk : k.Wf)
include hk

theorem Kmap.Wf.perm_lt : k.perm < PGSIZE := by
  rcases hk.perm with hp | hp <;> rw [hp] <;> decide

theorem mappages_row : mappages d k.virt k.size k.physStart k.perm =
    mapFrom d k.perm (k.size / PGSIZE - 1) (k.virt / PGSIZE * PGSIZE)
      (k.physStart / PGSIZE * PGSIZE) := by
  obtain ⟨h1, h2, h3, h4, -, h6, h7, -⟩ := hk
  rw [pgsize_eq] at *
  have hfirst : PGROUNDDOWN k.virt = k.virt / 4096 * 4096 := rfl
  have hphys : k.physStart / 4096 * 4096 = k.physStart := by omega
  have hcount : (PGROUNDDOWN ((k.virt + k.size - 1) % 2 ^ 32) +
      (2 ^ 32 - k.virt / 4096 * 4096)) % 2 ^ 32 / PGSIZE = k.size / 4096 - 1 := by
    unfold PGROUNDDOWN
    rw [pgsize_eq]
    omega
  unfold mappages
  simp only [hfirst, hcount, hphys]

theorem covers_pages {w : Nat} : k.covers w = true ↔
    k.virt / PGSIZE ≤ w ∧ w ≤ k.virt / PGSIZE + (k.size / PGSIZE - 1) := by
  obtain ⟨h1, h2, h3, h4, -, h6, h7, -⟩ := hk
  rw [Kmap.covers_iff]
  rw [pgsize_eq] at *
  omega

theorem entry_pages {w : Nat} (hw : k.covers w = true) :
    (k.physStart / PGSIZE + (w - k.virt / PGSIZE)) * PGSIZE ||| k.perm ||| PTE_P = k.entry w := by
  obtain ⟨h1, h2, h3, h4, -, h6, h7, -⟩ := hk
  rw [Kmap.covers_iff] at hw
  have haddr : (k.physStart / PGSIZE + (w - k.virt / PGSIZE)) * PGSIZE =
      k.physStart + (w * PGSIZE - k.virt) := by
    rw [pgsize_eq] at *
    omega
  unfold Kmap.entry
  rw [haddr]

theorem mapRow_spec (h : Accounts im m (space m d + K))
    (habs : ∀ w, k.covers w = true → present (lookup m d w) = false) :
    ((mappages d k.virt k.size k.physStart k.perm).run m).Sat (fun ok m' =>
        (ok = true ∧ Turn im K K d k.touches
          (fun w => if k.covers w = true then k.entry w else lookup m d w) m m') ∨
        (ok = false ∧ m'.free = [] ∧ ∃ L, (∀ w < UPAGES, L w = lookup m d w) ∧
          Turn im K K d k.touches L m m')) E := by
  have htouch : ∀ i, k.virt / PGSIZE / 1024 ≤ i ∧
      i ≤ (k.virt / PGSIZE + (k.size / PGSIZE - 1)) / 1024 → k.touches i := by
    have h1 := hk.virt
    have h3 := hk.size
    have h4 := hk.pos
    intro i hi
    unfold Kmap.touches
    rw [pgsize_eq] at *
    omega
  rw [mappages_row hk]
  apply (mapFrom_spec hk.perm_lt _ h ?_ ?_ ?_ ?_).imp
  · rintro ok m' (⟨rfl, hturn⟩ | ⟨rfl, hfree, L, hL, hturn⟩)
    · refine Or.inl ⟨rfl, hturn.mono htouch ?_⟩
      intro w _
      by_cases hw : k.covers w = true
      · rw [if_pos ((covers_pages hk).mp hw), if_pos hw, entry_pages hk hw]
      · rw [if_neg fun hc => hw ((covers_pages hk).mpr hc), if_neg hw]
    · exact Or.inr ⟨rfl, hfree, L, hL, hturn.mono htouch fun _ _ => rfl⟩
  · have h5 := hk.kernel
    unfold KERNBASE at h5
    rw [pgsize_eq, upages_eq]
    omega
  · have h6 := hk.virt_le
    have h4 := hk.pos
    have h3 := hk.size
    unfold VPAGES
    rw [pgsize_eq] at *
    omega
  · have h7 := hk.phys_le
    have h4 := hk.pos
    have h3 := hk.size
    rw [pgsize_eq] at *
    omega
  · intro w hw1 hw2
    exact habs w ((covers_pages hk).mpr ⟨hw1, hw2⟩)

end Row

theorem mapped_cons {k : Kmap} {ks : List Kmap} {L : Nat → Nat} {w : Nat}
    (hdisj : k.covers w = true → ∀ k' ∈ ks, k'.covers w = false) :
    mapped ks (fun v => if k.covers v = true then k.entry v else L v) w = mapped (k :: ks) L w := by
  unfold mapped
  rw [List.find?_cons]
  cases hc : k.covers w with
  | true =>
    have hnone : (ks.find? fun k' => k'.covers w) = none := by
      apply List.find?_eq_none.mpr
      intro k' hk' hc'
      rw [hdisj hc k' hk'] at hc'
      exact Bool.false_ne_true hc'
    rw [hnone]
    simp only [Option.map_none, Option.getD_none, Option.map_some, Option.getD_some, hc, if_true]
  | false => simp only [hc, Bool.false_eq_true, if_false]

theorem mapKernel_spec (ks : List Kmap) : ∀ {m : Mem}, (∀ k ∈ ks, k.Wf) →
    (ks.Pairwise fun k k' => ∀ v, k.covers v = true → k'.covers v = false) →
    Accounts im m (space m d + K) →
    (∀ k ∈ ks, ∀ w, k.covers w = true → present (lookup m d w) = false) →
    ((mapKernel d ks).run m).Sat (fun ok m' =>
        (ok = true ∧ Turn im K K d (fun i => ∃ k ∈ ks, k.touches i) (mapped ks (lookup m d)) m m') ∨
        (ok = false ∧ m'.free = [] ∧ ∃ L, (∀ w < UPAGES, L w = lookup m d w) ∧
          Turn im K K d (fun i => ∃ k ∈ ks, k.touches i) L m m')) E := by
  induction ks with
  | nil =>
    intro m _ _ h _
    rw [mapKernel, sat_pure]
    exact Or.inl ⟨rfl, .refl h⟩
  | cons k ks ih =>
    intro m hwf hpair h habs
    obtain ⟨hk, hks⟩ := List.pairwise_cons.mp hpair
    unfold mapKernel
    rw [sat_bind]
    apply (mapRow_spec (hwf k List.mem_cons_self) h (habs k List.mem_cons_self)).imp
    have hI : ∀ i, k.touches i → ∃ k' ∈ k :: ks, k'.touches i := fun i hi =>
      ⟨k, List.mem_cons_self, hi⟩
    have hJ : ∀ i, (k.touches i ∨ ∃ k' ∈ ks, k'.touches i) → ∃ k' ∈ k :: ks, k'.touches i := by
      rintro i (hi | ⟨k', hk', hi⟩)
      · exact hI i hi
      · exact ⟨k', List.mem_cons_of_mem k hk', hi⟩
    rintro ok m₁ (⟨rfl, hturn⟩ | ⟨rfl, hfree, L, hL, hturn⟩)
    · rw [if_pos rfl]
      apply (ih (fun k' hk' => hwf k' (List.mem_cons_of_mem k hk')) hks hturn.total ?_).imp
      · rintro ok m' (⟨rfl, hturn'⟩ | ⟨rfl, hfree, L, hL, hturn'⟩)
        · refine Or.inl ⟨rfl, (hturn.trans hturn').mono hJ ?_⟩
          intro w hw
          rw [← mapped_cons fun hc k' hk' => hk k' hk' w hc]
          unfold mapped
          rw [hturn.entry w hw]
        · refine Or.inr ⟨rfl, hfree, L, ?_, (hturn.trans hturn').mono hJ fun _ _ => rfl⟩
          intro w hw
          have hnot : ¬ k.covers w = true := by
            have hker := (hwf k List.mem_cons_self).kernel
            rw [Kmap.covers_iff]
            unfold KERNBASE at hker
            rw [upages_eq] at hw
            rw [pgsize_eq]
            omega
          rw [hL w hw, hturn.entry w (upage_lt hw), if_neg hnot]
      · intro k' hk' w hc
        have hw : w < VPAGES := by
          have hle := (hwf k' (List.mem_cons_of_mem k hk')).virt_le
          rw [Kmap.covers_iff, pgsize_eq] at hc
          unfold VPAGES
          omega
        have hnot : ¬ k.covers w = true := by
          intro hcw
          rw [hk k' hk' w hcw] at hc
          exact Bool.false_ne_true hc
        rw [hturn.entry w hw, if_neg hnot]
        exact habs k' (List.mem_cons_of_mem k hk') w hc
    · rw [if_neg Bool.false_ne_true, sat_pure]
      exact Or.inr ⟨rfl, hfree, L, hL, hturn.mono hI fun _ _ => rfl⟩

theorem card_space_le {T P : Finset Nat} (hT : ∀ i < NPDENTRIES, i ∉ T → tablePage m d i = none)
    (hP : ∀ v < UPAGES, v ∉ P → present (lookup m d v) = false) :
    (space m d).card ≤ 1 + T.card + P.card := by
  have htables : (tables m d).card ≤ T.card := by
    unfold tables
    exact card_gather_le fun i hi hiT => hT i (Finset.mem_range.mp hi) hiT
  have hframes : (frames m d).card ≤ P.card := by
    unfold frames
    apply card_gather_le
    intro v hv hvP
    unfold framePage
    rw [hP v (Finset.mem_range.mp hv) hvP]
    rfl
  unfold space
  rw [Multiset.card_cons, Multiset.card_add]
  omega

def kernelTables : Finset Nat := Finset.Ico 512 568 ∪ Finset.Ico 1016 1024

theorem mem_kernelTables {k : Kmap} (hk : k ∈ kmap im) {i : Nat} (hi : k.touches i) :
    i ∈ kernelTables := by
  have h2 := im.text
  have h3 := im.data_le
  have h4 := im.top_le
  unfold kernelTables
  rw [Finset.mem_union, Finset.mem_Ico, Finset.mem_Ico]
  unfold Kmap.touches at hi
  simp only [kmap, List.mem_cons, List.not_mem_nil, or_false] at hk
  simp only [EXTMEM] at h2
  rcases hk with rfl | rfl | rfl | rfl <;>
    simp only [Kmap.size, pgsize_eq, KERNLINK, KERNBASE, EXTMEM, PHYSTOP, DEVSPACE] at hi <;>
    omega

theorem card_kernelTables : kernelTables.card = 64 := by decide +kernel

theorem Accounts.card_pool {A : Multiset Nat} (h : Accounts im m A) (hfree : m.free = []) :
    im.pool.card = A.card := by
  unfold Accounts at h
  rw [← h, hfree, Multiset.coe_nil, zero_add]

theorem lookup_fresh (hd : m.page d = Bytes.zero) (v : Nat) : lookup m d v = 0 := by
  apply lookup_of_none
  unfold tablePage
  rw [hd, Bytes.word_zero]
  rfl

theorem space_fresh (hd : m.page d = Bytes.zero) : space m d = {d} := by
  have htables : tables m d = 0 := by
    unfold tables
    apply gather_eq_zero
    intro i _
    unfold tablePage
    rw [hd, Bytes.word_zero]
    rfl
  have hframes : frames m d = 0 := by
    unfold frames
    apply gather_eq_zero
    intro v _
    unfold framePage
    rw [lookup_fresh hd]
    rfl
  unfold space
  rw [htables, hframes]
  rfl

/-- A new address space has the entries of `kmap` and no other. -/
structure NewSpace (im : Image) (K : Multiset Nat) (d : Nat) (m m' : Mem) : Prop where
  total : Accounts im m' (space m' d + K)
  entry : ∀ v, v < VPAGES → lookup m' d v = kernelEntry im v
  table : ∀ i, i < NPDENTRIES → i ∉ kernelTables → tablePage m' d i = none
  agree : Agree m m' K
  head : ∃ ds, m.free = d :: ds

theorem setupkvm_spec (h : Accounts im m K) : ((setupkvm im).run m).Sat (fun r m' =>
        (∃ d, r = some d ∧ NewSpace im K d m m') ∨
        (r = none ∧ Accounts im m' K ∧ Agree m m' K ∧ im.pool.card ≤ 65 + K.card)) E := by
  unfold setupkvm
  rw [sat_bind]
  apply sat_kalloc
  · intro hfree
    rw [sat_pure]
    refine Or.inr ⟨rfl, h, fun _ _ => rfl, ?_⟩
    rw [h.card_pool hfree]
    omega
  · intro d ds hfree
    have hpop := h.pop hfree
    have hd : d ∉ K := (Multiset.nodup_cons.mp (Multiset.nodup_add.mp hpop.nodup).2.1).1
    have hagree : Agree m (m.pop.write d Bytes.zero) K := agree_write (m := m.pop) _ hd
    have hpage : (m.pop.write d Bytes.zero).page d = Bytes.zero := write_page_self _ _ _
    have hacc : Accounts im (m.pop.write d Bytes.zero) (space (m.pop.write d Bytes.zero) d + K) := by
      rw [space_fresh hpage, Multiset.singleton_add]
      exact hpop.write d Bytes.zero
    simp only [sat_bind]
    rw [sat_memset, if_neg (by decide), sat_bind]
    have habs : ∀ w, present (lookup (m.pop.write d Bytes.zero) d w) = false := by
      intro w
      rw [lookup_fresh hpage]
      rfl
    have hnone : ∀ i, tablePage (m.pop.write d Bytes.zero) d i = none := by
      intro i
      unfold tablePage
      rw [hpage, Bytes.word_zero]
      rfl
    apply (mapKernel_spec (kmap im) (kmap_wf im) (kmap_pairwise im) hacc fun _ _ w _ => habs w).imp
    rintro ok m' (⟨rfl, hturn⟩ | ⟨rfl, hfree', L, hL, hturn⟩)
    · rw [if_pos rfl, sat_pure]
      refine Or.inl ⟨d, rfl, hturn.total, ?_, ?_, hagree.trans hturn.agree, ds, hfree⟩
      · intro v hv
        rw [hturn.entry v hv]
        unfold kernelEntry mapped
        rw [lookup_fresh hpage]
      · intro i hi hnot
        rw [hturn.table i hi fun ⟨k, hk, hki⟩ => hnot (mem_kernelTables hk hki)]
        exact hnone i
    · have hcard := hturn.total.card_pool hfree'
      have hspace := card_space_le (m := m') (d := d) (T := kernelTables) (P := ∅)
        (fun i hi hiT => by
          rw [hturn.table i hi fun ⟨k, hk, hki⟩ => hiT (mem_kernelTables hk hki)]
          exact hnone i)
        (fun v hv _ => by
          rw [hturn.entry v (upage_lt hv), hL v hv]
          exact habs v)
      rw [Multiset.card_add] at hcard
      rw [Finset.card_empty, card_kernelTables] at hspace
      rw [if_neg Bool.false_ne_true, sat_bind]
      apply (freevm_spec hturn.total).imp
      rintro _ m'' ⟨hacc', hagree'⟩
      rw [sat_pure]
      exact Or.inr ⟨rfl, hacc', (hagree.trans hturn.agree).trans hagree', by omega⟩

end BossOs.Vm
