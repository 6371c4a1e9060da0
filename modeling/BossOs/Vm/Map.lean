import BossOs.Vm.Dealloc

/-!
# `mappages` and `setupkvm`

The entries that `setupkvm` makes are those that the table `kmap` asks for. Both fail
only where the free list runs out, and then all pages taken are given back.
-/

namespace BossOs.Vm

open Lib
open Prog (sat_bind sat_pure)
open Function (update update_self update_of_ne)

variable {im : Image} {K R R' : Multiset Nat} {d : Nat} {m : Mem} {E : Stop → Mem → Prop}

variable {v : Nat}

theorem page_addr_lt (hv : v < VPAGES) : v * PGSIZE < 2 ^ 32 := by
  unfold VPAGES at hv
  rw [pgsize_eq]
  omega

theorem page_addr_div (v : Nat) : v * PGSIZE / PGSIZE = v := Nat.mul_div_cancel _ (by decide)

variable {perm : Nat}

theorem mapPage_spec {pa : Nat} (h : Accounts im m (space m d + R)) (hK : ∀ n ∈ K, n ∈ R)
    (hv : v < VPAGES) (habs : present (lookup m d v) = false)
    (hset : ∀ m₁ t, Turn im K R d (· = v / 1024) (lookup m d) m m₁ →
      tablePage m₁ d (v / 1024) = some t →
      Turn im K R' d (· = v / 1024) (update (lookup m₁ d) v (pa ||| perm ||| PTE_P)) m₁
        (m₁.setEntry t v (pa ||| perm ||| PTE_P))) : ((mapPage d perm (v * PGSIZE) pa).run m).Sat
      (fun ok m' => (ok = true ∧ Turn im K R' d (· = v / 1024)
          (update (lookup m d) v (pa ||| perm ||| PTE_P)) m m') ∨
        (ok = false ∧ Turn im K R d (· = v / 1024) (lookup m d) m m' ∧ m'.free = [])) E := by
  unfold mapPage
  rw [sat_bind]
  apply (walkpgdir_spec h hK (page_addr_lt hv)).imp
  rw [page_addr_div]
  rintro _ m₁ ⟨hturn, ⟨rfl, hfree⟩ | ⟨t, rfl, ht⟩⟩
  · rw [sat_pure]
    exact Or.inr ⟨rfl, hturn, hfree⟩
  · have hword : (m₁.page t).word (v % 1024) = lookup m d v :=
      (lookup_of_table ht).symm.trans (hturn.entry v hv)
    simp only [sat_bind]
    rw [sat_load, hword, habs, if_neg Bool.false_ne_true, sat_bind, sat_store, sat_pure]
    refine Or.inl ⟨rfl, (hturn.trans (hset m₁ t hturn ht)).mono (fun i hi => hi.elim id id) ?_⟩
    intro w hw
    by_cases hwv : w = v
    · subst hwv
      rw [update_self, update_self]
    · rw [update_of_ne hwv, update_of_ne hwv, hturn.entry w hw]

theorem mapPage_edit {pa : Nat} (h : Tree m d) (hv : v < VPAGES)
    (he : pa ||| perm ||| PTE_P < 2 ^ 32) (habs : present (lookup m d v) = false) :
    ((mapPage d perm (v * PGSIZE) pa).run m).Sat (fun ok m' => Edit d m m' ∧
        (∀ w < VPAGES, w ≠ v → lookup m' d w = lookup m d w) ∧
        (ok = true ∧ lookup m' d v = pa ||| perm ||| PTE_P ∨ ok = false ∧ m'.free = [])) E := by
  unfold mapPage
  rw [sat_bind]
  apply (walkpgdir_edit h (page_addr_lt hv)).imp
  rw [page_addr_div]
  rintro _ m₁ ⟨hedit, hsame, ⟨rfl, hfree⟩ | ⟨t, rfl, ht⟩⟩
  · rw [sat_pure]
    exact ⟨hedit, fun w hw _ => hsame w hw, Or.inr ⟨rfl, hfree⟩⟩
  · have hword : (m₁.page t).word (v % 1024) = lookup m d v :=
      (lookup_of_table ht).symm.trans (hsame v hv)
    simp only [sat_bind]
    rw [sat_load, hword, habs, if_neg Bool.false_ne_true, sat_bind, sat_store, sat_pure]
    refine ⟨hedit.trans (edit_setEntry hedit.tree hv ht), ?_, Or.inl ⟨rfl, ?_⟩⟩
    · intro w hw hwv
      exact ((lookup_setEntry hedit.tree hv ht he hw).trans (if_neg hwv)).trans (hsame w hw)
    · exact (lookup_setEntry hedit.tree hv ht he hv).trans (if_pos rfl)

theorem or_perm_lt (hperm : perm < PGSIZE) : perm ||| PTE_P < PGSIZE := by
  rw [pgsize_eq, show 4096 = 2 ^ 12 from rfl] at *
  exact Nat.or_lt_two_pow hperm (by decide)

theorem present_or_p (x : Nat) : present (x ||| PTE_P) = true := by
  rw [present_eq, Nat.testBit_or]
  simp [PTE_P]

theorem mapPage_kernel {p : Nat} (h : Accounts im m (space m d + K)) (hv : v < VPAGES)
    (hu : UPAGES ≤ v) (hp : p < 2 ^ 20) (hperm : perm < PGSIZE)
    (habs : present (lookup m d v) = false) : ((mapPage d perm (v * PGSIZE) (p * PGSIZE)).run m).Sat
      (fun ok m' => (ok = true ∧ Turn im K K d (· = v / 1024)
          (update (lookup m d) v (p * PGSIZE ||| perm ||| PTE_P)) m m') ∨
        (ok = false ∧ Turn im K K d (· = v / 1024) (lookup m d) m m' ∧ m'.free = [])) E := by
  have he : p * PGSIZE ||| perm ||| PTE_P < 2 ^ 32 := by
    rw [Nat.or_assoc]
    exact entry_lt (or_perm_lt hperm) hp
  apply mapPage_spec h (fun _ hn => hn) hv habs
  intro m₁ t hturn ht
  exact turn_setKernel hturn.total hv ht (fun _ hn => hn) he hu

theorem mapPage_user {p : Nat} (h : Accounts im m (space m d + (p ::ₘ K))) (hu : v < UPAGES)
    (hperm : perm < PGSIZE) (habs : present (lookup m d v) = false) :
    ((mapPage d perm (v * PGSIZE) (p * PGSIZE)).run m).Sat (fun ok m' =>
        (ok = true ∧ Turn im K K d (· = v / 1024)
          (update (lookup m d) v (p * PGSIZE ||| perm ||| PTE_P)) m m') ∨
        (ok = false ∧ Turn im K (p ::ₘ K) d (· = v / 1024) (lookup m d) m m' ∧ m'.free = [])) E := by
  have hK : ∀ n ∈ K, n ∈ p ::ₘ K := fun _ hn => Multiset.mem_cons_of_mem hn
  have hlt := h.lt_of_mem (Multiset.mem_add.mpr (Or.inr (Multiset.mem_cons_self p K)))
  have hx := or_perm_lt hperm
  apply mapPage_spec h hK (upage_lt hu) habs
  intro m₁ t hturn ht
  have habs' : present (lookup m₁ d v) = false := by
    rw [hturn.entry v (upage_lt hu)]
    exact habs
  apply turn_setUser (upage_lt hu) ht hturn.total hK _ hu habs'
  · exact present_or_p _
  · rw [Nat.or_assoc]
    exact frame_entry hx
  · rw [Nat.or_assoc]
    exact entry_lt hx hlt

theorem mapPage_user_edit {p : Nat} (h : Accounts im m (space m d + (p ::ₘ K)))
    (hu : v < UPAGES) (hperm : perm < PGSIZE) (habs : present (lookup m d v) = false) :
    ((mapPage d perm (v * PGSIZE) (p * PGSIZE)).run m).Sat
      (fun ok m' => Edit d m m' ∧ (∀ w < VPAGES, w ≠ v → lookup m' d w = lookup m d w) ∧
        ((ok = true ∧ Turn im K K d (· = v / 1024)
            (update (lookup m d) v (p * PGSIZE ||| perm ||| PTE_P)) m m' ∧
            lookup m' d v = p * PGSIZE ||| perm ||| PTE_P) ∨
          (ok = false ∧ Turn im K (p ::ₘ K) d (· = v / 1024) (lookup m d) m m' ∧
            m'.free = []))) E := by
  have hlt := h.lt_of_mem (Multiset.mem_add.mpr (Or.inr (Multiset.mem_cons_self p K)))
  have he : p * PGSIZE ||| perm ||| PTE_P < 2 ^ 32 := by
    rw [Nat.or_assoc]
    exact entry_lt (or_perm_lt hperm) hlt
  have hboth := (mapPage_user (E := E) h hu hperm habs).and
    (mapPage_edit (E := E) h.tree (upage_lt hu) he habs)
  apply hboth.mono _ fun _ _ hE => hE.1
  rintro ok m' ⟨⟨rfl, hturn⟩ | ⟨rfl, hturn, hfree⟩, hedit, hsame, -⟩
  · refine ⟨hedit, hsame, Or.inl ⟨rfl, hturn, ?_⟩⟩
    rw [hturn.entry v (upage_lt hu), update_self]
  · exact ⟨hedit, hsame, Or.inr ⟨rfl, hturn, hfree⟩⟩

theorem mappages_page {pa : Nat} (hv : v < VPAGES) :
    mappages d (v * PGSIZE) PGSIZE pa perm = mapPage d perm (v * PGSIZE) pa := by
  have hlast : PGROUNDDOWN ((v * PGSIZE + PGSIZE - 1) % 2 ^ 32) = v * PGSIZE := by
    unfold VPAGES at hv
    unfold PGROUNDDOWN
    rw [pgsize_eq]
    omega
  have hfirst : PGROUNDDOWN (v * PGSIZE) = v * PGSIZE := by
    unfold PGROUNDDOWN
    rw [page_addr_div]
  have hcount : (v * PGSIZE + (2 ^ 32 - v * PGSIZE)) % 2 ^ 32 / PGSIZE = 0 := by
    rw [Nat.add_sub_cancel' (Nat.le_of_lt (page_addr_lt hv))]
    rfl
  unfold mappages
  simp only [hfirst, hlast, hcount]
  rfl

def Kmap.covers (k : Kmap) (v : Nat) : Bool :=
  decide (k.virt ≤ v * PGSIZE ∧ v * PGSIZE < k.virt + k.size)

theorem Kmap.covers_iff {k : Kmap} :
    k.covers v = true ↔ k.virt ≤ v * PGSIZE ∧ v * PGSIZE < k.virt + k.size := decide_eq_true_iff

def Kmap.entry (k : Kmap) (v : Nat) : Nat :=
  (k.physStart + (v * PGSIZE - k.virt)) ||| k.perm ||| PTE_P

def mapped (ks : List Kmap) (L : Nat → Nat) (v : Nat) : Nat :=
  ((ks.find? fun k => k.covers v).map fun k => k.entry v).getD (L v)

def kernelEntry (im : Image) (v : Nat) : Nat := mapped (kmap im) (fun _ => 0) v

/-- A row in pages: `n + 1` of them, from virtual page `v` and physical page `p` on. -/
structure Kmap.Wf (k : Kmap) : Prop where
  virt : k.virt % PGSIZE = 0
  phys : k.physStart % PGSIZE = 0
  size : k.size % PGSIZE = 0
  pos : 0 < k.size
  kernel : KERNBASE ≤ k.virt
  virt_le : k.virt + k.size ≤ 2 ^ 32
  phys_le : k.physStart + k.size ≤ 2 ^ 32
  perm : k.perm = PTE_W ∨ k.perm = 0

def Kmap.touches (k : Kmap) (i : Nat) : Prop :=
  k.virt / PGSIZE / 1024 ≤ i ∧ i ≤ (k.virt + k.size - 1) / PGSIZE / 1024

theorem kmap_wf (im : Image) : ∀ k ∈ kmap im, k.Wf := by
  have h1 := im.aligned
  have h2 := im.text
  have h3 := im.data_le
  have h4 := im.top_le
  intro k hk
  simp only [kmap, List.mem_cons, List.not_mem_nil, or_false] at hk
  simp only [pgsize_eq, EXTMEM] at h1 h2
  rcases hk with rfl | rfl | rfl | rfl
  · constructor <;> decide
  · constructor <;> simp only [Kmap.size, pgsize_eq, KERNLINK, KERNBASE, EXTMEM, or_true] <;> omega
  · constructor <;> simp only [Kmap.size, pgsize_eq, KERNBASE, PHYSTOP, true_or] <;> omega
  · constructor <;> decide

theorem kmap_pairwise (im : Image) :
    (kmap im).Pairwise fun k k' => ∀ v, k.covers v = true → k'.covers v = false := by
  have h2 := im.text
  have h3 := im.data_le
  have h4 := im.top_le
  simp only [EXTMEM] at h2
  simp only [kmap, List.pairwise_cons, List.mem_cons, List.not_mem_nil, or_false,
    forall_eq_or_imp, forall_eq, List.Pairwise.nil, and_true, IsEmpty.forall_iff, implies_true]
  refine ⟨⟨?_, ?_, ?_⟩, ⟨?_, ?_⟩, ?_⟩ <;>
  · intro v hv
    rw [Bool.eq_false_iff, Ne, Kmap.covers_iff]
    rw [Kmap.covers_iff] at hv
    simp only [Kmap.size, pgsize_eq, KERNLINK, KERNBASE, EXTMEM, PHYSTOP, DEVSPACE] at hv ⊢
    omega

theorem mapFrom_spec (hperm : perm < PGSIZE) (n : Nat) :
    ∀ {m : Mem} {v p : Nat}, Accounts im m (space m d + K) → UPAGES ≤ v → v + n < VPAGES →
      p + n < 2 ^ 20 → (∀ w, v ≤ w → w ≤ v + n → present (lookup m d w) = false) →
      ((mapFrom d perm n (v * PGSIZE) (p * PGSIZE)).run m).Sat (fun ok m' =>
          (ok = true ∧ Turn im K K d (fun i => v / 1024 ≤ i ∧ i ≤ (v + n) / 1024)
            (fun w => if v ≤ w ∧ w ≤ v + n then (p + (w - v)) * PGSIZE ||| perm ||| PTE_P
              else lookup m d w) m m') ∨
          (ok = false ∧ m'.free = [] ∧ ∃ L, (∀ w < UPAGES, L w = lookup m d w) ∧
            Turn im K K d (fun i => v / 1024 ≤ i ∧ i ≤ (v + n) / 1024) L m m')) E := by
  induction n with
  | zero =>
    intro m v p h hu hv hp habs
    rw [Nat.add_zero] at hv hp
    unfold mapFrom
    apply (mapPage_kernel h hv hu hp hperm (habs v (Nat.le_refl v) (Nat.le_refl v))).imp
    have hI : ∀ i, i = v / 1024 → v / 1024 ≤ i ∧ i ≤ (v + 0) / 1024 := by
      rintro i rfl
      exact ⟨Nat.le_refl _, Nat.le_refl _⟩
    rintro ok m' (⟨rfl, hturn⟩ | ⟨rfl, hturn, hfree⟩)
    · refine Or.inl ⟨rfl, hturn.mono hI ?_⟩
      intro w _
      by_cases hwv : w = v
      · subst hwv
        rw [update_self, if_pos ⟨Nat.le_refl w, Nat.le_refl w⟩, Nat.sub_self, Nat.add_zero]
      · rw [update_of_ne hwv, if_neg (by omega)]
    · exact Or.inr ⟨rfl, hfree, _, fun _ _ => rfl, hturn.mono hI fun _ _ => rfl⟩
  | succ n ih =>
    intro m v p h hu hv hp habs
    have hva : (v * PGSIZE + PGSIZE) % 2 ^ 32 = (v + 1) * PGSIZE := by
      unfold VPAGES at hv
      rw [pgsize_eq]
      omega
    have hpa : (p * PGSIZE + PGSIZE) % 2 ^ 32 = (p + 1) * PGSIZE := by
      rw [pgsize_eq]
      omega
    unfold mapFrom
    rw [sat_bind]
    apply (mapPage_kernel h (by omega) hu (by omega) hperm (habs v (Nat.le_refl v) (by omega))).imp
    have hI : ∀ i, i = v / 1024 → v / 1024 ≤ i ∧ i ≤ (v + (n + 1)) / 1024 := by
      rintro i rfl
      exact ⟨Nat.le_refl _, Nat.div_le_div_right (by omega)⟩
    rintro ok m₁ (⟨rfl, hturn⟩ | ⟨rfl, hturn, hfree⟩)
    · rw [if_pos rfl, hva, hpa]
      have hentry : ∀ w < VPAGES, w ≠ v → lookup m₁ d w = lookup m d w := by
        intro w hw hwv
        rw [hturn.entry w hw, update_of_ne hwv]
      have hJ : ∀ i, i = v / 1024 ∨ ((v + 1) / 1024 ≤ i ∧ i ≤ (v + 1 + n) / 1024) →
          v / 1024 ≤ i ∧ i ≤ (v + (n + 1)) / 1024 := by
        rintro i (hi | ⟨hi1, hi2⟩)
        · exact hI i hi
        · omega
      apply (ih hturn.total (by omega) (by omega) (by omega) ?_).imp
      · rintro ok m' (⟨rfl, hturn'⟩ | ⟨rfl, hfree, L, hL, hturn'⟩)
        · refine Or.inl ⟨rfl, (hturn.trans hturn').mono hJ ?_⟩
          intro w hw
          by_cases hwv : w = v
          · subst hwv
            rw [if_neg (by omega), if_pos ⟨Nat.le_refl w, by omega⟩, hturn.entry w hw,
              update_self, Nat.sub_self, Nat.add_zero]
          · rw [hentry w hw hwv]
            by_cases hr : v + 1 ≤ w ∧ w ≤ v + 1 + n
            · rw [if_pos hr, if_pos (by omega), show p + 1 + (w - (v + 1)) = p + (w - v) by omega]
            · rw [if_neg hr, if_neg (by omega)]
        · refine Or.inr ⟨rfl, hfree, L, ?_, (hturn.trans hturn').mono hJ fun _ _ => rfl⟩
          intro w hw
          rw [hL w hw, hentry w (upage_lt hw) (by omega)]
      · intro w hw1 hw2
        rw [hentry w (by omega) (by omega)]
        exact habs w (by omega) (by omega)
    · rw [if_neg Bool.false_ne_true, sat_pure]
      exact Or.inr ⟨rfl, hfree, _, fun _ _ => rfl, hturn.mono hI fun _ _ => rfl⟩

end BossOs.Vm
