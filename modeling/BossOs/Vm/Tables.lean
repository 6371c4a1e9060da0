import BossOs.Vm.Space

/-!
# Stores to page tables

`Turn` is what a function that works on one address space may do: the pages move between
the free list, the address space and the rest `R`, which are the pages `K` of all others
and those in hand; the entries become `L`, page tables come in at the indices `I` only,
and the pages `K` keep their contents.
-/

namespace BossOs.Vm

open Multiset (add_cons cons_add disjoint_left mem_add mem_coe mem_cons_of_mem nodup_add)
open Lib
open Function (update update_apply update_of_ne update_self)

variable {im : Image} {K R : Multiset Nat} {d : Nat}

structure Turn (im : Image) (K R : Multiset Nat) (d : Nat) (I : Nat → Prop) (L : Nat → Nat)
    (m m' : Mem) : Prop where
  total : Accounts im m' (space m' d + R)
  entry : ∀ v, v < VPAGES → lookup m' d v = L v
  table : ∀ i, i < NPDENTRIES → ¬ I i → tablePage m' d i = tablePage m d i
  agree : Agree m m' K

namespace Turn

variable {R' : Multiset Nat} {I J : Nat → Prop} {L L' : Nat → Nat} {m m' m'' : Mem}

theorem refl (h : Accounts im m (space m d + R)) : Turn im K R d I (lookup m d) m m :=
  ⟨h, fun _ _ => rfl, fun _ _ _ => rfl, fun _ _ => rfl⟩

theorem trans (h : Turn im K R' d I L m m') (h' : Turn im K R d J L' m' m'') :
    Turn im K R d (fun i => I i ∨ J i) L' m m'' := by
  refine ⟨h'.total, h'.entry, ?_, h.agree.trans h'.agree⟩
  intro i hi hij
  rw [h'.table i hi fun hJ => hij (Or.inr hJ), h.table i hi fun hI => hij (Or.inl hI)]

theorem mono (h : Turn im K R d I L m m') (hI : ∀ i, I i → J i)
    (hL : ∀ v < VPAGES, L v = L' v) : Turn im K R d J L' m m' :=
  ⟨h.total, fun v hv => (h.entry v hv).trans (hL v hv), fun i hi hJ => h.table i hi fun hi' =>
    hJ (hI i hi'), h.agree⟩

end Turn

theorem dir_mem_space (m : Mem) (d : Nat) : d ∈ space m d := Multiset.mem_cons_self _ _

theorem table_mem_space {m : Mem} {i t : Nat} (hi : i < NPDENTRIES)
    (ht : tablePage m d i = some t) : t ∈ space m d := by
  apply mem_cons_of_mem
  exact mem_add.mpr (Or.inl (mem_tables hi ht))

theorem frame_mem_space {m : Mem} {v : Nat} (hv : v < UPAGES)
    (hp : present (lookup m d v) = true) : frame (lookup m d v) ∈ space m d := by
  apply mem_cons_of_mem
  exact mem_add.mpr (Or.inr (mem_frames hv hp))

/-- The directory and its page tables are different pages, and none of them is free. -/
structure Tree (m : Mem) (d : Nat) : Prop where
  nodup : ((m.free : Multiset Nat) + (d ::ₘ tables m d)).Nodup
  free_lt : ∀ n ∈ m.free, n < 2 ^ 20

namespace Tree

variable {m : Mem} (h : Tree m d)
include h

theorem table_ne_dir {i t : Nat} (hi : i < NPDENTRIES) (ht : tablePage m d i = some t) : t ≠ d := by
  rintro rfl
  have hnd := (nodup_add.mp h.nodup).2.1
  exact (Multiset.nodup_cons.mp hnd).1 (mem_tables hi ht)

theorem table_inj {i j t : Nat} (hi : i < NPDENTRIES) (hj : j < NPDENTRIES)
    (hti : tablePage m d i = some t) (htj : tablePage m d j = some t) : i = j := by
  have hnd := (Multiset.nodup_cons.mp (nodup_add.mp h.nodup).2.1).2
  unfold tables at hnd
  exact gather_inj hnd (Finset.mem_range.mpr hi) (Finset.mem_range.mpr hj) hti htj

theorem not_free {n : Nat} (hn : n ∈ d ::ₘ tables m d) : n ∉ m.free := fun hf =>
  disjoint_left.mp (nodup_add.mp h.nodup).2.2 (mem_coe.mpr hf) hn

end Tree

section Separation

variable {m : Mem} (h : Accounts im m (space m d + R))
include h

theorem Accounts.disjoint_rest {n : Nat} (hn : n ∈ space m d) : n ∉ R := by
  have hnd := (nodup_add.mp h.nodup).2.1
  exact disjoint_left.mp (nodup_add.mp hnd).2.2 hn

theorem Accounts.not_free {n : Nat} (hn : n ∈ space m d + R) : n ∉ m.free := fun hf =>
  disjoint_left.mp (nodup_add.mp h.nodup).2.2 (mem_coe.mpr hf) hn

theorem Accounts.space_nodup : (d ::ₘ (tables m d + frames m d)).Nodup :=
  (nodup_add.mp (nodup_add.mp h.nodup).2.1).1

theorem Accounts.frame_not_tree {v : Nat} (hv : v < UPAGES) (hp : present (lookup m d v) = true) :
    frame (lookup m d v) ∉ d ::ₘ tables m d := by
  have hmem := mem_frames hv hp
  intro hc
  obtain ⟨hdir, hrest⟩ := Multiset.nodup_cons.mp h.space_nodup
  rcases Multiset.mem_cons.mp hc with hd | ht
  · rw [hd] at hmem
    exact hdir (mem_add.mpr (Or.inr hmem))
  · exact disjoint_left.mp (nodup_add.mp hrest).2.2 ht hmem

theorem Accounts.frame_inj {v w : Nat} (hv : v < UPAGES) (hw : w < UPAGES)
    (hpv : present (lookup m d v) = true) (hpw : present (lookup m d w) = true)
    (heq : frame (lookup m d v) = frame (lookup m d w)) : v = w := by
  have hnd : (frames m d).Nodup :=
    (nodup_add.mp (Multiset.nodup_cons.mp h.space_nodup).2).2.1
  unfold frames at hnd
  apply gather_inj hnd (Finset.mem_range.mpr hv) (Finset.mem_range.mpr hw) (if_pos hpv)
  rw [heq]
  exact if_pos hpw

theorem Accounts.tree : Tree m d := by
  constructor
  · apply Multiset.nodup_of_le _ h.nodup
    apply add_le_add_right
    unfold space
    rw [cons_add, add_assoc]
    exact Multiset.cons_le_cons d (Multiset.le_add_right _ _)
  · intro n hn
    have hpool : n ∈ im.pool := by
      unfold Accounts at h
      rw [← h]
      exact mem_add.mpr (Or.inl (mem_coe.mpr hn))
    have hlt := (Image.mem_pool.mp hpool).2
    simp only [pgsize_eq, PHYSTOP] at hlt
    omega

end Separation

@[simp] theorem write_page_self (m : Mem) (p : Nat) (c : Page) : (m.write p c).page p = c :=
  update_self ..

theorem write_page_of_ne (m : Mem) {p n : Nat} (c : Page) (h : n ≠ p) :
    (m.write p c).page n = m.page n := update_of_ne h ..

theorem agree_write {m : Mem} {p : Nat} {A : Multiset Nat} (c : Page) (h : p ∉ A) :
    Agree m (m.write p c) A := by
  intro n hn
  apply write_page_of_ne
  rintro rfl
  exact h hn

section Store

variable {m : Mem} {v t e : Nat}

def Mem.setEntry (m : Mem) (t v e : Nat) : Mem :=
  m.write t ((m.page t).setWord (v % 1024) e)

theorem word_bound (v : Nat) : 4 * (v % 1024) + 4 ≤ PGSIZE := by
  rw [pgsize_eq]
  omega

section Lookup

variable (h : Tree m d) (hv : v < VPAGES)
  (ht : tablePage m d (v / 1024) = some t)
include h hv ht

theorem tablePage_setEntry (i : Nat) : tablePage (m.setEntry t v e) d i = tablePage m d i := by
  unfold tablePage Mem.setEntry
  rw [write_page_of_ne _ _ (h.table_ne_dir (div_lt_of_vpage hv) ht).symm]

theorem lookup_setEntry (he : e < 2 ^ 32) {w : Nat} (hw : w < VPAGES) :
    lookup (m.setEntry t v e) d w = if w = v then e else lookup m d w := by
  by_cases hwv : w = v
  · subst hwv
    rw [if_pos rfl, lookup_of_table ((tablePage_setEntry h hv ht _).trans ht)]
    unfold Mem.setEntry
    rw [write_page_self, Bytes.word_setWord_self _ _ (word_bound w), Nat.mod_eq_of_lt he]
  · rw [if_neg hwv]
    cases htw : tablePage m d (w / 1024) with
    | none =>
      rw [lookup_of_none ((tablePage_setEntry h hv ht _).trans htw), lookup_of_none htw]
    | some u =>
      rw [lookup_of_table ((tablePage_setEntry h hv ht _).trans htw), lookup_of_table htw]
      unfold Mem.setEntry
      by_cases hut : u = t
      · subst hut
        have hdiv := h.table_inj (div_lt_of_vpage hw) (div_lt_of_vpage hv) htw ht
        rw [write_page_self, Bytes.word_setWord_of_ne _ _ (word_bound w) (by omega)]
      · rw [write_page_of_ne _ _ hut]

theorem framePage_setEntry (he : e < 2 ^ 32) {w : Nat} (hw : w < VPAGES) :
    framePage (m.setEntry t v e) d w =
      if w = v then (if present e then some (frame e) else none) else framePage m d w := by
  unfold framePage
  rw [lookup_setEntry h hv ht he hw]
  by_cases hwv : w = v
  · rw [if_pos hwv, if_pos hwv]
  · rw [if_neg hwv, if_neg hwv]

theorem tables_setEntry : tables (m.setEntry t v e) d = tables m d := by
  unfold tables
  exact gather_congr fun i _ => tablePage_setEntry h hv ht i

end Lookup

variable (h : Accounts im m (space m d + R)) (hv : v < VPAGES)
  (ht : tablePage m d (v / 1024) = some t)
include h hv ht

section
variable (hK : ∀ n ∈ K, n ∈ R)
include hK

theorem agree_setEntry : Agree m (m.setEntry t v e) K :=
  agree_write _ fun hn => h.disjoint_rest (table_mem_space (div_lt_of_vpage hv) ht) (hK t hn)

theorem turn_setEntry {R' : Multiset Nat} (he : e < 2 ^ 32)
    (htotal : frames (m.setEntry t v e) d + R' = frames m d + R) {I : Nat → Prop} :
    Turn im K R' d I (update (lookup m d) v e) m (m.setEntry t v e) := by
  refine ⟨?_, ?_, fun i _ _ => tablePage_setEntry h.tree hv ht i, agree_setEntry h hv ht hK⟩
  · apply h.congr rfl
    unfold space
    rw [tables_setEntry h.tree hv ht, cons_add, cons_add, add_assoc, add_assoc, htotal]
  · intro w hw
    rw [lookup_setEntry h.tree hv ht he hw, update_apply]

theorem turn_setKernel (he : e < 2 ^ 32) (hk : UPAGES ≤ v) {I : Nat → Prop} :
    Turn im K R d I (update (lookup m d) v e) m (m.setEntry t v e) := by
  apply turn_setEntry h hv ht hK he
  have hframes : frames (m.setEntry t v e) d = frames m d := by
    unfold frames
    apply gather_congr
    intro w hw
    have hwu := Finset.mem_range.mp hw
    rw [framePage_setEntry h.tree hv ht he (upage_lt hwu), if_neg (by omega)]
  rw [hframes]

theorem turn_setFlags (he : e < 2 ^ 32)
    (hp : present e = present (lookup m d v)) (hf : frame e = frame (lookup m d v))
    {I : Nat → Prop} : Turn im K R d I (update (lookup m d) v e) m (m.setEntry t v e) := by
  apply turn_setEntry h hv ht hK he
  have hframes : frames (m.setEntry t v e) d = frames m d := by
    unfold frames
    apply gather_congr
    intro w hw
    rw [framePage_setEntry h.tree hv ht he (upage_lt (Finset.mem_range.mp hw))]
    by_cases hwv : w = v
    · subst hwv
      rw [if_pos rfl, hp, hf]
      rfl
    · rw [if_neg hwv]
  rw [hframes]

end

omit h

theorem turn_setUser {p : Nat} (h : Accounts im m (space m d + (p ::ₘ R)))
    (hK : ∀ n ∈ K, n ∈ p ::ₘ R) (he : e < 2 ^ 32) (hu : v < UPAGES)
    (habs : present (lookup m d v) = false) (hp : present e = true) (hf : frame e = p)
    {I : Nat → Prop} : Turn im K R d I (update (lookup m d) v e) m (m.setEntry t v e) := by
  apply turn_setEntry h hv ht hK he
  have hframes : frames (m.setEntry t v e) d = p ::ₘ frames m d := by
    unfold frames
    apply gather_cons (Finset.mem_range.mpr hu)
    · unfold framePage
      rw [habs]
      rfl
    · rw [framePage_setEntry h.tree hv ht he hv, if_pos rfl, hp, hf]
      rfl
    · intro w hw hwv
      rw [framePage_setEntry h.tree hv ht he (upage_lt (Finset.mem_range.mp hw)), if_neg hwv]
  rw [hframes, cons_add, add_cons]

include h

theorem turn_clearUser (hu : v < UPAGES) (hp : present (lookup m d v) = true) :
    Accounts im (m.setEntry t v 0) (space (m.setEntry t v 0) d + (frame (lookup m d v) ::ₘ R)) ∧
      ∀ w < VPAGES, lookup (m.setEntry t v 0) d w = update (lookup m d) v 0 w := by
  have hframes : frames m d = frame (lookup m d v) ::ₘ frames (m.setEntry t v 0) d := by
    unfold frames
    apply gather_cons (Finset.mem_range.mpr hu)
    · rw [framePage_setEntry h.tree hv ht (by decide) hv, if_pos rfl]
      rfl
    · unfold framePage
      rw [hp]
      rfl
    · intro w hw hwv
      rw [framePage_setEntry h.tree hv ht (by decide) (upage_lt (Finset.mem_range.mp hw)), if_neg hwv]
  constructor
  · apply h.congr rfl
    unfold space
    rw [tables_setEntry h.tree hv ht, hframes]
    simp only [cons_add, add_cons, add_assoc]
    exact Multiset.cons_swap _ _ _
  · intro w hw
    rw [lookup_setEntry h.tree hv ht (by decide) hw, update_apply]

end Store

end BossOs.Vm
