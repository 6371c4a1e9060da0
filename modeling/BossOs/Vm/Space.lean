import Mathlib.Order.Interval.Finset.Nat
import BossOs.Lib.Gather
import BossOs.Vm.Model

/-!
# Address spaces

What a page directory means: its page tables, the entry of each virtual page, and the
pages the address space is made of. A store to a page table changes one entry and nothing
else, because the pages of all owners together are the pages of the allocator, each once.
-/

namespace BossOs.Vm

open Lib

theorem pgsize_eq : PGSIZE = 4096 := rfl

theorem frame_eq (e : Nat) : frame e = e / 4096 := by
  unfold frame PTE_ADDR
  rw [pgsize_eq, Nat.mul_div_cancel _ (by decide)]

theorem present_eq (e : Nat) : present e = e.testBit 0 := by
  unfold present PTE_P
  rw [Nat.and_one_is_mod, Nat.testBit_zero]
  rcases Nat.mod_two_eq_zero_or_one e with h | h <;> simp [h]

theorem user_eq (e : Nat) : user e = e.testBit 2 := by
  unfold user PTE_U
  rw [show 4 = 2 ^ 2 from rfl, Nat.and_two_pow]
  cases e.testBit 2 <;> rfl

section Entry

variable {p x : Nat} (hx : x < PGSIZE)
include hx

theorem frame_entry : frame (p * PGSIZE ||| x) = p := by
  rw [pgsize_eq] at hx
  rw [frame_eq, pgsize_eq, show 4096 = 2 ^ 12 from rfl, Nat.or_div_two_pow,
    Nat.mul_div_cancel _ (by decide), Nat.div_eq_of_lt hx, Nat.or_zero]

theorem flags_entry : PTE_FLAGS (p * PGSIZE ||| x) = x := by
  unfold PTE_FLAGS
  rw [pgsize_eq, show 4096 = 2 ^ 12 from rfl, Nat.or_mod_two_pow, Nat.mul_mod_left, Nat.zero_or]
  exact Nat.mod_eq_of_lt hx

theorem entry_lt (hp : p < 2 ^ 20) : p * PGSIZE ||| x < 2 ^ 32 := by
  rw [pgsize_eq] at *
  exact Nat.or_lt_two_pow (by omega) (by omega)

omit hx

theorem present_entry : present (p * PGSIZE ||| x) = present x := by
  rw [present_eq, present_eq, Nat.testBit_or, pgsize_eq, show 4096 = 2 ^ 12 from rfl,
    Nat.testBit_mul_two_pow]
  rfl

theorem user_entry : user (p * PGSIZE ||| x) = user x := by
  rw [user_eq, user_eq, Nat.testBit_or, pgsize_eq, show 4096 = 2 ^ 12 from rfl,
    Nat.testBit_mul_two_pow]
  rfl

end Entry

def VPAGES : Nat := 2 ^ 20
def UPAGES : Nat := 2 ^ 19

def tablePage (m : Mem) (d i : Nat) : Option Nat :=
  if present ((m.page d).word i) then some (frame ((m.page d).word i)) else none

def lookup (m : Mem) (d v : Nat) : Nat :=
  match tablePage m d (v / 1024) with
  | some t => (m.page t).word (v % 1024)
  | none => 0

def framePage (m : Mem) (d v : Nat) : Option Nat :=
  if present (lookup m d v) then some (frame (lookup m d v)) else none

def tables (m : Mem) (d : Nat) : Multiset Nat :=
  gather (Finset.range NPDENTRIES) (tablePage m d)

def frames (m : Mem) (d : Nat) : Multiset Nat := gather (Finset.range UPAGES) (framePage m d)

def space (m : Mem) (d : Nat) : Multiset Nat := d ::ₘ (tables m d + frames m d)

def Image.pool (im : Image) : Multiset Nat :=
  (Finset.Ico (PGROUNDUP im.top / PGSIZE) (PHYSTOP / PGSIZE)).val

/-- The free list and the pages `A` in use are the pages of the allocator, each once. -/
def Accounts (im : Image) (m : Mem) (A : Multiset Nat) : Prop := (m.free : Multiset Nat) + A = im.pool

def Agree (m m' : Mem) (A : Multiset Nat) : Prop := ∀ n ∈ A, m'.page n = m.page n

theorem Agree.mono {m m' : Mem} {A B : Multiset Nat} (h : Agree m m' A) (hB : ∀ n ∈ B, n ∈ A) :
    Agree m m' B := fun n hn => h n (hB n hn)

theorem Agree.trans {m m' m'' : Mem} {A : Multiset Nat} (h : Agree m m' A)
    (h' : Agree m' m'' A) : Agree m m'' A := fun n hn => (h' n hn).trans (h n hn)

variable {v : Nat}

theorem lookup_of_table {m : Mem} {d t : Nat} (h : tablePage m d (v / 1024) = some t) :
    lookup m d v = (m.page t).word (v % 1024) := by
  unfold lookup
  rw [h]

theorem lookup_of_none {m : Mem} {d : Nat} (h : tablePage m d (v / 1024) = none) :
    lookup m d v = 0 := by
  unfold lookup
  rw [h]

theorem mem_tables {m : Mem} {d i t : Nat} (hi : i < NPDENTRIES) (h : tablePage m d i = some t) :
    t ∈ tables m d := by
  unfold tables
  exact mem_gather.mpr ⟨i, Finset.mem_range.mpr hi, h⟩

theorem mem_frames {m : Mem} {d : Nat} (hv : v < UPAGES) (h : present (lookup m d v) = true) :
    frame (lookup m d v) ∈ frames m d := by
  unfold frames
  exact mem_gather.mpr ⟨v, Finset.mem_range.mpr hv, if_pos h⟩

theorem div_lt_of_vpage (hv : v < VPAGES) : v / 1024 < NPDENTRIES := by
  unfold VPAGES at hv
  unfold NPDENTRIES
  omega

theorem upage_lt (hv : v < UPAGES) : v < VPAGES := Nat.lt_trans hv (by decide)

section Agree

variable {m m' : Mem} {d : Nat} (h : Agree m m' (d ::ₘ tables m d))
include h

theorem Agree.tablePage_eq (i : Nat) : tablePage m' d i = tablePage m d i := by
  unfold tablePage
  rw [h d (Multiset.mem_cons_self _ _)]

theorem Agree.lookup_eq (hv : v < VPAGES) : lookup m' d v = lookup m d v := by
  unfold lookup
  rw [h.tablePage_eq]
  cases ht : tablePage m d (v / 1024) with
  | none => rfl
  | some t =>
    have hmem := mem_tables (div_lt_of_vpage hv) ht
    simp only
    rw [h t (Multiset.mem_cons_of_mem hmem)]

theorem Agree.tables_eq : tables m' d = tables m d :=
  gather_congr fun i _ => h.tablePage_eq i

theorem Agree.frames_eq : frames m' d = frames m d := by
  apply gather_congr
  intro v hv
  unfold framePage
  rw [h.lookup_eq (upage_lt (Finset.mem_range.mp hv))]

theorem Agree.space_eq : space m' d = space m d := by
  unfold space
  rw [h.tables_eq, h.frames_eq]

end Agree

theorem Agree.of_space {m m' : Mem} {d : Nat} (h : Agree m m' (space m d)) :
    Agree m m' (d ::ₘ tables m d) := by
  apply h.mono
  intro n hn
  rcases Multiset.mem_cons.mp hn with rfl | hn
  · exact Multiset.mem_cons_self _ _
  · exact Multiset.mem_cons_of_mem (Multiset.mem_add.mpr (Or.inl hn))

theorem Image.pool_nodup (im : Image) : im.pool.Nodup := (Finset.Ico _ _).nodup

theorem Image.mem_pool {im : Image} {n : Nat} :
    n ∈ im.pool ↔ im.top ≤ n * PGSIZE ∧ n * PGSIZE < PHYSTOP := by
  have htop := im.top_le
  unfold Image.pool
  rw [Finset.mem_val, Finset.mem_Ico]
  simp only [PGROUNDUP, pgsize_eq, PHYSTOP]
  omega

namespace Accounts

variable {im : Image} {m : Mem} {A : Multiset Nat} (h : Accounts im m A)
include h

theorem nodup : ((m.free : Multiset Nat) + A).Nodup := by
  unfold Accounts at h
  rw [h]
  exact im.pool_nodup

theorem mem_pool {n : Nat} (hn : n ∈ A) : n ∈ im.pool := by
  unfold Accounts at h
  rw [← h]
  exact Multiset.mem_add.mpr (Or.inr hn)

theorem lt_of_mem {n : Nat} (hn : n ∈ A) : n < 2 ^ 20 := by
  have hpool := (Image.mem_pool.mp (h.mem_pool hn)).2
  simp only [pgsize_eq, PHYSTOP] at hpool
  omega

theorem ne_zero {n : Nat} (hn : n ∈ A) : n ≠ 0 := by
  have hpool := (Image.mem_pool.mp (h.mem_pool hn)).1
  have h1 := im.text
  have h2 := im.data_le
  simp only [pgsize_eq, EXTMEM] at *
  omega

theorem congr {m' : Mem} {A' : Multiset Nat} (hfree : m'.free = m.free) (hA : A' = A) :
    Accounts im m' A' := by
  unfold Accounts at *
  rw [hfree, hA]
  exact h

theorem alloc {p : Nat} {ps : List Nat} (hfree : m.free = p :: ps) {m' : Mem}
    (hfree' : m'.free = ps) : Accounts im m' (p ::ₘ A) := by
  unfold Accounts at *
  rw [hfree, ← Multiset.cons_coe, Multiset.cons_add] at h
  rw [hfree', Multiset.add_cons]
  exact h

end Accounts

theorem Accounts.free {im : Image} {m m' : Mem} {A : Multiset Nat} {p : Nat}
    (h : Accounts im m (p ::ₘ A)) (hfree : m'.free = p :: m.free) : Accounts im m' A := by
  unfold Accounts at *
  rw [hfree, ← Multiset.cons_coe, Multiset.cons_add]
  rw [Multiset.add_cons] at h
  exact h

end BossOs.Vm
