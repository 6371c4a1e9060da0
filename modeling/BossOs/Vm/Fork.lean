import BossOs.Vm.User

/-!
# `copyuvm`

A copy is made page by page. `copyuvm` stops the machine where a page below the size is
missing; wherever it returns, the pages are either all in the new address space or back
on the free list.
-/

namespace BossOs.Vm

open Lib
open Prog (sat_bind sat_fail sat_get sat_pure)

variable {im : Image} {K : Multiset Nat} {d pgdir : Nat} {m m' : Mem}

theorem pages_mul (k : Nat) : pages (k * PGSIZE) = k := by
  unfold pages
  rw [pgsize_eq]
  omega

theorem UserMap.snoc {L : Nat → Nat} {k e : Nat} (h : UserMap im (k * PGSIZE) L) (hk : k < UPAGES)
    (he : present e = true) : UserMap im ((k + 1) * PGSIZE) (Function.update L k e) := by
  have hle : (k + 1) * PGSIZE ≤ KERNBASE := by
    rw [upages_eq] at hk
    unfold KERNBASE
    rw [pgsize_eq]
    omega
  apply (h.mono (Nat.mul_le_mul_right _ (Nat.le_succ k)) hle).update _ he
  rw [pages_mul]
  exact Nat.lt_succ_self k

theorem UserMap.of_pages {L : Nat → Nat} {sz : Nat} (h : UserMap im (pages sz * PGSIZE) L)
    (hsz : sz ≤ KERNBASE) : UserMap im sz L := by
  have habove := h.above
  rw [pages_mul] at habove
  exact ⟨h.kernel, h.entry, habove, hsz⟩

def Copied (m : Mem) (pgdir k : Nat) (m' : Mem) (d : Nat) : Prop :=
  ∀ v, v < k → PTE_FLAGS (lookup m' d v) = PTE_FLAGS (lookup m pgdir v) ∧
    Holds m' d v (m.page (frame (lookup m pgdir v)))

/-- The `k` pages that are to be copied are there, and the address space is made of pages of `K`. -/
structure Source (K : Multiset Nat) (m : Mem) (pgdir k : Nat) : Prop where
  owned : ∀ n ∈ space m pgdir, n ∈ K
  present : ∀ v, v < k → present (lookup m pgdir v) = true

theorem flags_or_present {e : Nat} (h : present e = true) : PTE_FLAGS e ||| PTE_P = PTE_FLAGS e := by
  have hodd : PTE_FLAGS e % 2 = 1 := by
    rw [present_eq, Nat.testBit_zero, decide_eq_true_iff] at h
    unfold PTE_FLAGS
    rw [pgsize_eq]
    omega
  apply Nat.eq_of_testBit_eq
  intro i
  rw [Nat.testBit_or]
  cases i with
  | zero => rw [Nat.testBit_zero, hodd]; rfl
  | succ i => rw [PTE_P, Nat.testBit_succ 1, show 1 / 2 = 0 from rfl, Nat.zero_testBit, Bool.or_false]

section Source

variable {k : Nat} (h : Source K m pgdir k) (hagree : Agree m m' K)
include h hagree

theorem Source.lookup_eq {v : Nat} (hv : v < VPAGES) : lookup m' pgdir v = lookup m pgdir v :=
  (hagree.mono h.owned).of_space.lookup_eq hv

theorem Source.frame_eq {v : Nat} (hv : v < k) (hku : k ≤ UPAGES) :
    m'.page (frame (lookup m pgdir v)) = m.page (frame (lookup m pgdir v)) :=
  hagree _ (h.owned _ (frame_mem_space (by omega) (h.present v hv)))

theorem Source.of_agree (hku : k ≤ UPAGES) : Source K m' pgdir k := by
  have htree := (hagree.mono h.owned).of_space
  constructor
  · rw [htree.space_eq]
    exact h.owned
  · intro v hv
    rw [htree.lookup_eq (upage_lt (by omega))]
    exact h.present v hv

end Source

theorem Copied.of_agree {k : Nat} {m₀ : Mem} (h : Copied m pgdir k m' d)
    (hsrc : Source K m₀ pgdir k) (hagree : Agree m₀ m K) (hku : k ≤ UPAGES) :
    Copied m₀ pgdir k m' d := by
  intro v hv
  have hv' := h v hv
  rw [hsrc.lookup_eq hagree (upage_lt (by omega)), hsrc.frame_eq hagree hv hku] at hv'
  exact hv'

theorem Copied.snoc {k last p : Nat} {m₁ m₂ : Mem} (h : Copied m pgdir k m' d)
    (hsrc : Source K m pgdir last) (hk : k < last) (hlast : last ≤ UPAGES)
    (hkeep : ∀ v c, v < UPAGES → Holds m' d v c → Holds m₁ d v c)
    (hlook : ∀ v < VPAGES, lookup m₁ d v = lookup m' d v)
    (hpage : m₁.page p = m.page (frame (lookup m pgdir k)))
    (hacc : Accounts im m₁ (space m₁ d + (p ::ₘ K))) (hedit : Edit d m₁ m₂)
    (hsame : ∀ w < VPAGES, w ≠ k → lookup m₂ d w = lookup m₁ d w)
    (hentry : lookup m₂ d k = p * PGSIZE ||| PTE_FLAGS (lookup m pgdir k) ||| PTE_P) :
    Copied m pgdir (k + 1) m₂ d := by
  intro v hv
  by_cases hvk : v = k
  · subst hvk
    have hx : PTE_FLAGS (lookup m pgdir v) < PGSIZE := Nat.mod_lt _ (by decide)
    have hnew := holds_mapped hacc hedit hx hentry
    rw [hpage] at hnew
    refine ⟨?_, hnew⟩
    rw [hentry, Nat.or_assoc, flags_or_present (hsrc.present v hk), flags_entry hx]
  · have hvu : v < UPAGES := by omega
    have hold := hsame v (upage_lt hvu) hvk
    obtain ⟨hflags, hholds⟩ := h v (by omega)
    refine ⟨?_, (hkeep v _ hvu hholds).edit hvu hacc hedit hold⟩
    rw [hold, hlook v (upage_lt hvu)]
    exact hflags

theorem card_copied {R : Multiset Nat} {k j : Nat} {L : Nat → Nat}
    (hnew : ∀ i < NPDENTRIES, i ∉ kernelTables → tablePage m d i = none)
    (hmap : UserMap im (k * PGSIZE) L) (h : Turn im K R d (fun i => i * 1024 < j) L m m')
    (hfree : m'.free = []) : im.pool.card ≤ 65 + k + (j + 1023) / 1024 + R.card := by
  have hcard := h.total.card_pool hfree
  have hspace := card_space_le (m := m') (d := d) (T := kernelTables ∪ Finset.range ((j + 1023) / 1024))
    (P := Finset.range k) (fun i hi hiT => by
      rw [Finset.mem_union, Finset.mem_range] at hiT
      rw [h.table i hi (by omega)]
      exact hnew i hi fun hc => hiT (Or.inl hc))
    (fun v hv hvP => by
      rw [Finset.mem_range] at hvP
      rw [h.entry v (upage_lt hv), hmap.above v (by rw [pages_mul]; omega) hv]
      rfl)
  have hunion := Finset.card_union_le kernelTables (Finset.range ((j + 1023) / 1024))
  rw [card_kernelTables, Finset.card_range] at hunion
  rw [Finset.card_range] at hspace
  rw [Multiset.card_add] at hcard
  omega

theorem copyFrom_spec {G : Prop} {last : Nat} (hlast : last ≤ UPAGES)
    (hG : G → Source K m pgdir last)
    (hnew : ∀ i < NPDENTRIES, i ∉ kernelTables → tablePage m d i = none) (n : Nat) :
    ∀ {m' : Mem} {k : Nat} {L : Nat → Nat}, k + n = last → UserMap im (k * PGSIZE) L →
      Turn im K K d (fun i => i * 1024 < k) L m m' → (G → Copied m pgdir k m' d) →
      ((copyFrom im pgdir d n (k * PGSIZE)).run m').Sat
        (fun ok m'' => ∃ L', Turn im K K d userTable L' m m'' ∧
          (ok = true → UserMap im (last * PGSIZE) L' ∧ (G → Copied m pgdir last m'' d)) ∧
          (ok = false → im.pool.card ≤ 65 + last + (last + 1023) / 1024 + K.card))
        (fun _ _ => ¬ G) := by
  have huser : ∀ {k i : Nat}, k ≤ last → i * 1024 < k → userTable i := by
    intro k i hk hi
    have hu := userTable_of_upage (show i * 1024 < UPAGES by omega)
    rwa [Nat.mul_div_cancel _ (by decide)] at hu
  induction n with
  | zero =>
    intro m' k L hk hmap h hcopied
    obtain rfl : k = last := by omega
    rw [copyFrom, sat_pure]
    exact ⟨_, h.mono (fun _ => huser (by omega)) fun _ _ => rfl, fun _ => ⟨hmap, hcopied⟩,
      fun hc => by cases hc⟩
  | succ n ih =>
    intro m' k L hk hmap h hcopied
    have hku : k < UPAGES := by omega
    have hkv := upage_lt hku
    have hsource : G → present (lookup m' pgdir k) = true := by
      intro g
      rw [(hG g).lookup_eq h.agree hkv]
      exact (hG g).present k (by omega)
    unfold copyFrom
    rw [sat_bind, sat_walkpgdir (page_addr_lt hkv), page_addr_div]
    cases ht : tablePage m' pgdir (k / 1024) with
    | none =>
      simp only [Option.map_none, sat_fail]
      intro g
      have hp := hsource g
      rw [lookup_of_none ht] at hp
      exact absurd hp (by decide)
    | some t =>
      simp only [Option.map_some, sat_bind]
      rw [sat_load]
      obtain ⟨e, he⟩ : ∃ e, e = lookup m' pgdir k := ⟨_, rfl⟩
      rw [← lookup_of_table ht, ← he]
      rw [← he] at hsource
      by_cases hp : present e = true
      · rw [hp, Bool.not_true, if_neg Bool.false_ne_true, sat_bind]
        apply sat_kalloc
        · intro hfree
          have hcard := card_copied hnew hmap h hfree
          rw [sat_pure]
          exact ⟨L, h.mono (fun _ => huser (by omega)) fun _ _ => rfl,
            fun hc => absurd hc Bool.false_ne_true, fun _ => by omega⟩
        · intro p ps hfree
          simp only [sat_bind, sat_get]
          rw [sat_memset, mappages_page hkv]
          have htake := turn_take (I := fun _ => False) h.total hfree (fun _ hn => hn)
            (m'.pop.page (frame e))
          obtain ⟨m₁, hm₁⟩ : ∃ m₁, m₁ = m'.pop.write p (m'.pop.page (frame e)) := ⟨_, rfl⟩
          rw [← hm₁] at htake ⊢
          have hentry : ∀ v < VPAGES, lookup m₁ d v = L v := by
            intro v hv
            rw [htake.entry v hv, h.entry v hv]
          have habs : present (lookup m₁ d k) = false := by
            rw [hentry k hkv, hmap.above k (by rw [pages_mul]) hku]
            rfl
          have hperm : PTE_FLAGS e < PGSIZE := Nat.mod_lt _ (by decide)
          apply (mapPage_user_edit htake.total hku hperm habs).imp
          have htable : ∀ i, (i * 1024 < k ∨ False) ∨ i = k / 1024 → i * 1024 < k + 1 := by
            rintro i ((hi | hi) | rfl)
            · omega
            · exact hi.elim
            · omega
          rintro ok m₂ ⟨hedit, hsame, ⟨rfl, hturn, hset⟩ | ⟨rfl, hturn, hfree₂⟩⟩
          · rw [if_pos rfl,
              show k * PGSIZE + PGSIZE = (k + 1) * PGSIZE by rw [Nat.add_mul, Nat.one_mul]]
            refine ih (by omega) (hmap.snoc hku (present_or_p (p * PGSIZE ||| PTE_FLAGS e)))
              (((h.trans htake).trans hturn).mono htable ?_) ?_
            · intro v hv
              by_cases hvk : v = k
              · subst hvk
                rw [Function.update_self, Function.update_self]
              · rw [Function.update_of_ne hvk, Function.update_of_ne hvk, hentry v hv]
            · intro g
              rw [(hG g).lookup_eq h.agree hkv] at he
              rw [he] at hset
              apply (hcopied g).snoc (hG g) (by omega) hlast _ htake.entry _ htake.total hedit
                hsame hset
              · intro v c hv hc
                rw [hm₁]
                exact hc.take hv h.total hfree _
              · rw [hm₁, write_page_self, he]
                exact (hG g).frame_eq h.agree (by omega) hlast
          · have hstep : Turn im K (p ::ₘ K) d (fun i => i * 1024 < k + 1) L m m₂ :=
              ((h.trans htake).trans hturn).mono htable hentry
            have hcard := card_copied hnew hmap hstep hfree₂
            rw [Multiset.card_cons] at hcard
            have hpool := hstep.total.mem_pool
              (Multiset.mem_add.mpr (Or.inr (Multiset.mem_cons_self p K)))
            rw [if_neg Bool.false_ne_true, sat_bind, sat_kfree hpool, sat_pure]
            exact ⟨L, (hstep.push fun _ hn => hn).mono (fun _ => huser (by omega)) fun _ _ => rfl,
              fun hc => absurd hc Bool.false_ne_true, fun _ => by omega⟩
      · rw [eq_false_of_ne_true hp, Bool.not_false, if_pos rfl, sat_fail]
        exact fun g => hp (hsource g)

theorem copyuvm_spec {G : Prop} {sz : Nat} (h : Accounts im m K) (hsz : sz ≤ KERNBASE)
    (hG : G → Source K m pgdir (pages sz)) : ((copyuvm im pgdir sz).run m).Sat
      (fun r m' => Agree m m' K ∧
        ((∃ d, r = some d ∧ Accounts im m' (space m' d + K) ∧ UserMap im sz (lookup m' d) ∧
            (G → Copied m pgdir (pages sz) m' d)) ∨
          (r = none ∧ Accounts im m' K ∧
            im.pool.card ≤ 65 + pages sz + (pages sz + 1023) / 1024 + K.card))) (fun _ _ => ¬ G) := by
  unfold copyuvm
  rw [sat_bind]
  apply (setupkvm_spec h).imp
  rintro r m₁ (⟨d, rfl, hnew⟩ | ⟨rfl, hacc, hagree, hcard⟩)
  · have hmap : UserMap im (0 * PGSIZE) (lookup m₁ d) := by
      rw [Nat.zero_mul]
      exact UserMap.new hnew.entry
    have hG' : G → Source K m₁ pgdir (pages sz) := fun g => (hG g).of_agree hnew.agree (pages_le hsz)
    have hcopy := copyFrom_spec (d := d) (pages_le hsz) hG' hnew.table (pages sz) (Nat.zero_add _)
      hmap (.refl hnew.total) (fun _ _ hv => absurd hv (Nat.not_lt_zero _))
    rw [Nat.zero_mul] at hcopy
    simp only [sat_bind]
    apply hcopy.imp
    rintro ok m₂ ⟨L, hturn, hL, hfull⟩
    cases ok with
    | true =>
      rw [if_pos rfl, sat_pure]
      obtain ⟨hmap₂, hcopied⟩ := hL rfl
      refine ⟨hnew.agree.trans hturn.agree, Or.inl ⟨d, rfl, hturn.total, ?_, ?_⟩⟩
      · exact (hmap₂.of_pages hsz).congr hturn.entry
      · intro g
        exact (hcopied g).of_agree (hG g) hnew.agree (pages_le hsz)
    | false =>
      rw [if_neg Bool.false_ne_true, sat_bind]
      apply (freevm_spec hturn.total).imp
      rintro _ m₃ ⟨hacc, hagree⟩
      rw [sat_pure]
      exact ⟨(hnew.agree.trans hturn.agree).trans hagree, Or.inr ⟨rfl, hacc, hfull rfl⟩⟩
  · rw [sat_pure]
    exact ⟨hagree, Or.inr ⟨rfl, hacc, by omega⟩⟩

theorem forkPages_spec {G : Prop} {sz : Nat} (h : Accounts im m K) (hsz : sz ≤ KERNBASE)
    (hG : G → Source K m pgdir (pages sz)) :
    ((forkPages im pgdir sz).run m).Sat (fun r m' => Agree m m' K ∧
        ((∃ kstack d, r = some (kstack, d) ∧ Accounts im m' (kstack ::ₘ (space m' d + K)) ∧
            UserMap im sz (lookup m' d)) ∨ (r = none ∧ Accounts im m' K ∧
            im.pool.card ≤ 66 + pages sz + (pages sz + 1023) / 1024 + K.card)))
      (fun _ _ => ¬ G) := by
  unfold forkPages
  rw [sat_bind]
  apply sat_kalloc
  · intro hfree
    rw [sat_pure]
    refine ⟨fun _ _ => rfl, Or.inr ⟨rfl, h, ?_⟩⟩
    rw [h.card_pool hfree]
    omega
  · intro kstack ps hfree
    have hpop := h.pop hfree
    have hmono : ∀ n ∈ K, n ∈ kstack ::ₘ K := fun _ hn => Multiset.mem_cons_of_mem hn
    simp only [sat_bind]
    have hG' : G → Source (kstack ::ₘ K) m.pop pgdir (pages sz) := fun g =>
      ⟨fun n hn => hmono n ((hG g).owned n hn), (hG g).present⟩
    apply (copyuvm_spec hpop hsz hG').imp
    rintro r m₁ ⟨hagree, ⟨d, rfl, hacc, hmap, -⟩ | ⟨rfl, hacc, hfull⟩⟩
    · rw [Multiset.add_cons] at hacc
      rw [sat_pure]
      exact ⟨hagree.mono hmono, Or.inl ⟨kstack, d, rfl, hacc, hmap⟩⟩
    · simp only [sat_bind]
      rw [sat_kfree (hacc.mem_pool (Multiset.mem_cons_self _ _)), sat_pure]
      rw [Multiset.card_cons] at hfull
      refine ⟨(hagree.mono hmono).trans (agree_push ?_), Or.inr ⟨rfl, hacc.push, by omega⟩⟩
      exact (Multiset.nodup_cons.mp (Multiset.nodup_add.mp hpop.nodup).2.1).1

end BossOs.Vm
