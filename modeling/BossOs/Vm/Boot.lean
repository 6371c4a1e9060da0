import BossOs.Vm.Calls

/-!
# Boot

`main` gives the pages to the allocator in two ranges and takes some of them for good. It
ends in a state in which every page has its owner, unless the kernel image leaves too few
pages below 4 MB or the first program does not fit into one page.
-/

namespace BossOs.Vm

open Multiset (card_add card_cons coe_card coe_nil cons_add)
open Lib
open Prog (sat_bind sat_fail sat_loop sat_pure)
open Function (update update_self update_of_ne)

variable {im : Image} {K : Multiset Nat} {d : Nat} {m m' : Mem} {E : Stop → Mem → Prop}

def pageRange (a b : Nat) : Multiset Nat := (Finset.Ico a b).val

theorem pageRange_cons {a b : Nat} (h : a < b) : pageRange a b = a ::ₘ pageRange (a + 1) b := by
  have hins : Finset.Ico a b = insert a (Finset.Ico (a + 1) b) := by
    ext n
    simp only [Finset.mem_insert, Finset.mem_Ico]
    omega
  unfold pageRange
  rw [hins, Finset.insert_val_of_notMem]
  simp

theorem pageRange_self (a : Nat) : pageRange a a = 0 := by
  unfold pageRange
  rw [Finset.Ico_self, Finset.empty_val]

theorem card_pageRange (a b : Nat) : (pageRange a b).card = b - a := Nat.card_Ico a b

theorem Image.pool_split (im : Image) : im.pool =
    pageRange (PGROUNDUP im.top / PGSIZE) 1024 + pageRange 1024 (PHYSTOP / PGSIZE) := by
  have htop := im.top_le
  refine (Multiset.Ico_add_Ico_eq_Ico ?_ (by decide)).symm
  simp only [PGROUNDUP, pgsize_eq]
  omega

theorem freerange_spec {start stop a b : Nat} (ha : PGROUNDUP start / PGSIZE = a)
    (hb : stop / PGSIZE = b) (hab : a ≤ b) (h : Accounts im m (pageRange a b + K)) :
    ((freerange im start stop).run m).Sat (fun _ m' => Accounts im m' K ∧ Agree m m' K) E := by
  have hround : ∀ j t, a ≤ j → j < a + (b - a) →
      (Accounts im t (pageRange j b + K) ∧ Agree m t K) →
      ((kfree im j).run t).Sat
        (fun _ u => Accounts im u (pageRange (j + 1) b + K) ∧ Agree m u K) E := by
    rintro j t _ hj ⟨hacc, hagree⟩
    rw [pageRange_cons (by omega), cons_add] at hacc
    have hnot := (Multiset.nodup_cons.mp (Multiset.nodup_add.mp hacc.nodup).2.1).1
    rw [sat_kfree (hacc.mem_pool (Multiset.mem_cons_self _ _))]
    refine ⟨hacc.push, hagree.trans (agree_push fun hj => hnot ?_)⟩
    exact Multiset.mem_add.mpr (Or.inr hj)
  have hloop := sat_loop hround ⟨h, fun _ _ => rfl⟩
  rw [Nat.add_sub_cancel' hab, pageRange_self, zero_add] at hloop
  unfold freerange
  rw [ha, hb]
  exact hloop

theorem newSpace_spec (h : Accounts im m K) :
    ((newSpace im).run m).Sat (fun d m' => NewSpace im K d m m')
      fun _ _ => im.pool.card ≤ 65 + K.card := by
  unfold newSpace
  rw [sat_bind]
  apply (setupkvm_spec h).imp
  rintro r m' (⟨d, rfl, hnew⟩ | ⟨rfl, -, -, hcard⟩)
  · rw [sat_pure]
    exact hnew
  · rw [sat_fail]
    exact hcard

theorem takePage_spec (h : Accounts im m K) :
    (takePage.run m).Sat (fun p m' => Accounts im m' (p ::ₘ K) ∧ m'.page = m.page)
      fun _ _ => im.pool.card = K.card := by
  unfold takePage
  rw [sat_bind]
  apply sat_kalloc
  · intro hfree
    rw [sat_fail]
    exact h.card_pool hfree
  · intro p ps hfree
    rw [sat_pure]
    exact ⟨h.pop hfree, rfl⟩

theorem takePages_spec (n : Nat) : ∀ {m : Mem} {K : Multiset Nat}, Accounts im m K →
    ((takePages n).run m).Sat
      (fun ps m' => ps.length = n ∧ Accounts im m' ((ps : Multiset Nat) + K) ∧ m'.page = m.page)
      fun _ _ => im.pool.card < n + K.card := by
  induction n with
  | zero =>
    intro m K h
    rw [takePages, sat_pure, coe_nil, zero_add]
    exact ⟨rfl, h, rfl⟩
  | succ n ih =>
    intro m K h
    rw [takePages, sat_bind]
    apply (takePage_spec h).mono
    · rintro p m₁ ⟨h₁, hpage⟩
      rw [sat_bind]
      apply (ih h₁).mono
      · rintro ps m₂ ⟨hlen, h₂, hpage₂⟩
        rw [sat_pure, List.length_cons, hlen, ← Multiset.cons_coe, cons_add,
          ← Multiset.add_cons]
        exact ⟨rfl, h₂, hpage₂.trans hpage⟩
      · intro _ _ hcard
        rw [card_cons] at hcard
        omega
    · intro _ _ hcard
      omega

theorem NewSpace.card_le {m₀ : Mem} (h : NewSpace im K d m₀ m) : (space m d).card ≤ 65 := by
  have hspace := card_space_le (m := m) (d := d) (T := kernelTables) (P := ∅) h.table
    (fun v hv _ => by
      rw [h.entry v (upage_lt hv), kernelEntry_user hv]
      rfl)
  rw [Finset.card_empty, card_kernelTables] at hspace
  exact hspace

theorem card_initTables : (insert 0 kernelTables).card = 65 := by decide +kernel

structure InitMap (im : Image) (K : Multiset Nat) (d : Nat) (m m' : Mem) : Prop where
  total : Accounts im m' (space m' d + K)
  map : UserMap im PGSIZE (lookup m' d)
  first : FreshUser (lookup m' d 0)
  agree : Agree m m' K
  card : (space m' d).card ≤ 67

theorem inituvm_spec {m₀ : Mem} {init : List UInt8} (h : NewSpace im K d m₀ m)
    (hroom : 70 + K.card ≤ im.pool.card) :
    ((inituvm d init).run m).Sat (fun _ m' => InitMap im K d m m')
      fun _ _ => PGSIZE ≤ init.length := by
  have hspace := h.card_le
  have htotal := h.total
  unfold inituvm
  by_cases hlen : PGSIZE ≤ init.length
  · rw [if_pos hlen, sat_fail]
    exact hlen
  · rw [if_neg hlen, sat_bind]
    apply sat_kalloc
    · intro hfree
      have hcard := htotal.card_pool hfree
      rw [card_add] at hcard
      omega
    · intro p ps hfree
      have htake := turn_take (I := (· = 0)) htotal hfree (fun _ hn => hn) Bytes.zero
      have hpage : mappages d 0 PGSIZE (p * PGSIZE) (PTE_W ||| PTE_U) =
          mapPage d (PTE_W ||| PTE_U) (0 * PGSIZE) (p * PGSIZE) := by
        have heq : mappages d (0 * PGSIZE) PGSIZE (p * PGSIZE) (PTE_W ||| PTE_U) =
            mapPage d (PTE_W ||| PTE_U) (0 * PGSIZE) (p * PGSIZE) := mappages_page (by decide)
        rw [Nat.zero_mul] at heq ⊢
        exact heq
      have hzero : ∀ v < UPAGES, lookup m d v = 0 := by
        intro v hv
        rw [h.entry v (upage_lt hv), kernelEntry_user hv]
      have h0 : 0 < UPAGES := by decide
      simp only [sat_bind]
      rw [sat_memset, hpage]
      have habs : present (lookup (m.pop.write p Bytes.zero) d 0) = false := by
        rw [htake.entry 0 (upage_lt h0), hzero 0 h0]
        rfl
      apply (mapPage_user htake.total h0 flags_lt habs).mono _ fun _ _ he => he
      rintro ok m₂ (⟨rfl, hmap⟩ | ⟨rfl, hmap, hfree₂⟩)
      · -- the page is mapped and then filled
        have hentry : ∀ v < VPAGES, lookup m₂ d v = update (lookup m d) 0
            (p * PGSIZE ||| (PTE_W ||| PTE_U) ||| PTE_P) v := by
          intro v hv
          rw [hmap.entry v hv]
          by_cases hv0 : v = 0
          · subst hv0
            rw [update_self, update_self]
          · rw [update_of_ne hv0, update_of_ne hv0, htake.entry v hv]
        have hfirst : lookup m₂ d 0 = p * PGSIZE ||| (PTE_W ||| PTE_U) ||| PTE_P := by
          rw [hentry 0 (by decide), update_self]
        have hframe : frame (lookup m₂ d 0) = p := by
          rw [hfirst, Nat.or_assoc]
          exact frame_entry (or_perm_lt flags_lt)
        have hpres : present (lookup m₂ d 0) = true := by
          rw [hfirst]
          exact present_or_p _
        have hfill := turn_frame (I := (· = 0)) hmap.total h0 hpres (Bytes.zero.splice 0 init)
        rw [hframe] at hfill
        have hgrown : Grown (lookup m d) (pages 0) (pages PGSIZE) (update (lookup m d) 0
            (p * PGSIZE ||| (PTE_W ||| PTE_U) ||| PTE_P)) :=
          (Grown.refl (Nat.le_refl 0)).snoc (Nat.le_refl 0) ⟨p, rfl⟩
        have hall : ∀ v < VPAGES, lookup (m₂.write p (Bytes.zero.splice 0 init)) d v =
            update (lookup m d) 0 (p * PGSIZE ||| (PTE_W ||| PTE_U) ||| PTE_P) v := by
          intro v hv
          rw [hfill.entry v hv, hentry v hv]
        have hturn := (htake.trans hmap).trans hfill
        rw [sat_memset]
        refine ⟨hfill.total, ?_, ?_, hturn.agree, ?_⟩
        · exact ((UserMap.new h.entry).grown hgrown (by decide)).congr hall
        · rw [hfill.entry 0 (by decide), hfirst]
          exact ⟨p, rfl⟩
        · have hcard := card_space_le (m := m₂.write p (Bytes.zero.splice 0 init)) (d := d)
            (T := insert 0 kernelTables) (P := {0})
            (fun i hi hiT => by
              rw [Finset.mem_insert, not_or] at hiT
              rw [hturn.table i hi (by
                rintro ((hc | hc) | hc)
                · exact hiT.1 hc
                · exact hiT.1 (by omega)
                · exact hiT.1 hc)]
              exact h.table i hi hiT.2)
            (fun v hv hvP => by
              rw [Finset.mem_singleton] at hvP
              rw [hall v (upage_lt hv), update_of_ne hvP, hzero v hv]
              rfl)
          rw [card_initTables, Finset.card_singleton] at hcard
          exact hcard
      · -- there is room
        exfalso
        have hturn := htake.trans hmap
        have hcard := hturn.total.card_pool hfree₂
        have hle := card_space_le (m := m₂) (d := d) (T := insert 0 kernelTables) (P := ∅)
          (fun i hi hiT => by
            rw [Finset.mem_insert, not_or] at hiT
            rw [hturn.table i hi (by
              rintro (hc | hc)
              · exact hiT.1 hc
              · exact hiT.1 (by omega))]
            exact h.table i hi hiT.2)
          (fun v hv _ => by
            rw [hturn.entry v (upage_lt hv), htake.entry v (upage_lt hv), hzero v hv]
            rfl)
        rw [Finset.card_empty, card_initTables] at hle
        rw [card_add, card_cons] at hcard
        omega

structure BootInv (im : Image) (s : State) : Prop where
  pages : PageInv im s
  live : (s.proc initproc).state = .live
  size : (s.proc initproc).sz = PGSIZE
  first : FreshUser (lookup s.mem (s.proc initproc).pgdir 0)
  card : s.inUse.card ≤ 150

section
variable (r : Nat × List Nat × Nat × Nat)
include r

theorem bootState_init (m : Mem) :
    (bootState r m).proc initproc = ⟨.live, r.2.2.1, r.2.2.2, PGSIZE, initproc⟩ := by
  unfold bootState
  simp only [update_self]

theorem bootState_rest (m : Mem) {q : Fin NPROC}
    (hq : q ≠ initproc) : (bootState r m).proc q = noProc := by
  unfold bootState
  simp only [update_of_ne hq]

theorem bootState_others (m : Mem) :
    (bootState r m).others initproc = space m r.1 + r.2.1 := by
  have hzero : ∑ q ∈ Finset.univ.erase initproc, ((bootState r m).proc q).pages m = 0 := by
    apply Finset.sum_eq_zero
    intro q hq
    rw [bootState_rest r m (Finset.ne_of_mem_erase hq)]
    rfl
  unfold State.others
  change _ + ∑ q ∈ Finset.univ.erase initproc, ((bootState r m).proc q).pages m + _ = _
  rw [hzero, add_zero]
  exact add_zero _

theorem bootInv_of {m : Mem}
    (h : InitMap im (r.2.2.1 ::ₘ ((r.2.1 : Multiset Nat) + space m r.1)) r.2.2.2 m' m)
    (hcpu : r.2.1.length ≤ 7) (hkernel : (space m r.1).card ≤ 65) : BootInv im (bootState r m) := by
  have hproc := bootState_init r m
  have hlive : ((bootState r m).proc initproc).state ≠ .unused := by
    rw [hproc]
    exact fun hc => by cases hc
  have huse : (bootState r m).inUse =
      space m r.2.2.2 + (r.2.2.1 ::ₘ ((r.2.1 : Multiset Nat) + space m r.1)) := by
    rw [inUse_space hlive, bootState_others, hproc, add_comm (space m r.1)]
    rfl
  refine ⟨⟨?_, ?_⟩, ?_, ?_, ?_, ?_⟩
  · rw [huse]
    exact h.total
  · intro q hq
    by_cases hqi : q = initproc
    · subst hqi
      rw [hproc]
      exact h.map
    · refine absurd ?_ hq
      rw [bootState_rest r m hqi]
      rfl
  · rw [hproc]
  · rw [hproc]
  · rw [hproc]
    exact h.first
  · have hcard := h.card
    rw [huse, card_add, card_cons, card_add, coe_card]
    omega

end

variable {initcode : List UInt8}

theorem boot_spec {ncpu : Nat} (hcpu : ncpu ≤ NCPU) (page : Nat → Page) :
    ((boot im ncpu initcode).run ⟨page, []⟩).Sat (fun r m => BootInv im (bootState r m))
      fun _ _ => 1024 ≤ PGROUNDUP im.top / PGSIZE + 65 + ncpu ∨ PGSIZE ≤ initcode.length := by
  have htop := im.top_le
  have hlow : PGROUNDUP im.top / PGSIZE ≤ 1024 := by
    simp only [PGROUNDUP, pgsize_eq]
    omega
  have hpool : im.pool.card = 57344 - PGROUNDUP im.top / PGSIZE := card_pageRange _ _
  have hhigh : (pageRange 1024 (PHYSTOP / PGSIZE)).card = 56320 := card_pageRange _ _
  have hstart : Accounts im ⟨page, []⟩ im.pool := by
    unfold Accounts
    rw [coe_nil, zero_add]
  unfold NCPU at hcpu
  rw [Image.pool_split] at hstart
  unfold boot
  rw [sat_bind]
  apply (freerange_spec rfl (by decide) hlow hstart).imp
  rintro _ m₁ ⟨h₁, -⟩
  rw [sat_bind]
  apply (newSpace_spec h₁).mono
  · intro kpgdir m₂ h₂
    have hk := h₂.card_le
    rw [sat_bind]
    apply (takePages_spec (ncpu - 1) h₂.total).mono
    · rintro cpustacks m₃ ⟨hlen, h₃, hpage₃⟩
      have hspace₃ : space m₃ kpgdir = space m₂ kpgdir :=
        Agree.space_eq fun n _ => congrFun hpage₃ n
      have h₃' : Accounts im m₃ (pageRange 1024 (PHYSTOP / PGSIZE) +
          ((cpustacks : Multiset Nat) + space m₃ kpgdir)) := by
        rw [hspace₃, add_comm (pageRange _ _), add_assoc]
        exact h₃
      rw [sat_bind]
      apply (freerange_spec (by decide) rfl (by decide) h₃').imp
      rintro _ m₄ ⟨h₄, hagree₄⟩
      have hspace₄ : space m₄ kpgdir = space m₃ kpgdir :=
        (hagree₄.mono fun _ hn => Multiset.mem_add.mpr (Or.inr hn)).of_space.space_eq
      rw [← hspace₄] at h₄
      have hcard₄ : ((cpustacks : Multiset Nat) + space m₄ kpgdir).card ≤ 72 := by
        rw [hspace₄, hspace₃, card_add, coe_card, hlen]
        omega
      rw [sat_bind]
      apply (takePage_spec h₄).mono
      · rintro kstack m₅ ⟨h₅, hpage₅⟩
        have hcard₅ : (kstack ::ₘ ((cpustacks : Multiset Nat) + space m₄ kpgdir)).card ≤ 73 := by
          rw [card_cons]
          omega
        rw [sat_bind]
        apply (newSpace_spec h₅).mono
        · intro pgdir m₆ h₆
          rw [sat_bind]
          apply (inituvm_spec h₆ (by omega)).mono
          · intro _ m₇ h₇
            have hspace₇ : space m₇ kpgdir = space m₄ kpgdir := by
              have hrest : Agree m₅ m₇ (space m₄ kpgdir) :=
                (h₆.agree.trans h₇.agree).mono fun _ hn =>
                  Multiset.mem_cons_of_mem (Multiset.mem_add.mpr (Or.inr hn))
              apply Agree.space_eq
              apply Agree.of_space
              intro n hn
              rw [hrest n hn, hpage₅]
            rw [← hspace₇] at h₇
            rw [sat_pure]
            apply bootInv_of (kpgdir, cpustacks, kstack, pgdir) h₇
            · change cpustacks.length ≤ 7
              omega
            · rw [hspace₇, hspace₄, hspace₃]
              exact hk
          · exact fun _ _ hlen => Or.inr hlen
        · intro _ _ hcard
          omega
      · intro _ _ hcard
        omega
    · intro _ _ hcard
      rw [card_add] at hcard
      omega
  · intro _ _ hcard
    omega

theorem Booted.inv {ncpu : Nat} {s : State} (h : Booted im ncpu initcode s) : BootInv im s := by
  obtain ⟨hcpu, page, r, m, hrun, rfl⟩ := h
  have hspec : ((boot im ncpu initcode).run ⟨page, []⟩).Sat _ _ := boot_spec hcpu page
  rw [hrun, Outcome.sat_ok] at hspec
  exact hspec

theorem exists_booted {ncpu : Nat} (hcpu : ncpu ≤ NCPU)
    (hroom : PGROUNDUP im.top / PGSIZE + 65 + ncpu < 1024) (hinit : initcode.length < PGSIZE) :
    ∃ s, Booted im ncpu initcode s := by
  have hspec : ((boot im ncpu initcode).run ⟨fun _ => Bytes.zero, []⟩).Sat _ _ := boot_spec hcpu _
  cases hrun : (boot im ncpu initcode).run ⟨fun _ => Bytes.zero, []⟩ with
  | ok r m => exact ⟨_, hcpu, _, r, m, hrun, rfl⟩
  | stop e m =>
    rw [hrun, Outcome.sat_stop] at hspec
    omega

end BossOs.Vm
