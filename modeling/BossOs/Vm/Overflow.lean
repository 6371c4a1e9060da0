import BossOs.Vm.Ownership

/-!
# An argument longer than the device space

`exec` puts an argument below the stack modulo `2 ^ 32`. From 32 MB on the address can lie
below `DEVSPACE`, where the new address space has no page table; `uva2ka` then takes the
first word of the caller's memory for the entry, and `copyout` writes to a page of the
caller's choice. Here the caller names its own first page table, and its pages are lost.
-/

namespace BossOs.Vm

open Multiset (card_add mem_add mem_cons mem_cons_of_mem nodup_add)
open Lib
open Prog (sat_bind sat_modify sat_pure)

variable {im : Image} {K : Multiset Nat} {cur d t : Nat} {m m' : Mem} {E : Stop → Mem → Prop}

def filledWord (c : UInt8) : Nat := leNat (List.replicate 4 c)

theorem word_filled (b : Page) {src : List UInt8} {c : UInt8} (hlen : src.length = PGSIZE)
    (hall : ∀ x ∈ src, x = c) {i : Nat} (hi : i < 1024) : (b.splice 0 src).word i = filledWord c := by
  have hslice : (b.splice 0 src).slice (4 * i) 4 = List.replicate 4 c := by
    apply List.eq_replicate_iff.mpr
    refine ⟨Bytes.length_slice _ _ _, ?_⟩
    intro x hx
    obtain ⟨j, hj, rfl⟩ := List.mem_map.mp hx
    have hlt : 4 * i + j < src.length := by
      rw [List.mem_range] at hj
      rw [hlen, pgsize_eq]
      omega
    rw [Bytes.get_splice _ _ _ (by rw [← hlen]; exact hlt), if_pos (Nat.zero_le _), Nat.sub_zero,
      List.getElem?_eq_getElem hlt]
    exact hall _ (List.getElem_mem hlt)
  unfold Bytes.word
  rw [hslice]
  rfl

/-- The first word of the process's memory is an entry for the page `q`. -/
structure Aims (m : Mem) (cur q : Nat) : Prop where
  present : present (lookup m cur 0) = true
  word : (m.page (frame (lookup m cur 0))).word 0 = q * PGSIZE ||| (PTE_P ||| PTE_U)

theorem Aims.agree {q : Nat} (h : Aims m cur q) (ha : Agree m m' (space m cur)) : Aims m' cur q := by
  have h0 : 0 < UPAGES := by decide
  have hlook : lookup m' cur 0 = lookup m cur 0 := ha.of_space.lookup_eq (upage_lt h0)
  constructor
  · rw [hlook]
    exact h.present
  · rw [hlook, ha _ (frame_mem_space h0 h.present), h.word]

/-- The first word of the process's memory is an entry for its own first page table. -/
structure Armed (m : Mem) (cur t : Nat) : Prop where
  table : tablePage m cur 0 = some t
  present : present (lookup m cur 0) = true
  word : (m.page (frame (lookup m cur 0))).word 0 = t * PGSIZE ||| (PTE_P ||| PTE_U)

theorem Armed.aims (h : Armed m cur t) : Aims m cur t := ⟨h.present, h.word⟩

theorem Armed.agree (h : Armed m cur t) (ha : Agree m m' (space m cur)) : Armed m' cur t := by
  obtain ⟨hp, hw⟩ := h.aims.agree ha
  refine ⟨?_, hp, hw⟩
  rw [ha.of_space.tablePage_eq, h.table]

theorem addr_entry {p x : Nat} (hx : x < PGSIZE) : PTE_ADDR (p * PGSIZE ||| x) = p * PGSIZE := by
  have hframe := frame_entry (p := p) hx
  rw [frame_eq] at hframe
  unfold PTE_ADDR
  rw [pgsize_eq] at *
  rw [hframe]

theorem sat_uva2ka_hole {va q : Nat} (hva : va < 2 ^ 32)
    (hhole : tablePage m d (va / PGSIZE / 1024) = none) (h : Aims m cur q)
    {Q : Option Nat → Mem → Prop} :
    ((uva2ka cur d va).run m).Sat Q E = Q (some (q * PGSIZE)) m := by
  obtain ⟨t, ht, hword⟩ := table_of_present h.present
  have h0 : tablePage m cur (0 / PGSIZE / 1024) = some t := ht
  have hlook : (m.page t).word (0 / PGSIZE % 1024) = lookup m cur 0 := hword
  unfold uva2ka userEntry
  simp only [sat_bind]
  rw [sat_walkpgdir hva, hhole]
  simp only [Option.map_none, sat_bind]
  rw [sat_walkpgdir (by decide), h0]
  simp only [Option.map_some, sat_bind]
  rw [sat_load, hlook, if_pos h.present, sat_load, h.word, sat_pure,
    present_entry, user_entry, addr_entry (by decide)]
  rfl

theorem copyout_rogue {sz : Nat} {buf : List UInt8} (hlen : buf.length = 33566720)
    (ht : t ∈ im.pool) (hspace : t ∉ d ::ₘ tables m d) (hmap : UserMap im sz (lookup m d))
    (hhole : tablePage m d 1015 = none) (h : Armed m cur t) {Q : Bool → Mem → Prop} :
    ((copyout im cur d 0xFDFFF000 buf).run m).Sat Q E =
      Q false (m.write t ((m.page t).splice 0 (buf.take PGSIZE))) := by
  have htree : Agree m (m.write t ((m.page t).splice 0 (buf.take PGSIZE))) (d ::ₘ tables m d) :=
    agree_write _ hspace
  obtain ⟨k, hk⟩ : ∃ k, buf.length = k + 1 + 1 := ⟨33566718, by omega⟩
  have hne : buf.length ≠ 0 := by omega
  have hdrop : (buf.drop PGSIZE).length ≠ 0 := by
    rw [List.length_drop, hlen]
    decide
  have hround : PGROUNDDOWN 0xFDFFF000 = 0xFDFFF000 := by decide
  have hmin : min (PGSIZE - 0) buf.length = PGSIZE := by
    rw [hlen]
    decide
  have hhole' : tablePage m d (0xFDFFF000 / PGSIZE / 1024) = none := by
    rw [show 0xFDFFF000 / PGSIZE / 1024 = 1015 by decide]
    exact hhole
  have hnext : (0xFDFFF000 + PGSIZE) % 2 ^ 32 = DEVSPACE := by decide
  unfold copyout
  rw [hk, copyoutFrom, if_neg hne, sat_bind, hround, sat_uva2ka_hole (by decide) hhole' h.aims]
  simp only [sat_bind]
  rw [Nat.sub_self, hmin, sat_kernelStore ht, hnext]
  exact copyoutFrom_device (hmap.congr fun v hv => htree.lookup_eq hv) (Nat.le_refl _) (by decide)
    hdrop

theorem pushArgs_rogue {s : List UInt8} (hlen : s.length = 33566719)
    (ht : t ∈ im.pool) (hspace : t ∉ d ::ₘ tables m d)
    (hmap : UserMap im (2 * PGSIZE) (lookup m d)) (hhole : tablePage m d 1015 = none)
    (h : Armed m cur t) {Q : Option Nat → Mem → Prop} :
    ((pushArgs im [s] cur d (2 * PGSIZE)).run m).Sat Q E =
      Q none (m.write t ((m.page t).splice 0 ((s ++ [0]).take PGSIZE))) := by
  have hbuf : (s ++ [0]).length = 33566720 := by
    rw [List.length_append, hlen]
    rfl
  have hsp : (2 * PGSIZE + (2 ^ 32 - (s.length + 1) % 2 ^ 32)) % 2 ^ 32 / 4 * 4 = 0xFDFFF000 := by
    rw [hlen]
    decide
  unfold pushArgs
  rw [sat_bind, pushStrings, if_neg (by decide), sat_bind, hsp,
    copyout_rogue hbuf ht hspace hmap hhole h, if_neg Bool.false_ne_true, sat_pure,
    sat_pure]

/-- The caller's page table is overwritten and nothing else that is in use. -/
structure Wiped (im : Image) (A : Multiset Nat) (t : Nat) (c : UInt8) (m m' : Mem) : Prop where
  total : Accounts im m' A
  page : ∀ n ∈ A, n ≠ t → m'.page n = m.page n
  word : ∀ i, i < 1024 → (m'.page t).word i = filledWord c

theorem exec_empty {args : Nat → Nat → Nat → M (Option Nat)}
    {Q : Option (Nat × Nat) → Mem → Prop} (hacc : Accounts im m (space m cur + K))
    (hroom : 1100 + (space m cur + K).card ≤ im.pool.card)
    (hargs : ∀ (d : Nat) (m₂ : Mem), Ready im (space m cur + K) d 0 m₂ →
      Agree m m₂ (space m cur + K) → ((args cur d (2 * PGSIZE)).run m₂).Sat
        (fun r m₃ => ((execTail im cur d (2 * PGSIZE) r).run m₃).Sat Q E) E) :
    ((exec im args cur (some emptyElf)).run m).Sat Q E := by
  rw [exec_run, sat_bind]
  obtain ⟨elf, hread, hphnum, hok⟩ : ∃ elf, readi emptyElf 0 52 = some elf ∧
      field elf 44 2 = 0 ∧ ¬ (elf.length ≠ 52 ∨ field elf 0 4 ≠ ELF_MAGIC) :=
    ⟨_, rfl, by decide, by decide⟩
  unfold execLoad
  simp only [Option.bind_some, hread, Option.map_some]
  rw [if_neg hok, sat_bind]
  apply (setupkvm_spec hacc).imp
  rintro r m₁ (⟨d, rfl, hnew⟩ | ⟨rfl, -, -, hcard⟩)
  · simp only [sat_bind]
    rw [hphnum, loadSegments, sat_pure]
    simp only [sat_bind]
    have h0 : pages 0 = 0 := by decide
    apply (makeStack_spec (loaded_new hnew)).imp
    rw [h0]
    rintro r m₂ (⟨rfl, h₂, -, hguard, hstack⟩ | ⟨rfl, -, hcard⟩)
    · have hfill := h₂.filled
      rw [pages_mul] at hfill
      rw [sat_pure]
      unfold execEnter
      rw [sat_bind]
      exact hargs d m₂ ⟨h₂.total, h₂.map, hfill, hguard, hstack, fun i => h₂.hole hnew⟩
        (hnew.agree.trans h₂.agree)
    · exfalso
      have hcard := hcard (by decide)
      omega
  · exfalso
    omega

theorem exec_rogue {s : List UInt8} {c : UInt8} (hlen : s.length = 33566719)
    (hall : ∀ x ∈ s, x = c)
    (hacc : Accounts im m (space m cur + K)) (h : Armed m cur t)
    (hroom : 1100 + (space m cur + K).card ≤ im.pool.card) :
    ((exec im (pushArgs im [s]) cur (some emptyElf)).run m).Sat
      (fun r m' => r = none ∧ Wiped im (space m cur + K) t c m m') fun _ _ => False := by
  have htmem : t ∈ space m cur := table_mem_space (by decide) h.table
  have htA : t ∈ space m cur + K := mem_add.mpr (Or.inl htmem)
  have htake : ((s ++ [0]).take PGSIZE).length = PGSIZE ∧ ∀ x ∈ (s ++ [0]).take PGSIZE, x = c := by
    rw [List.take_append_of_le_length (by rw [hlen]; decide)]
    refine ⟨?_, fun x hx => hall x (List.mem_of_mem_take hx)⟩
    rw [List.length_take, hlen]
    decide
  apply exec_empty hacc hroom
  intro d m₂ hready hagree
  have htotal₂ := hready.total
  have harmed := h.agree (hagree.mono fun _ hn => mem_add.mpr (Or.inl hn))
  have hspace : t ∉ space m₂ d := fun hc => htotal₂.disjoint_rest hc htA
  have htree : t ∉ d ::ₘ tables m₂ d := by
    intro hc
    apply hspace
    rcases mem_cons.mp hc with rfl | hc
    · exact dir_mem_space _ _
    · exact mem_cons_of_mem (mem_add.mpr (Or.inl hc))
  rw [pushArgs_rogue hlen (hacc.mem_pool htA) htree hready.map
    (hready.hole 1015 (by decide) (by decide)) harmed]
  generalize hm₃ : m₂.write t ((m₂.page t).splice 0 ((s ++ [0]).take PGSIZE)) = m₃
  have htotal : Accounts im m₃ (space m₃ d + (space m cur + K)) := by
    rw [← hm₃, (agree_write _ htree).space_eq]
    exact htotal₂.write _ _
  unfold execTail
  rw [sat_bind]
  apply (freevm_spec htotal).imp
  rintro _ m₄ ⟨h₄, hagree₄⟩
  rw [sat_pure]
  refine ⟨rfl, h₄, ?_, ?_⟩
  · intro n hn hnt
    rw [hagree₄ n hn, ← hm₃, write_page_of_ne _ _ hnt, hagree n hn]
  · intro i hi
    rw [hagree₄ t htA, ← hm₃, write_page_self]
    exact word_filled _ htake.1 htake.2 hi

theorem Wiped.lost {s : State} {p : Fin NPROC} {m' : Mem} (hi : PageInv im s)
    (hp : (s.proc p).state ≠ .unused) (h : Armed s.mem (s.proc p).pgdir t)
    (hw : Wiped im s.inUse t 2 s.mem m') : frame (lookup s.mem (s.proc p).pgdir 0) ∈ im.pool ∧
      frame (lookup s.mem (s.proc p).pgdir 0) ∉ ({ s with mem := m' } : State).pages := by
  generalize hcur : (s.proc p).pgdir = cur at h
  have h0 : 0 < UPAGES := by decide
  have hsplit : s.inUse = space s.mem cur + ((s.proc p).kstack ::ₘ s.others p) := by
    rw [inUse_space hp, hcur]
  have hacc : Accounts im s.mem (space s.mem cur + ((s.proc p).kstack ::ₘ s.others p)) := by
    rw [← hsplit]
    exact hi.total
  have hmem : frame (lookup s.mem cur 0) ∈ space s.mem cur := frame_mem_space h0 h.present
  have hmemA : frame (lookup s.mem cur 0) ∈ s.inUse := by
    rw [hsplit]
    exact mem_add.mpr (Or.inl hmem)
  have htmem : t ∈ space s.mem cur := table_mem_space (by decide) h.table
  have htdir : t ≠ cur := hacc.tree.table_ne_dir (by decide) h.table
  have hrest : ∀ n ∈ (s.proc p).kstack ::ₘ s.others p, m'.page n = s.mem.page n := by
    intro n hn
    apply hw.page n
    · rw [hsplit]
      exact mem_add.mpr (Or.inr hn)
    · rintro rfl
      exact hacc.disjoint_rest htmem hn
  have hdir : m'.page cur = s.mem.page cur := by
    apply hw.page cur _ htdir.symm
    rw [hsplit]
    exact mem_add.mpr (Or.inl (dir_mem_space _ _))
  have htable : ∀ i, tablePage m' cur i = tablePage s.mem cur i := by
    intro i
    unfold tablePage
    rw [hdir]
  -- the first 1024 entries are gone, the others are as they were
  have hlow : ∀ v < 1024, present (lookup m' cur v) = false := by
    intro v hv
    have hv0 : v / 1024 = 0 := by omega
    have hvt : tablePage m' cur (v / 1024) = some t := by
      rw [htable, hv0, h.table]
    rw [lookup_of_table hvt, hw.word _ (by omega)]
    decide
  have hhigh : ∀ v, 1024 ≤ v → v < UPAGES → lookup m' cur v = lookup s.mem cur v := by
    intro v hv hvu
    have hvi := div_lt_of_vpage (upage_lt hvu)
    cases ht : tablePage s.mem cur (v / 1024) with
    | none => rw [lookup_of_none ht, lookup_of_none ((htable _).trans ht)]
    | some t' =>
      rw [lookup_of_table ht, lookup_of_table ((htable _).trans ht)]
      rw [hw.page t']
      · rw [hsplit]
        exact mem_add.mpr (Or.inl (table_mem_space hvi ht))
      · rintro rfl
        have hidx := hacc.tree.table_inj hvi (by decide) ht h.table
        omega
  have hframes : frame (lookup s.mem cur 0) ∉ frames m' cur := by
    intro hc
    unfold frames at hc
    obtain ⟨v, hv, hf⟩ := mem_gather.mp hc
    rw [Finset.mem_range] at hv
    have hnd : (frames s.mem cur).Nodup :=
      (nodup_add.mp (Multiset.nodup_cons.mp hacc.space_nodup).2).2.1
    unfold frames at hnd
    by_cases hv1 : v < 1024
    · unfold framePage at hf
      rw [hlow v hv1, if_neg Bool.false_ne_true] at hf
      cases hf
    · unfold framePage at hf
      rw [hhigh v (by omega) hv] at hf
      have hv0 := gather_inj hnd (Finset.mem_range.mpr hv) (Finset.mem_range.mpr h0) hf
        (if_pos h.present)
      omega
  have hspace : frame (lookup s.mem cur 0) ∉ space m' cur := by
    have htree := hacc.frame_not_tree h0 h.present
    have htabs : tables m' cur = tables s.mem cur := by
      unfold tables
      exact gather_congr fun i _ => htable i
    unfold space
    rw [htabs]
    intro hc
    rcases mem_cons.mp hc with hc | hc
    · exact htree (mem_cons.mpr (Or.inl hc))
    · rcases mem_add.mp hc with hc | hc
      · exact htree (mem_cons.mpr (Or.inr hc))
      · exact hframes hc
  refine ⟨hi.total.mem_pool hmemA, ?_⟩
  have huse : ({ s with mem := m' } : State).inUse =
      space m' cur + ((s.proc p).kstack ::ₘ s.others p) := by
    have hagree : Agree s.mem m' (s.others p) := fun n hn => hrest n (mem_cons_of_mem hn)
    have hothers := others_setProc hagree (s.proc p)
    unfold State.setProc at hothers
    rw [Function.update_eq_self] at hothers
    rw [inUse_space (s := { s with mem := m' }) (p := p) hp, hothers, hcur]
  unfold State.pages
  rw [huse]
  intro hc
  rcases mem_add.mp hc with hc | hc
  · exact Multiset.disjoint_left.mp (nodup_add.mp hw.total.nodup).2.2 hc hmemA
  · rcases mem_add.mp hc with hc | hc
    · exact hspace hc
    · exact hacc.disjoint_rest hmem hc

def longArg : List UInt8 := List.replicate 33566719 2

theorem sbrk_long {s : State} (h : BootInv image s) :
    ∃ s', s.sbrk image initproc 33570816 = some s' ∧ PageInv image s' ∧
      (s'.proc initproc).state = .live ∧ (s'.proc initproc).sz = 33574912 ∧
      (∀ v < 8197, FreshUser (lookup s'.mem (s'.proc initproc).pgdir v)) ∧
      s'.inUse.card ≤ 10000 := by
  have hlive := h.live
  have hused : (s.proc initproc).state ≠ .unused := by
    rw [hlive]
    decide
  have hmap := h.pages.map initproc hused
  have htotal := h.pages.total
  have hcard := h.card
  rw [inUse_space hused] at htotal hcard
  rw [card_add] at hcard
  have hgrow : ((growproc image (s.proc initproc).pgdir (s.proc initproc).sz 33570816).run s.mem).Sat
      (fun r m' => r = some 33574912 ∧ ∃ L, UserMap image 33574912 L ∧
        (∀ v < 8197, FreshUser (L v)) ∧
        Turn image ((s.proc initproc).kstack ::ₘ s.others initproc)
          ((s.proc initproc).kstack ::ₘ s.others initproc) (s.proc initproc).pgdir userTable L s.mem
          m') fun _ _ => False := by
    rw [h.size] at hmap ⊢
    have hnew : (((PGSIZE : Nat) + (33570816 : Int)) % 2 ^ 32).toNat = 33574912 := by decide
    unfold growproc
    rw [if_pos (by decide), sat_bind, hnew]
    apply (allocuvm_spec hmap.above hmap.size htotal).imp
    rintro r m' (⟨rfl, hlt, L, hg, -, hturn⟩ | ⟨rfl, -, hfull⟩)
    · have hmax : max PGSIZE 33574912 = 33574912 := by decide
      have hg' := hmap.grown hg hlt
      rw [sat_pure]
      rw [hmax] at hg' ⊢
      refine ⟨if_neg (by decide), L, hg', ?_, hturn⟩
      have h1 : pages PGSIZE = 1 := by decide
      have h2 : pages 33574912 = 8197 := by decide
      intro v hv
      by_cases hv0 : v = 0
      · rw [hv0, hg.same 0 (Or.inl (by decide))]
        exact h.first
      · exact hg.new v (by omega) (by omega)
    · exfalso
      have hfull := hfull (by decide)
      have hpages : pages 33574912 = 8197 := by decide
      rw [image_pool_card] at hfull
      omega
  obtain ⟨_, m', ⟨rfl, L, hL, hL0, hturn⟩, hcall⟩ := State.exists_call hgrow
  refine ⟨_, hcall, ?_, ?_, ?_, ?_, ?_⟩
  · exact h.pages.sbrk hused hcall
  · simp only [State.setProc, Function.update_self]
    exact hlive
  · simp only [State.setProc, Function.update_self]
  · simp only [State.setProc, Function.update_self]
    intro v hv
    rw [hturn.entry v (upage_lt (by rw [upages_eq]; omega))]
    exact hL0 v hv
  · have hspace := card_space_le (m := m') (d := (s.proc initproc).pgdir) (T := Finset.range 1024)
      (P := Finset.range 8197) (fun i hi hiT => absurd (Finset.mem_range.mpr hi) hiT)
      (fun v hv hvP => by
        have habove := hL.above v (by
          rw [Finset.mem_range] at hvP
          have hpages : pages 33574912 = 8197 := by decide
          omega) hv
        rw [hturn.entry v (upage_lt hv), habove]
        rfl)
    rw [Finset.card_range, Finset.card_range] at hspace
    have hothers := others_setProc (p := initproc)
      (hturn.agree.mono fun _ hn => mem_cons_of_mem hn)
      ({ s.proc initproc with sz := 33574912 } : Proc)
    rw [inUse_space (p := initproc) (by
      simp only [State.setProc, Function.update_self]
      exact hused), hothers, card_add]
    simp only [State.setProc, Function.update_self]
    omega

theorem FreshUser.writable {e : Nat} (h : FreshUser e) : Vm.user e = true ∧ e &&& PTE_W ≠ 0 := by
  refine ⟨h.user, ?_⟩
  obtain ⟨p, rfl⟩ := h
  intro hc
  have hbit : ((p * PGSIZE ||| (PTE_W ||| PTE_U) ||| PTE_P) &&& PTE_W).testBit 1 = true := by
    rw [Nat.testBit_and, Nat.testBit_or, Nat.testBit_or, show Nat.testBit (PTE_W ||| PTE_U) 1 = true
      by decide, show Nat.testBit PTE_W 1 = true by decide]
    simp
  rw [hc] at hbit
  exact Bool.false_ne_true hbit

theorem store_word {s : State} {p : Fin NPROC} {v : Nat} (hv : v < UPAGES)
    (hfresh : FreshUser (lookup s.mem (s.proc p).pgdir v)) (e : Nat) :
    s.call (userStore (s.proc p).pgdir (v * PGSIZE) (toLe 4 e)) (fun _ s => s) =
      some { s with
        mem := s.mem.write (frame (lookup s.mem (s.proc p).pgdir v))
          ((s.mem.page (frame (lookup s.mem (s.proc p).pgdir v))).setWord 0 e) } := by
  obtain ⟨huser, hwrite⟩ := hfresh.writable
  obtain ⟨t, ht, hword⟩ := table_of_present hfresh.present
  have hmod : v * PGSIZE % PGSIZE = 0 := Nat.mul_mod_left _ _
  have hstore : ((userStore (s.proc p).pgdir (v * PGSIZE) (toLe 4 e)).run s.mem).Sat
      (fun _ m' => m' = s.mem.write (frame (lookup s.mem (s.proc p).pgdir v))
        ((s.mem.page (frame (lookup s.mem (s.proc p).pgdir v))).setWord 0 e)) fun _ _ => False := by
    unfold userStore
    rw [sat_bind, sat_walkpgdir (page_addr_lt (upage_lt hv)), page_addr_div, ht]
    simp only [Option.map_some, sat_bind]
    rw [sat_load, hword, hmod,
      if_pos ⟨hfresh.present, huser, hwrite, by rw [length_toLe]; decide⟩, sat_modify]
    rfl
  obtain ⟨_, m', rfl, hcall⟩ := State.exists_call (k := fun _ s => s) hstore
  exact hcall

theorem store_arms {s : State} {p : Fin NPROC} (hi : PageInv im s) (hp : (s.proc p).state = .live)
    (hfirst : FreshUser (lookup s.mem (s.proc p).pgdir 0)) :
    ∃ bytes t m', s.call (userStore (s.proc p).pgdir 0 bytes) (fun _ s => s) =
        some { s with mem := m' } ∧
      m'.free = s.mem.free ∧ Armed m' (s.proc p).pgdir t := by
  have hused : (s.proc p).state ≠ .unused := by
    rw [hp]
    decide
  have h0 : 0 < UPAGES := by decide
  have htotal := hi.total
  rw [inUse_space hused] at htotal
  have hpres := hfirst.present
  obtain ⟨t, ht, -⟩ := table_of_present hpres
  have htlt := htotal.lt_of_mem (mem_add.mpr (Or.inl (table_mem_space (by decide) ht)))
  have hentry : t * PGSIZE ||| (PTE_P ||| PTE_U) < 2 ^ 32 := entry_lt (by decide) htlt
  have hcall := store_word h0 hfirst (t * PGSIZE ||| (PTE_P ||| PTE_U))
  rw [Nat.zero_mul] at hcall
  refine ⟨_, t, _, hcall, rfl, ?_⟩
  have hturn := turn_frame (I := fun _ => False) htotal h0 hpres
    ((s.mem.page (frame (lookup s.mem (s.proc p).pgdir 0))).setWord 0
      (t * PGSIZE ||| (PTE_P ||| PTE_U)))
  have hlook := hturn.entry 0 (by decide)
  refine ⟨?_, ?_, ?_⟩
  · rw [hturn.table 0 (by decide) (fun hc => hc)]
    exact ht
  · rw [hlook]
    exact hpres
  · rw [hlook, write_page_self, Bytes.word_setWord_self _ _ (by decide), Nat.mod_eq_of_lt hentry]

/-- The first process has called `exec` with an argument that consists of `c`s. -/
structure Rogue (c : UInt8) (s₁ : State) (t : Nat) (m' : Mem) : Prop where
  inv : PageInv image s₁
  live : (s₁.proc initproc).state = .live
  size : 33566719 < (s₁.proc initproc).sz
  armed : Armed s₁.mem (s₁.proc initproc).pgdir t
  call : step image (pushArgs image) s₁
    (.exec initproc (some emptyElf) [List.replicate 33566719 c]) = some { s₁ with mem := m' }
  wiped : Wiped image s₁.inUse t c s₁.mem m'

theorem exists_rogue (c : UInt8) : ∃ s bytes s₁ t m', Booted image 2 [] s ∧
    Run (fun _ _ => True) (step image (pushArgs image)) s
      [.sbrk initproc 33570816, .store initproc 0 bytes] s₁ ∧ Rogue c s₁ t m' := by
  obtain ⟨s, hboot⟩ := image_booted
  obtain ⟨s₁, hsbrk, hi₁, hlive₁, hsize₁, hfirst₁, hcard₁⟩ := sbrk_long hboot.inv
  obtain ⟨bytes, t, m₂, hstore, hfree, harmed⟩ := store_arms hi₁ hlive₁ (hfirst₁ 0 (by decide))
  have hlive : (({ s₁ with mem := m₂ } : State).proc initproc).state = .live := hlive₁
  have hused : (({ s₁ with mem := m₂ } : State).proc initproc).state ≠ .unused := by
    rw [hlive]
    decide
  have hi₂ := hi₁.store (by rw [hlive₁]; decide) (by decide) hstore
  have htotal := hi₂.total
  have hcard₂ : ({ s₁ with mem := m₂ } : State).inUse.card ≤ 10000 := by
    have h₁ := congrArg Multiset.card hi₁.total
    have h₂ := congrArg Multiset.card htotal
    rw [Multiset.card_add, Multiset.coe_card] at h₁ h₂
    rw [← hfree] at h₁
    change m₂.free.length + _ = _ at h₂
    omega
  rw [inUse_space hused] at htotal hcard₂
  have hexec := exec_rogue (s := List.replicate 33566719 c) List.length_replicate
    (fun x hx => List.eq_of_mem_replicate hx) htotal harmed (by
      rw [image_pool_card]
      omega)
  obtain ⟨_, m₃, hret, rfl, hwiped⟩ := hexec.exists_ok
  have hcall : ({ s₁ with mem := m₂ } : State).exec image (pushArgs image) initproc (some emptyElf)
      [List.replicate 33566719 c] = some { s₁ with mem := m₃ } := by
    unfold State.exec State.call
    rw [hret]
  rw [← inUse_space hused] at hwiped
  refine ⟨s, bytes, { s₁ with mem := m₂ }, t, m₃, hboot, ?_, hi₂, hlive, ?_, harmed,
    (if_pos hlive).trans hcall, hwiped⟩
  · apply Run.cons trivial ((if_pos hboot.inv.live).trans hsbrk)
    exact .cons trivial ((if_pos ⟨hlive₁, by decide⟩).trans hstore) (.nil _)
  · change 33566719 < (s₁.proc initproc).sz
    rw [hsize₁]
    decide

theorem long_argument_loses_page : ∃ s bytes s₁ s' page,
    Booted image 2 [] s ∧
    Run (fun _ _ => True) (step image (pushArgs image)) s
      [.sbrk initproc 33570816, .store initproc 0 bytes] s₁ ∧
    longArg.length < (s₁.proc initproc).sz ∧
    step image (pushArgs image) s₁ (.exec initproc (some emptyElf) [longArg]) = some s' ∧
    page ∈ image.pool ∧ page ∉ s'.pages := by
  obtain ⟨s, bytes, s₁, t, m', hboot, hrun, h⟩ := exists_rogue 2
  have hused : (s₁.proc initproc).state ≠ .unused := by
    rw [h.live]
    decide
  obtain ⟨hpool, hlost⟩ := h.wiped.lost h.inv hused h.armed
  refine ⟨s, bytes, s₁, { s₁ with mem := m' }, _, hboot, hrun, ?_, h.call, hpool, hlost⟩
  rw [show longArg.length = 33566719 from List.length_replicate]
  exact h.size

end BossOs.Vm
