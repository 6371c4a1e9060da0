import BossOs.Vm.Contents
import BossOs.Vm.Kernel

/-!
# `allocuvm`

`allocuvm` maps new pages in a range of absent ones, or gives back what it took and leaves
every entry as it was.
-/

namespace BossOs.Vm

open Lib
open Function (update update_of_ne update_self)
open Prog (sat_bind sat_pure)

variable {im : Image} {K R : Multiset Nat} {d : Nat} {m m' : Mem} {E : Stop → Mem → Prop}

def userTable (i : Nat) : Prop := i < 512

theorem userTable_of_upage {v : Nat} (hv : v < UPAGES) : userTable (v / 1024) := by
  rw [upages_eq] at hv
  unfold userTable
  omega

def FreshUser (e : Nat) : Prop := ∃ p, e = p * PGSIZE ||| (PTE_W ||| PTE_U) ||| PTE_P

theorem FreshUser.present {e : Nat} (h : FreshUser e) : present e = true := by
  obtain ⟨p, rfl⟩ := h
  exact present_or_p _

theorem FreshUser.user {e : Nat} (h : FreshUser e) : user e = true := by
  obtain ⟨p, rfl⟩ := h
  rw [Nat.or_assoc, user_entry]
  decide

structure Grown (L : Nat → Nat) (lo hi : Nat) (L' : Nat → Nat) : Prop where
  same : ∀ v, v < lo ∨ hi ≤ v → L' v = L v
  new : ∀ v, lo ≤ v → v < hi → FreshUser (L' v)

variable {L : Nat → Nat} {lo : Nat}

theorem Grown.refl {hi : Nat} (h : hi ≤ lo) : Grown L lo hi L :=
  ⟨fun _ _ => rfl, fun v h1 h2 => absurd h2 (by omega)⟩

variable {k : Nat}

theorem Grown.snoc {L' : Nat → Nat} {e : Nat} (h : Grown L lo k L') (hk : lo ≤ k)
    (he : FreshUser e) : Grown L lo (k + 1) (update L' k e) := by
  constructor
  · intro v hv
    rw [update_of_ne (by omega)]
    exact h.same v (by omega)
  · intro v h1 h2
    by_cases hvk : v = k
    · subst hvk
      rw [update_self]
      exact he
    · rw [update_of_ne hvk]
      exact h.new v h1 (by omega)

theorem Grown.cleared {L' : Nat → Nat} {hi : Nat} (h : Grown L lo k L') (hk : k ≤ hi)
    (habs : ∀ v, lo ≤ v → v < hi → L v = 0) (v : Nat) : cleared lo hi L' v = L v := by
  by_cases hr : lo ≤ v ∧ v < hi
  · unfold Vm.cleared
    by_cases hvk : v < k
    · rw [if_pos ⟨hr.1, hr.2, (h.new v hr.1 hvk).present⟩, habs v hr.1 hr.2]
    · rw [h.same v (Or.inr (by omega)), habs v hr.1 hr.2, ite_self]
  · rw [cleared_of_ge (by omega), h.same v (by omega)]

/-- The old pages keep their contents, and those from `lo` to `hi` are zero. -/
structure Zeroed (m m' : Mem) (d lo hi : Nat) : Prop where
  keeps : Keeps m m' d
  zero : ∀ v, lo ≤ v → v < hi → Holds m' d v Bytes.zero

theorem Zeroed.refl {hi : Nat} (h : hi ≤ lo) : Zeroed m m d lo hi :=
  ⟨fun _ _ _ hc => hc, fun v h1 h2 => absurd h2 (by omega)⟩

theorem Zeroed.snoc {m₁ m₂ : Mem} {p : Nat} (h : Zeroed m m' d lo k) (hk : k < UPAGES)
    (habs : present (lookup m d k) = false)
    (hkeep : ∀ v c, v < UPAGES → Holds m' d v c → Holds m₁ d v c) (hpage : m₁.page p = Bytes.zero)
    (hacc : Accounts im m₁ (space m₁ d + (p ::ₘ K))) (hedit : Edit d m₁ m₂)
    (hsame : ∀ w < VPAGES, w ≠ k → lookup m₂ d w = lookup m₁ d w)
    (hentry : lookup m₂ d k = p * PGSIZE ||| (PTE_W ||| PTE_U) ||| PTE_P) :
    Zeroed m m₂ d lo (k + 1) := by
  have hold : ∀ v c, v < UPAGES → v ≠ k → Holds m' d v c → Holds m₂ d v c := fun v c hv hvk hc =>
    (hkeep v c hv hc).edit hv hacc hedit (hsame v (upage_lt hv) hvk)
  constructor
  · intro v c hv hc
    apply hold v c hv _ (h.keeps v c hv hc)
    rintro rfl
    have hp := hc.present
    rw [habs] at hp
    exact absurd hp (by decide)
  · intro v hlo hhi
    by_cases hvk : v = k
    · subst hvk
      have hnew := holds_mapped hacc hedit (by decide) hentry
      rw [hpage] at hnew
      exact hnew
    · exact hold v _ (by omega) hvk (h.zero v hlo (by omega))

theorem Turn.push {p : Nat} {I : Nat → Prop} (h : Turn im K (p ::ₘ R) d I L m m')
    (hK : ∀ n ∈ K, n ∈ R) : Turn im K R d I L m (m'.push p) := by
  have htotal := h.total
  rw [Multiset.add_cons] at htotal
  have hp := (Multiset.nodup_cons.mp (Multiset.nodup_add.mp htotal.nodup).2.1).1
  have htree : Agree m' (m'.push p) (d ::ₘ tables m' d) :=
    (agree_push fun hmem => hp (Multiset.mem_add.mpr (Or.inl hmem))).of_space
  refine ⟨?_, ?_, ?_, h.agree.trans (agree_push fun hmem => ?_)⟩
  · rw [htree.space_eq]
    exact htotal.push
  · intro v hv
    rw [htree.lookup_eq hv, h.entry v hv]
  · intro i hi hI
    rw [htree.tablePage_eq, h.table i hi hI]
  · exact hp (Multiset.mem_add.mpr (Or.inr (hK p hmem)))

theorem flags_lt : PTE_W ||| PTE_U < PGSIZE := by decide

section Alloc

variable {oldsz newsz : Nat} (hnew : newsz < KERNBASE)
  (habs : ∀ v, pages oldsz ≤ v → v < UPAGES → lookup m d v = 0)
include hnew habs

theorem deallocuvm_undo (hg : Grown (lookup m d) (pages oldsz) k L)
    (hk : k ≤ pages newsz) (hK : ∀ n ∈ K, n ∈ R) (h : Turn im K R d userTable L m m') :
    ((deallocuvm im d newsz oldsz).run m').Sat
      (fun _ m'' => Turn im K R d userTable (lookup m d) m m'') E := by
  have hpages := pages_le (Nat.le_of_lt hnew)
  apply (deallocuvm_spec (Nat.le_of_lt hnew) hK h.total).imp
  rintro _ m'' ⟨-, hturn⟩
  apply (h.trans hturn).mono
  · rintro i (hi | hi)
    · exact hi
    · exact hi.elim
  · intro v hv
    have hrestore := hg.cleared hk (fun v h1 h2 => habs v h1 (by omega)) v
    unfold Vm.cleared at hrestore ⊢
    rw [h.entry v hv]
    exact hrestore

omit hnew in
theorem card_grown (hg : Grown (lookup m d) (pages oldsz) k L)
    (hk : k ≤ pages newsz) (hlo : pages oldsz ≤ k) (h : Turn im K R d userTable L m m')
    (hfree : m'.free = []) : im.pool.card ≤ 1025 + pages newsz + R.card := by
  have hcard := h.total.card_pool hfree
  have hspace := card_space_le (m := m') (d := d) (T := Finset.range NPDENTRIES)
    (P := Finset.range (pages newsz)) (fun i hi hiT => absurd (Finset.mem_range.mpr hi) hiT) (by
    intro v hv hvP
    rw [Finset.mem_range] at hvP
    rw [h.entry v (upage_lt hv), hg.same v (Or.inr (by omega)), habs v (by omega) hv]
    rfl)
  rw [Multiset.card_add] at hcard
  rw [Finset.card_range, Finset.card_range] at hspace
  unfold NPDENTRIES at hspace
  omega

theorem allocFrom_spec (n : Nat) : ∀ {m' : Mem} {k : Nat} {L : Nat → Nat},
    k + n = pages newsz → pages oldsz ≤ k → Grown (lookup m d) (pages oldsz) k L →
    Zeroed m m' d (pages oldsz) k → Turn im K K d userTable L m m' →
    ((allocFrom im d oldsz newsz n (k * PGSIZE)).run m').Sat (fun r m'' =>
        (r = newsz ∧ ∃ L', Grown (lookup m d) (pages oldsz) (pages newsz) L' ∧
          Zeroed m m'' d (pages oldsz) (pages newsz) ∧ Turn im K K d userTable L' m m'') ∨
        (r = 0 ∧ Turn im K K d userTable (lookup m d) m m'' ∧
          im.pool.card ≤ 1026 + pages newsz + K.card)) E := by
  have hpages := pages_le (Nat.le_of_lt hnew)
  induction n with
  | zero =>
    intro m' k L hk _ hg hz h
    rw [Nat.add_zero] at hk
    rw [hk] at hg hz
    rw [allocFrom, sat_pure]
    exact Or.inl ⟨rfl, L, hg, hz, h⟩
  | succ n ih =>
    intro m' k L hk hlo hg hz h
    have hku : k < UPAGES := by omega
    unfold allocFrom
    rw [sat_bind]
    apply sat_kalloc
    · intro hfree
      have hcard := card_grown habs hg (show k ≤ pages newsz by omega) hlo h hfree
      simp only [sat_bind]
      apply (deallocuvm_undo hnew habs hg (by omega) (fun _ hn => hn) h).imp
      intro _ m'' hturn
      rw [sat_pure]
      exact Or.inr ⟨rfl, hturn, by omega⟩
    · intro p ps hfree
      have htake := turn_take (I := userTable) h.total hfree (fun _ hn => hn) Bytes.zero
      simp only [sat_bind]
      rw [sat_memset, mappages_page (upage_lt hku)]
      have habs₀ : present (lookup m d k) = false := by
        rw [habs k hlo hku]
        rfl
      have habsk : present (lookup (m'.pop.write p Bytes.zero) d k) = false := by
        rw [htake.entry k (upage_lt hku), h.entry k (upage_lt hku), hg.same k (by omega)]
        exact habs₀
      apply (mapPage_user_edit htake.total hku flags_lt habsk).imp
      have htable : ∀ i, (userTable i ∨ userTable i) ∨ i = k / 1024 → userTable i := by
        rintro i ((hi | hi) | rfl)
        · exact hi
        · exact hi
        · exact userTable_of_upage hku
      have hentry : ∀ v < VPAGES, lookup (m'.pop.write p Bytes.zero) d v = L v := by
        intro v hv
        rw [htake.entry v hv, h.entry v hv]
      rintro ok m₂ ⟨hedit, hsame, ⟨rfl, hmap, hnew⟩ | ⟨rfl, hmap, hfree₂⟩⟩
      · rw [if_pos rfl, show k * PGSIZE + PGSIZE = (k + 1) * PGSIZE by rw [Nat.add_mul, Nat.one_mul]]
        have hz' : Zeroed m m₂ d (pages oldsz) (k + 1) :=
          hz.snoc hku habs₀ (fun v c hv hc => hc.take hv h.total hfree _) (write_page_self _ _ _)
            htake.total hedit hsame hnew
        refine ih (by omega) (by omega) (hg.snoc hlo ⟨p, rfl⟩) hz'
          (((h.trans htake).trans hmap).mono htable ?_)
        intro v hv
        by_cases hvk : v = k
        · subst hvk
          rw [update_self, update_self]
        · rw [update_of_ne hvk, update_of_ne hvk, hentry v hv]
      · have hstep : Turn im K (p ::ₘ K) d userTable L m m₂ :=
          ((h.trans htake).trans hmap).mono htable hentry
        have hcard := card_grown habs hg (show k ≤ pages newsz by omega) hlo hstep hfree₂
        rw [Multiset.card_cons] at hcard
        rw [if_neg Bool.false_ne_true, sat_bind]
        apply (deallocuvm_undo hnew habs hg (by omega) (fun _ hn => Multiset.mem_cons_of_mem hn)
          hstep).imp
        intro _ m₃ hturn
        have hpool := hturn.total.mem_pool (Multiset.mem_add.mpr (Or.inr (Multiset.mem_cons_self p K)))
        rw [sat_bind, sat_kfree hpool, sat_pure]
        exact Or.inr ⟨rfl, hturn.push fun _ hn => hn, by omega⟩

omit hnew in
theorem allocuvm_spec (hold : oldsz ≤ KERNBASE) (h : Accounts im m (space m d + K)) :
    ((allocuvm im d oldsz newsz).run m).Sat (fun r m' => (r = max oldsz newsz ∧ newsz < KERNBASE ∧
          ∃ L', Grown (lookup m d) (pages oldsz) (pages newsz) L' ∧
            Zeroed m m' d (pages oldsz) (pages newsz) ∧ Turn im K K d userTable L' m m') ∨
        (r = 0 ∧ Turn im K K d userTable (lookup m d) m m' ∧
          (newsz < KERNBASE → im.pool.card ≤ 1026 + pages newsz + K.card))) E := by
  unfold allocuvm
  by_cases hker : KERNBASE ≤ newsz
  · rw [if_pos hker, sat_pure]
    exact Or.inr ⟨rfl, .refl h, fun hlt => absurd hlt (by omega)⟩
  · rw [if_neg hker]
    have hmono : ∀ {a b : Nat}, a ≤ b → pages a ≤ pages b := by
      intro a b hab
      unfold pages
      exact Nat.div_le_div_right (by omega)
    by_cases hlt : newsz < oldsz
    · rw [if_pos hlt, sat_pure]
      exact Or.inl ⟨(Nat.max_eq_left (by omega)).symm, by omega, _,
        .refl (hmono (Nat.le_of_lt hlt)), .refl (hmono (Nat.le_of_lt hlt)), .refl h⟩
    · have hup : PGROUNDUP oldsz = pages oldsz * PGSIZE := by
        unfold KERNBASE at hold
        unfold PGROUNDUP pages
        rw [pgsize_eq]
        omega
      have hle : pages oldsz ≤ pages newsz := hmono (by omega)
      rw [if_neg hlt, hup]
      apply (allocFrom_spec (by omega) habs (pages newsz - pages oldsz) (by omega) (Nat.le_refl _)
        (.refl (Nat.le_refl _)) (.refl (Nat.le_refl _)) (.refl h)).imp
      rintro r m' (⟨rfl, L', hg, hz, hturn⟩ | ⟨rfl, hturn, hcard⟩)
      · exact Or.inl ⟨(Nat.max_eq_right (by omega)).symm, by omega, L', hg, hz, hturn⟩
      · exact Or.inr ⟨rfl, hturn, fun _ => hcard⟩

end Alloc

end BossOs.Vm
