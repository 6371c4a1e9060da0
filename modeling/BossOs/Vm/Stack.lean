import BossOs.Vm.Args
import BossOs.Vm.Load

/-!
# The arguments of a new program

An argument goes below the one before it modulo `2 ^ 32`: to the stack page, to the guard page, to
the kernel's addresses, where `copyout` fails, or to the gap between the kernel's map of the memory
and the devices, where a new address space has no page tables. The checked calls stop if and only
if one comes to be put there, and an argument that is shorter than the device space never is.
-/

namespace BossOs.Vm

open Lib

variable {im : Image} {K : Multiset Nat} {cur d n : Nat} {m m' : Mem} {E : Stop → Mem → Prop}

def ShortArgs (argv : List (List UInt8)) : Prop := ∀ s ∈ argv, s.length + 4 ≤ 2 ^ 32 - DEVSPACE

instance (argv : List (List UInt8)) : Decidable (ShortArgs argv) :=
  inferInstanceAs (Decidable (∀ s ∈ argv, s.length + 4 ≤ 2 ^ 32 - DEVSPACE))

def place (sp len : Nat) : Nat := (sp + (2 ^ 32 - (len + 1) % 2 ^ 32)) % 2 ^ 32 / 4 * 4

/-- With `argc` strings on the stack page at `base`, the next ones follow until one goes to
the gap. -/
def Strays (base : Nat) : List (List UInt8) → Nat → Nat → Prop
  | [], _, _ => False
  | s :: argv, argc, sp => argc < MAXARG ∧ (Gap (place sp s.length) ∨
      (s.length < sp ∧ base ≤ place sp s.length) ∧
        Strays base argv (argc + 1) (place sp s.length))

theorem place_cases {sp len : Nat} (hlen : len < KERNBASE) (hsp : sp ≤ KERNBASE) :
    (len < sp ∧ place sp len + (len + 1) ≤ sp ∧ sp < place sp len + (len + 1) + 4) ∨
      sp ≤ len ∧ KERNBASE ≤ place sp len ∧ place sp len < 2 ^ 32 := by
  unfold KERNBASE at *
  unfold place
  omega

/-- A new program before its arguments: the guard page `n`, the stack page above it, and no
page tables in the gap. -/
structure Ready (im : Image) (K : Multiset Nat) (d n : Nat) (m : Mem) : Prop where
  total : Accounts im m (space m d + K)
  map : UserMap im ((n + 2) * PGSIZE) (lookup m d)
  filled : ∀ v, v < n + 2 → present (lookup m d v) = true
  guard : user (lookup m d n) = false
  stack : user (lookup m d (n + 1)) = true
  hole : ∀ i, 568 ≤ i → i < 1016 → tablePage m d i = none

theorem Program.ready {file : Option File} (h : Program im K file d n m m') : Ready im K d n m' :=
  ⟨h.total, h.map, h.filled, h.guard, h.stack, h.hole⟩

namespace Ready

variable (h : Ready im K d n m)
include h

theorem pages_le : n + 2 ≤ UPAGES := by
  have hle := Vm.pages_le h.map.size
  rw [pages_mul] at hle
  exact hle

theorem turn (hturn : Turn im K K d (fun _ => False) (lookup m d) m m') : Ready im K d n m' := by
  have hle := h.pages_le
  have hlook : ∀ v < n + 2, lookup m' d v = lookup m d v := fun v hv =>
    hturn.entry v (upage_lt (by omega))
  refine ⟨hturn.total, h.map.congr hturn.entry, ?_, ?_, ?_, ?_⟩
  · intro v hv
    rw [hlook v hv]
    exact h.filled v hv
  · rw [hlook n (by omega)]
    exact h.guard
  · rw [hlook (n + 1) (by omega)]
    exact h.stack
  · intro i hlo hhi
    rw [hturn.table i (Nat.lt_trans hhi (by decide)) (fun hi => hi)]
    exact h.hole i hlo hhi

theorem copyout_gap {a : Nat} {buf : List UInt8} (ha : Gap a) (hbuf : buf.length ≠ 0)
    {Q : Bool → Mem → Prop}
    {E : Stop → Mem → Prop} : ((copyoutChecked im d a buf).run m).Sat Q E = E .fault m := by
  obtain ⟨k, hk⟩ := Nat.exists_eq_succ_of_ne_zero hbuf
  have hround : PGROUNDDOWN a = a / PGSIZE * PGSIZE := rfl
  obtain ⟨hlo, hhi⟩ := ha
  unfold KERNBASE PHYSTOP at hlo
  unfold DEVSPACE at hhi
  have hv : a / PGSIZE < VPAGES := by
    rw [pgsize_eq]
    unfold VPAGES
    omega
  have hnone : tablePage m d (a / PGSIZE / 1024) = none :=
    h.hole _ (by rw [pgsize_eq]; omega) (by rw [pgsize_eq]; omega)
  unfold copyoutChecked
  rw [hk, copyoutFromChecked, if_neg hbuf, Prog.sat_bind, hround]
  unfold uva2kaChecked
  rw [Prog.sat_bind, sat_walkpgdir (page_addr_lt hv), page_addr_div, hnone, Option.map_none,
    Prog.sat_fail]

theorem copyout_string {sp : Nat} {s : List UInt8} (hlen : s.length < KERNBASE)
    (hlo : (n + 1) * PGSIZE ≤ sp) (hhi : sp ≤ (n + 2) * PGSIZE) :
    ((copyoutChecked im d (place sp s.length) (s ++ [0])).run m).Sat
      (fun ok m' => ¬ Gap (place sp s.length) ∧
        Turn im K K d (fun _ => False) (lookup m d) m m' ∧
        (ok = true ↔ s.length < sp ∧ (n + 1) * PGSIZE ≤ place sp s.length))
      (fun e _ => e = .fault ∧ Gap (place sp s.length)) := by
  have hsize := h.map.size
  have hbuf : (s ++ [0]).length = s.length + 1 := by simp
  rcases place_cases hlen (hhi.trans hsize) with ⟨hlt, hle, hend⟩ | ⟨hge, hker, htop⟩
  · have hgap : ¬ Gap (place sp s.length) := fun hgap => by
      have := hgap.1
      omega
    rw [← hbuf] at hle hend
    apply (copyoutFromChecked_spec h.pages_le _ h.total h.filled (Or.inr (by omega))
      (Nat.le_refl _)).imp
    rintro ok m' ⟨hturn, hthrough⟩
    refine ⟨hgap, hturn, fun hok => ⟨hlt, ?_⟩, fun ⟨_, hbase⟩ => hthrough.mpr fun a h1 h2 => ?_⟩
    · exact (hthrough.mp hok).above_guard h.guard (by omega) hlo hend
    · have hpage : a / PGSIZE = n + 1 := by
        rw [pgsize_eq] at *
        omega
      rw [hpage]
      exact h.stack
  · by_cases hgap : Gap (place sp s.length)
    · rw [h.copyout_gap hgap (by omega)]
      exact ⟨rfl, hgap⟩
    · unfold copyoutChecked
      rw [hbuf, copyoutFromChecked_kernel h.map hker htop hgap (by omega), Outcome.sat_ok]
      exact ⟨hgap, .refl h.total, fun hc => absurd hc Bool.false_ne_true, fun hin => by omega⟩

end Ready

theorem pushStringsChecked_strays (argv : List (List UInt8)) : ∀ {m : Mem} {argc sp : Nat}
    (us : List Nat), Ready im K d n m → (∀ s ∈ argv, s.length < KERNBASE) →
    (n + 1) * PGSIZE ≤ sp → sp ≤ (n + 2) * PGSIZE → us.length ≤ argc → argc ≤ MAXARG →
    ((pushStringsChecked im d argv argc sp us).run m).Sat
      (fun r m' => ¬ Strays ((n + 1) * PGSIZE) argv argc sp ∧
        Turn im K K d (fun _ => False) (lookup m d) m m' ∧
        ∀ sp' us', r = some (sp', us') → sp' ≤ (n + 2) * PGSIZE ∧ us'.length ≤ MAXARG)
      (fun e _ => e = .fault ∧ Strays ((n + 1) * PGSIZE) argv argc sp) := by
  induction argv with
  | nil =>
    intro m argc sp us h _ _ hhi hus hargc
    rw [pushStringsChecked, Prog.sat_pure]
    refine ⟨fun hs => hs, .refl h.total, ?_⟩
    rintro _ _ hr
    cases hr
    exact ⟨hhi, by omega⟩
  | cons s argv ih =>
    intro m argc sp us h hfit hlo hhi hus hargc
    have hs := hfit s List.mem_cons_self
    unfold pushStringsChecked
    by_cases hmax : MAXARG ≤ argc
    · rw [if_pos hmax, Prog.sat_pure]
      exact ⟨fun hst => absurd hst.1 (by omega), .refl h.total, fun _ _ hr => by cases hr⟩
    rw [if_neg hmax, Prog.sat_bind]
    apply (h.copyout_string hs hlo hhi).mono
    · rintro ok m₁ ⟨hgap, hturn, hok⟩
      cases ok with
      | false =>
        rw [if_neg Bool.false_ne_true, Prog.sat_pure]
        refine ⟨fun hst => ?_, hturn, fun _ _ hr => by cases hr⟩
        rcases hst.2 with hc | ⟨hin, -⟩
        · exact hgap hc
        · exact Bool.false_ne_true (hok.mpr hin)
      | true =>
        obtain ⟨hlt, hbase⟩ := hok.mp rfl
        have hle : place sp s.length ≤ sp := by
          rcases place_cases hs (hhi.trans h.map.size) with ⟨-, hle, -⟩ | ⟨hge, -⟩ <;> omega
        rw [if_pos rfl]
        refine (ih (us ++ [place sp s.length]) (h.turn hturn)
          (fun s' hs' => hfit s' (List.mem_cons_of_mem s hs')) hbase (hle.trans hhi) ?_
          (by omega)).mono ?_ ?_
        · rw [List.length_append, List.length_singleton]
          omega
        · rintro r m₂ ⟨hst, hturn', hr⟩
          refine ⟨?_, (hturn.trans hturn').mono (fun _ hi => hi.elim id id) hturn.entry, hr⟩
          rintro ⟨-, hc | ⟨-, hc⟩⟩
          · exact hgap hc
          · exact hst hc
        · rintro e _ ⟨he, hst⟩
          exact ⟨he, by omega, Or.inr ⟨⟨hlt, hbase⟩, hst⟩⟩
    · rintro e _ ⟨he, hgap⟩
      exact ⟨he, by omega, Or.inl hgap⟩

theorem length_flatMap_toLe (ws : List Nat) : (ws.flatMap (toLe 4)).length = 4 * ws.length := by
  induction ws with
  | nil => rfl
  | cons w ws ih =>
    rw [List.flatMap_cons, List.length_append, length_toLe, ih, List.length_cons]
    omega

theorem pushArgsChecked_strays {argv : List (List UInt8)} (h : Ready im K d n m)
    (hfit : ∀ s ∈ argv, s.length < KERNBASE) :
    ((pushArgsChecked im argv d ((n + 2) * PGSIZE)).run m).Sat
      (fun _ m' => ¬ Strays ((n + 1) * PGSIZE) argv 0 ((n + 2) * PGSIZE) ∧
        Turn im K K d (fun _ => False) (lookup m d) m m')
      (fun e _ => e = .fault ∧ Strays ((n + 1) * PGSIZE) argv 0 ((n + 2) * PGSIZE)) := by
  unfold pushArgsChecked
  rw [Prog.sat_bind]
  apply (pushStringsChecked_strays argv [] h hfit (Nat.mul_le_mul_right _ (by omega))
    (Nat.le_refl _) (Nat.le_refl 0) (Nat.zero_le _)).imp
  rintro r m₁ ⟨hst, hturn, hr⟩
  cases r with
  | none =>
    rw [Prog.sat_pure]
    exact ⟨hst, hturn⟩
  | some q =>
    obtain ⟨sp, us⟩ := q
    obtain ⟨hsp, hus⟩ := hr sp us rfl
    have h₁ := h.turn hturn
    simp only [Prog.sat_bind]
    obtain ⟨ws, hws⟩ : ∃ ws : List Nat, ws = [0xffffffff, us.length,
      (sp + (2 ^ 32 - (us.length + 1) * 4)) % 2 ^ 32] ++ us ++ [0] := ⟨_, rfl⟩
    have hlen : (ws.flatMap (toLe 4)).length = (3 + us.length + 1) * 4 := by
      rw [length_flatMap_toLe, hws]
      simp only [List.length_append, List.length_cons, List.length_nil]
      omega
    have hmod : (3 + us.length + 1) * 4 % 2 ^ 32 = (3 + us.length + 1) * 4 := by
      unfold MAXARG at hus
      omega
    rw [← hws]
    apply (copyoutChecked_below (ws.flatMap (toLe 4)) h₁.total h₁.map h₁.filled (by omega) ?_ hsp
      (by rw [hlen, hmod])).imp
    · intro ok m₂ hturn'
      have hall := (hturn.trans hturn').mono (fun _ hi => hi.elim id id) hturn.entry
      cases ok with
      | false =>
        rw [if_neg Bool.false_ne_true, Prog.sat_pure]
        exact ⟨hst, hall⟩
      | true =>
        rw [if_pos rfl, Prog.sat_pure]
        exact ⟨hst, hall⟩
    · unfold MAXARG at hus
      unfold DEVSPACE
      omega

theorem ShortArgs.lt_kernbase {argv : List (List UInt8)} (h : ShortArgs argv) :
    ∀ s ∈ argv, s.length < KERNBASE := fun s hs =>
  Nat.lt_of_lt_of_le (Nat.lt_of_add_right_lt (h s hs)) (by decide)

theorem ShortArgs.not_strays {argv : List (List UInt8)} (h : ShortArgs argv) :
    ∀ {base argc sp : Nat}, sp ≤ KERNBASE → ¬ Strays base argv argc sp := by
  induction argv with
  | nil => exact fun _ hst => hst
  | cons s argv ih =>
    rintro base argc sp hsp ⟨-, hst⟩
    have hs := h s List.mem_cons_self
    rcases place_cases (h.lt_kernbase s List.mem_cons_self) hsp with ⟨-, hle, -⟩ | ⟨hge, -, -⟩
    · rcases hst with hgap | ⟨-, hst⟩
      · have := hgap.1
        omega
      · exact ih (fun s' hs' => h s' (List.mem_cons_of_mem s hs')) (by omega) hst
    · rcases hst with hgap | ⟨⟨hlt, -⟩, -⟩
      · have hdev := hgap.2
        unfold place at hdev
        unfold KERNBASE at *
        unfold DEVSPACE at *
        omega
      · omega

theorem pushArgs_spec {argv : List (List UInt8)} (hargs : ShortArgs argv) (h : Ready im K d n m) :
    ((pushArgs im argv cur d ((n + 2) * PGSIZE)).run m).Sat
      (fun _ m' => Turn im K K d (fun _ => False) (lookup m d) m m') E :=
  (pushArgsChecked_refines cur d argv _).sat ((pushArgsChecked_strays h hargs.lt_kernbase).mono
    (fun _ _ hr => hr.2) fun _ _ hr => absurd hr.2 (hargs.not_strays h.map.size))

end BossOs.Vm
