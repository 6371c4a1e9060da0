import BossOs.Proc.Family

/-!
# Kernel stacks and page directories

Each belongs to one slot until `wait`, or a failing `fork`, frees it, and nobody has it
afterwards. `wait` does not clear `p->pgdir`, so an unused slot may still hold the
number of a freed directory; `fork` overwrites it before anyone reads it.
-/

namespace BossOs.Proc

open Lib
open Function (update update_self update_of_ne)

section
variable {C : Type}

def State.HasDir (s : State C) (q : Slot) : Prop :=
  (s.state q).used = true ∨ ∃ p n, (s.pc p).child = some (q, n) ∧ 2 ≤ n

structure PageInv (s : State C) : Prop where
  stack : ∀ q k, s.kstack q = some k → k < s.pages ∧ k ∉ s.freed
  stackInj : ∀ q r k, s.kstack q = some k → s.kstack r = some k → q = r
  dir : ∀ q d, s.HasDir q → s.pgdir q = some d →
    (d < s.pages ∧ d ∉ s.freed) ∧ ∀ r, s.kstack r ≠ some d
  dirInj : ∀ q r d, s.HasDir q → s.HasDir r → s.pgdir q = some d → s.pgdir r = some d → q = r
  used : ∀ q, (s.state q).used = true → s.kstack q ≠ none ∧ s.pgdir q ≠ none
  child : ∀ p np n, (s.pc p).child = some (np, n) →
    (1 ≤ n → s.kstack np ≠ none) ∧ (2 ≤ n → s.pgdir np ≠ none)
  old : ∀ k ∈ s.freed, k < s.pages
  once : s.freed.Nodup
  gone : ∀ r ∈ s.reaped, ∃ k d, r.kstack = some k ∧ r.pgdir = some d ∧ k ∈ s.freed ∧ d ∈ s.freed

theorem pageInv_boot : PageInv (boot C) := by
  have hstack : ∀ q k, (boot C).kstack q = some k → q = initproc ∧ k = 0 := fun q k hq => by
    change update (fun _ => none) initproc (some 0) q = some k at hq
    by_cases hi : q = initproc
    · rw [hi, update_self] at hq
      exact ⟨hi, (Option.some.inj hq).symm⟩
    · rw [update_of_ne hi] at hq
      cases hq
  have hdir : ∀ q d, (boot C).pgdir q = some d → q = initproc ∧ d = 1 := fun q d hq => by
    change update (fun _ => none) initproc (some 1) q = some d at hq
    by_cases hi : q = initproc
    · rw [hi, update_self] at hq
      exact ⟨hi, (Option.some.inj hq).symm⟩
    · rw [update_of_ne hi] at hq
      cases hq
  refine ⟨fun q k hq => ?_, fun q r k hq hr => ?_, fun q d _ hq => ?_, fun q r d _ _ hq hr => ?_,
    fun q hq => ?_, fun p np n h => (by cases h), fun k hk => (by cases hk), List.nodup_nil,
    fun r hr => (by cases hr)⟩
  · rw [(hstack q k hq).2]
    exact ⟨Nat.zero_lt_two, List.not_mem_nil⟩
  · rw [(hstack q k hq).1, (hstack r k hr).1]
  · rw [(hdir q d hq).2]
    refine ⟨⟨Nat.one_lt_two, List.not_mem_nil⟩, fun r hr => ?_⟩
    cases (hstack r 1 hr).2
  · rw [(hdir q d hq).1, (hdir r d hr).1]
  · change (update (fun _ => ProcState.unused) initproc .runnable q).used = true at hq
    by_cases hi : q = initproc
    · rw [hi]
      exact ⟨fun h => (by cases h), fun h => (by cases h)⟩
    · rw [update_of_ne hi] at hq
      cases hq

variable {s t : State C}

theorem PageInv.same (h : PageInv s) (hstack : t.kstack = s.kstack) (hdir : t.pgdir = s.pgdir)
    (hpages : t.pages = s.pages) (hfreed : t.freed = s.freed) (hreap : t.reaped = s.reaped)
    (hused : ∀ q, (t.state q).used = true →
      (s.state q).used = true ∨ ∃ p, (s.pc p).child = some (q, 3))
    (hchild : ∀ p x, (t.pc p).child = some x →
      (s.pc p).child = some x ∨ x.2 = 0 ∨ x.2 = 3 ∧ (s.pc p).child = some (x.1, 2)) :
    PageInv t := by
  have hhas : ∀ q, t.HasDir q → s.HasDir q := by
    rintro q (hq | ⟨p, n, hp, hn⟩)
    · rcases hused q hq with hq | ⟨p, hp⟩
      · exact Or.inl hq
      · exact Or.inr ⟨p, 3, hp, by decide⟩
    · rcases hchild p (q, n) hp with hp | hp | hp
      · exact Or.inr ⟨p, n, hp, hn⟩
      · dsimp only at hp
        omega
      · exact Or.inr ⟨p, 2, hp.2, le_rfl⟩
  refine ⟨?_, ?_, ?_, ?_, fun q hq => ?_, fun p np n hp => ?_, ?_, ?_, ?_⟩
  · rw [hstack, hpages, hfreed]
    exact h.stack
  · rw [hstack]
    exact h.stackInj
  · rw [hdir, hpages, hfreed, hstack]
    exact fun q d hq => h.dir q d (hhas q hq)
  · rw [hdir]
    exact fun q r d hq hr => h.dirInj q r d (hhas q hq) (hhas r hr)
  · rw [hstack, hdir]
    rcases hused q hq with hq | ⟨p, hp⟩
    · exact h.used q hq
    · obtain ⟨h1, h2⟩ := h.child p q 3 hp
      exact ⟨h1 (by decide), h2 (by decide)⟩
  · rw [hstack, hdir]
    rcases hchild p (np, n) hp with hp | hp | hp
    · exact h.child p np n hp
    · dsimp only at hp
      exact ⟨by omega, by omega⟩
    · obtain ⟨h1, h2⟩ := h.child p np 2 hp.2
      exact ⟨fun _ => h1 (by decide), fun _ => h2 le_rfl⟩
  · rw [hfreed, hpages]
    exact h.old
  · rw [hfreed]
    exact h.once
  · rw [hreap, hfreed]
    exact h.gone

theorem PageInv.kalloc (h : PageInv s) {np : Slot}
    (hstack : t.kstack = update s.kstack np (some s.pages)) (hpages : t.pages = s.pages + 1)
    (hdir : t.pgdir = s.pgdir) (hfreed : t.freed = s.freed) (hreap : t.reaped = s.reaped)
    (hst : t.state = s.state) (hchild : ∀ p np' n, (t.pc p).child = some (np', n) →
      (s.pc p).child = some (np', n) ∨ np' = np ∧ n = 1) : PageInv t := by
  have hself : t.kstack np = some s.pages := by rw [hstack, update_self]
  have hother : ∀ q ≠ np, t.kstack q = s.kstack q := fun q hq => by
    rw [hstack, update_of_ne hq]
  have hhas : ∀ q, t.HasDir q → s.HasDir q := by
    rintro q (hq | ⟨p, n, hp, hn⟩)
    · exact Or.inl (hst ▸ hq)
    · rcases hchild p q n hp with hp | hp
      · exact Or.inr ⟨p, n, hp, hn⟩
      · omega
  have hnone : ∀ q, s.kstack q ≠ none → t.kstack q ≠ none := fun q hq => by
    by_cases hqn : q = np
    · rw [hqn, hself]
      simp
    · rwa [hother q hqn]
  refine ⟨fun q k hq => ?_, fun q r k hq hr => ?_, fun q d hq hd => ?_, ?_, fun q hq => ?_,
    fun p np' n hp => ?_, fun k hk => ?_, by rw [hfreed]; exact h.once, ?_⟩
  · rw [hpages, hfreed]
    by_cases hqn : q = np
    · rw [hqn, hself] at hq
      cases hq
      exact ⟨Nat.lt_succ_self _, fun hm => Nat.lt_irrefl _ (h.old _ hm)⟩
    · rw [hother q hqn] at hq
      exact ⟨Nat.lt_succ_of_lt (h.stack q k hq).1, (h.stack q k hq).2⟩
  · by_cases hqn : q = np <;> by_cases hrn : r = np
    · rw [hqn, hrn]
    · rw [hqn, hself] at hq
      rw [hother r hrn, ← hq] at hr
      exact absurd (h.stack r _ hr).1 (Nat.lt_irrefl _)
    · rw [hrn, hself] at hr
      rw [hother q hqn, ← hr] at hq
      exact absurd (h.stack q _ hq).1 (Nat.lt_irrefl _)
    · rw [hother q hqn] at hq
      rw [hother r hrn] at hr
      exact h.stackInj q r k hq hr
  · rw [hdir] at hd
    obtain ⟨⟨hlt, hfree⟩, hno⟩ := h.dir q d (hhas q hq) hd
    refine ⟨⟨by rw [hpages]; exact Nat.lt_succ_of_lt hlt, by rw [hfreed]; exact hfree⟩, fun r => ?_⟩
    by_cases hrn : r = np
    · rw [hrn, hself]
      exact fun he => Nat.ne_of_lt hlt (Option.some.inj he).symm
    · rw [hother r hrn]
      exact hno r
  · rw [hdir]
    exact fun q r d hq hr => h.dirInj q r d (hhas q hq) (hhas r hr)
  · rw [hst] at hq
    rw [hdir]
    exact ⟨hnone q (h.used q hq).1, (h.used q hq).2⟩
  · rw [hdir]
    rcases hchild p np' n hp with hp | ⟨rfl, rfl⟩
    · obtain ⟨h1, h2⟩ := h.child p np' n hp
      exact ⟨fun hn => hnone np' (h1 hn), h2⟩
    · exact ⟨fun _ => by rw [hself]; simp, by omega⟩
  · rw [hfreed] at hk
    rw [hpages]
    exact Nat.lt_succ_of_lt (h.old k hk)
  · rw [hreap, hfreed]
    exact h.gone

theorem PageInv.copyuvm (h : PageInv s) {np : Slot}
    (hdir : t.pgdir = update s.pgdir np (some s.pages)) (hpages : t.pages = s.pages + 1)
    (hstack : t.kstack = s.kstack) (hfreed : t.freed = s.freed) (hreap : t.reaped = s.reaped)
    (hnp : (t.state np).used = false) (hst : t.state = s.state)
    (hchild : ∀ p np' n, (t.pc p).child = some (np', n) → (s.pc p).child = some (np', n) ∧ np' ≠ np ∨
      np' = np ∧ n = 2 ∧ (s.pc p).child = some (np, 1)) : PageInv t := by
  have hself : t.pgdir np = some s.pages := by rw [hdir, update_self]
  have hother : ∀ q ≠ np, t.pgdir q = s.pgdir q := fun q hq => by
    rw [hdir, update_of_ne hq]
  have hhas : ∀ q, t.HasDir q → q ≠ np → s.HasDir q := by
    rintro q (hq | ⟨p, n, hp, hn⟩) hqn
    · exact Or.inl (hst ▸ hq)
    · rcases hchild p q n hp with hp | hp
      · exact Or.inr ⟨p, n, hp.1, hn⟩
      · exact absurd hp.1 hqn
  have hlt : ∀ q d, t.HasDir q → q ≠ np → t.pgdir q = some d → d < s.pages := fun q d hq hqn hd =>
    (h.dir q d (hhas q hq hqn) ((hother q hqn).symm.trans hd)).1.1
  refine ⟨fun q k hq => ?_, ?_, fun q d hq hd => ?_, fun q r d hq hr hdq hdr => ?_, fun q hq => ?_,
    fun p np' n hp => ?_, fun k hk => ?_, by rw [hfreed]; exact h.once, ?_⟩
  · rw [hstack] at hq
    rw [hpages, hfreed]
    exact ⟨Nat.lt_succ_of_lt (h.stack q k hq).1, (h.stack q k hq).2⟩
  · rw [hstack]
    exact h.stackInj
  · rw [hpages, hfreed, hstack]
    by_cases hqn : q = np
    · rw [hqn, hself] at hd
      cases hd
      refine ⟨⟨Nat.lt_succ_self _, fun hm => Nat.lt_irrefl _ (h.old _ hm)⟩, fun r hr => ?_⟩
      exact Nat.lt_irrefl _ (h.stack r _ hr).1
    · rw [hother q hqn] at hd
      obtain ⟨⟨hl, hfree⟩, hno⟩ := h.dir q d (hhas q hq hqn) hd
      exact ⟨⟨Nat.lt_succ_of_lt hl, hfree⟩, hno⟩
  · by_cases hqn : q = np <;> by_cases hrn : r = np
    · rw [hqn, hrn]
    · have := hlt r d hr hrn hdr
      rw [hqn, hself] at hdq
      exact absurd (Option.some.inj hdq) (Nat.ne_of_gt this)
    · have := hlt q d hq hqn hdq
      rw [hrn, hself] at hdr
      exact absurd (Option.some.inj hdr) (Nat.ne_of_gt this)
    · rw [hother q hqn] at hdq
      rw [hother r hrn] at hdr
      exact h.dirInj q r d (hhas q hq hqn) (hhas r hr hrn) hdq hdr
  · have hqn : q ≠ np := by
      rintro rfl
      rw [hnp] at hq
      cases hq
    rw [hst] at hq
    rw [hstack, hother q hqn]
    exact h.used q hq
  · rw [hstack]
    rcases hchild p np' n hp with ⟨hs, hne⟩ | ⟨rfl, rfl, hs⟩
    · rw [hother np' hne]
      exact h.child p np' n hs
    · obtain ⟨h1, _⟩ := h.child p np' 1 hs
      exact ⟨fun _ => h1 le_rfl, fun _ => by rw [hself]; simp⟩
  · rw [hfreed] at hk
    rw [hpages]
    exact Nat.lt_succ_of_lt (h.old k hk)
  · rw [hreap, hfreed]
    exact h.gone

theorem PageInv.free (h : PageInv s) {q : Slot} {l : List Nat}
    (hstack : t.kstack = update s.kstack q none)
    (hdir : ∀ r ≠ q, t.pgdir r = s.pgdir r) (hpages : t.pages = s.pages)
    (hfreed : t.freed = s.freed ++ l)
    (hl : ∀ k ∈ l, s.kstack q = some k ∨ s.HasDir q ∧ s.pgdir q = some k) (hnd : l.Nodup)
    (hused : ∀ r, (t.state r).used = true → r ≠ q ∧ (s.state r).used = true)
    (hchild : ∀ p np n, (t.pc p).child = some (np, n) → np ≠ q ∧ (s.pc p).child = some (np, n))
    (hgone : ∀ r ∈ t.reaped, r ∈ s.reaped ∨
      ∃ k d, r.kstack = some k ∧ r.pgdir = some d ∧ k ∈ l ∧ d ∈ l) : PageInv t := by
  have hkself : t.kstack q = none := by rw [hstack, update_self]
  have hkother : ∀ r ≠ q, t.kstack r = s.kstack r := fun r hr => by
    rw [hstack, update_of_ne hr]
  have hk : ∀ r k, t.kstack r = some k → r ≠ q ∧ s.kstack r = some k := fun r k hr => by
    have hrq : r ≠ q := by
      rintro rfl
      rw [hkself] at hr
      cases hr
    exact ⟨hrq, (hkother r hrq).symm.trans hr⟩
  have hhas : ∀ r, t.HasDir r → r ≠ q ∧ s.HasDir r := by
    rintro r (hr | ⟨p, n, hp, hn⟩)
    · exact ⟨(hused r hr).1, Or.inl (hused r hr).2⟩
    · exact ⟨(hchild p r n hp).1, Or.inr ⟨p, n, (hchild p r n hp).2, hn⟩⟩
  have hold : ∀ k ∈ l, k < s.pages ∧ k ∉ s.freed := fun k hkl => by
    rcases hl k hkl with hq | ⟨hq, hd⟩
    · exact h.stack q k hq
    · exact (h.dir q k hq hd).1
  refine ⟨fun r k hr => ?_, fun r w k hr hw => ?_, fun r d hr hd => ?_,
    fun r w d hr hw hdr hdw => ?_, fun r hr => ?_, fun p np n hp => ?_, fun k hkf => ?_, ?_,
    fun r hr => ?_⟩
  · obtain ⟨hrq, hr⟩ := hk r k hr
    rw [hpages, hfreed]
    refine ⟨(h.stack r k hr).1, fun hm => ?_⟩
    rcases List.mem_append.mp hm with hm | hm
    · exact (h.stack r k hr).2 hm
    · rcases hl k hm with hq | ⟨hq, hd⟩
      · exact hrq (h.stackInj r q k hr hq)
      · exact (h.dir q k hq hd).2 r hr
  · exact h.stackInj r w k (hk r k hr).2 (hk w k hw).2
  · obtain ⟨hrq, hr⟩ := hhas r hr
    rw [hdir r hrq] at hd
    obtain ⟨⟨hlt, hfree⟩, hno⟩ := h.dir r d hr hd
    rw [hpages, hfreed]
    refine ⟨⟨hlt, fun hm => ?_⟩, fun w hw => hno w (hk w d hw).2⟩
    rcases List.mem_append.mp hm with hm | hm
    · exact hfree hm
    · rcases hl d hm with hq | ⟨hq, hdq⟩
      · exact hno q hq
      · exact hrq (h.dirInj r q d hr hq hd hdq)
  · obtain ⟨hrq, hr⟩ := hhas r hr
    obtain ⟨hwq, hw⟩ := hhas w hw
    rw [hdir r hrq] at hdr
    rw [hdir w hwq] at hdw
    exact h.dirInj r w d hr hw hdr hdw
  · obtain ⟨hrq, hr⟩ := hused r hr
    rw [hkother r hrq, hdir r hrq]
    exact h.used r hr
  · obtain ⟨hne, hp⟩ := hchild p np n hp
    rw [hkother np hne, hdir np hne]
    exact h.child p np n hp
  · rw [hpages]
    rw [hfreed] at hkf
    rcases List.mem_append.mp hkf with hkf | hkf
    · exact h.old k hkf
    · exact (hold k hkf).1
  · rw [hfreed]
    refine List.nodup_append.mpr ⟨h.once, hnd, ?_⟩
    rintro x hx y hy rfl
    exact (hold x hy).2 hx
  · rw [hfreed]
    rcases hgone r hr with hr | ⟨k, d, hrk, hrd, hkl, hdl⟩
    · obtain ⟨k, d, hrk, hrd, hkf, hdf⟩ := h.gone r hr
      exact ⟨k, d, hrk, hrd, List.mem_append_left _ hkf, List.mem_append_left _ hdf⟩
    · exact ⟨k, d, hrk, hrd, List.mem_append_right _ hkl, List.mem_append_right _ hdl⟩

theorem Woken.used {a b : Slot → ProcState} (h : Woken a b) {q : Slot}
    (hq : (b q).used = true) : (a q).used = true := by
  rw [ProcState.used_iff, h.alive, h.zombie, ← ProcState.used_iff] at hq
  exact hq

variable {p : Slot}

theorem used_update {state : Slot → ProcState} {st : ProcState}
    (h : (state p).used = true ∨ st.used = false) (q : Slot)
    (hq : (update state p st q).used = true) : (state q).used = true := by
  by_cases hqp : q = p
  · subst hqp
    rw [update_self] at hq
    rcases h with h | h
    · exact h
    · rw [h] at hq
      cases hq
  · rwa [update_of_ne hqp] at hq

theorem child_update {pc : Slot → Pc} {k : Pc}
    (hk : ∀ x, k.child = some x → (pc p).child = some x) (q : Slot) (x : Slot × Nat)
    (hq : (update pc p k q).child = some x) : (pc q).child = some x := by
  by_cases hqp : q = p
  · subst hqp
    rw [update_self] at hq
    exact hk x hq
  · rwa [update_of_ne hqp] at hq

theorem PageInv.move (h : PageInv s) {k : Pc} (hpc : t.pc = update s.pc p k)
    (hstack : t.kstack = s.kstack) (hdir : t.pgdir = s.pgdir) (hpages : t.pages = s.pages)
    (hfreed : t.freed = s.freed) (hreap : t.reaped = s.reaped)
    (hused : ∀ q, (t.state q).used = true → (s.state q).used = true)
    (hk : ∀ x, k.child = some x → (s.pc p).child = some x) : PageInv t := by
  refine h.same hstack hdir hpages hfreed hreap (fun q hq => Or.inl (hused q hq)) fun q x hq => ?_
  rw [hpc] at hq
  exact Or.inl (child_update hk q x hq)

theorem used_update_unused {state : Slot → ProcState} {q : Slot}
    (hq : (update state p .unused q).used = true) : q ≠ p ∧ (state q).used = true := by
  have hqp : q ≠ p := by
    rintro rfl
    rw [update_self] at hq
    cases hq
  rw [update_of_ne hqp] at hq
  exact ⟨hqp, hq⟩

theorem ForkInv.child_ne (hf : ForkInv s) {np : Slot} {m : Nat} {k : Pc}
    (hp : (s.pc p).child = some (np, m)) (hk : k.child = none) (q np' : Slot) (n : Nat)
    (hq : (update s.pc p k q).child = some (np', n)) :
    np' ≠ np ∧ (s.pc q).child = some (np', n) := by
  have hqp : q ≠ p := by
    rintro rfl
    rw [update_self, hk] at hq
    cases hq
  rw [update_of_ne hqp] at hq
  refine ⟨?_, hq⟩
  rintro rfl
  exact hqp (hf.inj q p np' n m hq hp)

variable [DecidableEq C]

theorem pageInv_step {a : Act C} (hc : ControlInv s) (hf : ForkInv s) (h : PageInv s)
    (hstep : step s a = some t) : PageInv t := by
  cases step_moves hstep with
  | start c p k on at_ =>
    exact h.move rfl rfl rfl rfl rfl rfl (fun _ => id) fun x hx => by
      rw [k.entry_child] at hx
      cases hx
  | timer c p on free calm => exact h.move rfl rfl rfl rfl rfl rfl (fun _ => id) fun _ => id
  | acquire c ok p k on at_ =>
    exact h.move rfl rfl rfl rfl rfl rfl (fun _ => id) (by rw [Pc.acquires_child at_]; exact fun _ => id)
  | release c ok p k on at_ =>
    exact h.move rfl rfl rfl rfl rfl rfl (fun _ => id) (by rw [Pc.releases_child at_]; exact fun _ => id)
  | switch c ok p k on at_ =>
    exact h.move rfl rfl rfl rfl rfl rfl (fun _ => id) (by rw [Pc.switches_child at_]; exact fun _ => id)
  | returns c ok p | noSlot c ok p | waitNone c ok p | waitResume c ok p | sleepResume c ok p
  | killNone c ok p =>
    exact h.move rfl rfl rfl rfl rfl rfl (fun _ => id) fun x hx => by cases hx
  | wake c ok p addr on at_ =>
    exact h.move rfl rfl rfl rfl rfl rfl (fun _ => (woken_wakeup1 _ _ _).used) fun x hx => by cases hx
  | kill c ok p q pid on at_ hit =>
    exact h.move rfl rfl rfl rfl rfl rfl (fun _ => (woken_kill _ _).used) fun x hx => by cases hx
  | waitSleep c ok p on at_ | sleepSet c ok p addr on at_ =>
    refine h.move rfl rfl rfl rfl rfl rfl (used_update (Or.inl ?_)) fun x hx => by cases hx
    rw [hc.state_of on at_ rfl]
    rfl
  | yieldSet c ok p k on at_ =>
    refine h.move rfl rfl rfl rfl rfl rfl (used_update (Or.inl ?_)) (by rw [at_]; exact fun _ => id)
    rw [hc.state_of on at_ rfl]
    rfl
  | exit c ok p on at_ =>
    obtain ⟨parent, state, heq, _, hwoken, _⟩ := exit_spec s p
    have hrun := hc.state_of on at_ rfl
    rw [heq]
    refine h.move rfl rfl rfl rfl rfl rfl (fun q hq => hwoken.used (used_update (Or.inl ?_) q hq))
      fun x hx => by cases hx
    rcases hwoken p with hs | ⟨hs, _⟩
    · rw [hs, hrun]
      rfl
    · rw [hs] at hrun
      cases hrun
  | found c ok p np on at_ unused =>
    refine h.same rfl rfl rfl rfl rfl (fun q hq => Or.inl (used_update (Or.inr rfl) q hq))
      fun q x hq => ?_
    change (update s.pc p (.allocRelease (some np)) q).child = some x at hq
    by_cases hqp : q = p
    · subst hqp
      rw [update_self] at hq
      cases hq
      exact Or.inr (Or.inl rfl)
    · rw [update_of_ne hqp] at hq
      exact Or.inl hq
  | kalloc c ok p np on at_ =>
    refine h.kalloc rfl rfl rfl rfl rfl rfl fun q np' n hq => ?_
    change (update (update s.pc np .forkret) p (.forkCopy np) q).child =
      some (np', n) at hq
    by_cases hqp : q = p
    · subst hqp
      rw [update_self] at hq
      cases hq
      exact Or.inr ⟨rfl, rfl⟩
    · rw [update_of_ne hqp] at hq
      exact Or.inl (child_update (fun x hx => by cases hx) q _ hq)
  | copy c ok p np on at_ =>
    have hp : (s.pc p).child = some (np, 1) := by rw [at_]; rfl
    have hemb := hf.embryo p np 1 hp
    refine h.copyuvm rfl rfl rfl rfl rfl (by change (s.state np).used = false; rw [hemb]; rfl) rfl
      fun q np' n hq => ?_
    change (update s.pc p (.forkParent np) q).child = some (np', n) at hq
    by_cases hqp : q = p
    · subst hqp
      rw [update_self] at hq
      cases hq
      exact Or.inr ⟨rfl, rfl, hp⟩
    · rw [update_of_ne hqp] at hq
      refine Or.inl ⟨hq, ?_⟩
      rintro rfl
      exact hqp (hf.inj q p np' n 1 hq hp)
  | setParent c ok p np on at_ =>
    refine h.same rfl rfl rfl rfl rfl (fun _ => Or.inl) fun q x hq => ?_
    change (update s.pc p (.forkAcquire np (s.pid np)) q).child = some x at hq
    by_cases hqp : q = p
    · subst hqp
      rw [update_self] at hq
      cases hq
      exact Or.inr (Or.inr ⟨rfl, by rw [at_]; rfl⟩)
    · rw [update_of_ne hqp] at hq
      exact Or.inl hq
  | setRunnable c ok p np pid on at_ =>
    refine h.same rfl rfl rfl rfl rfl (fun q hq => ?_) fun q x hq => ?_
    · by_cases hqn : q = np
      · exact Or.inr ⟨p, by rw [at_, hqn]; rfl⟩
      · refine Or.inl ?_
        change (update s.state np .runnable q).used = true at hq
        rwa [update_of_ne hqn] at hq
    · exact Or.inl (child_update (fun x hx => by cases hx) q x hq)
  | kallocFail c ok p np on at_ =>
    have hp : (s.pc p).child = some (np, 0) := by rw [at_]; rfl
    exact h.free rfl (fun _ _ => rfl) rfl (List.append_nil _).symm (fun k hk => by cases hk)
      List.nodup_nil (fun _ => used_update_unused) (hf.child_ne hp rfl) fun _ => Or.inl
  | copyFail c ok p np on at_ =>
    have hp : (s.pc p).child = some (np, 1) := by rw [at_]; rfl
    refine h.free rfl (fun _ hr => update_of_ne hr ..) rfl rfl (fun k hk => Or.inl ?_) ?_
      (fun _ => used_update_unused) (hf.child_ne hp rfl) fun _ => Or.inl
    · exact Option.mem_toList.mp hk
    · cases s.kstack np with
      | none => exact List.nodup_nil
      | some k => exact List.nodup_singleton k
  | reap c ok p q on at_ child zombie =>
    have hused : (s.state q).used = true := by rw [zombie]; rfl
    obtain ⟨hk, hd⟩ := h.used q hused
    obtain ⟨k, hk⟩ := Option.ne_none_iff_exists'.mp hk
    obtain ⟨d, hd⟩ := Option.ne_none_iff_exists'.mp hd
    have hne : k ≠ d := by
      rintro rfl
      exact (h.dir q k (Or.inl hused) hd).2 q hk
    refine h.free (l := [k, d]) rfl (fun _ _ => rfl) rfl ?_ (fun x hx => ?_) (by simp [hne])
      (fun _ => used_update_unused) (fun r np n hr => ?_) fun r hr => ?_
    · simp [hk, hd, State.goto]
    · rcases List.mem_cons.mp hx with rfl | hx
      · exact Or.inl hk
      · exact Or.inr ⟨Or.inl hused, by rw [List.mem_singleton.mp hx, hd]⟩
    · have hr := child_update (fun x hx => by cases hx) r _ hr
      refine ⟨?_, hr⟩
      rintro rfl
      rw [hf.embryo r np n hr] at zombie
      cases zombie
    · rcases List.mem_append.mp hr with hr | hr
      · exact Or.inl hr
      · rw [List.mem_singleton.mp hr]
        exact Or.inr ⟨k, d, hk, hd, by simp, by simp⟩
  | dispatch c ok q at_ runnable =>
    refine h.same rfl rfl rfl rfl rfl (fun r hr => Or.inl (used_update (Or.inl ?_) r hr))
      fun _ _ => Or.inl
    rw [runnable]
    rfl
  | initExits | zombieExit | schedAcquire | schedSkip | schedRelease | schedBack =>
    exact h.same rfl rfl rfl rfl rfl (fun _ => Or.inl) fun _ _ => Or.inl

end

end BossOs.Proc
