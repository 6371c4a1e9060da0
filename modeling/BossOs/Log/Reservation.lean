import Mathlib.Algebra.Order.BigOperators.Group.Finset
import BossOs.Log.Capacity
import BossOs.Log.Crash

/-!
# One block of slack in every reservation

`begin_op` reserves `MAXOPBLOCKS` blocks for each operation. If no operation logs more
than `MAXOPBLOCKS - 1` distinct blocks, the room that is left to the open operations
never runs out: no check of `log_write` fails, and no two checks pass into one slot.
-/

namespace BossOs.Log

open Lib
open Function (update update_self update_of_ne)

variable {P : Type}

def State.left (s : State P) (o : Nat) : Nat := MAXOPBLOCKS - 1 - (s.used o).length

structure SlackInv (s : State P) : Prop where
  numbered : ∀ w ∈ s.cur, w.op < s.nops
  open_ : ∀ q, (s.pc q).inTrans = true → s.op q < s.nops
  inj : ∀ p q, (s.pc p).inTrans = true → (s.pc q).inTrans = true → s.op p = s.op q → p = q
  pending : ∀ q b, (s.pc q).pending = some b → b ∉ s.used (s.op q) → 0 < s.left (s.op q)
  fits : ∀ A : Finset P, (∀ q ∈ A, (s.pc q).inTrans = true) →
    s.lh.length + ∑ q ∈ A, s.left (s.op q) + 2 ≤ LOGSIZE

theorem slackInv_init (d : Nat → Block) : SlackInv (init P d) where
  numbered := fun w h => by simp [init] at h
  open_ := fun q h => by cases h
  inj := fun p q h => by cases h
  pending := fun q b h => by cases h
  fits := fun A hA => by
    rcases A.eq_empty_or_nonempty with rfl | ⟨q, hq⟩
    · rw [Finset.sum_empty]
      exact Nat.le_of_ble_eq_true rfl
    · cases hA q hq

theorem SlackInv.same {s t : State P} (h : SlackInv s) (hlh : t.lh.length ≤ s.lh.length)
    (hcur : t.cur = s.cur) (hop : t.op = s.op) (hn : t.nops = s.nops)
    (htr : ∀ q, (t.pc q).inTrans = true → (s.pc q).inTrans = true)
    (hpend : ∀ q b, (t.pc q).pending = some b → (s.pc q).pending = some b) : SlackInv t := by
  have hused : t.used = s.used := by
    funext o
    rw [State.used, State.used, hcur]
  refine ⟨?_, ?_, ?_, ?_, ?_⟩
  · rw [hcur, hn]
    exact h.numbered
  · rw [hop, hn]
    exact fun q hq => h.open_ q (htr q hq)
  · rw [hop]
    exact fun p q hp hq => h.inj p q (htr p hp) (htr q hq)
  · intro q b hq
    rw [hop, State.left, hused]
    exact h.pending q b (hpend q b hq)
  · intro A hA
    have hfit := h.fits A fun q hq => htr q (hA q hq)
    simp only [State.left, hop, hused] at hfit ⊢
    omega

section Used
variable {s t : State P} {w : Write} {o b : Nat}

theorem mem_used : b ∈ s.used o ↔ ∃ w ∈ s.cur, w.op = o ∧ w.blockno = b := by
  simp [State.used, and_assoc]

theorem nodup_used : (s.used o).Nodup := List.nodup_dedup _

theorem mem_used_append (hcur : t.cur = s.cur ++ [w]) :
    b ∈ t.used o ↔ b ∈ s.used o ∨ w.op = o ∧ w.blockno = b := by
  rw [mem_used, mem_used, hcur]
  simp [or_and_right, exists_or]

theorem left_append_le (hcur : t.cur = s.cur ++ [w]) : t.left o ≤ s.left o := by
  have hsub : s.used o ⊆ t.used o := fun c hc => (mem_used_append hcur).mpr (Or.inl hc)
  have hle := (List.subperm_of_subset nodup_used hsub).length_le
  rw [State.left, State.left]
  omega

theorem left_append_of_ne (hcur : t.cur = s.cur ++ [w]) (ho : w.op ≠ o) : t.left o = s.left o := by
  rw [State.left, State.left, State.used, State.used, hcur]
  simp [ho]

theorem left_append_lt (hcur : t.cur = s.cur ++ [w]) (hnew : w.blockno ∉ s.used w.op)
    (hleft : 0 < s.left w.op) : t.left w.op < s.left w.op := by
  have hsub : w.blockno :: s.used w.op ⊆ t.used w.op := by
    intro c hc
    rw [mem_used_append hcur]
    rcases List.mem_cons.mp hc with rfl | hc
    · exact Or.inr ⟨rfl, rfl⟩
    · exact Or.inl hc
  have hle := (List.subperm_of_subset (List.nodup_cons.mpr ⟨hnew, nodup_used⟩) hsub).length_le
  rw [List.length_cons] at hle
  rw [State.left] at hleft
  rw [State.left, State.left]
  omega

end Used

section Steps
variable [DecidableEq P] {g : Geometry} {d : Nat → Block} {s t : State P}

theorem left_lt_sum_of_append {p : P} {w : Write} (hcur : t.cur = s.cur ++ [w])
    (hw : w.op = s.op p) (hnew : w.blockno ∉ s.used w.op) (hleft : 0 < s.left w.op)
    (A : Finset P) : ∑ q ∈ A, t.left (s.op q) < ∑ q ∈ insert p A, s.left (s.op q) := by
  have hle : ∀ q, t.left (s.op q) ≤ s.left (s.op q) := fun q => left_append_le hcur
  calc ∑ q ∈ A, t.left (s.op q)
      ≤ ∑ q ∈ insert p A, t.left (s.op q) :=
        Finset.sum_le_sum_of_subset (Finset.subset_insert p A)
    _ < ∑ q ∈ insert p A, s.left (s.op q) := by
        refine Finset.sum_lt_sum (fun q _ => hle q) ⟨p, Finset.mem_insert_self p A, ?_⟩
        rw [← hw]
        exact left_append_lt hcur hnew hleft

theorem slackInv_append (hi : Inv s) (hl : LhInv s) (h : SlackInv s) {p : P} {w : Write}
    (at_ : s.pc p = .logAppend w.blockno) (hw : w.op = s.op p)
    (hlh : t.lh = if w.blockno ∈ s.lh then s.lh else s.lh ++ [w.blockno])
    (hcur : t.cur = s.cur ++ [w]) (hop : t.op = s.op) (hn : t.nops = s.nops)
    (hpc : t.pc = update s.pc p (.logRelease w.blockno)) : SlackInv t := by
  have hp : (s.pc p).inTrans = true := by rw [at_]; rfl
  have htr : ∀ q, (t.pc q).inTrans = true → (s.pc q).inTrans = true := by
    rw [hpc]
    exact inTrans_update fun _ => hp
  refine ⟨fun v hv => ?_, fun q hq => ?_, fun q r hq hr => ?_, fun q c hq hnew => ?_,
    fun A hA => ?_⟩
  · rw [hn]
    rw [hcur] at hv
    rcases List.mem_append.mp hv with hv | hv
    · exact h.numbered v hv
    · rw [List.mem_singleton.mp hv, hw]
      exact h.open_ p hp
  · rw [hop, hn]
    exact h.open_ q (htr q hq)
  · rw [hop]
    exact h.inj q r (htr q hq) (htr r hr)
  · rw [hpc] at hq
    rw [hop] at hnew ⊢
    by_cases hqp : q = p
    · subst hqp
      rw [update_self] at hq
      cases hq
    · rw [update_of_ne hqp] at hq
      have hne : w.op ≠ s.op q := fun he =>
        hqp (h.inj p q hp (Pc.inTrans_of_pending hq) (hw.symm.trans he)).symm
      rw [left_append_of_ne hcur hne]
      exact h.pending q c hq fun hm => hnew ((mem_used_append hcur).mpr (Or.inl hm))
  · rw [hop, hlh]
    split
    · have hsum : ∑ q ∈ A, t.left (s.op q) ≤ ∑ q ∈ A, s.left (s.op q) :=
        Finset.sum_le_sum fun q _ => left_append_le hcur
      have hfit := h.fits A fun q hq => htr q (hA q hq)
      omega
    · rename_i hnot
      -- a block that is not listed is new to its operation
      have hnew : w.blockno ∉ s.used w.op := fun hm => by
        obtain ⟨v, hv, _, hb⟩ := mem_used.mp hm
        have hlate := no_late hi (committing_of_inTrans hi hp)
        exact hnot ((hl.blocks hlate _).mpr (hb ▸ List.mem_map_of_mem hv))
      have hleft : 0 < s.left w.op := by
        rw [hw] at hnew ⊢
        exact h.pending p w.blockno (by rw [at_]; rfl) hnew
      have hsum := left_lt_sum_of_append hcur hw hnew hleft A
      have hfit := h.fits (insert p A) fun q hq => by
        rcases Finset.mem_insert.mp hq with rfl | hq
        · exact hp
        · exact htr q (hA q hq)
      rw [List.length_append, List.length_singleton]
      omega

theorem slackInv_enter (hi : Inv s) (h : SlackInv s) {p : P} (at_ : s.pc p = .beginTest)
    (may : s.mustWait = false) : SlackInv ({ s with
      outstanding := s.outstanding + 1
      op := update s.op p s.nops
      nops := s.nops + 1 }.goto p .beginRelease) := by
  have hout : ¬ (s.pc p).inTrans = true := by rw [at_]; simp [Pc.inTrans]
  have hold : ∀ q, q ≠ p → (update s.pc p Pc.beginRelease q).inTrans = true →
      (s.pc q).inTrans = true := fun q hq h => by rwa [update_of_ne hq] at h
  refine ⟨fun w hw => Nat.lt_succ_of_lt (h.numbered w hw), fun q hq => ?_, fun q r hq hr he => ?_,
    fun q b hq hnew => ?_, fun A hA => ?_⟩
  · change update s.op p s.nops q < s.nops + 1
    by_cases hqp : q = p
    · subst hqp
      rw [update_self]
      exact Nat.lt_succ_self _
    · rw [update_of_ne hqp]
      exact Nat.lt_succ_of_lt (h.open_ q (hold q hqp hq))
  · change update s.op p s.nops q = update s.op p s.nops r at he
    by_cases hqp : q = p <;> by_cases hrp : r = p
    · rw [hqp, hrp]
    · rw [hqp, update_self, update_of_ne hrp] at he
      have := h.open_ r (hold r hrp hr)
      omega
    · rw [hrp, update_self, update_of_ne hqp] at he
      have := h.open_ q (hold q hqp hq)
      omega
    · rw [update_of_ne hqp, update_of_ne hrp] at he
      exact h.inj q r (hold q hqp hq) (hold r hrp hr) he
  · change (update s.pc p Pc.beginRelease q).pending = some b at hq
    have hqp : q ≠ p := by
      rintro rfl
      rw [update_self] at hq
      cases hq
    change b ∉ s.used (update s.op p s.nops q) at hnew
    change 0 < s.left (update s.op p s.nops q)
    rw [update_of_ne hqp] at hq hnew ⊢
    exact h.pending q b hq hnew
  · obtain ⟨B, hB, hcount⟩ := hi.count
    have hsub : A ⊆ insert p B := fun q hq => by
      by_cases hqp : q = p
      · exact hqp ▸ Finset.mem_insert_self p B
      · exact Finset.mem_insert_of_mem ((hB q).mpr (hold q hqp (hA q hq)))
    have hcard : A.card ≤ B.card + 1 :=
      (Finset.card_le_card hsub).trans (Finset.card_insert_le p B)
    have hsum : ∑ q ∈ A, s.left (update s.op p s.nops q) ≤ A.card * (MAXOPBLOCKS - 1) :=
      Finset.sum_le_card_nsmul _ _ _ fun q _ => Nat.sub_le _ _
    have hwait := mustWait_iff.not.mp (by rw [may]; exact Bool.false_ne_true)
    push Not at hwait
    change s.lh.length + ∑ q ∈ A, s.left (update s.op p s.nops q) + 2 ≤ LOGSIZE
    rw [hcount] at hwait
    simp only [MAXOPBLOCKS, LOGSIZE] at hwait hsum ⊢
    rcases Nat.eq_zero_or_pos B.card with h0 | h0
    · have hnil := hi.empty (by simpa using hwait.1) (by rw [hcount, h0]; rfl)
      rw [hnil, List.length_nil]
      omega
    · omega

theorem SlackInv.move (h : SlackInv s) (hlh : t.lh.length ≤ s.lh.length) (hcur : t.cur = s.cur)
    (hop : t.op = s.op) (hn : t.nops = s.nops) {p : P} {k : Pc}
    (hpc : t.pc = update s.pc p k) (htr : k.inTrans = true → (s.pc p).inTrans = true)
    (hpend : ∀ b, k.pending = some b → (s.pc p).pending = some b) : SlackInv t := by
  refine h.same hlh hcur hop hn ?_ fun q b hq => ?_
  · rw [hpc]
    exact inTrans_update htr
  · rw [hpc] at hq
    by_cases hqp : q = p
    · subst hqp
      rw [update_self] at hq
      exact hpend b hq
    · rwa [update_of_ne hqp] at hq

theorem slackInv_write (h : SlackInv s) {p : P} {b : Nat} {dev : Dev} {buf : Nat → Option P}
    (at_ : s.pc p = .inOp)
    (hok : b ∉ s.used (s.op p) → (s.used (s.op p)).length < MAXOPBLOCKS - 1) :
    SlackInv ({ s with dev := dev, buf := buf }.goto p (.logCheck b)) := by
  have hp : (s.pc p).inTrans = true := by rw [at_]; rfl
  have htr := inTrans_update (p := p) (k := .logCheck b) (fun _ => hp)
  refine ⟨h.numbered, fun q hq => h.open_ q (htr q hq),
    fun q r hq hr => h.inj q r (htr q hq) (htr r hr), fun q c hq hnew => ?_,
    fun A hA => h.fits A fun q hq => htr q (hA q hq)⟩
  change (update s.pc p (.logCheck b) q).pending = some c at hq
  by_cases hqp : q = p
  · subst hqp
    rw [update_self] at hq
    cases hq
    exact Nat.sub_pos_of_lt (hok hnew)
  · rw [update_of_ne hqp] at hq
    exact h.pending q c hq hnew

theorem slackInv_commit (hi : Inv s) (h : SlackInv s) {p : P} (at_ : s.pc p = .commitTest) :
    SlackInv ({ s with groups := s.groups ++ [s.cur], cur := [] }.goto p (.writeLog 0)) := by
  have hcount := hi.count
  rw [hi.quiet (committing_of_commits hi (p := p) (by rw [at_]; rfl))] at hcount
  have hnone : ∀ q, ¬ (update s.pc p (.writeLog 0) q).inTrans = true := fun q hq => by
    have hq' := inTrans_update (k := .writeLog 0) (fun h => by cases h) q hq
    rw [hcount.not_at q] at hq'
    cases hq'
  refine ⟨fun w hw => (by cases hw), fun q hq => absurd hq (hnone q),
    fun q r hq => absurd hq (hnone q), fun q b hq => ?_, fun A hA => ?_⟩
  · exact absurd (Pc.inTrans_of_pending hq) (hnone q)
  · have hempty : A = ∅ := Finset.eq_empty_of_forall_notMem fun q hq => hnone q (hA q hq)
    have hfit := h.fits ∅ fun q hq => absurd hq (Finset.notMem_empty q)
    rw [hempty, Finset.sum_empty]
    rwa [Finset.sum_empty] at hfit

theorem slackInv_step {a : Act P} (hi : Inv s) (hl : LhInv s) (h : SlackInv s)
    (hok : Moderate (MAXOPBLOCKS - 1) s a) (hs : step g s a = some t) : SlackInv t := by
  cases (step_moves hs).2 with
  | append p b at_ => exact slackInv_append hi hl h (w := ⟨_, b, _⟩) at_ rfl rfl rfl rfl rfl rfl
  | enter p at_ may => exact slackInv_enter hi h at_ may
  | write p b v at_ => exact slackInv_write h at_ hok
  | commit p at_ => exact slackInv_commit hi h at_
  | clearN p at_ =>
    exact h.move (Nat.zero_le _) rfl rfl rfl rfl (by rw [at_]; exact id) fun b hb => by cases hb
  | acquire p k at_ =>
    refine h.move le_rfl rfl rfl rfl rfl ?_ ?_
    · rw [(Pc.acquires_spec at_).2.2.1]
      exact id
    · rw [Pc.acquires_pending at_]
      exact fun _ => id
  | acquirePtable p k at_ =>
    refine h.move le_rfl rfl rfl rfl rfl ?_ ?_
    · rw [(Pc.acquiresPtable_spec at_).2.2.1]
      exact id
    · rw [Pc.acquiresPtable_pending at_]
      exact fun _ => id
  | release p k at_ =>
    refine h.move le_rfl rfl rfl rfl rfl ?_ ?_
    · rw [(Pc.releases_spec at_).2.2.2.1]
      exact id
    · rw [Pc.releases_pending at_]
      exact fun _ => id
  | releasePtable p k at_ =>
    refine h.move le_rfl rfl rfl rfl rfl ?_ ?_
    · rw [(Pc.releasesPtable_spec at_).2.2.2.1]
      exact id
    · rw [Pc.releasesPtable_pending at_]
      exact fun _ => id
  | wake p k at_ =>
    obtain ⟨_, _, _, hk, _, _, _, _, hne⟩ := Pc.wakes_spec at_
    refine h.same le_rfl rfl rfl rfl (fun q hq => ?_) fun q b hq => ?_
    · exact (at_wake Pc.inTrans rfl hne hk q).symm.trans hq
    · exact (at_wake Pc.pending rfl hne (Pc.wakes_pending at_) q).symm.trans hq
  | tooBig | outsideTrans | overrun | logCommitting =>
    exact h.same le_rfl rfl rfl rfl (fun _ => id) fun _ _ => id
  | check p b at_ =>
    exact h.move le_rfl rfl rfl rfl rfl (by rw [at_]; exact id) (by rw [at_]; exact fun _ => id)
  | begin p at_ | finish p at_ | kill p at_ | wait p at_ | logRelease p b at_ | skip p at_
  | writeLog p tail at_ | logged p tail at_ | writeHead p at_ | install p tail at_
  | installed p tail at_ | eraseHead p at_ | doneClear p at_ =>
    exact h.move le_rfl rfl rfl rfl rfl (by rw [at_]; exact id) fun b hb => by cases hb
  | last p at_ | notLast p at_ =>
    exact h.move le_rfl rfl rfl rfl rfl (by rw [at_]; exact fun _ => rfl) fun b hb => by cases hb

theorem slack_suffices {acts : List (Act P)} (hsize : g.size = LOGSIZE)
    (h : Run (Moderate (MAXOPBLOCKS - 1)) (step g) (init P d) acts s) :
    s.stop ≠ some .tooBig ∧ s.lh.length < g.size - 1 := by
  have short : ∀ s : State P, SlackInv s → s.lh.length + 2 ≤ LOGSIZE := fun s hs => by
    have hfit := hs.fits ∅ fun q hq => absurd hq (Finset.notMem_empty q)
    rwa [Finset.sum_empty] at hfit
  have hinv : (Inv s ∧ LhInv s) ∧ SlackInv s ∧ s.stop ≠ some .tooBig := by
    refine h.invariant
      (I := fun s => (Inv s ∧ LhInv s) ∧ SlackInv s ∧ s.stop ≠ some .tooBig) ?_
      ⟨⟨inv_init d, lhInv_init d⟩, slackInv_init d, by simp [init]⟩
    rintro s a t ⟨⟨hi, hl⟩, hsl, _⟩ hok hs
    refine ⟨⟨inv_step hi hs, lhInv_step hi hl hs⟩, slackInv_step hi hl hsl hok hs, fun ht => ?_⟩
    obtain ⟨p, b, _, _, full⟩ := tooBig_of_step hs ht
    have := short s hsl
    rw [hsize] at full
    omega
  have := short s hinv.2.1
  exact ⟨hinv.2.2, by omega⟩

end Steps

theorem Moderate.mono {m n : Nat} (hmn : m ≤ n) {s : State P} {a : Act P} (h : Moderate m s a) :
    Moderate n s a := by
  cases a with
  | write p b v => exact fun hb => (h hb).trans_le hmn
  | begin | finish | run | kill => trivial

/-- The reservation of `begin_op` is enough if and only if operations leave a block of it: then
no check of `log_write` fails, and `write_log` has a slot for every block. -/
theorem reservation_suffices (n : Nat) :
    (∀ (P : Type) [DecidableEq P] (g : Geometry) (d : Nat → Block) (acts : List (Act P))
      (s : State P), g.size = LOGSIZE → Run (Moderate n) (step g) (init P d) acts s →
      s.stop ≠ some .tooBig ∧ s.lh.length < g.size - 1) ↔ n ≤ MAXOPBLOCKS - 1 := by
  constructor
  · intro hall
    by_contra hn
    obtain ⟨s, hrun, hstop⟩ := tenth_block_stops
    have hmono := hrun.mono fun _ _ => Moderate.mono (n := n) (by omega)
    exact (hall _ _ _ _ _ rfl hmono).1 hstop
  · intro hn P _ g d acts s hsize hrun
    exact slack_suffices hsize (hrun.mono fun _ _ => Moderate.mono hn)

end BossOs.Log
