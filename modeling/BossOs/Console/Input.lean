import BossOs.Console.Model
import BossOs.Sync.Points

/-!
# The input ring

Between the read index and the write index lies what has been committed and not read, between the
write index and the edit index the line that is being typed.
-/

namespace BossOs.Console

open Lib Sync

theorem input_dvd : INPUT_BUF ∣ 2 ^ 32 := by decide

namespace Input

def ready (i : Input) : List UInt8 := Ring.window i.buf i.r (Ring.dist i.r i.w)

def line (i : Input) : List UInt8 := Ring.window i.buf i.w (Ring.dist i.w i.e)

structure Wf (i : Input) : Prop where
  order : Ring.dist i.r i.w ≤ Ring.dist i.r i.e
  bound : Ring.dist i.r i.e ≤ INPUT_BUF
  line : ∀ b ∈ i.line, b ≠ newline ∧ b ≠ ctrl 'D'
  full : Ring.dist i.r i.e = INPUT_BUF → i.w = i.e

/-- What is left of the input after some of the line has been erased. -/
structure Erased (i j : Input) : Prop where
  buf : j.buf = i.buf
  r : j.r = i.r
  w : j.w = i.w
  e : Ring.dist i.w j.e ≤ Ring.dist i.w i.e

theorem Erased.refl (i : Input) : Erased i i := ⟨rfl, rfl, rfl, Nat.le_refl _⟩

theorem Erased.ready {i j : Input} (h : Erased i j) : j.ready = i.ready := by
  unfold Input.ready
  rw [h.buf, h.r, h.w]

theorem Erased.wf {i j : Input} (h : Erased i j) (hi : i.Wf) : j.Wf := by
  have hsum := Ring.dist_trans hi.order
  have hle := h.e
  have hbound := hi.bound
  -- the edit index is still between the write index and where it was
  have hmid : Ring.dist i.w j.e + Ring.dist j.e i.e = Ring.dist i.w i.e := Ring.dist_trans hle
  have hdist : Ring.dist i.r j.e = Ring.dist i.r i.w + Ring.dist i.w j.e := by
    have hje : j.e = i.r + UInt32.ofNat (Ring.dist i.r i.w + Ring.dist i.w j.e) := by
      rw [UInt32.ofNat_add, ← UInt32.add_assoc, Ring.add_dist, Ring.add_dist]
    refine (Ring.dist_eq ?_).mpr hje
    unfold INPUT_BUF at hbound
    omega
  refine ⟨?_, ?_, ?_, ?_⟩
  · rw [h.r, h.w, hdist]
    omega
  · rw [h.r, hdist]
    omega
  · intro b hb
    apply hi.line b
    unfold Input.line at hb ⊢
    rw [h.buf, h.w] at hb
    rw [Ring.window_split hle]
    exact List.mem_append_left _ hb
  · intro hfull
    rw [h.r, hdist] at hfull
    have he := hi.full (by omega)
    rw [he, Ring.dist_self] at hle
    rw [h.w]
    rw [he] at *
    exact Ring.dist_eq_zero.mp (Nat.le_zero.mp hle)

theorem eraseLine_le (i : Input) (n : Nat) : ∀ e, Ring.dist i.w (i.eraseLine n e) ≤ Ring.dist i.w e := by
  induction n with
  | zero => exact fun _ => Nat.le_refl _
  | succ n ih =>
    intro e
    unfold eraseLine
    split
    · rename_i h
      have hpred := Ring.dist_sub_one (Ne.symm h.1)
      have hle := ih (e - 1)
      omega
    · exact Nat.le_refl _

def erases (c : UInt8) : Prop := c = ctrl 'U' ∨ c = ctrl 'H' ∨ c = delete

theorem receive_erases (i : Input) {c : UInt8} (h : erases c) : Erased i (i.receive c).1 := by
  have hP : c ≠ ctrl 'P' := by
    rcases h with rfl | rfl | rfl <;> decide
  unfold receive
  rw [if_neg hP]
  by_cases hU : c = ctrl 'U'
  · rw [if_pos hU]
    exact ⟨rfl, rfl, rfl, eraseLine_le i _ _⟩
  · rw [if_neg hU, if_pos (h.resolve_left hU)]
    simp only
    split
    · rename_i he
      have hpred := Ring.dist_sub_one (Ne.symm he)
      refine ⟨rfl, rfl, rfl, ?_⟩
      simp only
      omega
    · exact .refl i

def store (i : Input) (c : UInt8) : Input :=
  { i with buf := Function.update i.buf (Ring.cell INPUT_BUF i.e) c, e := i.e + 1 }

section Store

variable {i : Input} (hi : i.Wf) (hroom : Ring.dist i.r i.e < INPUT_BUF) (c : UInt8)
include hi hroom

omit hi in
theorem dist_store : Ring.dist i.r (i.e + 1) = Ring.dist i.r i.e + 1 := by
  apply Ring.dist_succ
  unfold INPUT_BUF at hroom
  omega

theorem ready_store : (i.store c).ready = i.ready := by
  have hcell : Ring.window (Function.update i.buf _ c) i.r _ = _ :=
    Ring.window_update input_dvd hi.order hroom c
  rw [Ring.add_dist] at hcell
  exact hcell

theorem line_store : Ring.dist i.w (i.e + 1) = Ring.dist i.w i.e + 1 ∧
    (i.store c).line = i.line ++ [c] := by
  have hsum := Ring.dist_trans hi.order
  have hsucc : Ring.dist i.w (i.e + 1) = Ring.dist i.w i.e + 1 := by
    apply Ring.dist_succ
    unfold INPUT_BUF at hroom
    omega
  refine ⟨hsucc, ?_⟩
  have hpush : Ring.window (Function.update i.buf (Ring.cell INPUT_BUF i.e) c) i.w _ = _ :=
    Ring.window_push input_dvd (by omega) c
  rw [← hsucc] at hpush
  exact hpush

theorem commit_store : ({ i.store c with w := i.e + 1 } : Input).ready = i.ready ++ i.line ++ [c] := by
  have hline := (line_store hi hroom c).2
  have hle : Ring.dist i.r i.w ≤ Ring.dist i.r (i.e + 1) := by
    rw [dist_store hroom]
    have horder := hi.order
    omega
  have hsplit : Ring.window (i.store c).buf i.r _ = _ := Ring.window_split hle
  rw [← ready_store hi hroom c, List.append_assoc, ← hline]
  exact hsplit

omit hi in
theorem wf_commit : ({ i.store c with w := i.e + 1 } : Input).Wf := by
  have hd := dist_store hroom
  refine ⟨Nat.le_refl _, ?_, ?_, fun _ => rfl⟩
  · change Ring.dist i.r (i.e + 1) ≤ INPUT_BUF
    omega
  · intro b hb
    unfold Input.line at hb
    change b ∈ Ring.window (i.store c).buf (i.e + 1) (Ring.dist (i.e + 1) (i.e + 1)) at hb
    rw [Ring.dist_self] at hb
    exact absurd hb List.not_mem_nil

theorem wf_store (hc : c ≠ newline ∧ c ≠ ctrl 'D')
    (hfull : i.e + 1 ≠ i.r + UInt32.ofNat INPUT_BUF) : (i.store c).Wf := by
  have hd := dist_store hroom
  have horder := hi.order
  refine ⟨?_, ?_, ?_, ?_⟩
  · change Ring.dist i.r i.w ≤ Ring.dist i.r (i.e + 1)
    omega
  · change Ring.dist i.r (i.e + 1) ≤ INPUT_BUF
    omega
  · intro b hb
    rw [(line_store hi hroom c).2] at hb
    rcases List.mem_append.mp hb with hb | hb
    · exact hi.line b hb
    · rw [List.mem_singleton] at hb
      subst hb
      exact hc
  · intro hdist
    exact absurd ((Ring.dist_eq (by decide)).mp hdist) hfull

end Store

theorem lt_iff_dist (i : Input) :
    i.e - i.r < UInt32.ofNat INPUT_BUF ↔ Ring.dist i.r i.e < INPUT_BUF := by
  rw [UInt32.lt_iff_toNat_lt]
  rfl

theorem receive_cases (i : Input) (c : UInt8) : Erased i (i.receive c).1 ∨
    ∃ c', Ring.dist i.r i.e < INPUT_BUF ∧
      ((i.receive c).1 = i.store c' ∧ (c' ≠ newline ∧ c' ≠ ctrl 'D') ∧
          i.e + 1 ≠ i.r + UInt32.ofNat INPUT_BUF ∨
        (i.receive c).1 = { i.store c' with w := i.e + 1 }) := by
  by_cases her : erases c
  · exact Or.inl (receive_erases i her)
  · obtain ⟨hU, hH⟩ : c ≠ ctrl 'U' ∧ ¬ (c = ctrl 'H' ∨ c = delete) := not_or.mp her
    unfold receive
    by_cases hP : c = ctrl 'P'
    · rw [if_pos hP]
      exact Or.inl (.refl i)
    · rw [if_neg hP, if_neg hU, if_neg hH]
      by_cases hroom : c ≠ 0 ∧ i.e - i.r < UInt32.ofNat INPUT_BUF
      · rw [if_pos hroom]
        refine Or.inr ⟨if c = carriageReturn then newline else c, (lt_iff_dist i).mp hroom.2, ?_⟩
        generalize (if c = carriageReturn then newline else c) = c'
        simp only
        split
        · exact Or.inr rfl
        · rename_i hcommit
          rw [not_or, not_or] at hcommit
          exact Or.inl ⟨rfl, ⟨hcommit.1, hcommit.2.1⟩, hcommit.2.2⟩
      · rw [if_neg hroom]
        exact Or.inl (.refl i)

end Input

structure InputInv (d : Data) : Prop where
  wf : d.input.Wf
  /-- Readers have taken the committed bytes in order; a Ctrl-D is taken and not copied. -/
  history : ∃ taken, d.committed = taken ++ d.input.ready ∧
    d.copied = taken.filter fun b => b ≠ ctrl 'D'

theorem receive_spec {d : Data} (h : d.input.Wf) (c : UInt8) :
    (d.receive c).1.input.Wf ∧ (d.receive c).1.copied = d.copied ∧
      ∃ new, (d.receive c).1.committed = d.committed ++ new ∧
        (d.receive c).1.input.ready = d.input.ready ++ new := by
  have hcommitted : (d.receive c).1.committed = d.committed ++
      Ring.window (d.input.receive c).1.buf d.input.w
        (Ring.dist d.input.w (d.input.receive c).1.w) := rfl
  have hinput : (d.receive c).1.input = (d.input.receive c).1 := rfl
  rcases Input.receive_cases d.input c with her | ⟨c', hroom, ⟨hst, hc, hfull⟩ | hst⟩
  · refine ⟨her.wf h, rfl, [], ?_, ?_⟩
    · rw [hcommitted, her.w, Ring.dist_self]
      rfl
    · rw [hinput, her.ready, List.append_nil]
  · refine ⟨?_, rfl, [], ?_, ?_⟩
    · rw [hinput, hst]
      exact Input.wf_store h hroom c' hc hfull
    · have hw : (d.input.receive c).1.w = d.input.w := by
        rw [hst]
        rfl
      rw [hcommitted, hw, Ring.dist_self]
      rfl
    · rw [hinput, hst, Input.ready_store h hroom c', List.append_nil]
  · refine ⟨?_, rfl, d.input.line ++ [c'], ?_, ?_⟩
    · rw [hinput, hst]
      exact Input.wf_commit hroom c'
    · have hline := (Input.line_store h hroom c').2
      have hnew : Ring.window (d.input.receive c).1.buf d.input.w
          (Ring.dist d.input.w (d.input.receive c).1.w) = d.input.line ++ [c'] := by
        rw [hst, ← hline]
        rfl
      rw [hcommitted, hnew]
    · rw [hinput, hst, Input.commit_store h hroom c', List.append_assoc]

theorem InputInv.receive {d : Data} (h : InputInv d) (c : UInt8) : InputInv (d.receive c).1 := by
  obtain ⟨taken, hcom, hcop⟩ := h.history
  obtain ⟨hwf, hcopied, new, hnew, hready⟩ := receive_spec h.wf c
  refine ⟨hwf, taken, ?_, ?_⟩
  · rw [hnew, hready, hcom, List.append_assoc]
  · rw [hcopied, hcop]

theorem Input.Wf.take {i : Input} (h : i.Wf) (hne : i.r ≠ i.w) :
    ({ i with r := i.r + 1 } : Input).Wf ∧
      i.ready = i.next :: ({ i with r := i.r + 1 } : Input).ready := by
  have hw := Ring.dist_pred hne
  have horder := h.order
  have hbound := h.bound
  have hre : i.r ≠ i.e := by
    intro he
    rw [← he, Ring.dist_self] at horder
    exact hne (Ring.dist_eq_zero.mp (Nat.le_zero.mp horder))
  have he := Ring.dist_pred hre
  refine ⟨⟨?_, ?_, h.line, ?_⟩, Ring.window_pop hne⟩
  · change Ring.dist (i.r + 1) i.w ≤ Ring.dist (i.r + 1) i.e
    omega
  · change Ring.dist (i.r + 1) i.e ≤ INPUT_BUF
    omega
  · intro hfull
    change Ring.dist (i.r + 1) i.e = INPUT_BUF at hfull
    omega

theorem InputInv.copy {d : Data} (h : InputInv d) (hne : d.input.r ≠ d.input.w) (n target : Int)
    (dst : List UInt8) : InputInv (Console.copy n target dst d).2 := by
  obtain ⟨taken, hcom, hcop⟩ := h.history
  obtain ⟨hwf, hready⟩ := h.wf.take hne
  have htaken : d.committed = taken ++ [d.input.next] ++
      ({ d.input with r := d.input.r + 1 } : Input).ready := by
    rw [hcom, hready, List.append_assoc]
    rfl
  unfold Console.copy
  simp only
  by_cases hD : d.input.next = ctrl 'D'
  · rw [if_pos hD]
    split
    · exact h
    · refine ⟨hwf, _, htaken, ?_⟩
      rw [List.filter_append, ← hcop]
      simp [hD]
  · have hinv : InputInv { d with input.r := d.input.r + 1, copied := d.copied ++ [d.input.next] } := by
      refine ⟨hwf, _, htaken, ?_⟩
      rw [List.filter_append, ← hcop]
      simp [hD]
    rw [if_neg hD]
    split
    · exact hinv
    · exact hinv

variable {P : Type} [DecidableEq P]

omit [DecidableEq P] in
theorem inputInv_leads {p : P} {b : Bool} {k k' : Pc} {d d' : Data} (h : InputInv d)
    (hl : Leads (service : Service P Unit Unit Data Pc).code p b k d k' d') : InputInv d' := by
  cases hl with
  | update f at_ =>
    cases k with
    | readLoop n target dst =>
      cases at_
      simp only
      split
      · split
        · exact h
        · exact h.copy ‹_› n target dst
      · exact h
    | intrLoop cs =>
      cases cs with
      | nil =>
        cases at_
        exact h
      | cons c cs =>
        cases at_
        exact h.receive c
    | _ => cases at_
  | _ => exact h

section
variable {buf : Fin INPUT_BUF → UInt8} {x : UInt32} {acts : List (Act P Pc)}
  {s : State P Unit Unit Data Pc}

def initial (buf : Fin INPUT_BUF → UInt8) (x : UInt32) : Data := ⟨⟨buf, x, x, x⟩, [], []⟩

theorem inputInv_initial : InputInv (initial buf x) := by
  have hwf : (initial buf x).input.Wf := by
    refine ⟨Nat.le_refl _, ?_, ?_, fun _ => rfl⟩
    · exact (Ring.dist_self x).trans_le (Nat.zero_le _)
    · intro c hc
      unfold Input.line at hc
      change c ∈ Ring.window buf x (Ring.dist x x) at hc
      rw [Ring.dist_self] at hc
      exact absurd hc List.not_mem_nil
  refine ⟨hwf, [], ?_, rfl⟩
  change [] = Ring.window buf x (Ring.dist x x)
  rw [Ring.dist_self]
  rfl

theorem inputInv_run
    (h : Run (fun _ _ => True) (step service.code) (start (fun _ => .idle) (initial buf x)) acts s) :
    InputInv s.data := by
  refine Run.invariant (I := fun s => InputInv s.data) ?_ h inputInv_initial
  intro s a t hi _ hs
  rcases points_step hs with ⟨-, hd⟩ | ⟨p, k, k', d', -, hl, -, hd⟩
  · rw [hd]
    exact hi
  · rw [hd]
    exact inputInv_leads hi hl

theorem console_ring
    (h : Run (fun _ _ => True) (step service.code) (start (fun _ => .idle) (initial buf x)) acts s) :
    (s.data.input.w - s.data.input.r).toNat ≤ (s.data.input.e - s.data.input.r).toNat ∧
    (s.data.input.e - s.data.input.r).toNat ≤ INPUT_BUF ∧
    (∀ b ∈ s.data.input.line, b ≠ newline ∧ b ≠ ctrl 'D') ∧
    (∀ c, Input.erases c → Input.Erased s.data.input (s.data.input.receive c).1) ∧
    (∃ taken, s.data.committed = taken ++ s.data.input.ready ∧
      s.data.copied = taken.filter fun b => b ≠ ctrl 'D') ∧
    ((s.data.input.e - s.data.input.r).toNat = INPUT_BUF →
      s.data.input.w = s.data.input.e ∧ s.data.input.r ≠ s.data.input.w) := by
  have hi := inputInv_run h
  refine ⟨hi.wf.order, hi.wf.bound, hi.wf.line, fun c hc => Input.receive_erases _ hc, hi.history, ?_⟩
  intro hfull
  have hw := hi.wf.full hfull
  refine ⟨hw, fun hr => ?_⟩
  rw [hw] at hr
  rw [← hr, UInt32.sub_self] at hfull
  cases hfull

end

/-- `a`, `b`, backspace and newline arrive, and `true` reads the line; the indices start at the
last value before they wrap around. -/
def oneLine : List (Act Bool Pc) :=
  Act.calls false (.intrAcquire [97, 98, 8, 10]) 11 ++ Act.calls true (.readAcquire 5) 4

theorem console_ring_one_line : ∃ s : State Bool Unit Unit Data Pc,
    Run (fun _ _ => True) (step service.code)
      (start (fun _ => .idle) (initial (fun _ => 0) 0xFFFFFFFF)) oneLine s ∧
    s.data.copied = [97, 10] ∧ s.data.input.e = 1 ∧
    (s.data.input.e - s.data.input.r).toNat ≤ INPUT_BUF ∧
    ∃ taken, s.data.committed = taken ++ s.data.input.ready ∧
      s.data.copied = taken.filter fun b => b ≠ ctrl 'D' := by
  obtain ⟨s, hs, hf⟩ : ∃ s : State Bool Unit Unit Data Pc,
      Run (fun _ _ => True) (step service.code)
        (start (fun _ => .idle) (initial (fun _ => 0) 0xFFFFFFFF)) oneLine s ∧
      (s.data.copied, s.data.input.e) = ([97, 10], 1) := Run.of_exec_map (by decide +kernel)
  simp only [Prod.mk.injEq] at hf
  obtain ⟨-, hbound, -, -, hhistory, -⟩ := console_ring hs
  exact ⟨s, hs, hf.1, hf.2, hbound, hhistory⟩

end BossOs.Console
