import BossOs.Console.Input
import BossOs.Lib.Lines
import Mathlib.Data.Fintype.Basic

/-!
# Reading the console

Calls of `consoleread` one after the other, while characters arrive at any time. Each call
takes some of the committed bytes: those it returns, or the Ctrl-D for which it returns
nothing.
-/

namespace BossOs.Console

open Lib Sync
open Function (update update_self update_of_ne)

def Pc.reading : Pc → Bool
  | .readAcquire _ | .readLoop _ _ _ | .readKilled _ _ _ | .readSleep _ _ _ | .readRelease _ _ => true
  | _ => false

abbrev Result := Int × List UInt8

section
variable {P : Type}

def returned (s : State P Unit Unit Data Pc) : Act P Pc → Option Result
  | .run p =>
    match s.thread p with
    | .run (.readRelease ret dst) => some (ret, dst)
    | _ => none
  | _ => none

def requested : Act P Pc → Option Int
  | .call _ (.readAcquire n) => some n
  | _ => none

/-- No process has been killed, and `consoleread` is called for at least one byte, after the
call before has returned. -/
def Sequential (s : State P Unit Unit Data Pc) (a : Act P Pc) : Prop :=
  (∀ p, s.killed p = false) ∧
    ∀ n ∈ requested a, 0 < n ∧ ∀ q, (s.points q).reading = false

instance [Fintype P] (s : State P Unit Unit Data Pc) (a : Act P Pc) : Decidable (Sequential s a) :=
  inferInstanceAs (Decidable (_ ∧ _))

end

/-- The bytes are all there and no Ctrl-D is among them; a newline is the last one. -/
structure Delivered (r : Result) : Prop where
  length : r.1 = r.2.length
  eof : ctrl 'D' ∉ r.2
  line : ∀ l l', r.2 = l ++ newline :: l' → l' = []

def taken (r : Result) : List UInt8 := if r.2 = [] then [ctrl 'D'] else r.2

/-- The call in `consoleread` has copied `dst`, `n` of `target` bytes are left. -/
structure Copying (n target : Int) (dst : List UInt8) : Prop where
  left : 0 ≤ n
  positive : 0 < target
  length : n + dst.length = target
  eof : ctrl 'D' ∉ dst
  line : newline ∉ dst

def Progress (pending : List UInt8) : Pc → Prop
  | .readAcquire n => 0 < n ∧ pending = []
  | .readLoop n target dst | .readKilled n target dst | .readSleep n target dst =>
    Copying n target dst ∧ pending = dst
  | .readRelease ret dst => Delivered (ret, dst) ∧ pending = taken (ret, dst)
  | _ => True

variable {target : Int} {dst : List UInt8}

theorem Copying.delivered {n : Int} (h : Copying n target dst) : Delivered (target - n, dst) := by
  have hlen := h.length
  refine ⟨?_, h.eof, fun l l' heq => ?_⟩
  · simp only
    omega
  · exfalso
    apply h.line
    rw [show dst = l ++ newline :: l' from heq]
    exact List.mem_append_right l List.mem_cons_self

theorem Copying.snoc_newline {n : Int} (h : Copying n target dst) :
    Delivered (target - (n - 1), dst ++ [newline]) := by
  have hlen := h.length
  refine ⟨?_, ?_, fun l l' heq => ?_⟩
  · simp only [List.length_append, List.length_singleton]
    omega
  · intro hmem
    rcases List.mem_append.mp hmem with hmem | hmem
    · exact h.eof hmem
    · exact absurd (List.mem_singleton.mp hmem) (by decide)
  · -- a newline before the last byte would lie in dst
    rcases List.eq_nil_or_concat l' with rfl | ⟨l', b, rfl⟩
    · rfl
    · exfalso
      apply h.line
      rw [List.concat_eq_append, ← List.cons_append, ← List.append_assoc] at heq
      have hdst := (List.append_inj' heq rfl).1
      rw [show dst = l ++ newline :: l' from hdst]
      exact List.mem_append_right l List.mem_cons_self

theorem taken_of_ne {r : Result} (h : r.2 ≠ []) : taken r = r.2 := if_neg h

theorem copy_spec {n : Int} {d : Data} (h : Copying n target dst)
    (hn : 0 < n) (hwf : d.input.Wf) (hne : d.input.r ≠ d.input.w) :
    (copy n target dst d).2.input.Wf ∧ (copy n target dst d).2.committed = d.committed ∧
      (copy n target dst d).1.reading = true ∧ ∃ pending, Progress pending (copy n target dst d).1 ∧
        dst ++ d.input.ready = pending ++ (copy n target dst d).2.input.ready := by
  obtain ⟨hwf', hready⟩ := hwf.take hne
  have hlen := h.length
  unfold copy
  simp only
  by_cases hD : d.input.next = ctrl 'D'
  · rw [if_pos hD]
    by_cases hfirst : n < target
    · -- the Ctrl-D is left for the next call
      rw [if_pos hfirst]
      refine ⟨hwf, rfl, rfl, dst, ⟨h.delivered, ?_⟩, rfl⟩
      rw [taken_of_ne]
      rintro hnil
      simp only at hnil
      rw [hnil, List.length_nil] at hlen
      omega
    · rw [if_neg hfirst]
      have hnil : dst = [] := List.length_eq_zero_iff.mp (by omega)
      subst hnil
      refine ⟨hwf', rfl, rfl, [ctrl 'D'], ⟨h.delivered, rfl⟩, ?_⟩
      rw [List.nil_append, hready, hD]
      rfl
  · rw [if_neg hD]
    have hsplit : dst ++ d.input.ready = dst ++ [d.input.next] ++
        ({ d.input with r := d.input.r + 1 } : Input).ready := by
      rw [hready, List.append_assoc]
      rfl
    by_cases hline : d.input.next = newline
    · rw [if_pos hline]
      refine ⟨hwf', rfl, rfl, dst ++ [newline], ⟨?_, ?_⟩, ?_⟩
      · rw [hline]
        exact h.snoc_newline
      · rw [hline, taken_of_ne]
        exact List.append_ne_nil_of_right_ne_nil dst (List.cons_ne_nil _ _)
      · rw [← hline]
        exact hsplit
    · rw [if_neg hline]
      refine ⟨hwf', rfl, rfl, dst ++ [d.input.next], ⟨⟨?_, h.positive, ?_, ?_, ?_⟩, rfl⟩, hsplit⟩
      · omega
      · rw [List.length_append, List.length_singleton]
        omega
      · intro hmem
        rcases List.mem_append.mp hmem with hmem | hmem
        · exact h.eof hmem
        · exact hD (List.mem_singleton.mp hmem).symm
      · intro hmem
        rcases List.mem_append.mp hmem with hmem | hmem
        · exact h.line hmem
        · exact hline (List.mem_singleton.mp hmem).symm

variable {P : Type} {s t : State P Unit Unit Data Pc} {results : List Result}

/-- The calls that have returned and the one that goes on have taken what is not ready. -/
structure ReadInv (s : State P Unit Unit Data Pc) (results : List Result) : Prop where
  wf : s.data.input.Wf
  one : ∀ p q, (s.points p).reading = true → (s.points q).reading = true → p = q
  delivered : ∀ r ∈ results, Delivered r
  progress : ∃ pending, s.data.committed = results.flatMap taken ++ pending ++ s.data.input.ready ∧
    (∀ p, (s.points p).reading = true → Progress pending (s.points p)) ∧
    ((∀ p, (s.points p).reading = false) → pending = [])

variable [DecidableEq P]

variable {p : P} {k' : Pc}

section
variable (h : ReadInv s results)
include h

theorem ReadInv.other
    (hpt : t.points = update s.points p k') (hold : (s.points p).reading = false)
    (hnew : k'.reading = false) (hwf : t.data.input.Wf)
    (hdata : ∃ new, t.data.committed = s.data.committed ++ new ∧
      t.data.input.ready = s.data.input.ready ++ new) : ReadInv t results := by
  have hreading : ∀ q, (t.points q).reading = true → q ≠ p ∧ t.points q = s.points q := by
    intro q hq
    rw [hpt] at hq ⊢
    by_cases hqp : q = p
    · subst hqp
      rw [update_self, hnew] at hq
      cases hq
    · exact ⟨hqp, update_of_ne hqp _ _⟩
  obtain ⟨pending, hcom, hprog, hnone⟩ := h.progress
  obtain ⟨new, hcom', hready'⟩ := hdata
  refine ⟨hwf, fun q q' hq hq' => ?_, h.delivered, pending, ?_, fun q hq => ?_, fun hall => ?_⟩
  · have hs := (hreading q hq).2
    have hs' := (hreading q' hq').2
    rw [hs] at hq
    rw [hs'] at hq'
    exact h.one q q' hq hq'
  · rw [hcom', hready', hcom, List.append_assoc _ _ new]
  · have hs := (hreading q hq).2
    rw [hs] at hq ⊢
    exact hprog q hq
  · apply hnone
    intro q
    by_cases hqp : q = p
    · rw [hqp]
      exact hold
    · have hq := hall q
      rw [hpt, update_of_ne hqp] at hq
      exact hq

theorem ReadInv.reader (hpt : t.points = update s.points p k')
    (honly : ∀ q, (s.points q).reading = true → q = p) (hnew : k'.reading = true)
    (hwf : t.data.input.Wf)
    (hdata : ∃ pending, t.data.committed = results.flatMap taken ++ pending ++ t.data.input.ready ∧
      Progress pending k') : ReadInv t results := by
  have hreading : ∀ q, (t.points q).reading = true → q = p := by
    intro q hq
    by_contra hqp
    rw [hpt, update_of_ne hqp] at hq
    exact hqp (honly q hq)
  have hat : t.points p = k' := by
    rw [hpt, update_self]
  obtain ⟨pending, hcom, hprog⟩ := hdata
  refine ⟨hwf, fun q q' hq hq' => ?_, h.delivered, pending, hcom, fun q hq => ?_, fun hall => ?_⟩
  · rw [hreading q hq, hreading q' hq']
  · rw [hreading q hq, hat]
    exact hprog
  · have hp := hall p
    rw [hat, hnew] at hp
    cases hp

theorem ReadInv.returns {ret : Int}
    (hp : s.points p = .readRelease ret dst) (hpt : t.points = update s.points p .idle)
    (hd : t.data = s.data) : ReadInv t (results ++ [(ret, dst)]) := by
  have hread : (s.points p).reading = true := by
    rw [hp]
    rfl
  obtain ⟨pending, hcom, hprog, -⟩ := h.progress
  obtain ⟨hdel, hpending⟩ : Delivered (ret, dst) ∧ pending = taken (ret, dst) := by
    have hp' := hprog p hread
    rw [hp] at hp'
    exact hp'
  have hall : ∀ q, (t.points q).reading = false := by
    intro q
    rw [hpt]
    by_cases hqp : q = p
    · rw [hqp, update_self]
      rfl
    · rw [update_of_ne hqp]
      exact eq_false_of_ne_true fun hq => hqp (h.one q p hq hread)
  refine ⟨hd ▸ h.wf, fun q q' hq => ?_, ?_, [], ?_, fun q hq => ?_, fun _ => rfl⟩
  · rw [hall q] at hq
    cases hq
  · intro r hr
    rcases List.mem_append.mp hr with hr | hr
    · exact h.delivered r hr
    · rw [List.mem_singleton.mp hr]
      exact hdel
  · rw [hd, hcom, hpending, List.flatMap_append, List.append_nil, List.flatMap_singleton]
  · rw [hall q] at hq
    cases hq

theorem ReadInv.outside {k : Pc} (hp : s.points p = k)
    (hold : k.reading = false) (hnew : k'.reading = false)
    (hpt : t.points = update s.points p k') (hd : t.data = s.data) : ReadInv t results := by
  refine h.other hpt (hp ▸ hold) hnew (hd ▸ h.wf) ⟨[], ?_, ?_⟩
  · rw [hd, List.append_nil]
  · rw [hd, List.append_nil]

theorem ReadInv.waits {k : Pc} (hp : s.points p = k)
    (hpt : t.points = update s.points p k') (hd : t.data = s.data)
    (hold : k.reading = true) (hnew : k'.reading = true)
    (hprog : ∀ pending, Progress pending k → Progress pending k') : ReadInv t results := by
  subst hp
  obtain ⟨pending, hcom, hall, -⟩ := h.progress
  refine h.reader hpt (fun q hq => h.one q p hq hold) hnew (hd ▸ h.wf) ⟨pending, ?_, ?_⟩
  · rw [hd]
    exact hcom
  · exact hprog pending (hall p hold)

theorem ReadInv.loop {n : Int} {r : Pc × Data} (hp : s.points p = .readLoop n target dst)
    (hr : r = if 0 < n then
      if s.data.input.r = s.data.input.w then (.readKilled n target dst, s.data)
      else copy n target dst s.data
    else (.readRelease (target - n) dst, s.data))
    (hpt : t.points = update s.points p r.1) (hd : t.data = r.2) : ReadInv t results := by
  have hread : (s.points p).reading = true := by
    rw [hp]
    rfl
  have honly : ∀ q, (s.points q).reading = true → q = p := fun q hq => h.one q p hq hread
  obtain ⟨pending, hcom, hall, -⟩ := h.progress
  obtain ⟨hcopying, rfl⟩ : Copying n target dst ∧ pending = dst := by
    have hprog := hall p hread
    rw [hp] at hprog
    exact hprog
  split at hr
  · rename_i hn
    split at hr
    · subst hr
      exact h.waits hp hpt hd rfl rfl fun _ hprog => hprog
    · rename_i hne
      obtain ⟨hwf, hcom', hreading, pending, hprog, hsplit⟩ := copy_spec hcopying hn h.wf hne
      rw [← hr] at hwf hcom' hreading hprog hsplit
      refine h.reader hpt honly hreading (hd ▸ hwf) ⟨pending, ?_, hprog⟩
      rw [hd, hcom', hcom, List.append_assoc, hsplit, List.append_assoc]
  · rename_i hn
    subst hr
    have hleft := hcopying.left
    have hlen := hcopying.length
    have hpos := hcopying.positive
    refine h.reader hpt honly rfl (hd ▸ h.wf) ⟨pending, ?_, hcopying.delivered, ?_⟩
    · rw [hd]
      exact hcom
    · rw [taken_of_ne]
      intro hnil
      change pending = [] at hnil
      rw [hnil, List.length_nil] at hlen
      omega

theorem readInv_leads {k : Pc} {d' : Data}
    (hp : s.points p = k) (hkill : s.killed p = false)
    (hcall : ∀ n, k = .idle → k' = .readAcquire n → 0 < n ∧ ∀ q, (s.points q).reading = false)
    (hret : ∀ ret dst, k ≠ .readRelease ret dst)
    (hl : Leads (service : Service P Unit Unit Data Pc).code p (s.killed p) k s.data k' d')
    (hpt : t.points = update s.points p k') (hd : t.data = d') : ReadInv t results := by
  cases hl with
  | call k' at_ entry =>
    cases k with
    | idle =>
      cases k' with
      | readAcquire n =>
        obtain ⟨hn, hnone⟩ := hcall n rfl rfl
        obtain ⟨pending, hcom, -, hpending⟩ := h.progress
        rw [hpending hnone] at hcom
        refine h.reader hpt (fun q hq => ?_) rfl (hd ▸ h.wf) ⟨[], ?_, hn, rfl⟩
        · rw [hnone q] at hq
          cases hq
        · rw [hd]
          exact hcom
      | intrAcquire cs => exact h.outside hp rfl rfl hpt hd
      | _ => cases entry
    | intrLoop cs => cases cs <;> cases at_
    | _ => cases at_
  | acquire lk k' at_ =>
    cases k with
    | readAcquire n =>
      cases at_
      refine h.waits hp hpt hd rfl rfl fun pending hprog => ?_
      exact ⟨⟨Int.le_of_lt hprog.1, hprog.1, by simp, List.not_mem_nil, List.not_mem_nil⟩, hprog.2⟩
    | intrAcquire cs =>
      cases at_
      exact h.outside hp rfl rfl hpt hd
    | intrLoop cs => cases cs <;> cases at_
    | _ => cases at_
  | release lk k' at_ =>
    cases k with
    | readRelease ret dst => exact absurd rfl (hret ret dst)
    | intrRelease =>
      cases at_
      exact h.outside hp rfl rfl hpt hd
    | intrLoop cs => cases cs <;> cases at_
    | _ => cases at_
  | sleep ch lk k' at_ =>
    cases k with
    | readSleep n target dst =>
      cases at_
      exact h.waits hp hpt hd rfl rfl fun _ hprog => hprog
    | intrLoop cs => cases cs <;> cases at_
    | _ => cases at_
  | wakeup ch k' at_ =>
    cases k with
    | intrWake cs =>
      cases at_
      exact h.outside hp rfl rfl hpt hd
    | intrLoop cs => cases cs <;> cases at_
    | _ => cases at_
  | wakeup1 ch k' at_ =>
    cases k with
    | intrLoop cs => cases cs <;> cases at_
    | _ => cases at_
  | kill q k' at_ =>
    cases k with
    | intrLoop cs => cases cs <;> cases at_
    | _ => cases at_
  | killed f at_ =>
    cases k with
    | readKilled n target dst =>
      cases at_
      rw [hkill] at hpt
      exact h.waits hp hpt hd rfl rfl fun _ hprog => hprog
    | intrLoop cs => cases cs <;> cases at_
    | _ => cases at_
  | update f at_ =>
    cases k with
    | readLoop n target dst =>
      cases at_
      exact h.loop hp rfl hpt hd
    | intrLoop cs =>
      cases cs with
      | nil =>
        cases at_
        exact h.outside hp rfl rfl hpt hd
      | cons c cs =>
        cases at_
        obtain ⟨hwf, -, new, hcom, hready⟩ := receive_spec h.wf c
        refine h.other hpt (hp ▸ rfl) ?_ (hd ▸ hwf) ⟨new, ?_, ?_⟩
        · simp only
          split <;> rfl
        · rw [hd]
          exact hcom
        · rw [hd]
          exact hready
    | _ => cases at_

end

omit [DecidableEq P] in
theorem returned_some {a : Act P Pc} {r : Result} (h : returned s a = some r) :
    ∃ p, a = .run p ∧ s.thread p = .run (.readRelease r.1 r.2) := by
  cases a with
  | run p =>
    refine ⟨p, rfl, ?_⟩
    unfold returned at h
    simp only at h
    split at h
    · cases h
      assumption
    · cases h
  | _ => cases h

omit [DecidableEq P] in
theorem returned_run {ret : Int}
    (hp : s.thread p = .run (.readRelease ret dst)) : returned s (.run p) = some (ret, dst) := by
  rw [returned, hp]

theorem readInv_step {a : Act P Pc} (h : ReadInv s results) (hok : Sequential s a)
    (hs : step service.code s a = some t) : ReadInv t (results ++ (returned s a).toList) := by
  cases hret : returned s a with
  | some r =>
    obtain ⟨p, rfl, hp⟩ := returned_some hret
    have hpoint : s.points p = .readRelease r.1 r.2 := by
      rw [State.points, hp]
      rfl
    rw [step_run hp] at hs
    cases hs
    exact h.returns hpoint (points_update _) rfl
  | none =>
    rw [Option.toList_none, List.append_nil]
    rcases points_act hs with ⟨hpt, hd⟩ | ⟨p, k, k', d', hp, hl, hpt, hd, hact⟩
    · refine ⟨hd ▸ h.wf, ?_, h.delivered, ?_⟩
      · rw [hpt]
        exact h.one
      · rw [hpt, hd]
        exact h.progress
    · have hpoint : s.points p = k := by
        rw [State.points, hp]
        rfl
      refine readInv_leads h hpoint (hok.1 p) (fun n hk hk' => ?_) (fun ret dst hk => ?_) hl hpt hd
      · subst hk hk'
        rcases hact with rfl | ⟨rfl, -⟩
        · rw [step_run hp] at hs
          cases hs
        · exact hok.2 n rfl
      · subst hk
        rcases hact with rfl | ⟨-, hidle⟩
        · rw [returned_run hp] at hret
          cases hret
        · cases hidle

end BossOs.Console
