import BossOs.Pipe.Fifo

/-!
# Wakeups on pipes

A reader sleeps while the pipe is empty and its write end open, a writer while it is full
and its read end open; whoever ends that owes a wakeup before it releases the lock. Every
function pays but one: a `pipewrite` that fills the pipe and then finds itself killed, or
the read end closed, returns without waking up the readers.
-/

namespace BossOs.Pipe

open Lib Sync
open Proc (ProcState)

variable {P : Type}

def waits : Ch → Pipe → Prop
  | .nread, p => p.empty = true ∧ p.writeopen = true
  | .nwrite, p => p.full = true ∧ p.readopen = true

def owes : Ch → Pc P → Bool
  | .nread, .writeTest _ _ fresh | .nread, .writeKilled _ _ fresh | .nread, .writeFail _ _ fresh
  | .nread, .writeFull _ _ fresh => fresh
  | .nread, .writeWake _ => true
  | .nread, .closeWake writable => writable
  | .nwrite, .readCopy _ buf => !buf.isEmpty
  | .nwrite, .readWake _ _ => true
  | .nwrite, .closeWake writable => !writable
  | _, _ => false

/-- `pipewrite` gives up only with nothing stored since it last woke up the readers. -/
def Pc.clean : Pc P → Bool
  | .writeFail _ _ fresh => !fresh
  | _ => true

def guard : Guard Unit Ch (Data P) (Pc P) where
  lk := ()
  knows k d := knows k d ∧ k.clean = true
  waits ch d := waits ch d.pipe
  owes := owes

/-- A `pipewrite` that has stored a byte since it last woke up the readers, and then finds
the pipe full, finds the read end open and its process not killed. -/
def undisturbed (s : State P Unit Ch (Data P) (Pc P)) : Act P (Pc P) → Bool
  | .run p =>
    match s.thread p with
    | .run (.writeTest w i true) =>
      !(decide ((i : Int) < w.n) && s.data.pipe.full) || s.data.pipe.readopen
    | .run (.writeKilled _ _ true) => !s.killed p
    | _ => true
  | _ => true

variable [DecidableEq P]

theorem guarded : Guarded (fun s a => undisturbed s a = true)
    (code : Code P Unit Ch (Data P) (Pc P)) held guard where
  disciplined := disciplined
  free := by
    intro k d h
    cases k with
    | idle | writeAcquire | readAcquire | closeAcquire | kill => exact ⟨trivial, rfl⟩
    | _ => cases h
  call := by
    intro k k' h
    cases k with
    | idle =>
      refine ⟨fun d => ⟨knows_call h d, ?_⟩, fun ch ho => by cases ch <;> cases ho⟩
      cases k' with
      | writeFail => cases h
      | _ => rfl
    | _ => cases h
  sound := by
    intro s p k hok at_ ⟨hk, hclean⟩
    -- what the functions know does not depend on the wakeups
    have h0 := tested_guarded.sound s p k trivial at_ hk
    have none_owed : ∀ k k' : Pc P, (∀ ch, owes ch k = false) → guard.Carries k k' := by
      intro k k' h ch ho
      rw [show guard.owes ch k = false from h ch] at ho
      cases ho
    cases k with
    | idle => trivial
    | writeAcquire | readAcquire | closeAcquire =>
      exact ⟨fun _ => ⟨trivial, rfl⟩, none_owed _ _ fun ch => by cases ch <;> rfl⟩
    | writeRelease | readRelease | closeRelease | kill =>
      exact ⟨⟨trivial, rfl⟩, none_owed _ _ fun ch => by cases ch <;> rfl⟩
    | writeSleep | readSleep =>
      exact ⟨rfl, hk, fun _ => ⟨trivial, rfl⟩, none_owed _ _ fun ch => by cases ch <;> rfl⟩
    | writeFull w i fresh =>
      refine ⟨⟨h0.1, rfl⟩, fun ch ho => ?_⟩
      cases ch with
      | nread => exact Or.inl rfl
      | nwrite => cases ho
    | writeWake w =>
      refine ⟨⟨h0.1, rfl⟩, fun ch ho => ?_⟩
      cases ch with
      | nread => exact Or.inl rfl
      | nwrite => cases ho
    | readWake n buf =>
      refine ⟨⟨h0.1, rfl⟩, fun ch ho => ?_⟩
      cases ch with
      | nread => cases ho
      | nwrite => exact Or.inl rfl
    | closeWake writable =>
      refine ⟨⟨h0.1, rfl⟩, fun ch ho => Or.inl ?_⟩
      cases ch <;> cases writable <;> first | rfl | cases ho
    | writeFail w i fresh =>
      refine ⟨rfl, ⟨trivial, rfl⟩, fun ch ho => ?_, fun _ hw => Or.inl hw⟩
      cases ch with
      | nread =>
        rw [show guard.owes Ch.nread (.writeFail w i fresh : Pc P) = fresh from rfl] at ho
        rw [Pc.clean, ho] at hclean
        cases hclean
      | nwrite => cases ho
    | writeDone w =>
      exact ⟨rfl, ⟨trivial, rfl⟩, none_owed _ _ fun ch => by cases ch <;> rfl, fun _ hw => Or.inl hw⟩
    | closeSet writable =>
      refine ⟨rfl, ⟨trivial, rfl⟩, none_owed _ _ fun ch => by cases ch <;> rfl, fun ch hw => ?_⟩
      cases ch <;> cases writable <;> first | exact Or.inr rfl | exact Or.inl hw
    | writeKilled w i fresh =>
      refine ⟨⟨h0.1, ?_⟩, fun ch ho => ?_⟩
      · cases fresh with
        | false => cases s.killed p <;> rfl
        | true =>
          simp only [undisturbed, at_, Bool.not_eq_true'] at hok
          rw [hok]
          rfl
      · cases ch with
        | nread => cases s.killed p <;> exact ho
        | nwrite => cases ho
    | readKilled n =>
      refine ⟨⟨h0.1, ?_⟩, none_owed _ _ fun ch => by cases ch <;> rfl⟩
      cases s.killed p <;> rfl
    | writeTest w i fresh =>
      by_cases hi : (i : Int) < w.n
      · cases hfull : s.data.pipe.full with
        | true =>
          cases hopen : s.data.pipe.readopen with
          | true =>
            refine Guard.sound_update (.writeKilled w i fresh) s.data (by simp [hi, hfull, hopen]) rfl
              ⟨⟨hfull, hopen⟩, rfl⟩ (fun ch ho => ?_) fun _ hw => Or.inl hw
            cases ch <;> exact ho
          | false =>
            cases fresh with
            | true => simp [undisturbed, at_, hi, hfull, hopen] at hok
            | false =>
              exact Guard.sound_update (.writeFail w i false) s.data (by simp [hi, hfull, hopen]) rfl
                ⟨trivial, rfl⟩ (none_owed _ _ fun ch => by cases ch <;> rfl) fun _ hw => Or.inl hw
        | false =>
          refine Guard.sound_update (.writeTest w (i + 1) true) (s.data.store p (w.addr i))
            (by simp [hi, hfull]) rfl ⟨trivial, rfl⟩ (fun ch ho => ?_) fun ch hw => ?_
          · cases ch with
            | nread => rfl
            | nwrite => cases ho
          · cases ch with
            | nread => exact Or.inr rfl
            | nwrite =>
              -- nobody waits for space in a pipe that has some
              exact absurd (hfull.symm.trans hw.1) (by simp)
      · refine Guard.sound_update (.writeWake w) s.data (by simp [hi]) rfl ⟨trivial, rfl⟩
          (fun ch ho => ?_) fun _ hw => Or.inl hw
        cases ch with
        | nread => rfl
        | nwrite => cases ho
    | readTest n =>
      refine ⟨rfl, ⟨h0.2.1, ?_⟩, none_owed _ _ fun ch => by cases ch <;> rfl, fun ch hw => ?_⟩
      · simp only
        split <;> rfl
      · simp only
        split <;> exact Or.inl hw
    | readCopy n buf =>
      have wake : ∀ ch, guard.owes ch (.readCopy n buf : Pc P) = true →
          guard.owes ch (.readWake n buf : Pc P) = true := by
        intro ch ho
        cases ch with
        | nread => cases ho
        | nwrite => rfl
      by_cases hn : (buf.length : Int) < n
      · cases he : s.data.pipe.empty with
        | true =>
          exact Guard.sound_update (.readWake n buf) s.data (by simp [hn, he]) rfl
            ⟨fun _ hb => ⟨he, hk hb he⟩, rfl⟩ wake fun _ hw => Or.inl hw
        | false =>
          refine Guard.sound_update (.readCopy n (buf ++ [s.data.pipe.next])) s.data.take
            (by simp [hn, he]) rfl ⟨fun hb => absurd hb (by simp), rfl⟩ (fun ch ho => ?_) fun ch hw => ?_
          · cases ch with
            | nread => cases ho
            | nwrite => simp [guard, owes]
          · cases ch with
            | nread => exact absurd (he.symm.trans hw.1) (by simp)
            | nwrite => exact Or.inr (by simp [guard, owes])
      · refine Guard.sound_update (.readWake n buf) s.data (by simp [hn]) rfl ⟨fun h0 hb => ?_, rfl⟩
          wake fun _ hw => Or.inl hw
        rw [hb] at hn
        exact absurd h0 hn

theorem prompt : Prompt (code : Code P Unit Ch (Data P) (Pc P)) held guard where
  owes := by
    intro ch k h
    cases k with
    | idle | writeAcquire | readAcquire | closeAcquire | kill => cases ch <;> cases h
    | _ => rfl
  wakeup := by
    intro p k ch k' h
    cases k with
    | writeFull | writeWake | readWake | closeWake => rfl
    | _ => cases h
  sleep := by
    intro p k ch lk k' h ch'
    cases k with
    | writeSleep | readSleep =>
      cases h
      cases ch' <;> rfl
    | _ => cases h

section
variable {data : Fin PIPESIZE → UInt8} {acts : List (Act P (Pc P))}
  {s : State P Unit Ch (Data P) (Pc P)}

theorem pipe_loses_no_wakeup (h : Run (fun s a => undisturbed s a = true) (step code)
      (start (fun _ => .idle) (pipealloc data)) acts s)
    (hfree : s.lock (.of ()) = none) {p : P} (hst : s.state p = .sleeping) :
    (s.chan p = some .nread → s.data.pipe.empty = true ∧ s.data.pipe.writeopen = true) ∧
    (s.chan p = some .nwrite → s.data.pipe.full = true ∧ s.data.pipe.readopen = true) :=
  ⟨guarded.asleep prompt (fun _ _ => rfl) h hfree hst,
    guarded.asleep prompt (fun _ _ => rfl) h hfree hst⟩

end

/-- `false` writes one byte, `true` reads it and goes to sleep when it reads again. -/
def readTwice : List (Act Bool (Pc Bool)) :=
  List.flatten [Act.calls false (.writeAcquire ⟨fun _ => 7, 1⟩) 9, Act.calls true (.readAcquire 1) 9,
    Act.calls true (.readAcquire 1) 8, [.schedRelease]]

theorem pipe_loses_no_wakeup_sleeping_reader : ∃ s : State Bool Unit Ch (Data Bool) (Pc Bool),
      Run (fun s a => undisturbed s a = true) (step code)
        (start (fun _ => .idle) (pipealloc fun _ => 0)) readTwice s ∧
      (s.lock (.of ()), s.state true, s.chan true) = (none, .sleeping, some .nread) ∧
      s.data.pipe.empty = true ∧ s.data.pipe.writeopen = true := by
  obtain ⟨s, hs, hf⟩ : ∃ s : State Bool Unit Ch (Data Bool) (Pc Bool),
      Run (fun s a => undisturbed s a = true) (step code)
        (start (fun _ => .idle) (pipealloc fun _ => 0)) readTwice s ∧
      (s.lock (.of ()), s.state true, s.chan true) = (none, .sleeping, some .nread) :=
    Run.of_exec_map (by decide +kernel)
  refine ⟨s, hs, hf, ?_⟩
  simp only [Prod.mk.injEq] at hf
  exact (pipe_loses_no_wakeup hs hf.1 hf.2.1).1 hf.2.2

/-- While `false` is on its way into `pipewrite` with 513 bytes, `true` kills it and goes to
sleep in `piperead`; then `false` runs until it has returned. -/
def killedWriter : List (Act Bool (Pc Bool)) :=
  List.flatten [[.call false (.writeAcquire ⟨fun _ => 0, 513⟩)], Act.calls true (.kill false) 4,
    Act.calls true (.readAcquire 1) 8, [.schedRelease], List.replicate 517 (.run false)]

theorem killed_writer_strands_reader : ∃ s : State Bool Unit Ch (Data Bool) (Pc Bool),
    Run (fun _ _ => True) (step code) (start (fun _ => .idle) (pipealloc fun _ => 0)) killedWriter s ∧
    ((s.lock (.of ()), s.lock .ptable), (s.state true, s.chan true), s.data.pipe.full,
      (s.data.calls false).map Call.ret) = ((none, none), (.sleeping, some .nread), true, [-1]) :=
  Run.of_exec_map (by decide +kernel)

end BossOs.Pipe
