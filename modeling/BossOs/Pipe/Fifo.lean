import BossOs.Pipe.Model

/-!
# A pipe is a first-in first-out channel

The ring holds the bytes stored and not yet read, in order; `PIPESIZE` divides `2^32`, so the
wrapping of `nread` and `nwrite` does not show.
-/

namespace BossOs.Pipe

open Lib Sync
open Function (update update_self update_of_ne)

variable {P : Type} [DecidableEq P]

theorem pipesize_dvd : PIPESIZE ∣ 2 ^ 32 := by decide

theorem full_iff {p : Pipe} : p.full = true ↔ Ring.dist p.nread p.nwrite = PIPESIZE := by
  rw [full, beq_iff_eq, Ring.dist_eq (by decide)]

theorem empty_iff {p : Pipe} : p.empty = true ↔ p.nread = p.nwrite := by
  rw [empty, beq_iff_eq]

theorem contents_of_empty {p : Pipe} (h : p.empty = true) : p.contents = [] := by
  rw [contents, empty_iff.mp h, Ring.dist_self]
  rfl

section
variable {p : Pipe} (hle : Ring.dist p.nread p.nwrite ≤ PIPESIZE) (hfull : p.full = false)
include hle hfull

theorem dist_lt : Ring.dist p.nread p.nwrite < PIPESIZE := by
  refine lt_of_le_of_ne hle fun he => ?_
  rw [full_iff.mpr he] at hfull
  cases hfull

theorem dist_store (b : UInt8) :
    Ring.dist (p.store b).nread (p.store b).nwrite = Ring.dist p.nread p.nwrite + 1 :=
  Ring.dist_succ ((Nat.succ_le_of_lt (dist_lt hle hfull)).trans_lt (by decide))

theorem contents_store (b : UInt8) : (p.store b).contents = p.contents ++ [b] := by
  rw [contents, dist_store hle hfull]
  exact Ring.window_push pipesize_dvd (dist_lt hle hfull) b

end

section
variable {p : Pipe} (h : p.empty = false)
include h

theorem nread_ne : p.nread ≠ p.nwrite := fun he => by
  rw [empty_iff.mpr he] at h
  cases h

theorem dist_take : Ring.dist p.take.nread p.take.nwrite + 1 = Ring.dist p.nread p.nwrite :=
  Ring.dist_pred (nread_ne h)

theorem contents_take : p.contents = p.next :: p.take.contents := Ring.window_pop (nread_ne h)

end

def tested : Guard Unit Ch (Data P) (Pc P) where
  lk := ()
  knows := knows
  waits _ _ := True
  owes _ _ := false

omit [DecidableEq P] in
theorem knows_call {k k' : Pc P} (h : call k k' = true) (d : Data P) : knows k' d := by
  cases k with
  | idle =>
    cases k' with
    | writeAcquire | readAcquire | closeAcquire | kill => trivial
    | _ => cases h
  | _ => cases h

theorem tested_guarded :
    Guarded (fun _ _ => True) (code : Code P Unit Ch (Data P) (Pc P)) held tested where
  disciplined := disciplined
  free := by
    intro k d h
    cases k with
    | idle | writeAcquire | readAcquire | closeAcquire | kill => trivial
    | _ => cases h
  call := fun _ _ h => ⟨knows_call h, fun _ ho => Bool.noConfusion ho⟩
  sound := by
    intro s p k _ _ hk
    have carries : ∀ k', tested.Carries k k' := fun _ _ ho => Bool.noConfusion ho
    cases k with
    | idle => trivial
    | writeAcquire | readAcquire | closeAcquire => exact ⟨fun _ => trivial, carries _⟩
    | writeRelease | readRelease | closeRelease | kill => exact ⟨trivial, carries _⟩
    | writeSleep | readSleep => exact ⟨rfl, trivial, fun _ => trivial, carries _⟩
    | writeFull => exact ⟨hk, fun _ ho => Bool.noConfusion ho⟩
    | writeWake | closeWake => exact ⟨trivial, fun _ ho => Bool.noConfusion ho⟩
    | readWake n buf =>
      refine ⟨fun hn h0 => hk hn ?_, fun _ ho => Bool.noConfusion ho⟩
      exact List.length_eq_zero_iff.mp (Int.ofNat_eq_zero.mp h0)
    | writeFail | writeDone | closeSet => exact ⟨rfl, trivial, carries _, fun _ _ => Or.inl trivial⟩
    | writeKilled =>
      refine ⟨?_, carries _⟩
      cases s.killed p
      · exact hk
      · trivial
    | readKilled n =>
      refine ⟨?_, carries _⟩
      cases s.killed p
      · exact hk
      · intro _ h
        cases h
    | writeTest w i fresh =>
      refine ⟨rfl, ?_, carries _, fun _ _ => Or.inl trivial⟩
      simp only
      split
      · split
        · split
          · exact ⟨‹_›, ‹_›⟩
          · trivial
        · trivial
      · trivial
    | readTest n =>
      refine ⟨rfl, ?_, carries _, fun _ _ => Or.inl trivial⟩
      simp only
      split
      · rename_i h
        exact (Bool.and_eq_true _ _).mp h
      · rename_i h
        intro _ he
        rw [he, Bool.true_and, Bool.not_eq_true] at h
        exact h
    | readCopy n buf =>
      refine ⟨rfl, ?_, carries _, fun _ _ => Or.inl trivial⟩
      simp only
      split
      · split
        · rename_i he
          exact fun _ hb => ⟨he, hk hb he⟩
        · exact fun hb => absurd hb (by simp)
      · rename_i hlt
        rintro hn rfl
        exact absurd hn hlt

def Pc.sending : Pc P → Option (Write × Nat)
  | .writeTest w i _ | .writeKilled w i _ | .writeFail w i _ | .writeFull w i _
  | .writeSleep w i => some (w, i)
  | .writeWake w | .writeDone w => some (w, w.n.toNat)
  | _ => none

def Pc.current (k : Pc P) : List UInt8 := k.sending.elim [] fun (w, i) => w.bytes i

def Call.Faithful (c : Call) : Prop :=
  c.ret = c.write.n ∧ c.kept = c.write.n.toNat ∨ c.ret = -1 ∧ c.kept ≤ c.write.n.toNat

structure FifoInv (at_ : P → Pc P) (d : Data P) : Prop where
  bound : Ring.dist d.pipe.nread d.pipe.nwrite ≤ PIPESIZE
  fifo : d.stored.map Prod.snd = d.read ++ d.pipe.contents
  sent : ∀ p, d.sent p = (d.calls p).flatMap Call.bytes ++ (at_ p).current
  upto : ∀ p w i, (at_ p).sending = some (w, i) → i ≤ w.n.toNat
  calls : ∀ p, ∀ c ∈ d.calls p, c.Faithful

omit [DecidableEq P] in
theorem bytes_succ (w : Write) (i : Nat) : w.bytes (i + 1) = w.bytes i ++ [w.addr i] := by
  rw [Write.bytes, List.range_succ, List.map_append]
  rfl

omit [DecidableEq P] in
theorem bytes_mono (w : Write) {i j : Nat} (h : i ≤ j) : w.bytes i <+: w.bytes j := by
  induction h with
  | refl => exact List.prefix_rfl
  | step h ih =>
    rw [bytes_succ]
    exact ih.trans (List.prefix_append ..)

theorem sent_store_self (d : Data P) (p : P) (b : UInt8) : (d.store p b).sent p = d.sent p ++ [b] := by
  simp [Data.sent, Data.store]

theorem sent_store_ne (d : Data P) {p q : P} (h : q ≠ p) (b : UInt8) :
    (d.store p b).sent q = d.sent q := by
  simp [Data.sent, Data.store, h.symm]

namespace FifoInv

variable {at_ : P → Pc P} {d : Data P} {p : P} {k : Pc P}

section
variable (h : FifoInv at_ d)
include h

theorem move {d' : Data P} (hk : k.sending = (at_ p).sending)
    (hb : Ring.dist d'.pipe.nread d'.pipe.nwrite ≤ PIPESIZE)
    (hf : d'.stored.map Prod.snd = d'.read ++ d'.pipe.contents) (hs : d'.stored = d.stored)
    (hc : d'.calls = d.calls) : FifoInv (update at_ p k) d' := by
  have hsend := at_update Pc.sending hk
  refine ⟨hb, hf, fun q => ?_, fun q w i hq => h.upto q w i (hsend q ▸ hq), fun q => ?_⟩
  · have hsent : d'.sent q = d.sent q := by rw [Data.sent, hs, Data.sent]
    rw [hsent, hc, h.sent q, Pc.current, Pc.current, hsend q]
  · rw [hc]
    exact h.calls q

theorem stay (hk : k.sending = (at_ p).sending) :
    FifoInv (update at_ p k) d := h.move hk h.bound h.fifo rfl rfl

theorem begin_ {w : Write} (hp : (at_ p).sending = none)
    (hk : k.sending = some (w, 0)) : FifoInv (update at_ p k) d := by
  refine ⟨h.bound, h.fifo, fun q => ?_, fun q w' i hq => ?_, h.calls⟩ <;> by_cases hqp : q = p
  · subst hqp
    rw [update_self, h.sent q, Pc.current, Pc.current, hp, hk]
    rfl
  · rw [update_of_ne hqp]
    exact h.sent q
  · subst hqp
    rw [update_self, hk] at hq
    cases hq
    exact Nat.zero_le _
  · rw [update_of_ne hqp] at hq
    exact h.upto q w' i hq

theorem store {w : Write} {i : Nat} (hp : (at_ p).sending = some (w, i))
    (hk : k.sending = some (w, i + 1)) (hi : (i : Int) < w.n) (hfull : d.pipe.full = false) :
    FifoInv (update at_ p k) (d.store p (w.addr i)) := by
  refine ⟨?_, ?_, fun q => ?_, fun q w' i' hq => ?_, h.calls⟩
  · exact (dist_store h.bound hfull _).trans_le (dist_lt h.bound hfull)
  · change (d.stored ++ [(p, w.addr i)]).map Prod.snd = d.read ++ (d.pipe.store (w.addr i)).contents
    rw [contents_store h.bound hfull, List.map_append, h.fifo, List.append_assoc]
    rfl
  · by_cases hqp : q = p
    · subst hqp
      rw [sent_store_self, h.sent q, update_self, Pc.current, Pc.current, hp, hk]
      simp only [Option.elim, bytes_succ, List.append_assoc]
      rfl
    · rw [sent_store_ne d hqp, h.sent q, update_of_ne hqp]
      rfl
  · by_cases hqp : q = p
    · subst hqp
      rw [update_self, hk] at hq
      cases hq
      omega
    · rw [update_of_ne hqp] at hq
      exact h.upto q w' i' hq

theorem finish {w : Write} {i : Nat} {ret : Int}
    (hp : (at_ p).sending = some (w, i)) (hk : k.sending = none)
    (hc : (⟨w, ret, i⟩ : Call).Faithful) : FifoInv (update at_ p k) (d.finish p ⟨w, ret, i⟩) := by
  refine ⟨h.bound, h.fifo, fun q => ?_, fun q w' i' hq => ?_, fun q => ?_⟩ <;>
    by_cases hqp : q = p
  · subst hqp
    have hs := h.sent q
    rw [Pc.current, hp] at hs
    simp only [Data.finish, update_self, List.flatMap_append, Pc.current, hk]
    simpa [Call.bytes, Data.sent] using hs
  · simp only [Data.finish, update_of_ne hqp]
    exact h.sent q
  · subst hqp
    rw [update_self, hk] at hq
    cases hq
  · rw [update_of_ne hqp] at hq
    exact h.upto q w' i' hq
  · subst hqp
    simp only [Data.finish, update_self, List.mem_append, List.mem_singleton]
    rintro c (hmem | rfl)
    · exact h.calls q c hmem
    · exact hc
  · simp only [Data.finish, update_of_ne hqp]
    exact h.calls q

theorem take (hk : k.sending = (at_ p).sending) (he : d.pipe.empty = false) :
    FifoInv (update at_ p k) d.take := by
  refine h.move hk ?_ ?_ rfl rfl
  · have hd := dist_take he
    have hb := h.bound
    change Ring.dist d.pipe.take.nread d.pipe.take.nwrite ≤ PIPESIZE
    omega
  · change d.stored.map Prod.snd = (d.read ++ [d.pipe.next]) ++ d.pipe.take.contents
    rw [h.fifo, contents_take he, List.append_assoc]
    rfl

end

end FifoInv

theorem fifoInv_step {at_ : P → Pc P} {d d' : Data P} (h : FifoInv at_ d) {p : P} {b : Bool}
    {k k' : Pc P} (hk : at_ p = k) (hl : Leads code p b k d k' d') :
    FifoInv (update at_ p k') d' := by
  have hs : (at_ p).sending = k.sending := congrArg Pc.sending hk
  cases hl with
  | call k' at_ entry =>
    cases k with
    | idle =>
      cases k' with
      | writeAcquire | readAcquire | closeAcquire | kill => exact h.stay hs.symm
      | _ => cases entry
    | _ => cases entry
  | acquire lk k' at_ =>
    cases k with
    | writeAcquire w =>
      cases at_
      exact h.begin_ hs rfl
    | readAcquire | closeAcquire =>
      cases at_
      exact h.stay hs.symm
    | _ => cases at_
  | release lk k' at_ =>
    cases k with
    | writeRelease | readRelease | closeRelease =>
      cases at_
      exact h.stay hs.symm
    | _ => cases at_
  | sleep ch lk k' at_ =>
    cases k with
    | writeSleep | readSleep =>
      cases at_
      exact h.stay hs.symm
    | _ => cases at_
  | wakeup ch k' at_ =>
    cases k with
    | writeFull | writeWake | readWake | closeWake =>
      cases at_
      exact h.stay hs.symm
    | _ => cases at_
  | wakeup1 ch k' at_ => cases k <;> cases at_
  | kill q k' at_ =>
    cases k with
    | kill =>
      cases at_
      exact h.stay hs.symm
    | _ => cases at_
  | killed f at_ =>
    cases k with
    | writeKilled | readKilled =>
      cases at_
      cases b <;> exact h.stay hs.symm
    | _ => cases at_
  | update f at_ =>
    cases k with
    | writeTest w i fresh =>
      cases at_
      have hi := h.upto p w i hs
      simp only
      split
      · split
        · split <;> exact h.stay hs.symm
        · exact h.store hs rfl ‹_› (Bool.eq_false_of_not_eq_true ‹_›)
      · -- the loop is over, so `i` is all of `n`
        refine h.stay (hs.trans ?_).symm
        simp only [Pc.sending, Option.some.injEq, Prod.mk.injEq, true_and]
        omega
    | writeFail w i fresh =>
      cases at_
      exact h.finish hs rfl (Or.inr ⟨rfl, h.upto p w i hs⟩)
    | writeDone w =>
      cases at_
      exact h.finish hs rfl (Or.inl ⟨rfl, rfl⟩)
    | readTest n =>
      cases at_
      simp only
      split <;> exact h.stay hs.symm
    | readCopy n buf =>
      cases at_
      simp only
      split
      · split
        · exact h.stay hs.symm
        · exact h.take hs.symm (Bool.eq_false_of_not_eq_true ‹_›)
      · exact h.stay hs.symm
    | closeSet writable =>
      cases at_
      cases writable <;> exact h.move hs.symm h.bound h.fifo rfl rfl
    | _ => cases at_

section
variable {data : Fin PIPESIZE → UInt8} {acts : List (Act P (Pc P))}
  {s : State P Unit Ch (Data P) (Pc P)}

theorem fifoInv_of_run
    (h : Run (fun _ _ => True) (step code) (start (fun _ => .idle) (pipealloc data)) acts s) :
    FifoInv s.points s.data := by
  refine Run.invariant (I := fun s => FifoInv s.points s.data) ?_ h ?_
  · intro s a t hi _ hs
    rcases points_step hs with ⟨hpt, hd⟩ | ⟨p, k, k', d', hp, hl, hpt, hd⟩
    · rwa [hpt, hd]
    · rw [hpt, hd]
      exact fifoInv_step hi (congrArg Thread.point hp) hl
  · have he : (pipealloc data : Data P).pipe.contents = [] := contents_of_empty rfl
    have hb : Ring.dist (pipealloc data : Data P).pipe.nread (pipealloc data : Data P).pipe.nwrite = 0 :=
      Ring.dist_self 0
    exact ⟨hb.trans_le (Nat.zero_le _), he.symm, fun _ => rfl, fun _ _ _ h => (by cases h),
      fun _ _ h => absurd h List.not_mem_nil⟩

theorem pipe_fifo
    (h : Run (fun _ _ => True) (step code) (start (fun _ => .idle) (pipealloc data)) acts s) :
    (s.data.pipe.nwrite - s.data.pipe.nread).toNat ≤ PIPESIZE ∧
    s.data.read <+: s.data.stored.map Prod.snd ∧
    (∀ p, s.data.sent p = (s.data.calls p).flatMap Call.bytes ++ (s.points p).current) ∧
    (∀ p, ∀ c ∈ s.data.calls p, c.ret = c.write.n ∧ c.bytes = c.write.bytes c.write.n.toNat ∨
      c.ret = -1 ∧ c.bytes <+: c.write.bytes c.write.n.toNat) ∧
    ∀ p n, s.thread p = .run (.readRelease n 0) → 0 < n →
      s.data.pipe.writeopen = false ∧ s.data.read = s.data.stored.map Prod.snd := by
  have hi := fifoInv_of_run h
  refine ⟨hi.bound, ⟨_, hi.fifo.symm⟩, hi.sent, fun p c hc => ?_, fun p n hp hn => ?_⟩
  · rcases hi.calls p c hc with ⟨hr, hk⟩ | ⟨hr, hk⟩
    · exact Or.inl ⟨hr, by rw [Call.bytes, hk]⟩
    · exact Or.inr ⟨hr, bytes_mono c.write hk⟩
  · have hk := (tested_guarded.run (fun _ _ => rfl) h).2.relies p
    rw [hp] at hk
    obtain ⟨he, ho⟩ := hk hn rfl
    refine ⟨ho, ?_⟩
    rw [hi.fifo, contents_of_empty he, List.append_nil]

end

/-- `false` writes the bytes 0, 1, 2 and `true` reads twice two bytes; then the write end is
closed and `true` reads again. -/
def threeBytes : List (Act Bool (Pc Bool)) :=
  List.flatten [Act.calls false (.writeAcquire ⟨UInt8.ofNat, 3⟩) 11,
    Act.calls true (.readAcquire 2) 10, Act.calls true (.readAcquire 2) 9,
    Act.calls false (.closeAcquire true) 7, Act.calls true (.readAcquire 2) 7]

def readReturn : Thread P Unit Ch (Pc P) → Option (Int × Int)
  | .run (.readRelease n ret) => some (n, ret)
  | _ => none

omit [DecidableEq P] in
theorem eq_of_readReturn {t : Thread P Unit Ch (Pc P)} {n ret : Int}
    (h : readReturn t = some (n, ret)) : t = .run (.readRelease n ret) := by
  cases t with
  | run k =>
    cases k with
    | readRelease =>
      cases h
      rfl
    | _ => cases h
  | _ => cases h

theorem pipe_fifo_three_bytes : ∃ s : State Bool Unit Ch (Data Bool) (Pc Bool),
    Run (fun _ _ => True) (step code) (start (fun _ => .idle) (pipealloc fun _ => 0)) threeBytes s ∧
    s.data.read = [0, 1, 2] ∧ s.thread true = .run (.readRelease 2 0) ∧
    s.data.pipe.writeopen = false ∧ s.data.read = s.data.stored.map Prod.snd := by
  obtain ⟨s, hs, hf⟩ : ∃ s : State Bool Unit Ch (Data Bool) (Pc Bool),
      Run (fun _ _ => True) (step code) (start (fun _ => .idle) (pipealloc fun _ => 0)) threeBytes s ∧
      (s.data.read, readReturn (s.thread true)) = ([0, 1, 2], some (2, 0)) :=
    Run.of_exec_map (by decide +kernel)
  simp only [Prod.mk.injEq] at hf
  have ht := eq_of_readReturn hf.2
  obtain ⟨-, -, -, -, hzero⟩ := pipe_fifo hs
  exact ⟨s, hs, hf.1, ht, hzero true 2 ht (by decide)⟩

end BossOs.Pipe
