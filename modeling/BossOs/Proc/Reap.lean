import BossOs.Proc.Pages
import BossOs.Proc.Pids

/-!
# The `wait` and `exit` protocol

The invariants of the process table put together, over whole runs from `userinit` on.
-/

namespace BossOs.Proc

open Lib

section
variable {C : Type} [DecidableEq C] {s t : State C}

def Reaches (acts : List (Act C)) (s : State C) : Prop :=
  Run (fun _ _ => True) step (boot C) acts s

variable {acts : List (Act C)}

theorem table_of_reaches (h : Reaches acts s) :
    (ControlInv s ∧ ForkInv s) ∧ FamilyInv s ∧ PageInv s := by
  refine Run.invariant (I := fun s => (ControlInv s ∧ ForkInv s) ∧ FamilyInv s ∧ PageInv s) ?_ h
    ⟨⟨controlInv_boot, forkInv_boot⟩, familyInv_boot, pageInv_boot⟩
  rintro s a t ⟨⟨hc, hf⟩, hfam, hpage⟩ _ hs
  exact ⟨⟨controlInv_step hc hf hs, forkInv_step hc hf hs⟩, familyInv_step hc hf hfam hs,
    pageInv_step hc hf hpage hs⟩

theorem pids_of_reaches (h : Reaches acts s) (hfew : s.allocs < 2 ^ 31) : PidInv s := by
  have hinv : (ControlInv s ∧ ForkInv s) ∧ (s.allocs < 2 ^ 31 → PidInv s) := by
    refine Run.invariant
      (I := fun s => (ControlInv s ∧ ForkInv s) ∧ (s.allocs < 2 ^ 31 → PidInv s)) ?_ h
      ⟨⟨controlInv_boot, forkInv_boot⟩, fun _ => pidInv_boot⟩
    rintro s a t ⟨⟨hc, hf⟩, hpid⟩ _ hs
    refine ⟨⟨controlInv_step hc hf hs, forkInv_step hc hf hs⟩, fun hfew => ?_⟩
    exact pidInv_step hc hf (hpid (lt_of_le_of_lt (allocs_mono hs) hfew)) hfew hs
  exact hinv.2 hfew

theorem reaped_step {a : Act C} (h : step s a = some t) : t.reaped = s.reaped ∨
    ∃ c ok p q, a = .run c ok ∧ s.On c p ∧ s.pc p = .waitScan ∧ s.parent q = some p ∧
      s.state q = .zombie ∧ t.reaped = s.reaped ++ [⟨p, q, s.pid q, s.kstack q, s.pgdir q⟩] ∧
      t.pc p = .waitRelease (s.pid q) := by
  cases step_moves h with
  | reap c ok p q on at_ child zombie =>
    exact Or.inr ⟨c, ok, p, q, rfl, on, at_, child, zombie, rfl, Function.update_self ..⟩
  | _ => exact Or.inl rfl

theorem wait_returns {c : C} {ok : Bool} {p : Slot} {v : Int} (on : s.On c p)
    (at_ : s.pc p = .waitRelease v) (h : step s (.run c ok) = some t) :
    t.eax p = v ∧ t.pc p = .user := by
  rw [State.On] at on
  simp only [step, on, runProc, at_] at h
  split at h
  · cases h
  · cases h
    exact ⟨Function.update_self .., Function.update_self ..⟩

theorem ProcState.alive_ne {st : ProcState} (h : st.alive = true) :
    st ≠ .unused ∧ st ≠ .embryo ∧ st ≠ .zombie := by
  cases st with
  | sleeping | runnable | running => simp
  | _ => cases h

theorem wait_exit_protocol {acts : List (Act C)} (h : Reaches acts s) (hfew : s.allocs < 2 ^ 31) :
    (s.lock = none →
      (∀ q, (s.state q).used = true → q ≠ initproc → ∃ r, s.parent q = some r ∧
        s.state r ≠ .unused ∧ s.state r ≠ .embryo ∧ s.state r ≠ .zombie) ∧
      ∀ p q, s.state p = .sleeping → (s.pc p).waits = true → s.parent q = some p →
        s.state q ≠ .zombie) ∧
    (s.reaped.map Reap.pid).Nodup ∧ s.freed.Nodup ∧
    (∀ r ∈ s.reaped, (∀ q, s.pid q ≠ r.pid) ∧ (∀ q, s.kstack q ≠ r.kstack) ∧
      ∀ q, (s.state q).used = true → s.pgdir q ≠ r.pgdir) ∧
    ∀ a t, step s a = some t → t.reaped = s.reaped ∨
      ∃ c ok p q, a = .run c ok ∧ s.On c p ∧ s.pc p = .waitScan ∧ s.parent q = some p ∧
        s.state q = .zombie ∧
        t.reaped = s.reaped ++ [⟨p, q, s.pid q, s.kstack q, s.pgdir q⟩] ∧
        t.pc p = .waitRelease (s.pid q) ∧
        ∀ c' ok' u, t.On c' p → step t (.run c' ok') = some u → u.eax p = s.pid q := by
  obtain ⟨_, hfam, hpage⟩ := table_of_reaches h
  have hpid := pids_of_reaches h hfew
  refine ⟨fun _ => ⟨fun q hq hqi => ?_, fun p q hsl hw hq => (hfam.waiting p hsl hw).2 q hq⟩,
    hpid.nodup, hpage.once, fun r hr => ⟨hpid.gone r hr, fun q hq => ?_, fun q hq hd => ?_⟩,
    fun a t hs => ?_⟩
  · obtain ⟨r, hr, hra⟩ := hfam.parents q hq hqi
    exact ⟨r, hr, ProcState.alive_ne hra⟩
  · obtain ⟨k, d, hrk, _, hkf, _⟩ := hpage.gone r hr
    exact (hpage.stack q k (hq.trans hrk)).2 hkf
  · obtain ⟨k, d, _, hrd, _, hdf⟩ := hpage.gone r hr
    exact (hpage.dir q d (Or.inl hq) (hd.trans hrd)).1.2 hdf
  · refine (reaped_step hs).imp_right ?_
    rintro ⟨c, ok, p, q, ha, on, at_, child, zombie, hreap, hpc⟩
    exact ⟨c, ok, p, q, ha, on, at_, child, zombie, hreap, hpc,
      fun c' ok' u on' hu => (wait_returns on' hpc hu).1⟩

end

def forkExitWait : List (Act Unit) :=
  List.replicate 3 (.run () true) ++ [.call () .fork] ++ List.replicate 9 (.run () true) ++
    [.call () .wait] ++ List.replicate 6 (.run () true) ++ [.call () .exit] ++
    List.replicate 71 (.run () true)

theorem wait_exit_protocol_one_child : ∃ s : State Unit, Reaches forkExitWait s ∧
    s.reaped.map Reap.pid = [2] ∧ s.allocs = 2 ∧ ∀ q, s.pid q ≠ 2 := by
  obtain ⟨s, hs, hf⟩ : ∃ s : State Unit, Reaches forkExitWait s ∧
      (s.reaped.map Reap.pid, s.allocs) = ([2], 2) :=
    Run.of_exec_map (by decide +kernel)
  simp only [Prod.mk.injEq] at hf
  have hgone := (wait_exit_protocol hs (by rw [hf.2]; decide)).2.2.2.1
  refine ⟨s, hs, hf.1, hf.2, fun q => ?_⟩
  have hmem : (2 : Int) ∈ s.reaped.map Reap.pid := by rw [hf.1]; exact List.mem_singleton_self 2
  obtain ⟨r, hr, hr2⟩ := List.mem_map.mp hmem
  rw [← hr2]
  exact (hgone r hr).1 q

end BossOs.Proc
