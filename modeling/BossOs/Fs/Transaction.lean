import BossOs.Fs.Open

/-!
# Transactions

`end_op` commits what was logged and leaves the blocks as they are.
-/

namespace BossOs.Fs

open Lib

section Commit

variable {s : Blk} {i : Nat} {E : Stop → Commit → Prop} {Q : Unit → Commit → Prop}

theorem sat_commitLift {α : Type} (m : BlkM α) {log : List Nat} {Q : α → Commit → Prop} :
    ((liftM m : CommitM α).run ⟨s, log⟩).Sat Q E =
      (m.run s).Sat (fun a t => Q a ⟨t, log⟩) (fun e t => E e ⟨t, log⟩) :=
  Prog.sat_zoom ..

theorem sat_breadLog : ((breadLog i).run ⟨s, []⟩).Sat Q E = Q () ⟨s, [i]⟩ := by
  unfold breadLog
  simp only [List.not_mem_nil, if_false]
  exact Outcome.sat_ok ..

theorem sat_bwriteLog : ((bwriteLog i).run ⟨s, [i]⟩).Sat Q E = Q () ⟨s, [i]⟩ := by
  change Outcome.Sat (if i ∈ [i] then _ else _) Q E = _
  rw [if_pos (List.mem_singleton_self i), Outcome.sat_ok]

theorem sat_brelseLog : ((brelseLog i).run ⟨s, [i]⟩).Sat Q E = Q () ⟨s, []⟩ := by
  change Outcome.Sat (if i ∈ [i] then _ else _) Q E = _
  rw [if_pos (List.mem_singleton_self i), Outcome.sat_ok, List.erase_cons_head]

theorem sat_bwrite {b : Nat} {l : List Nat} {Q : Unit → Blk → Prop} {E : Stop → Blk → Prop} :
    ((bwrite b).run { s with held := b :: l }).Sat Q E = Q () { s with held := b :: l } := by
  change Outcome.Sat (if b ∈ b :: l then _ else _) Q E = _
  rw [if_pos List.mem_cons_self, Outcome.sat_ok]

theorem sat_writeHead : (writeHead.run ⟨s, []⟩).Sat Q E = Q () ⟨s, []⟩ := by
  simp only [writeHead, Prog.sat_bind]
  rw [sat_breadLog, sat_bwriteLog, sat_brelseLog]

variable (hheld : s.held = [])
include hheld

theorem sat_writeLog (bs : List Nat) (tail : Nat) :
    ((writeLog tail bs).run ⟨s, []⟩).Sat Q E = Q () ⟨s, []⟩ := by
  have hsame : { s with held := [] } = s := by rw [← hheld]
  induction bs generalizing tail with
  | nil => rw [writeLog, Prog.sat_pure]
  | cons b bs ih =>
    simp only [writeLog, Prog.sat_bind]
    rw [sat_breadLog, sat_commitLift, sat_bread (by rw [hheld]; exact List.not_mem_nil), hheld,
      sat_bwriteLog, sat_commitLift, sat_brelse rfl, hsame, sat_brelseLog]
    exact ih (tail + 1)

theorem sat_installTrans (bs : List Nat) (tail : Nat) :
    ((installTrans tail bs).run ⟨s, []⟩).Sat Q E = Q () ⟨s, []⟩ := by
  have hsame : { s with held := [] } = s := by rw [← hheld]
  induction bs generalizing tail with
  | nil => rw [installTrans, Prog.sat_pure]
  | cons b bs ih =>
    simp only [installTrans, Prog.sat_bind]
    rw [sat_breadLog, sat_commitLift, sat_bread (by rw [hheld]; exact List.not_mem_nil), hheld,
      sat_commitLift, sat_bwrite, sat_brelseLog, sat_commitLift, sat_brelse rfl, hsame]
    exact ih (tail + 1)

theorem sat_commit : (commit.run ⟨s, []⟩).Sat Q E = Q () ⟨s, []⟩ := by
  simp only [commit, Prog.sat_bind]
  rw [Prog.sat_get]
  split
  · rw [Prog.sat_pure]
  · simp only [Prog.sat_bind]
    rw [sat_writeLog hheld, sat_writeHead, sat_installTrans hheld, sat_writeHead]

end Commit

def Blk.begin (s : Blk) : Blk :=
  { s with outstanding := s.outstanding + 1, nested := s.nested || s.outstanding ≠ 0 }

def Blk.finish (s : Blk) : Blk :=
  { s with outstanding := 0, logged := [], sections := s.sections ++ [s.logged] }

theorem sat_beginOp {s : Blk} {Q : Unit → Blk → Prop} {E : Stop → Blk → Prop} :
    (beginOp.run s).Sat Q E = Q () s.begin := Prog.sat_modify ..

theorem sat_endOp {s : Blk} (hheld : s.held = []) (hop : s.outstanding = 1) {Q : Unit → Blk → Prop}
    {E : Stop → Blk → Prop} : (endOp.run s).Sat Q E = Q () s.finish := by
  have hrun : commit.run ⟨s, []⟩ = .ok () ⟨s, []⟩ := by
    apply Outcome.eq_ok_of_sat
    rw [sat_commit hheld]
    exact ⟨rfl, rfl⟩
  change Outcome.Sat (if s.outstanding - 1 = 0 then _ else _) Q E = _
  rw [if_pos (by rw [hop]), hrun, Outcome.sat_ok]
  rfl

end BossOs.Fs
