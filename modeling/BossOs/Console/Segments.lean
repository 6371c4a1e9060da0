import BossOs.Console.Read

/-!
# The size of the calls does not matter

All committed bytes are read in order, so the results of the calls, joined between the empty
ones, are the input cut at its Ctrl-Ds.
-/

namespace BossOs.Console

open Lib Sync

variable {P : Type} {s t : State P Unit Unit Data Pc} {rs : List Result} [DecidableEq P]

omit [DecidableEq P] in
theorem readInv_start {buf : Fin INPUT_BUF → UInt8} {x : UInt32} :
    ReadInv (start (fun _ => .idle) (initial buf x) : State P Unit Unit Data Pc) [] := by
  refine ⟨inputInv_initial.wf, nofun, List.forall_mem_nil _, [], ?_, nofun, fun _ => rfl⟩
  have hinit : InputInv (initial buf x) := inputInv_initial
  obtain ⟨taken, hcom, -⟩ := hinit.history
  have hnil := List.append_eq_nil_iff.mp hcom.symm
  exact hnil.2.symm

def segments (rs : List Result) : List (List UInt8) :=
  ((rs.map Prod.snd).splitOn []).map List.flatten

theorem splitOn_taken (h : ∀ r ∈ rs, Delivered r) :
    (rs.flatMap taken).splitOn (ctrl 'D') = segments rs := by
  unfold segments
  induction rs with
  | nil => rfl
  | cons r rs ih =>
    obtain ⟨hr, hrest⟩ := List.forall_mem_cons.mp h
    rw [List.flatMap_cons, List.map_cons]
    by_cases hnil : r.2 = []
    · rw [taken, if_pos hnil, hnil, splitOn_cons_self]
      exact (splitOn_cons_self _).trans (congrArg _ (ih hrest))
    · rw [taken_of_ne hnil, splitOn_append hr.eof, splitOn_cons_of_ne hnil, ih hrest]
      cases (rs.map Prod.snd).splitOn [] <;> rfl

theorem count_taken (h : ∀ r ∈ rs, Delivered r) :
    (rs.flatMap taken).count (ctrl 'D') = rs.countP fun r => r.1 = 0 := by
  induction rs with
  | nil => rfl
  | cons r rs ih =>
    obtain ⟨hr, hrest⟩ := List.forall_mem_cons.mp h
    have hlen := hr.length
    rw [List.flatMap_cons, List.count_append, ih hrest, List.countP_cons, Nat.add_comm]
    congr 1
    by_cases hnil : r.2 = []
    · rw [hnil] at hlen
      rw [taken, if_pos hnil, if_pos (by simpa using hlen)]
      rfl
    · have hpos := List.length_pos_iff.mpr hnil
      rw [taken_of_ne hnil, List.count_eq_zero.mpr hr.eof, if_neg]
      simp only [decide_eq_true_eq]
      omega

structure Divides (rs : List Result) (committed : List UInt8) : Prop where
  segments : segments rs = committed.splitOn (ctrl 'D')
  delivered : ∀ r ∈ rs, Delivered r
  eofs : (rs.countP fun r => r.1 = 0) = committed.count (ctrl 'D')

section
variable {buf : Fin INPUT_BUF → UInt8} {x : UInt32} {acts : List (Act P Pc)}

def results (buf : Fin INPUT_BUF → UInt8) (x : UInt32) (acts : List (Act P Pc)) : List Result :=
  observed returned (step service.code) (start (fun _ => .idle) (initial buf x)) acts

theorem divides_of_run
    (h : Run Sequential (step service.code) (start (fun _ => .idle) (initial buf x)) acts s)
    (hdone : ∀ p, (s.points p).reading = false) (hdrained : s.data.input.ready = []) :
    Divides (results buf x acts) s.data.committed := by
  have hinv : ReadInv s ([] ++ results buf x acts) :=
    h.observe (fun s a t bs hi hok hs => readInv_step hi hok hs) readInv_start
  rw [List.nil_append] at hinv
  obtain ⟨pending, hcom, -, hnone⟩ := hinv.progress
  rw [hnone hdone, hdrained, List.append_nil, List.append_nil] at hcom
  rw [hcom]
  exact ⟨(splitOn_taken hinv.delivered).symm, hinv.delivered, (count_taken hinv.delivered).symm⟩

end

/-- Two ways to read the same input to its end, whatever the sizes of the calls and whenever
the characters arrive. -/
theorem console_reads_agree {buf buf' : Fin INPUT_BUF → UInt8} {x x' : UInt32}
    {acts acts' : List (Act P Pc)}
    (h : Run Sequential (step service.code) (start (fun _ => .idle) (initial buf x)) acts s)
    (h' : Run Sequential (step service.code) (start (fun _ => .idle) (initial buf' x')) acts' t)
    (hdone : ∀ p, (s.points p).reading = false) (hdone' : ∀ p, (t.points p).reading = false)
    (hdrained : s.data.input.ready = []) (hdrained' : t.data.input.ready = [])
    (hsame : s.data.committed = t.data.committed) :
    segments (results buf x acts) = segments (results buf' x' acts') ∧
      Divides (results buf x acts) s.data.committed ∧
      Divides (results buf' x' acts') t.data.committed := by
  have hd := divides_of_run h hdone hdrained
  have hd' := divides_of_run h' hdone' hdrained'
  exact ⟨hd.segments.trans (hsame ▸ hd'.segments.symm), hd, hd'⟩

def fives : List (Act Bool Pc) :=
  Act.calls false (.intrAcquire [97, 98, 4]) 10 ++ Act.calls true (.readAcquire 5) 5 ++
    Act.calls true (.readAcquire 5) 3

def ones : List (Act Bool Pc) :=
  Act.calls false (.intrAcquire [97, 98, 4]) 10 ++ Act.calls true (.readAcquire 1) 4 ++
    Act.calls true (.readAcquire 1) 4 ++ Act.calls true (.readAcquire 1) 3

theorem console_reads_agree_sizes : results (fun _ => 0) 0 fives = [(2, [97, 98]), (0, [])] ∧
      results (fun _ => 0) 0 ones = [(1, [97]), (1, [98]), (0, [])] ∧
      segments (results (fun _ => 0) 0 fives) = segments (results (fun _ => 0) 0 ones) := by
  obtain ⟨s, hs, hf⟩ : ∃ s : State Bool Unit Unit Data Pc,
      Run Sequential (step service.code) (start (fun _ => .idle) (initial (fun _ => 0) 0)) fives s ∧
      (s.data.committed, s.data.input.ready, (s.points false).reading, (s.points true).reading) =
        ([97, 98, 4], [], false, false) := Run.of_exec_map (by decide +kernel)
  obtain ⟨t, ht, hg⟩ : ∃ s : State Bool Unit Unit Data Pc,
      Run Sequential (step service.code) (start (fun _ => .idle) (initial (fun _ => 0) 0)) ones s ∧
      (s.data.committed, s.data.input.ready, (s.points false).reading, (s.points true).reading) =
        ([97, 98, 4], [], false, false) := Run.of_exec_map (by decide +kernel)
  simp only [Prod.mk.injEq] at hf hg
  obtain ⟨hcom, hready, hfalse, htrue⟩ := hf
  obtain ⟨hcom', hready', hfalse', htrue'⟩ := hg
  refine ⟨by decide +kernel, by decide +kernel, ?_⟩
  have hagree := console_reads_agree hs ht (fun p => ?_) (fun p => ?_) hready hready'
    (hcom.trans hcom'.symm)
  · exact hagree.1
  · cases p
    · exact hfalse
    · exact htrue
  · cases p
    · exact hfalse'
    · exact htrue'

end BossOs.Console
