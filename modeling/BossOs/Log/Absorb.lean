import Mathlib.Data.List.Dedup
import BossOs.Log.Protocol

/-!
# Log absorption

`log.lh` lists the blocks of the open group, each once, however often they were
logged; while a group is being committed it lists the blocks of that group.
-/

namespace BossOs.Log

open Lib

variable {P : Type}

namespace Pc

def late : Pc → Bool
  | .writeLog _ | .writeHead | .installTrans _ | .clearN | .eraseHead => true
  | _ => false

variable {k : Pc}

theorem commits_of_late (h : k.late = true) : k.commits = true := by
  cases k <;> first | rfl | cases h

variable {k' : Pc}

theorem acquires_late (h : k.acquires = some k') : k.late = false ∧ k'.late = false := by
  cases k <;> cases h <;> exact ⟨rfl, rfl⟩

theorem acquiresPtable_late (h : k.acquiresPtable = some k') :
    k.late = false ∧ k'.late = false := by
  cases k <;> cases h <;> exact ⟨rfl, rfl⟩

theorem releasesPtable_late (h : k.releasesPtable = some k') :
    k.late = false ∧ k'.late = false := by
  cases k <;> cases h <;> exact ⟨rfl, rfl⟩

theorem wakes_late (h : k.wakes = some k') : k.late = false ∧ k'.late = false := by
  cases k <;> cases h <;> exact ⟨rfl, rfl⟩

theorem releases_late (h : k.releases = some k') : k.late = false ∧ k'.late = false := by
  cases k with
  | endRelease c =>
    cases h
    cases c <;> exact ⟨rfl, rfl⟩
  | _ => cases h <;> exact ⟨rfl, rfl⟩

end Pc

theorem no_late {s : State P} (hi : Inv s) (hc : s.committing = false) (q : P) :
    (s.pc q).late = false := by
  cases hq : (s.pc q).late with
  | false => rfl
  | true =>
    have h := committing_of_commits hi (Pc.commits_of_late hq)
    rw [hc] at h
    cases h

theorem no_late_of_commits {s : State P} (hi : Inv s) {p : P} (hp : (s.pc p).commits = true) {q : P}
    (hq : q ≠ p) : (s.pc q).late = false := by
  obtain ⟨c, hholds, _⟩ := hi.commit
  cases hl : (s.pc q).late with
  | false => rfl
  | true => exact absurd (hholds.unique (Pc.commits_of_late hl) hp) hq

theorem no_late_of_commitTest {s : State P} (hi : Inv s) {p : P} (at_ : s.pc p = .commitTest)
    (q : P) : (s.pc q).late = false := by
  by_cases hq : q = p
  · rw [hq, at_]
    rfl
  · exact no_late_of_commits hi (p := p) (by rw [at_]; rfl) hq

structure LhInv (s : State P) : Prop where
  nodup : s.lh.Nodup
  short : s.lh.length ≤ LOGSIZE
  handed : ∀ p, (s.pc p).late = true → s.cur = []
  blocks : (∀ p, (s.pc p).late = false) → ∀ b, b ∈ s.lh ↔ b ∈ s.cur.map Write.blockno

theorem lhInv_init (d : Nat → Block) : LhInv (init P d) where
  nodup := List.nodup_nil
  short := Nat.zero_le _
  handed := fun _ h => by cases h
  blocks := fun _ b => by simp [init]

theorem LhInv.same {s t : State P} (h : LhInv s) (hlh : t.lh = s.lh) (hcur : t.cur = s.cur)
    (hlate : ∀ q, (t.pc q).late = (s.pc q).late) : LhInv t := by
  refine ⟨?_, ?_, ?_, ?_⟩
  · rw [hlh]
    exact h.nodup
  · rw [hlh]
    exact h.short
  · rw [hcur]
    exact fun p hp => h.handed p ((hlate p).symm.trans hp)
  · rw [hlh, hcur]
    exact fun hn => h.blocks fun p => (hlate p).symm.trans (hn p)

theorem mem_absorb {lh : List Nat} {b c : Nat} :
    c ∈ (if b ∈ lh then lh else lh ++ [b]) ↔ c ∈ lh ∨ c = b := by
  split
  · rename_i hb
    constructor
    · exact Or.inl
    · rintro (h | rfl)
      · exact h
      · exact hb
  · simp

theorem length_lh {s : State P} (h : LhInv s) (hlate : ∀ q, (s.pc q).late = false) :
    s.lh.length = (s.cur.map Write.blockno).dedup.length := by
  apply List.Perm.length_eq
  apply (List.perm_ext_iff_of_nodup h.nodup (List.nodup_dedup _)).mpr
  intro b
  rw [h.blocks hlate b, List.mem_dedup]

variable [DecidableEq P] {g : Geometry} {s t : State P} {a : Act P}

theorem lhInv_append (hi : Inv s) (h : LhInv s) {p : P} {b : Nat} (at_ : s.pc p = .logAppend b)
    (hfit : s.lh.idxOf b < LOGSIZE) {w : Write} (hw : w.blockno = b) : LhInv ({ s with
      lh := if b ∈ s.lh then s.lh else s.lh ++ [b]
      cur := s.cur ++ [w] }.goto p (.logRelease b)) := by
  have hlate := no_late hi (committing_of_inTrans hi (p := p) (by rw [at_]; rfl))
  refine ⟨?_, ?_, fun q hq => ?_, fun _ c => ?_⟩
  · simp only [State.goto]
    split
    · exact h.nodup
    · rename_i hnot
      refine List.nodup_append.mpr ⟨h.nodup, List.nodup_singleton b, ?_⟩
      rintro x hx y hy rfl
      exact hnot (List.mem_singleton.mp hy ▸ hx)
  · simp only [State.goto]
    split
    · exact h.short
    · rename_i hnot
      rw [List.idxOf_eq_length hnot] at hfit
      simpa [Nat.succ_le_iff] using hfit
  · change (Function.update s.pc p (.logRelease b) q).late = true at hq
    rw [at_update Pc.late (by rw [at_]; rfl) q, hlate q] at hq
    cases hq
  · have hbl := h.blocks hlate c
    simp only [State.goto]
    rw [mem_absorb, hbl]
    simp [hw]

theorem lhInv_step (hi : Inv s) (h : LhInv s) (hs : step g s a = some t) : LhInv t := by
  cases (step_moves hs).2 with
  | append p b at_ fits => exact lhInv_append hi h at_ fits rfl
  | commit p at_ =>
    refine ⟨h.nodup, h.short, fun _ _ => rfl, fun hn => ?_⟩
    have hp := hn p
    simp only [State.goto, Function.update_self] at hp
    cases hp
  | clearN p at_ =>
    refine ⟨List.nodup_nil, Nat.zero_le _, fun _ _ => h.handed p (by rw [at_]; rfl), fun hn => ?_⟩
    have hp := hn p
    simp only [State.goto, Function.update_self] at hp
    cases hp
  | eraseHead p at_ =>
    have hcur := h.handed p (by rw [at_]; rfl)
    have hlh := hi.cleared p (by rw [at_]; rfl)
    exact ⟨h.nodup, h.short, fun _ _ => hcur, fun _ b => by simp [State.goto, hcur, hlh]⟩
  | acquire p k at_ =>
    obtain ⟨h1, h2⟩ := Pc.acquires_late at_
    exact h.same rfl rfl (at_update Pc.late (h2.trans h1.symm))
  | acquirePtable p k at_ =>
    obtain ⟨h1, h2⟩ := Pc.acquiresPtable_late at_
    exact h.same rfl rfl (at_update Pc.late (h2.trans h1.symm))
  | release p k at_ =>
    obtain ⟨h1, h2⟩ := Pc.releases_late at_
    exact h.same rfl rfl (at_update Pc.late (h2.trans h1.symm))
  | releasePtable p k at_ =>
    obtain ⟨h1, h2⟩ := Pc.releasesPtable_late at_
    exact h.same rfl rfl (at_update Pc.late (h2.trans h1.symm))
  | wake p k at_ =>
    obtain ⟨h1, h2⟩ := Pc.wakes_late at_
    have hne := (Pc.wakes_spec at_).2.2.2.2.2.2.2.2
    exact h.same rfl rfl (at_wake Pc.late rfl hne (h2.trans h1.symm))
  | tooBig | outsideTrans | overrun | logCommitting => exact h.same rfl rfl fun _ => rfl
  | begin p at_ | write p b v at_ | finish p at_ | kill p at_ | wait p at_ | enter p at_
  | check p b at_ | logRelease p b at_ | last p at_ | notLast p at_ | skip p at_
  | writeLog p tail at_ | logged p tail at_ | writeHead p at_ | install p tail at_
  | installed p tail at_ | doneClear p at_ =>
    exact h.same rfl rfl (at_update Pc.late (by rw [at_]; rfl))

end BossOs.Log
