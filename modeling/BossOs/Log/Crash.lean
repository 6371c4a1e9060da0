import BossOs.Log.Commit

/-!
# Crash atomicity

The disk of every reachable state is recoverable to the contents after the groups
whose header write reached it. The committer moves through the phases of `commit`;
everybody else leaves disk, header and finished groups alone.
-/

namespace BossOs.Log

open Lib
open Function (update update_self update_of_ne)

/-- What a run is granted: logged home blocks lie outside the log, and a group
handed to `commit` has at most `log.size - 1` distinct blocks. -/
def Fits {P : Type} (g : Geometry) (s : State P) : Act P → Prop
  | .write _ b _ => ¬ g.InLog b
  | .run p => s.pc p = .commitTest → (s.cur.map Write.blockno).dedup.length ≤ g.size - 1
  | _ => True

instance {P : Type} (g : Geometry) (s : State P) (a : Act P) : Decidable (Fits g s a) :=
  match a with
  | .write _ b _ => inferInstanceAs (Decidable (¬ g.InLog b))
  | .run p => inferInstanceAs (Decidable (s.pc p = .commitTest → _ ≤ g.size - 1))
  | .begin _ | .finish _ | .kill _ => .isTrue trivial

namespace Pc

def pending : Pc → Option Nat
  | .logCheck b | .logAcquire b | .logAppend b => some b
  | _ => none

theorem inTrans_of_pending {k : Pc} {b : Nat} (h : k.pending = some b) : k.inTrans = true := by
  cases k <;> first | rfl | cases h

theorem acquires_pending {k k' : Pc} (h : k.acquires = some k') : k'.pending = k.pending := by
  cases k <;> cases h <;> rfl

theorem acquiresPtable_pending {k k' : Pc} (h : k.acquiresPtable = some k') :
    k'.pending = k.pending := by
  cases k <;> cases h <;> rfl

theorem releasesPtable_pending {k k' : Pc} (h : k.releasesPtable = some k') :
    k'.pending = k.pending := by
  cases k <;> cases h <;> rfl

theorem wakes_pending {k k' : Pc} (h : k.wakes = some k') : k'.pending = k.pending := by
  cases k <;> cases h <;> rfl

theorem releases_pending {k k' : Pc} (h : k.releases = some k') : k'.pending = k.pending := by
  cases k with
  | endRelease c =>
    cases h
    cases c <;> rfl
  | _ => cases h <;> rfl

end Pc

variable {P : Type}

/-- Disk, cache and header, given the protocol's own invariants. -/
structure DiskInv (g : Geometry) (d : Nat → Block) (s : State P) : Prop where
  core : CoreInv g s.core
  pending : ∀ p b, (s.pc p).pending = some b → ¬ g.InLog b ∧ b < 2 ^ 32
  cacheHome : ∀ b, ¬ g.InLog b → s.dev.cache b = contents d (s.groups.flatten ++ s.cur) b ∨
    ∃ p, (s.pc p).pending = some b
  phase : ∀ p, Phase g d s.core (s.pc p)
  calm : (∀ p, (s.pc p).late = false) → Calm g d s.core

theorem diskInv_init {g : Geometry} {d : Nat → Block} (h0 : (d g.start).word 0 = 0) :
    DiskInv g d (init P d) where
  core := ⟨fun _ _ => rfl, fun b h => by cases h⟩
  pending := fun p b h => by cases h
  cacheHome := fun b _ => Or.inl rfl
  phase := fun p => trivial
  calm := fun _ => ⟨rfl, h0, fun b _ => rfl⟩

section Facts
variable {g : Geometry} {d : Nat → Block} {s t : State P}

theorem no_pending (hi : Inv s) (hc : s.committing = true) (q : P) : (s.pc q).pending = none := by
  cases hq : (s.pc q).pending with
  | none => rfl
  | some b =>
    have h := committing_of_inTrans hi (Pc.inTrans_of_pending hq)
    rw [hc] at h
    cases h

theorem DiskInv.good (hi : Inv s) (hd : DiskInv g d s) {p : P} {k : Pc} (at_ : s.pc p = k)
    (hk : k.commits = true) : Good g d s.core k := by
  have hp : (s.pc p).commits = true := by rw [at_]; exact hk
  refine ⟨hd.core, fun b hb => ?_, at_ ▸ hd.phase p, fun hl => hd.calm fun q => ?_⟩
  · rcases hd.cacheHome b hb with h | ⟨q, hq⟩
    · exact h
    · rw [no_pending hi (committing_of_commits hi hp) q] at hq
      cases hq
  · by_cases hq : q = p
    · rw [hq, at_, hl]
    · exact no_late_of_commits hi hp hq

theorem DiskInv.recoverable (hd : DiskInv g d s) :
    Recoverable g s.dev.disk (contents d (s.groups.take s.committed).flatten) := by
  have hall : s.groups.length = s.committed → s.groups.take s.committed = s.groups := fun h => by
    rw [← h, List.take_length]
  by_cases hl : ∃ p, (s.pc p).late = true
  · obtain ⟨p, hp⟩ := hl
    have hph := hd.phase p
    cases hk : s.pc p with
    | writeLog tail | writeHead =>
      rw [hk] at hph
      exact .of_clean hph.1.clean hph.1.settled
    | installTrans tail | clearN =>
      rw [hk] at hph
      rw [hall hph.1.all]
      exact hph.1.disk
    | eraseHead =>
      rw [hk] at hph
      rw [hall hph.all]
      exact hph.disk
    | _ =>
      rw [hk] at hp
      cases hp
  · have hcalm := hd.calm fun q => by simpa using fun h => hl ⟨q, h⟩
    rw [hall hcalm.all]
    exact .of_clean hcalm.clean hcalm.settled

theorem DiskInv.quiet (hd : DiskInv g d s) (hcore : t.core = s.core)
    (hpend : ∀ q, (t.pc q).pending = (s.pc q).pending)
    (hlate : ∀ q, t.pc q = s.pc q ∨ ((s.pc q).late = false ∧ (t.pc q).late = false)) :
    DiskInv g d t := by
  obtain ⟨hdev, _, hcur, hgroups, _⟩ : t.dev = s.dev ∧ t.lh = s.lh ∧ t.cur = s.cur ∧
      t.groups = s.groups ∧ t.committed = s.committed := by
    simpa [State.core] using hcore
  refine ⟨hcore ▸ hd.core, ?_, ?_, ?_, ?_⟩
  · intro p b hp
    exact hd.pending p b ((hpend p).symm.trans hp)
  · intro b hb
    rw [hdev, hcur, hgroups]
    rcases hd.cacheHome b hb with h | ⟨p, hp⟩
    · exact Or.inl h
    · exact Or.inr ⟨p, (hpend p).trans hp⟩
  · intro p
    rw [hcore]
    rcases hlate p with h | h
    · rw [h]
      exact hd.phase p
    · exact phase_of_not_late h.2
  · intro hn
    rw [hcore]
    apply hd.calm
    intro q
    rcases hlate q with h | h
    · rw [← h]
      exact hn q
    · exact h.1

end Facts

section Steps
variable [DecidableEq P] {g : Geometry} {d : Nat → Block} {s t : State P}

theorem DiskInv.quietMove (hd : DiskInv g d s) (hcore : t.core = s.core) {p : P} {k : Pc}
    (hpc : t.pc = update s.pc p k) (hpend : k.pending = (s.pc p).pending)
    (hlate : (s.pc p).late = false ∧ k.late = false) : DiskInv g d t := by
  refine hd.quiet hcore ?_ fun q => ?_
  · rw [hpc]
    exact at_update Pc.pending hpend
  · rw [hpc]
    by_cases hq : q = p
    · subst hq
      rw [update_self]
      exact Or.inr hlate
    · rw [update_of_ne hq]
      exact Or.inl rfl

theorem DiskInv.wake (hd : DiskInv g d s) {p : P} {k : Pc} (at_ : (s.pc p).wakes = some k) :
    DiskInv g d ({ s with pc := wakeup1 s.pc }.releasePtable p k) := by
  have hne := (Pc.wakes_spec at_).2.2.2.2.2.2.2.2
  refine hd.quiet rfl (at_wake Pc.pending rfl hne (Pc.wakes_pending at_)) fun q => ?_
  change update (wakeup1 s.pc) p k q = _ ∨
    _ ∧ (update (wakeup1 s.pc) p k q).late = false
  by_cases hq : q = p
  · subst hq
    rw [update_self]
    exact Or.inr (Pc.wakes_late at_)
  · rw [update_of_ne hq, wakeup1]
    split
    · rename_i ha
      rw [ha]
      exact Or.inr ⟨rfl, rfl⟩
    · exact Or.inl rfl

theorem DiskInv.commitMove (hi : Inv s) {p : P} {k : Pc} (hp : (s.pc p).commits = true)
    (hpc : t.pc = update s.pc p k) (hpend : k.pending = none)
    (hgood : Good g d t.core k) : DiskInv g d t := by
  have hc := committing_of_commits hi hp
  refine ⟨hgood.core, ?_, fun b hb => Or.inl (hgood.cache b hb), ?_, ?_⟩
  · intro q b hq
    rw [hpc, at_update Pc.pending (hpend.trans (no_pending hi hc p).symm), no_pending hi hc q] at hq
    cases hq
  · intro q
    rw [hpc]
    by_cases hqp : q = p
    · subst hqp
      rw [update_self]
      exact hgood.phase
    · rw [update_of_ne hqp]
      exact phase_of_not_late (no_late_of_commits hi hp hqp)
  · intro hn
    have hk := hn p
    rw [hpc, update_self] at hk
    exact hgood.calm hk

theorem DiskInv.transMove (hi : Inv s) (hd : DiskInv g d s) {p : P} {k : Pc}
    (hp : (s.pc p).inTrans = true) (hpc : t.pc = update s.pc p k) (hk : k.late = false)
    (hcore : CoreInv g t.core) (hpend : ∀ b, k.pending = some b → ¬ g.InLog b ∧ b < 2 ^ 32)
    (hcache : ∀ b, ¬ g.InLog b → t.dev.cache b = contents d (t.groups.flatten ++ t.cur) b ∨
      k.pending = some b ∨ ∃ q, q ≠ p ∧ (s.pc q).pending = some b)
    (hdisk : t.dev.disk = s.dev.disk) (hgroups : t.groups = s.groups)
    (hcom : t.committed = s.committed) : DiskInv g d t := by
  have hlate := no_late hi (committing_of_inTrans hi hp)
  have hcalm := hd.calm hlate
  refine ⟨hcore, ?_, ?_, ?_, fun _ => ?_⟩
  · intro q b hq
    rw [hpc] at hq
    by_cases hqp : q = p
    · subst hqp
      rw [update_self] at hq
      exact hpend b hq
    · rw [update_of_ne hqp] at hq
      exact hd.pending q b hq
  · intro b hb
    rw [hpc]
    rcases hcache b hb with h | h | ⟨q, hqp, hq⟩
    · exact Or.inl h
    · exact Or.inr ⟨p, by rw [update_self]; exact h⟩
    · exact Or.inr ⟨q, by rw [update_of_ne hqp]; exact hq⟩
  · intro q
    apply phase_of_not_late
    rw [hpc, at_update Pc.late (hk.trans (hlate p).symm)]
    exact hlate q
  · refine ⟨?_, ?_, ?_⟩
    · exact (congrArg List.length hgroups).trans (hcalm.all.trans hcom.symm)
    · simp only [State.core, hdisk]
      exact hcalm.clean
    · simp only [State.core, hdisk, hgroups]
      exact hcalm.settled

theorem diskInv_write (hi : Inv s) (hd : DiskInv g d s) {p : P} {b : Nat} {v : Block}
    (at_ : s.pc p = .inOp) (hb : ¬ g.InLog b) (hlt : b < 2 ^ 32) :
    DiskInv g d ({ s with dev := s.dev.modify b v, buf := update s.buf b (some p) }.goto p
      (.logCheck b)) := by
  refine hd.transMove hi (p := p) (k := .logCheck b) (by rw [at_]; rfl) rfl rfl
    ⟨fun c hin => ?_, hd.core.home⟩ ?_ (fun c hout => ?_) rfl rfl rfl
  · have hne : c ≠ b := fun he => hb (he ▸ hin)
    exact (update_of_ne hne _ _).trans (hd.core.cacheLog c hin)
  · intro c hc
    cases hc
    exact ⟨hb, hlt⟩
  · change update s.dev.cache b v c = _ ∨ _
    by_cases hcb : c = b
    · exact Or.inr (Or.inl (by rw [hcb]; rfl))
    · rw [update_of_ne hcb]
      rcases hd.cacheHome c hout with h | ⟨q, hq⟩
      · exact Or.inl h
      · refine Or.inr (Or.inr ⟨q, ?_, hq⟩)
        rintro rfl
        rw [at_] at hq
        cases hq

theorem diskInv_append (hi : Inv s) (hd : DiskInv g d s) {p : P} {b : Nat}
    (at_ : s.pc p = .logAppend b) : DiskInv g d ({ s with
      lh := if b ∈ s.lh then s.lh else s.lh ++ [b]
      cur := s.cur ++ [Write.mk (s.op p) b (s.dev.bread b)] }.goto p (.logRelease b)) := by
  have hb := hd.pending p b (by rw [at_]; rfl)
  refine hd.transMove hi (p := p) (k := .logRelease b) (by rw [at_]; rfl) rfl rfl
    ⟨hd.core.cacheLog, fun x hx => ?_⟩ (fun c hc => by cases hc) (fun c hout => ?_) rfl rfl rfl
  · rcases mem_absorb.mp hx with hx | rfl
    · exact hd.core.home x hx
    · exact hb
  · change s.dev.cache c = contents d (s.groups.flatten ++ (s.cur ++ [_])) c ∨ _
    rw [← List.append_assoc, contents_snoc]
    by_cases hcb : c = b
    · subst hcb
      rw [update_self]
      exact Or.inl rfl
    · rw [update_of_ne hcb]
      rcases hd.cacheHome c hout with h | ⟨q, hq⟩
      · exact Or.inl h
      · refine Or.inr (Or.inr ⟨q, ?_, hq⟩)
        rintro rfl
        rw [at_] at hq
        cases hq
        exact hcb rfl

theorem diskInv_commit (hi : Inv s) (hl : LhInv s) (hd : DiskInv g d s) {p : P}
    (at_ : s.pc p = .commitTest) (hne : s.lh ≠ [])
    (hfit : (s.cur.map Write.blockno).dedup.length ≤ g.size - 1) :
    DiskInv g d ({ s with groups := s.groups ++ [s.cur], cur := [] }.goto p (.writeLog 0)) := by
  have hp : (s.pc p).commits = true := by rw [at_]; rfl
  have hlate := no_late_of_commitTest hi at_
  refine .commitMove hi hp rfl rfl (good_commit (hd.good hi at_ rfl) hne ?_ fun w hw => ?_)
  · rw [← length_lh hl hlate] at hfit
    exact hfit
  · exact (hl.blocks hlate _).mpr (List.mem_map_of_mem hw)

theorem diskInv_step {a : Act P} (hi : Inv s) (hl : LhInv s) (hd : DiskInv g d s)
    (hfit : Fits g s a) (h : step g s a = some t) : DiskInv g d t := by
  cases (step_moves h).2 with
  | write p b v at_ free word => exact diskInv_write hi hd at_ hfit word
  | append p b at_ fits => exact diskInv_append hi hd at_
  | commit p at_ some_ => exact diskInv_commit hi hl hd at_ some_ (hfit at_)
  | writeLog p tail at_ lt =>
    exact .commitMove hi (by rw [at_]; rfl) rfl rfl (good_writeLog (hd.good hi at_ rfl) lt)
  | logged p tail at_ ge =>
    exact .commitMove hi (by rw [at_]; rfl) rfl rfl (good_logged (hd.good hi at_ rfl) ge)
  | writeHead p at_ =>
    exact .commitMove hi (by rw [at_]; rfl) rfl rfl (good_writeHead (hd.good hi at_ rfl) hl.short)
  | install p tail at_ lt =>
    exact .commitMove hi (by rw [at_]; rfl) rfl rfl (good_install (hd.good hi at_ rfl) lt)
  | installed p tail at_ ge =>
    exact .commitMove hi (by rw [at_]; rfl) rfl rfl (good_installed (hd.good hi at_ rfl) ge)
  | clearN p at_ =>
    exact .commitMove hi (by rw [at_]; rfl) rfl rfl (good_clearN (hd.good hi at_ rfl))
  | eraseHead p at_ =>
    exact .commitMove hi (by rw [at_]; rfl) rfl rfl (good_eraseHead (hd.good hi at_ rfl))
  | acquire p k at_ => exact hd.quietMove rfl rfl (Pc.acquires_pending at_) (Pc.acquires_late at_)
  | acquirePtable p k at_ =>
    exact hd.quietMove rfl rfl (Pc.acquiresPtable_pending at_) (Pc.acquiresPtable_late at_)
  | release p k at_ => exact hd.quietMove rfl rfl (Pc.releases_pending at_) (Pc.releases_late at_)
  | releasePtable p k at_ =>
    exact hd.quietMove rfl rfl (Pc.releasesPtable_pending at_) (Pc.releasesPtable_late at_)
  | wake p k at_ => exact hd.wake at_
  | tooBig | outsideTrans | overrun | logCommitting =>
    exact hd.quiet rfl (fun _ => rfl) (fun _ => Or.inl rfl)
  | begin p at_ | finish p at_ | kill p at_ | wait p at_ | enter p at_ | check p b at_
  | logRelease p b at_ | last p at_ | notLast p at_ | skip p at_ | doneClear p at_ =>
    exact hd.quietMove rfl rfl (by rw [at_]; rfl) (by rw [at_]; exact ⟨rfl, rfl⟩)

end Steps

/-- No operation has writes in two groups, nor in a finished group and the open one. -/
structure HistInv (s : State P) : Prop where
  numbered : ∀ w ∈ s.groups.flatten ++ s.cur, w.op < s.nops
  open_ : ∀ q, (s.pc q).inTrans = true → s.op q < s.nops ∧ ∀ w ∈ s.groups.flatten, w.op ≠ s.op q
  split : ∀ v ∈ s.cur, ∀ w ∈ s.groups.flatten, w.op ≠ v.op
  apart : s.groups.Pairwise fun x y => ∀ w ∈ x, ∀ v ∈ y, v.op ≠ w.op
  nonempty : ∀ x ∈ s.groups, x ≠ []

section History
variable {g : Geometry} {d : Nat → Block} {s t : State P}

theorem histInv_init : HistInv (init P d) where
  numbered := fun w h => by simp [init] at h
  open_ := fun q h => by cases h
  split := fun v h => by simp [init] at h
  apart := List.Pairwise.nil
  nonempty := fun x h => by simp [init] at h

theorem HistInv.same (hh : HistInv s) (hcur : t.cur = s.cur) (hgroups : t.groups = s.groups)
    (hop : t.op = s.op) (hn : t.nops = s.nops)
    (htr : ∀ q, (t.pc q).inTrans = true → (s.pc q).inTrans = true) : HistInv t := by
  refine ⟨?_, ?_, ?_, ?_, ?_⟩
  · rw [hcur, hgroups, hn]
    exact hh.numbered
  · rw [hop, hn, hgroups]
    exact fun q hq => hh.open_ q (htr q hq)
  · rw [hcur, hgroups]
    exact hh.split
  · rw [hgroups]
    exact hh.apart
  · rw [hgroups]
    exact hh.nonempty

variable [DecidableEq P]

theorem inTrans_update {pc : P → Pc} {p : P} {k : Pc}
    (hk : k.inTrans = true → (pc p).inTrans = true) (q : P)
    (hq : (update pc p k q).inTrans = true) : (pc q).inTrans = true := by
  by_cases hqp : q = p
  · subst hqp
    rw [update_self] at hq
    exact hk hq
  · rwa [update_of_ne hqp] at hq

theorem histInv_enter (hh : HistInv s) {p : P} : HistInv ({ s with
    outstanding := s.outstanding + 1
    op := update s.op p s.nops
    nops := s.nops + 1 }.goto p .beginRelease) := by
  refine ⟨fun w hw => Nat.lt_succ_of_lt (hh.numbered w hw), fun q hq => ?_, hh.split, hh.apart,
    hh.nonempty⟩
  change (update s.pc p Pc.beginRelease q).inTrans = true at hq
  change update s.op p s.nops q < s.nops + 1 ∧
    ∀ w ∈ s.groups.flatten, w.op ≠ update s.op p s.nops q
  by_cases hqp : q = p
  · subst hqp
    rw [update_self]
    refine ⟨Nat.lt_succ_self _, fun w hw he => ?_⟩
    have hlt := hh.numbered w (List.mem_append_left _ hw)
    omega
  · rw [update_of_ne hqp] at hq ⊢
    obtain ⟨h1, h2⟩ := hh.open_ q hq
    exact ⟨Nat.lt_succ_of_lt h1, h2⟩

theorem histInv_append (hh : HistInv s) {p : P} {b : Nat} (at_ : s.pc p = .logAppend b)
    {lh : List Nat} : HistInv ({ s with
      lh := lh
      cur := s.cur ++ [Write.mk (s.op p) b (s.dev.bread b)] }.goto p (.logRelease b)) := by
  obtain ⟨hlt, hne⟩ := hh.open_ p (by rw [at_]; rfl)
  refine ⟨fun w hw => ?_, fun q hq => hh.open_ q ?_, fun v hv w hw => ?_, hh.apart, hh.nonempty⟩
  · change w ∈ s.groups.flatten ++ (s.cur ++ [_]) at hw
    rw [← List.append_assoc] at hw
    rcases List.mem_append.mp hw with hw | hw
    · exact hh.numbered w hw
    · rw [List.mem_singleton.mp hw]
      exact hlt
  · exact inTrans_update (by rw [at_]; exact fun _ => rfl) q hq
  · rcases List.mem_append.mp hv with hv | hv
    · exact hh.split v hv w hw
    · rw [List.mem_singleton.mp hv]
      exact hne w hw

theorem histInv_commit (hi : Inv s) (hl : LhInv s) (hh : HistInv s) {p : P}
    (at_ : s.pc p = .commitTest) (hne : s.lh ≠ []) :
    HistInv ({ s with groups := s.groups ++ [s.cur], cur := [] }.goto p (.writeLog 0)) := by
  have hp : (s.pc p).commits = true := by rw [at_]; rfl
  have hcount := hi.count
  rw [hi.quiet (committing_of_commits hi hp)] at hcount
  refine ⟨fun w hw => hh.numbered w (by simpa [State.goto] using hw), fun q hq => ?_,
    fun v hv => (by cases hv), ?_, fun x hx => ?_⟩
  · have hq' := inTrans_update (k := .writeLog 0) (fun h => by cases h) q hq
    rw [hcount.not_at q] at hq'
    cases hq'
  · refine List.pairwise_append.mpr ⟨hh.apart, List.pairwise_singleton _ _, ?_⟩
    intro x hx y hy w hw v hv
    rw [List.mem_singleton.mp hy] at hv
    exact (hh.split v hv w (List.mem_flatten.mpr ⟨x, hx, hw⟩)).symm
  · rcases List.mem_append.mp hx with hx | hx
    · exact hh.nonempty x hx
    · rw [List.mem_singleton.mp hx]
      rintro hnil
      obtain ⟨b, hb⟩ := List.exists_mem_of_ne_nil _ hne
      have hmem := (hl.blocks (no_late_of_commitTest hi at_) b).mp hb
      rw [hnil] at hmem
      cases hmem

theorem histInv_step {a : Act P} (hi : Inv s) (hl : LhInv s) (hh : HistInv s)
    (h : step g s a = some t) : HistInv t := by
  cases (step_moves h).2 with
  | enter p => exact histInv_enter hh
  | append p b at_ => exact histInv_append hh at_
  | commit p at_ some_ => exact histInv_commit hi hl hh at_ some_
  | acquire p k at_ =>
    exact hh.same rfl rfl rfl rfl (inTrans_update (by rw [(Pc.acquires_spec at_).2.2.1]; exact id))
  | acquirePtable p k at_ =>
    exact hh.same rfl rfl rfl rfl
      (inTrans_update (by rw [(Pc.acquiresPtable_spec at_).2.2.1]; exact id))
  | release p k at_ =>
    exact hh.same rfl rfl rfl rfl (inTrans_update (by rw [(Pc.releases_spec at_).2.2.2.1]; exact id))
  | releasePtable p k at_ =>
    exact hh.same rfl rfl rfl rfl
      (inTrans_update (by rw [(Pc.releasesPtable_spec at_).2.2.2.1]; exact id))
  | wake p k at_ =>
    obtain ⟨_, _, _, hk, _, _, _, _, hne⟩ := Pc.wakes_spec at_
    exact hh.same rfl rfl rfl rfl fun q hq => (at_wake Pc.inTrans rfl hne hk q).symm.trans hq
  | tooBig | outsideTrans | overrun | logCommitting => exact hh.same rfl rfl rfl rfl fun _ => id
  | begin p at_ | write p b v at_ | finish p at_ | kill p at_ | wait p at_ | check p b at_
  | logRelease p b at_ | skip p at_ | writeLog p tail at_ | logged p tail at_ | writeHead p at_
  | install p tail at_ | installed p tail at_ | clearN p at_ | eraseHead p at_ | doneClear p at_ =>
    exact hh.same rfl rfl rfl rfl (inTrans_update (by rw [at_]; exact id))
  | last p at_ | notLast p at_ =>
    exact hh.same rfl rfl rfl rfl (inTrans_update (by rw [at_]; exact fun _ => rfl))

theorem crash_invariants {acts : List (Act P)} (h0 : (d g.start).word 0 = 0)
    (h : Run (Fits g) (step g) (init P d) acts s) :
    (Inv s ∧ LhInv s) ∧ DiskInv g d s ∧ HistInv s := by
  refine h.invariant (I := fun s => (Inv s ∧ LhInv s) ∧ DiskInv g d s ∧ HistInv s) ?_
    ⟨⟨inv_init d, lhInv_init d⟩, diskInv_init h0, histInv_init⟩
  rintro s a t ⟨⟨hi, hl⟩, hd, hh⟩ hfit hs
  exact ⟨⟨inv_step hi hs, lhInv_step hi hl hs⟩, diskInv_step hi hl hd hfit hs,
    histInv_step hi hl hh hs⟩

/-- Crash anywhere, recover with any number of further crashes: the home blocks hold
the first `committed` groups and nothing else, the log is empty, and every operation
is in those groups with all its writes or with none. -/
theorem crash_atomicity {acts : List (Act P)} {racts : List RecoverAct} {r : Recovery}
    (h0 : (d g.start).word 0 = 0) (h : Run (Fits g) (step g) (init P d) acts s)
    (hr : Run (fun _ _ => True) (recoverStep g) (boot s.dev) racts r) (hdone : r.pc = .done) :
    (∀ b, ¬ g.InLog b → r.dev.disk b = contents d (s.groups.take s.committed).flatten b) ∧
    (r.dev.disk g.start).word 0 = 0 ∧ (∀ x ∈ s.groups, x ≠ []) ∧
    ∀ w ∈ (s.groups.take s.committed).flatten,
      (∀ v ∈ (s.groups.drop s.committed).flatten ++ s.cur, v.op ≠ w.op) ∧
      ∀ q, (s.pc q).inTrans = true → s.op q ≠ w.op := by
  obtain ⟨_, hd, hh⟩ := crash_invariants h0 h
  obtain ⟨hs, hword⟩ := recovered hd.recoverable hr hdone
  refine ⟨hs, hword, hh.nonempty, fun w hw => ?_⟩
  obtain ⟨x, hx, hwx⟩ := List.mem_flatten.mp hw
  have hwall : w ∈ s.groups.flatten := List.mem_flatten.mpr ⟨x, List.mem_of_mem_take hx, hwx⟩
  refine ⟨fun v hv => ?_, fun q hq => ((hh.open_ q hq).2 w hwall).symm⟩
  rcases List.mem_append.mp hv with hv | hv
  · obtain ⟨y, hy, hvy⟩ := List.mem_flatten.mp hv
    have hap := hh.apart
    rw [← List.take_append_drop s.committed s.groups] at hap
    exact (List.pairwise_append.mp hap).2.2 x hx y hy w hwx v hvy
  · exact (hh.split v hv w hwall).symm

end History

def loggedOnce : List (Act (Fin 1)) :=
  [.begin 0, .run 0, .run 0, .run 0, .write 0 40 (Bytes.zero.setWord 0 7), .run 0, .run 0, .run 0,
      .run 0,
    .finish 0, .run 0, .run 0, .run 0, .run 0, .run 0, .run 0, .run 0]

def recoverTwice : List RecoverAct :=
  [.run, .run, .crash, .run, .run, .run, .run, .run]

theorem crash_atomicity_after_header : ∃ (s : State (Fin 1)) (r : Recovery),
    s.committed = 1 ∧ s.groups.length = 1 ∧ r.pc = .done ∧ (∀ b, ¬ (Geometry.mk 2 30).InLog b →
      r.dev.disk b = contents (fun _ => Bytes.zero) (s.groups.take s.committed).flatten b) := by
  obtain ⟨s, hs, hf⟩ : ∃ s, Run (Fits ⟨2, 30⟩) (step ⟨2, 30⟩)
      (init (Fin 1) fun _ => Bytes.zero) loggedOnce s ∧ (s.committed, s.groups.length,
        (exec (fun _ _ => True) (recoverStep ⟨2, 30⟩) (boot s.dev) recoverTwice).map
          Recovery.pc) = (1, 1, some .done) :=
    Run.of_exec_map (by decide +kernel)
  simp only [Prod.mk.injEq] at hf
  obtain ⟨hcom, hlen, hpc⟩ := hf
  obtain ⟨r, hr, hdone⟩ := Run.of_exec_map hpc
  exact ⟨s, r, hcom, hlen, hdone,
    (crash_atomicity (by decide +kernel) hs hr hdone).1⟩

end BossOs.Log
