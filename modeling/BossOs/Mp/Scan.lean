import BossOs.Mp.Model

/-!
# When the scan ends

The loop of `mpinit` moves on only past entries it knows. It ends exactly on the tables that
are a sequence of such entries, and then with no more processors than `cpus` has room for.
-/

namespace BossOs.Mp

open Lib Lib.Memory

def entrySize (type : UInt8) : Option UInt32 :=
  if type = MPPROC then some 20
  else if type = MPIOAPIC ∨ type = MPBUS ∨ type = MPIOINTR ∨ type = MPLINTR then some 8
  else none

/-- From `p` to `e` there is one known entry after the other. -/
inductive Entries (m : Memory) (e : UInt32) : UInt32 → Prop where
  | nil {p : UInt32} : ¬ p < e → Entries m e p
  | cons {p k : UInt32} : p < e → entrySize (m p) = some k → Entries m e (p + k) → Entries m e p

inductive Met (m : Memory) (e : UInt32) : UInt32 → UInt32 → Prop where
  | refl (p : UInt32) : Met m e p p
  | next {p k q : UInt32} : p < e → entrySize (m p) = some k → Met m e (p + k) q → Met m e p q

variable {m : Memory} {e p k : UInt32} {s t : Scan}

theorem entrySize_cases (h : entrySize (m p) = some k) : k = 8 ∨ k = 20 := by
  unfold entrySize at h
  split at h
  · cases h
    exact Or.inr rfl
  · split at h
    · cases h
      exact Or.inl rfl
    · cases h

theorem entries_iff (htop : e.toNat + 20 ≤ 2 ^ 32) :
    Entries m e p ↔ ∀ q, Met m e p q → q < e → (entrySize (m q)).isSome := by
  constructor
  · intro h
    induction h with
    | nil hge =>
      intro q hq hlt
      cases hq with
      | refl => exact absurd hlt hge
      | next hp => exact absurd hp hge
    | cons hlt hk _ ih =>
      intro q hq hqe
      cases hq with
      | refl =>
        rw [hk]
        rfl
      | next _ hk' hq =>
        rw [hk] at hk'
        cases hk'
        exact ih q hq hqe
  · intro h
    induction hn : e.toNat - p.toNat using Nat.strong_induction_on generalizing p with
    | _ n ih =>
      by_cases hlt : p < e
      · obtain ⟨k, hk⟩ := Option.isSome_iff_exists.mp (h p (.refl p) hlt)
        apply Entries.cons hlt hk
        rw [UInt32.lt_iff_toNat_lt] at hlt
        have hadd : p.toNat + 8 ≤ (p + k).toNat := by
          rw [UInt32.toNat_add]
          rcases entrySize_cases hk with rfl | rfl
          · change _ ≤ (p.toNat + 8) % 2 ^ 32
            omega
          · change _ ≤ (p.toNat + 20) % 2 ^ 32
            omega
        refine ih _ (by omega) (fun q hq hqe => h q (.next ?_ hk hq) hqe) rfl
        rw [UInt32.lt_iff_toNat_lt]
        exact hlt
      · exact .nil hlt

theorem addCpu_le (c : Machine) (a : UInt8) (h : c.ncpu ≤ NCPU) : (c.addCpu a).ncpu ≤ NCPU := by
  unfold Machine.addCpu
  split
  · assumption
  · exact h

theorem scan_known (hlt : s.p < e) (hk : entrySize (m s.p) = some k) :
    ∃ c : Machine, scan m e s = .again ⟨s.p + k, s.ismp, c⟩ ∧
      (s.machine.ncpu ≤ NCPU → c.ncpu ≤ NCPU) := by
  unfold entrySize at hk
  rw [scan, if_pos hlt]
  split at hk
  · rename_i hproc
    cases hk
    rw [if_pos hproc]
    exact ⟨_, rfl, addCpu_le _ _⟩
  · rename_i hproc
    rw [if_neg hproc]
    split at hk
    · rename_i hother
      cases hk
      by_cases hioapic : m s.p = MPIOAPIC
      · rw [if_pos hioapic]
        exact ⟨_, rfl, fun hn => hn⟩
      · rw [if_neg hioapic, if_pos (hother.resolve_left hioapic)]
        exact ⟨_, rfl, fun hn => hn⟩
    · cases hk

theorem scan_unknown (hlt : s.p < e) (hk : entrySize (m s.p) = none) :
    scan m e s = .again ⟨s.p, false, s.machine⟩ := by
  unfold entrySize at hk
  split at hk
  · cases hk
  · rename_i hproc
    split at hk
    · cases hk
    · rename_i hother
      rw [not_or] at hother
      rw [scan, if_pos hlt, if_neg hproc, if_neg hother.1, if_neg hother.2]

theorem Entries.exits (h : Entries m e p) (hp : s.p = p) (hn : s.machine.ncpu ≤ NCPU) :
    ∃ t, Loop.Exits (scan m e) s t ∧ t.ismp = s.ismp ∧ t.machine.ncpu ≤ NCPU := by
  induction h generalizing s with
  | nil hge =>
    subst hp
    exact ⟨s, .leave (if_neg hge), rfl, hn⟩
  | cons hlt hk _ ih =>
    subst hp
    obtain ⟨c, hstep, hc⟩ := scan_known hlt hk
    obtain ⟨t, hexit, hismp, ht⟩ := ih (s := ⟨s.p + _, s.ismp, c⟩) rfl (hc hn)
    exact ⟨t, .again hstep hexit, hismp, ht⟩

theorem entries_of_exits (h : Loop.Exits (scan m e) s t) : Entries m e s.p := by
  induction h with
  | @leave s t hb =>
    apply Entries.nil
    intro hlt
    cases hk : entrySize (m s.p) with
    | none =>
      rw [scan_unknown hlt hk] at hb
      cases hb
    | some k =>
      obtain ⟨c, hstep, -⟩ := scan_known hlt hk
      rw [hstep] at hb
      cases hb
  | @again s u t hb _ ih =>
    by_cases hlt : s.p < e
    · cases hk : entrySize (m s.p) with
      | none =>
        rw [scan_unknown hlt hk] at hb
        cases hb
        exact ih
      | some k =>
        obtain ⟨c, hstep, -⟩ := scan_known hlt hk
        rw [hstep] at hb
        cases hb
        exact .cons hlt hk ih
    · exact .nil hlt

def Outcome.expected : Outcome → Prop
  | .panic msg => msg = "Didn't find a suitable machine"
  | .done c _ => c.ncpu ≤ NCPU

theorem mpinit_terminates_iff {mp conf : UInt32} (h : mpconfig m = some (mp, conf)) :
    (∃ fuel out, mpinit m fuel = some out ∧ out.expected) ↔
      Entries m (scanEnd m conf) (conf + 44) := by
  unfold mpinit
  simp only [h]
  constructor
  · rintro ⟨fuel, out, hout, -⟩
    obtain ⟨t, ht, -⟩ := Option.map_eq_some_iff.mp hout
    exact entries_of_exits (Loop.exits_of_run ht)
  · intro hentries
    obtain ⟨t, hexit, hismp, hn⟩ :=
      hentries.exits (s := scanStart m conf) rfl (Nat.zero_le _)
    obtain ⟨fuel, hrun⟩ := hexit.run
    refine ⟨fuel, .done t.machine (m (mp + 12) ≠ 0), ?_, hn⟩
    rw [hrun]
    exact congrArg some (if_pos hismp)

/-- A machine whose firmware has left the floating pointer structure at the start of the
extended BIOS data area, with the configuration table behind it. -/
def firmware (table : List UInt8) : Memory := fun x =>
  if x = P2V 0x40E then 0xC0
  else if x = P2V 0x40F then 0x9F
  else ([0x5F, 0x4D, 0x50, 0x5F, 0x10, 0xFC, 0x09, 0x00, 1, 4, 0x8B, 0, 0, 0, 0, 0] ++ table).getD
    (x - P2V 0x9FC00).toNat 0

def confHeader (length checksum : UInt8) : List UInt8 :=
  [0x50, 0x43, 0x4D, 0x50, length, 0, 4, checksum] ++ List.replicate 26 0 ++
    [1, 0, 0x00, 0x00, 0xE0, 0xFE, 0, 0, 0, 0]

def oneCpu : List UInt8 := confHeader 64 0xAD ++ List.replicate 20 0

theorem mpinit_terminates_iff_cpu : mpconfig (firmware oneCpu) = some (P2V 0x9FC00, P2V 0x9FC10) ∧
    ∃ fuel out, mpinit (firmware oneCpu) fuel = some out ∧ out.expected := by
  have hconf : mpconfig (firmware oneCpu) = some (P2V 0x9FC00, P2V 0x9FC10) := by decide +kernel
  refine ⟨hconf, (mpinit_terminates_iff hconf).mpr ?_⟩
  apply Entries.cons (k := 20) (by decide +kernel) (by decide +kernel)
  exact .nil (by decide +kernel)

def unknownEntry : List UInt8 := confHeader 52 0xB4 ++ [5, 0, 0, 0, 0, 0, 0, 0]

theorem mpinit_loops_unknown : mpconfig (firmware unknownEntry) = some (P2V 0x9FC00, P2V 0x9FC10) ∧
      ∀ fuel, mpinit (firmware unknownEntry) fuel = none := by
  have hconf : mpconfig (firmware unknownEntry) = some (P2V 0x9FC00, P2V 0x9FC10) := by
    decide +kernel
  refine ⟨hconf, fun fuel => ?_⟩
  unfold mpinit
  simp only [hconf]
  cases hrun : Loop.run (scan (firmware unknownEntry) (scanEnd (firmware unknownEntry)
      (P2V 0x9FC10))) fuel (scanStart (firmware unknownEntry) (P2V 0x9FC10)) with
  | none => rfl
  | some t =>
    exfalso
    refine Loop.not_exits (I := fun s => s.p = P2V 0x9FC10 + 44) ?_ rfl (Loop.exits_of_run hrun)
    intro s hs
    refine ⟨_, scan_unknown ?_ ?_, hs⟩
    · rw [hs]
      decide +kernel
    · rw [hs]
      decide +kernel

end BossOs.Mp
