import BossOs.Vm.System

/-!
# Copying through page tables that are there

The argument copying of `exec` with one difference: where `walkpgdir` finds no page
table, the machine stops instead of reading through the null pointer. Where the checked
calls return, the calls of the source return the same.
-/

namespace BossOs.Vm

open Lib

section
variable (im : Image)

def uva2kaChecked (pgdir uva : Nat) : M (Option Nat) := do
  match ← walkpgdir pgdir uva false with
  | none => Prog.fail .fault
  | some pte =>
    let e ← load pte
    pure (if present e && user e then some (PTE_ADDR e) else none)

def copyoutFromChecked (pgdir : Nat) : Nat → Nat → List UInt8 → M Bool
  | 0, _, _ => pure true
  | k + 1, va, buf =>
    if buf.length = 0 then pure true
    else do
      let va0 := PGROUNDDOWN va
      match ← uva2kaChecked pgdir va0 with
      | none => pure false
      | some pa0 =>
        let n := min (PGSIZE - (va - va0)) buf.length
        kernelStore im pa0 (va - va0) (buf.take n)
        copyoutFromChecked pgdir k ((va0 + PGSIZE) % 2 ^ 32) (buf.drop n)

def copyoutChecked (pgdir va : Nat) (p : List UInt8) : M Bool :=
  copyoutFromChecked im pgdir p.length va p

def pushStringsChecked (pgdir : Nat) : List (List UInt8) → Nat → Nat → List Nat →
    M (Option (Nat × List Nat))
  | [], _, sp, ustack => pure (some (sp, ustack))
  | s :: argv, argc, sp, ustack =>
    if MAXARG ≤ argc then pure none
    else do
      let sp := (sp + (2 ^ 32 - (s.length + 1) % 2 ^ 32)) % 2 ^ 32 / 4 * 4
      if ← copyoutChecked im pgdir sp (s ++ [0]) then
        pushStringsChecked pgdir argv (argc + 1) sp (ustack ++ [sp])
      else pure none

def pushArgsChecked (argv : List (List UInt8)) (pgdir sz : Nat) : M (Option Nat) := do
  match ← pushStringsChecked im pgdir argv 0 sz [] with
  | none => pure none
  | some (sp, addrs) =>
    let argc := addrs.length
    let ustack := [0xffffffff, argc, (sp + (2 ^ 32 - (argc + 1) * 4)) % 2 ^ 32] ++ addrs ++ [0]
    let sp := (sp + (2 ^ 32 - (3 + argc + 1) * 4)) % 2 ^ 32
    if ← copyoutChecked im pgdir sp (ustack.flatMap (toLe 4)) then pure (some sp) else pure none

end

variable {im : Image} (cur d : Nat)

theorem uva2kaChecked_refines (uva : Nat) :
    Prog.Refines (uva2kaChecked d uva) (uva2ka cur d uva) := by
  intro m a m' hrun
  unfold uva2kaChecked at hrun
  obtain ⟨pte, m₁, hwalk, hrun⟩ := Prog.run_bind_ok.mp hrun
  cases pte with
  | none => cases hrun
  | some pte =>
    obtain ⟨e, m₂, hload, hrun⟩ := Prog.run_bind_ok.mp hrun
    unfold uva2ka userEntry
    exact Prog.run_bind_ok.mpr ⟨e, m₂, Prog.run_bind_ok.mpr ⟨some pte, m₁, hwalk, hload⟩, hrun⟩

theorem copyoutFromChecked_refines (k : Nat) : ∀ (va : Nat) (buf : List UInt8),
    Prog.Refines (copyoutFromChecked im d k va buf) (copyoutFrom im cur d k va buf) := by
  induction k with
  | zero =>
    intro va buf
    exact .refl _
  | succ k ih =>
    intro va buf
    unfold copyoutFromChecked copyoutFrom
    apply Prog.Refines.ite (.refl _)
    apply Prog.Refines.bind (uva2kaChecked_refines cur d _)
    intro pa
    cases pa with
    | none => exact .refl _
    | some pa => exact Prog.Refines.bind (.refl _) fun _ => ih _ _

theorem copyoutChecked_refines (va : Nat) (buf : List UInt8) :
    Prog.Refines (copyoutChecked im d va buf) (copyout im cur d va buf) :=
  copyoutFromChecked_refines cur d _ _ _

theorem pushStringsChecked_refines (argv : List (List UInt8)) : ∀ (argc sp : Nat) (us : List Nat),
    Prog.Refines (pushStringsChecked im d argv argc sp us)
      (pushStrings im cur d argv argc sp us) := by
  induction argv with
  | nil =>
    intro argc sp us
    exact .refl _
  | cons s argv ih =>
    intro argc sp us
    unfold pushStringsChecked pushStrings
    apply Prog.Refines.ite (.refl _)
    apply Prog.Refines.bind (copyoutChecked_refines cur d _ _)
    intro ok
    exact Prog.Refines.ite (ih _ _ _) (.refl _)

theorem pushArgsChecked_refines (argv : List (List UInt8)) (sz : Nat) :
    Prog.Refines (pushArgsChecked im argv d sz) (pushArgs im argv cur d sz) := by
  unfold pushArgsChecked pushArgs
  apply Prog.Refines.bind (pushStringsChecked_refines cur d argv _ _ _)
  intro r
  cases r with
  | none => exact .refl _
  | some q =>
    apply Prog.Refines.bind (copyoutChecked_refines cur d _ _)
    intro ok
    exact .refl _

theorem exec_refines {args args' : Nat → Nat → Nat → M (Option Nat)} (file : Option File)
    (h : ∀ d sz, Prog.Refines (args' cur d sz) (args cur d sz)) :
    Prog.Refines (exec im args' cur file) (exec im args cur file) := by
  unfold exec
  split
  · exact .refl _
  · apply Prog.Refines.ite (.refl _)
    apply Prog.Refines.bind (.refl _)
    rintro (_ | d)
    · exact .refl _
    · apply Prog.Refines.bind (.refl _)
      rintro (_ | sz)
      · exact .refl _
      · apply Prog.Refines.bind (.refl _)
        rintro (_ | sz)
        · exact .refl _
        · exact Prog.Refines.bind (h d sz) fun _ => .refl _

end BossOs.Vm
