import BossOs.Lib.Loop
import BossOs.Lib.Memory
import BossOs.Params

/-!
# The multiprocessor tables

`mp.c`: the search for the floating pointer structure, the checks of the configuration table
and the scan over its entries. The tables are read from memory at their offsets in `mp.h`.
-/

namespace BossOs.Mp

open Lib Lib.Memory

def P2V (a : UInt32) : UInt32 := a + UInt32.ofNat KERNBASE

section Tables

variable (m : Memory)

def sum : Nat → UInt32 → UInt8
  | 0, _ => 0
  | len + 1, addr => m addr + sum len (addr + 1)

def signature (p : UInt32) : List UInt8 := [m p, m (p + 1), m (p + 2), m (p + 3)]

def mpSignature : List UInt8 := [0x5F, 0x4D, 0x50, 0x5F]
def confSignature : List UInt8 := [0x50, 0x43, 0x4D, 0x50]

def searchFrom (e : UInt32) : Nat → UInt32 → Option UInt32
  | 0, _ => none
  | n + 1, p =>
    if p < e then
      if signature m p = mpSignature ∧ sum m 16 p = 0 then some p else searchFrom e n (p + 16)
    else none

def mpsearch1 (a len : UInt32) : Option UInt32 :=
  searchFrom m (P2V a + len) len.toNat (P2V a)

def mpsearch : Option UInt32 :=
  let bda := P2V 0x400
  let ebda := ushort m (bda + 0x0E) <<< 4
  let found := if ebda ≠ 0 then mpsearch1 m ebda 1024
    else mpsearch1 m (ushort m (bda + 0x13) * 1024 - 1024) 1024
  found.or (mpsearch1 m 0xF0000 0x10000)

def mpconfig : Option (UInt32 × UInt32) :=
  (mpsearch m).bind fun mp =>
    if word m (mp + 4) = 0 then none
    else
      let conf := P2V (word m (mp + 4))
      if signature m conf ≠ confSignature then none
      else if m (conf + 6) ≠ 1 ∧ m (conf + 6) ≠ 4 then none
      else if sum m (ushort m (conf + 4)).toNat conf ≠ 0 then none
      else some (mp, conf)

end Tables

def MPPROC : UInt8 := 0
def MPBUS : UInt8 := 1
def MPIOAPIC : UInt8 := 2
def MPIOINTR : UInt8 := 3
def MPLINTR : UInt8 := 4

structure Machine where
  /-- The `apicid` of each of the `cpus`. -/
  cpus : Fin NCPU → UInt8
  ncpu : Nat
  ioapicid : UInt8
  lapic : UInt32

structure Scan where
  p : UInt32
  ismp : Bool
  machine : Machine

def Machine.addCpu (c : Machine) (apicid : UInt8) : Machine :=
  if h : c.ncpu < NCPU then
    { c with
      cpus := Function.update c.cpus ⟨c.ncpu, h⟩ apicid
      ncpu := c.ncpu + 1 }
  else c

def Machine.setIoapic (c : Machine) (apicno : UInt8) : Machine := { c with ioapicid := apicno }

/-- One round of the loop of `mpinit`. An entry of unknown type is not skipped. -/
def scan (m : Memory) (e : UInt32) (s : Scan) : Round Scan Scan :=
  if s.p < e then
    if m s.p = MPPROC then
      .again { s with p := s.p + 20, machine := s.machine.addCpu (m (s.p + 1)) }
    else if m s.p = MPIOAPIC then
      .again { s with p := s.p + 8, machine := s.machine.setIoapic (m (s.p + 1)) }
    else if m s.p = MPBUS ∨ m s.p = MPIOINTR ∨ m s.p = MPLINTR then .again { s with p := s.p + 8 }
    else .again { s with ismp := false }
  else .leave s

inductive Outcome where
  | panic (msg : String)
  /-- `imcr` tells whether the interrupt mode register has been written. -/
  | done (machine : Machine) (imcr : Bool)

def scanStart (m : Memory) (conf : UInt32) : Scan where
  p := conf + 44
  ismp := true
  machine := ⟨fun _ => 0, 0, 0, word m (conf + 36)⟩

def scanEnd (m : Memory) (conf : UInt32) : UInt32 := conf + ushort m (conf + 4)

def mpinit (m : Memory) (fuel : Nat) : Option Outcome :=
  match mpconfig m with
  | none => some (.panic "Expect to run on an SMP")
  | some (mp, conf) =>
    (Loop.run (scan m (scanEnd m conf)) fuel (scanStart m conf)).map fun s =>
      if s.ismp then .done s.machine (m (mp + 12) ≠ 0)
      else .panic "Didn't find a suitable machine"

end BossOs.Mp
