import BossOs.Lib.Prog
import BossOs.Params

/-!
# Physical pages and page tables

`kalloc.c` and `vm.c`. Memory is an array of pages; page directories and page tables are
pages of it like any other, read and written word by word. The free list is kept as the
list of its pages. A panic, or a page fault in the kernel, stops the machine.
-/

namespace BossOs.Vm

open Lib

def PGSIZE : Nat := 4096
def NPDENTRIES : Nat := 1024
def EXTMEM : Nat := 0x100000
def PHYSTOP : Nat := 0xE000000
def DEVSPACE : Nat := 0xFE000000
def KERNLINK : Nat := KERNBASE + EXTMEM
def PTE_P : Nat := 0x001
def PTE_W : Nat := 0x002
def PTE_U : Nat := 0x004

abbrev Page := Bytes PGSIZE

/-- What the linker script decides: the physical addresses of `data` and `end`. -/
structure Image where
  data : Nat
  top : Nat
  aligned : data % PGSIZE = 0
  text : EXTMEM < data
  data_le : data ≤ top
  top_le : top ≤ 4 * 1024 * 1024

def PDX (va : Nat) : Nat := va / 2 ^ 22 % 1024
def PTX (va : Nat) : Nat := va / 2 ^ 12 % 1024
def PGADDR (d t o : Nat) : Nat := (d * 2 ^ 22 + t * 2 ^ 12 + o) % 2 ^ 32
def PGROUNDUP (sz : Nat) : Nat := (sz + PGSIZE - 1) % 2 ^ 32 / PGSIZE * PGSIZE
def PGROUNDDOWN (a : Nat) : Nat := a / PGSIZE * PGSIZE
def PTE_ADDR (e : Nat) : Nat := e / PGSIZE * PGSIZE
def PTE_FLAGS (e : Nat) : Nat := e % PGSIZE

def present (e : Nat) : Bool := e &&& PTE_P != 0

def user (e : Nat) : Bool := e &&& PTE_U != 0

def frame (e : Nat) : Nat := PTE_ADDR e / PGSIZE

structure Mem where
  page : Nat → Page
  /-- `kmem.freelist` -/
  free : List Nat

def Mem.write (m : Mem) (p : Nat) (c : Page) : Mem := { m with page := Function.update m.page p c }

inductive Stop where
  | kfree
  | remap
  | phystopTooHigh
  | noPgdir
  | moreThanAPage
  | notAligned
  | addressShouldExist
  | clearpteu
  | pteShouldExist
  | pageNotPresent
  | outOfMemory
  /-- A page fault in the kernel. -/
  | fault
  /-- A loop that makes more rounds than there are pages. -/
  | hang
  deriving DecidableEq

abbrev M := Prog Stop Mem

def junk : Page := Bytes.zero.splice 0 (List.replicate PGSIZE 1)

def memset (p : Nat) (c : Page) : M Unit := Prog.modify (·.write p c)

def kalloc : M (Option Nat) := do
  let m ← Prog.get
  match m.free with
  | [] => pure none
  | p :: ps =>
    Prog.modify fun m => { m with free := ps }
    pure (some p)

section
variable (im : Image)

def kfree (p : Nat) : M Unit :=
  if p * PGSIZE < im.top ∨ PHYSTOP ≤ p * PGSIZE then Prog.fail .kfree
  else do
    memset p junk
    Prog.modify fun m => { m with free := p :: m.free }

def freerange (start stop : Nat) : M Unit :=
  Prog.loop (kfree im) (stop / PGSIZE - PGROUNDUP start / PGSIZE) (PGROUNDUP start / PGSIZE)

abbrev Pte := Nat × Nat

def load (pte : Pte) : M Nat := do
  let m ← Prog.get
  pure ((m.page pte.1).word pte.2)

def store (pte : Pte) (e : Nat) : M Unit :=
  Prog.modify fun m => m.write pte.1 ((m.page pte.1).setWord pte.2 e)

def walkpgdir (pgdir va : Nat) (alloc : Bool) : M (Option Pte) := do
  let pde ← load (pgdir, PDX va)
  if present pde then pure (some (frame pde, PTX va))
  else if alloc then
    match ← kalloc with
    | none => pure none
    | some pgtab =>
      memset pgtab Bytes.zero
      store (pgdir, PDX va) (pgtab * PGSIZE ||| PTE_P ||| PTE_W ||| PTE_U)
      pure (some (pgtab, PTX va))
  else pure none

def mapPage (pgdir perm a pa : Nat) : M Bool := do
  match ← walkpgdir pgdir a true with
  | none => pure false
  | some pte =>
    if present (← load pte) then Prog.fail .remap
    else
      store pte (pa ||| perm ||| PTE_P)
      pure true

def mapFrom (pgdir perm : Nat) : Nat → Nat → Nat → M Bool
  | 0, a, pa => mapPage pgdir perm a pa
  | n + 1, a, pa => do
    if ← mapPage pgdir perm a pa then
      mapFrom pgdir perm n ((a + PGSIZE) % 2 ^ 32) ((pa + PGSIZE) % 2 ^ 32)
    else pure false

/-- The loop ends where `a` is the last page, so the difference counts its rounds. No call has
`size = 0`. -/
def mappages (pgdir va size pa perm : Nat) : M Bool :=
  let a := PGROUNDDOWN va
  let last := PGROUNDDOWN ((va + size - 1) % 2 ^ 32)
  mapFrom pgdir perm ((last + (2 ^ 32 - a)) % 2 ^ 32 / PGSIZE) a pa

structure Kmap where
  virt : Nat
  physStart : Nat
  physEnd : Nat
  perm : Nat

def Kmap.size (k : Kmap) : Nat := (k.physEnd + (2 ^ 32 - k.physStart)) % 2 ^ 32

def kmap : List Kmap :=
  [⟨KERNBASE, 0, EXTMEM, PTE_W⟩,
    ⟨KERNLINK, EXTMEM, im.data, 0⟩,
    ⟨KERNBASE + im.data, im.data, PHYSTOP, PTE_W⟩,
    ⟨DEVSPACE, DEVSPACE, 0, PTE_W⟩]

def deallocFrom (pgdir oldsz : Nat) : Nat → Nat → M Unit
  | 0, _ => Prog.fail .hang
  | n + 1, a =>
    if a < oldsz then do
      match ← walkpgdir pgdir a false with
      | none => deallocFrom pgdir oldsz n (PGADDR (PDX a + 1) 0 0)
      | some pte =>
        let e ← load pte
        if present e then
          if PTE_ADDR e = 0 then Prog.fail .kfree
          else
            kfree im (frame e)
            store pte 0
            deallocFrom pgdir oldsz n ((a + PGSIZE) % 2 ^ 32)
        else deallocFrom pgdir oldsz n ((a + PGSIZE) % 2 ^ 32)
    else pure ()

def deallocuvm (pgdir oldsz newsz : Nat) : M Nat :=
  if oldsz ≤ newsz then pure oldsz
  else do
    deallocFrom im pgdir oldsz (2 ^ 20 + 1) (PGROUNDUP newsz)
    pure newsz

def freeTable (pgdir i : Nat) : M Unit := do
  let pde ← load (pgdir, i)
  if present pde then kfree im (frame pde) else pure ()

def freevm (pgdir : Nat) : M Unit :=
  if pgdir = 0 then Prog.fail .noPgdir
  else do
    let _ ← deallocuvm im pgdir KERNBASE 0
    Prog.loop (freeTable im pgdir) NPDENTRIES 0
    kfree im pgdir

def mapKernel (pgdir : Nat) : List Kmap → M Bool
  | [] => pure true
  | k :: ks => do
    if ← mappages pgdir k.virt k.size k.physStart k.perm then mapKernel pgdir ks
    else pure false

def setupkvm : M (Option Nat) := do
  match ← kalloc with
  | none => pure none
  | some pgdir =>
    memset pgdir Bytes.zero
    if DEVSPACE < KERNBASE + PHYSTOP then Prog.fail .phystopTooHigh
    else if ← mapKernel pgdir (kmap im) then pure (some pgdir)
    else
      freevm im pgdir
      pure none

/-- The first process is so loaded that a failure of `mappages` goes unnoticed. -/
def inituvm (pgdir : Nat) (init : List UInt8) : M Unit :=
  if PGSIZE ≤ init.length then Prog.fail .moreThanAPage
  else do
    match ← kalloc with
    | none => Prog.fail .fault
    | some mem =>
      memset mem Bytes.zero
      let _ ← mappages pgdir 0 PGSIZE (mem * PGSIZE) (PTE_W ||| PTE_U)
      memset mem (Bytes.zero.splice 0 init)

def allocFrom (pgdir oldsz newsz : Nat) : Nat → Nat → M Nat
  | 0, _ => pure newsz
  | n + 1, a => do
    match ← kalloc with
    | none =>
      let _ ← deallocuvm im pgdir newsz oldsz
      pure 0
    | some mem =>
      memset mem Bytes.zero
      if ← mappages pgdir a PGSIZE (mem * PGSIZE) (PTE_W ||| PTE_U) then
        allocFrom pgdir oldsz newsz n (a + PGSIZE)
      else
        let _ ← deallocuvm im pgdir newsz oldsz
        kfree im mem
        pure 0

def pages (sz : Nat) : Nat := (sz + PGSIZE - 1) / PGSIZE

def allocuvm (pgdir oldsz newsz : Nat) : M Nat :=
  if KERNBASE ≤ newsz then pure 0
  else if newsz < oldsz then pure oldsz
  else allocFrom im pgdir oldsz newsz (pages newsz - pages oldsz) (PGROUNDUP oldsz)

def clearpteu (pgdir uva : Nat) : M Unit := do
  match ← walkpgdir pgdir uva false with
  | none => Prog.fail .clearpteu
  | some pte =>
    let e ← load pte
    store pte (e &&& (2 ^ 32 - 1 - PTE_U))

def copyFrom (pgdir d : Nat) : Nat → Nat → M Bool
  | 0, _ => pure true
  | n + 1, i => do
    match ← walkpgdir pgdir i false with
    | none => Prog.fail .pteShouldExist
    | some pte =>
      let e ← load pte
      if !present e then Prog.fail .pageNotPresent
      else
        match ← kalloc with
        | none => pure false
        | some mem =>
          let m ← Prog.get
          memset mem (m.page (frame e))
          if ← mappages d i PGSIZE (mem * PGSIZE) (PTE_FLAGS e) then
            copyFrom pgdir d n (i + PGSIZE)
          else
            kfree im mem
            pure false

def copyuvm (pgdir sz : Nat) : M (Option Nat) := do
  match ← setupkvm im with
  | none => pure none
  | some d =>
    if ← copyFrom im pgdir d (pages sz) 0 then pure (some d)
    else
      freevm im d
      pure none

structure File where
  size : Nat
  byte : Nat → UInt8

def readi (ip : File) (off n : Nat) : Option (List UInt8) :=
  if ip.size < off ∨ (off + n) % 2 ^ 32 < off then none
  else some ((List.range (min n (ip.size - off))).map fun k => ip.byte (off + k))

def loadFrom (pgdir : Nat) (ip : File) : Nat → Nat → Nat → Nat → M Bool
  | 0, _, _, _ => pure true
  | k + 1, addr, offset, sz => do
    match ← walkpgdir pgdir addr false with
    | none => Prog.fail .addressShouldExist
    | some pte =>
      let p := frame (← load pte)
      let n := min sz PGSIZE
      match readi ip offset n with
      | none => pure false
      | some bytes =>
        Prog.modify fun m => m.write p ((m.page p).splice 0 bytes)
        if bytes.length = n then
          loadFrom pgdir ip k (addr + PGSIZE) ((offset + PGSIZE) % 2 ^ 32) (sz - PGSIZE)
        else pure false

def loaduvm (pgdir addr : Nat) (ip : File) (offset sz : Nat) : M Bool :=
  if addr % PGSIZE ≠ 0 then Prog.fail .notAligned
  else loadFrom pgdir ip (pages sz) addr offset sz

/-- The entry that `uva2ka` tests. Where there is no page table, `walkpgdir` returns a null
pointer, and what is read through it is the first word of the current process's memory. -/
def userEntry (cur pgdir uva : Nat) : M Nat := do
  match ← walkpgdir pgdir uva false with
  | some pte => load pte
  | none =>
    match ← walkpgdir cur 0 false with
    | none => Prog.fail .fault
    | some pte =>
      let e ← load pte
      if present e then load (frame e, 0) else Prog.fail .fault

def uva2ka (cur pgdir uva : Nat) : M (Option Nat) := do
  let e ← userEntry cur pgdir uva
  pure (if present e && user e then some (PTE_ADDR e) else none)

/-- A store by the kernel at `P2V(pa)`. In the kernel's text it faults; what lies beyond memory
is left out. -/
def kernelStore (pa off : Nat) (bytes : List UInt8) : M Unit :=
  if PHYSTOP ≤ pa ∨ (EXTMEM ≤ pa ∧ pa < im.data) then Prog.fail .fault
  else Prog.modify fun m =>
    m.write (pa / PGSIZE) ((m.page (pa / PGSIZE)).splice off bytes)

def copyoutFrom (cur pgdir : Nat) : Nat → Nat → List UInt8 → M Bool
  | 0, _, _ => pure true
  | k + 1, va, buf =>
    if buf.length = 0 then pure true
    else do
      let va0 := PGROUNDDOWN va
      match ← uva2ka cur pgdir va0 with
      | none => pure false
      | some pa0 =>
        let n := min (PGSIZE - (va - va0)) buf.length
        kernelStore im pa0 (va - va0) (buf.take n)
        copyoutFrom cur pgdir k ((va0 + PGSIZE) % 2 ^ 32) (buf.drop n)

def copyout (cur pgdir va : Nat) (p : List UInt8) : M Bool :=
  copyoutFrom im cur pgdir p.length va p

end

end BossOs.Vm
