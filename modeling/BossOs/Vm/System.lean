import BossOs.Params
import BossOs.Vm.Model

/-!
# The calls that move pages

`exec.c`, and what `fork`, `growproc`, `exit`, `wait`, `pipealloc` and `pipeclose` do with
pages, as calls that run one after another from the state that `main` sets up. What
`exec` does about the arguments is a parameter of the system: `pushArgs` is the code.
-/

namespace BossOs.Vm

open Lib

def ELF_PROG_LOAD : Nat := 1

instance : NeZero NPROC := ⟨by decide⟩

def field (h : List UInt8) (off w : Nat) : Nat := leNat ((h.drop off).take w)

section
variable (im : Image)

/-- The loop over the program headers, with `n` of them to go; the size, or failure. -/
def loadSegments (pgdir : Nat) (ip : File) : Nat → Nat → Nat → M (Option Nat)
  | 0, _, sz => pure (some sz)
  | n + 1, off, sz =>
    match readi ip off 32 with
    | none => pure none
    | some ph =>
      let type := field ph 0 4
      let offset := field ph 4 4
      let vaddr := field ph 8 4
      let filesz := field ph 16 4
      let memsz := field ph 20 4
      if ph.length ≠ 32 then pure none
      else if type ≠ ELF_PROG_LOAD then loadSegments pgdir ip n ((off + 32) % 2 ^ 32) sz
      else if memsz < filesz then pure none
      else if (vaddr + memsz) % 2 ^ 32 < vaddr then pure none
      else do
        let sz ← allocuvm im pgdir sz ((vaddr + memsz) % 2 ^ 32)
        if sz = 0 then pure none
        else if vaddr % PGSIZE ≠ 0 then pure none
        else if ← loaduvm pgdir vaddr ip offset filesz then
          loadSegments pgdir ip n ((off + 32) % 2 ^ 32) sz
        else pure none

def makeStack (pgdir sz : Nat) : M (Option Nat) := do
  let sz ← allocuvm im pgdir (PGROUNDUP sz) ((PGROUNDUP sz + 2 * PGSIZE) % 2 ^ 32)
  if sz = 0 then pure none
  else
    clearpteu pgdir (sz - 2 * PGSIZE)
    pure (some sz)

/-- The argument strings; the stack pointer and the addresses of the copies, or failure. -/
def pushStrings (cur pgdir : Nat) : List (List UInt8) → Nat → Nat → List Nat →
    M (Option (Nat × List Nat))
  | [], _, sp, ustack => pure (some (sp, ustack))
  | s :: argv, argc, sp, ustack =>
    if MAXARG ≤ argc then pure none
    else do
      let sp := (sp + (2 ^ 32 - (s.length + 1) % 2 ^ 32)) % 2 ^ 32 / 4 * 4
      if ← copyout im cur pgdir sp (s ++ [0]) then
        pushStrings cur pgdir argv (argc + 1) sp (ustack ++ [sp])
      else pure none

def pushArgs (argv : List (List UInt8)) (cur pgdir sz : Nat) : M (Option Nat) := do
  match ← pushStrings im cur pgdir argv 0 sz [] with
  | none => pure none
  | some (sp, addrs) =>
    let argc := addrs.length
    let ustack := [0xffffffff, argc, (sp + (2 ^ 32 - (argc + 1) * 4)) % 2 ^ 32] ++ addrs ++ [0]
    let sp := (sp + (2 ^ 32 - (3 + argc + 1) * 4)) % 2 ^ 32
    if ← copyout im cur pgdir sp (ustack.flatMap (toLe 4)) then pure (some sp) else pure none

/-- `exec` by the process with page directory `cur`: the new page directory and size, or
failure. `args` puts the arguments on the new stack. -/
def exec (args : Nat → Nat → Nat → M (Option Nat)) (cur : Nat) (file : Option File) :
    M (Option (Nat × Nat)) :=
  match file.bind fun ip => (readi ip 0 52).map fun elf => (ip, elf) with
  | none => pure none
  | some (ip, elf) =>
    if elf.length ≠ 52 ∨ field elf 0 4 ≠ ELF_MAGIC then pure none
    else do
      match ← setupkvm im with
      | none => pure none
      | some pgdir =>
        match ← loadSegments im pgdir ip (field elf 44 2) (field elf 28 4) 0 with
        | none =>
          freevm im pgdir
          pure none
        | some sz =>
          match ← makeStack im pgdir sz with
          | none =>
            freevm im pgdir
            pure none
          | some sz =>
            match ← args cur pgdir sz with
            | none =>
              freevm im pgdir
              pure none
            | some _ =>
              freevm im cur
              pure (some (pgdir, sz))

def growproc (pgdir sz : Nat) (n : Int) : M (Option Nat) :=
  let newsz := ((sz + n) % 2 ^ 32).toNat
  if 0 < n then do
    let sz ← allocuvm im pgdir sz newsz
    pure (if sz = 0 then none else some sz)
  else if n < 0 then do
    let sz ← deallocuvm im pgdir sz newsz
    pure (if sz = 0 then none else some sz)
  else pure (some sz)

/-- `allocproc` and `copyuvm` in `fork`: the kernel stack and page directory of the child. -/
def forkPages (pgdir sz : Nat) : M (Option (Nat × Nat)) := do
  match ← kalloc with
  | none => pure none
  | some kstack =>
    match ← copyuvm im pgdir sz with
    | none =>
      kfree im kstack
      pure none
    | some d => pure (some (kstack, d))

inductive ProcState where
  | unused
  | live
  | zombie
  deriving DecidableEq

structure Proc where
  state : ProcState
  kstack : Nat
  pgdir : Nat
  sz : Nat
  parent : Fin NPROC

structure Pipe where
  page : Nat
  readopen : Bool
  writeopen : Bool

def pipeclose (pi : Pipe) (writable : Bool) : M (Option Pipe) :=
  let pi : Pipe := if writable then { pi with writeopen := false } else { pi with readopen := false }
  if pi.readopen || pi.writeopen then pure (some pi)
  else do
    kfree im pi.page
    pure none

/-- `pipealloc`, and the ends closed again where there are not two free descriptors. -/
def sysPipe (files fds : Bool) : M (Option Pipe) :=
  if files then do
    match ← kalloc with
    | none => pure none
    | some page =>
      if fds then pure (some ⟨page, true, true⟩)
      else
        match ← pipeclose im ⟨page, true, true⟩ false with
        | none => pure none
        | some pi => pipeclose im pi true
  else pure none

structure State where
  mem : Mem
  proc : Fin NPROC → Proc
  pipes : List Pipe
  /-- Taken at boot, for good. -/
  kpgdir : Nat
  cpustacks : List Nat

def initproc : Fin NPROC := 0

def State.setProc (s : State) (p : Fin NPROC) (q : Proc) : State :=
  { s with proc := Function.update s.proc p q }

def State.call {α : Type} (s : State) (f : M α) (k : α → State → State) : Option State :=
  match f.run s.mem with
  | .ok a m => some (k a { s with mem := m })
  | .stop _ _ => none

/-- The calls, by process where it matters. `A` is what `exec` is told about the arguments. -/
inductive Act (A : Type) where
  | fork (p : Fin NPROC)
  | exec (p : Fin NPROC) (file : Option File) (args : A)
  | sbrk (p : Fin NPROC) (n : Int)
  /-- `files` and `fds`: there are two free files, and two free descriptors. -/
  | pipe (files fds : Bool)
  | pipeclose (i : Nat) (writable : Bool)
  | exit (p : Fin NPROC)
  | wait (p : Fin NPROC)
  /-- The process stores to its own memory. -/
  | store (p : Fin NPROC) (va : Nat) (bytes : List UInt8)

def State.fork (s : State) (p : Fin NPROC) : Option State :=
  match (List.finRange NPROC).find? fun q => (s.proc q).state = .unused with
  | none => some s
  | some q => s.call (forkPages im (s.proc p).pgdir (s.proc p).sz) fun r s =>
    match r with
    | none => s
    | some (kstack, d) => s.setProc q ⟨.live, kstack, d, (s.proc p).sz, p⟩

def State.sbrk (s : State) (p : Fin NPROC) (n : Int) : Option State :=
  s.call (growproc im (s.proc p).pgdir (s.proc p).sz n) fun r s =>
    match r with
    | none => s
    | some sz => s.setProc p { s.proc p with sz := sz }

def State.pipe (s : State) (files fds : Bool) : Option State :=
  s.call (sysPipe im files fds) fun r s =>
    match r with
    | none => s
    | some pi => { s with pipes := s.pipes ++ [pi] }

def State.pipeclose (s : State) (i : Nat) (writable : Bool) : Option State :=
  match s.pipes[i]? with
  | none => none
  | some pi => s.call (Vm.pipeclose im pi writable) fun r s =>
    match r with
    | none => { s with pipes := s.pipes.eraseIdx i }
    | some pi => { s with pipes := s.pipes.set i pi }

def State.exit (s : State) (p : Fin NPROC) : Option State :=
  if p = initproc then none
  else some { s with proc := fun q =>
    let r := if (s.proc q).parent = p then { s.proc q with parent := initproc } else s.proc q
    if q = p then { r with state := .zombie } else r }

def State.wait (s : State) (p : Fin NPROC) : Option State :=
  match (List.finRange NPROC).find? fun q =>
    (s.proc q).parent = p ∧ (s.proc q).state = .zombie with
  | none => some s
  | some q => s.call (do kfree im (s.proc q).kstack; freevm im (s.proc q).pgdir) fun _ s =>
    s.setProc q { s.proc q with state := .unused }

def userStore (pgdir va : Nat) (bytes : List UInt8) : M Unit := do
  match ← walkpgdir pgdir va false with
  | none => Prog.fail .fault
  | some pte =>
    let e ← load pte
    if present e ∧ user e ∧ e &&& PTE_W ≠ 0 ∧ va % PGSIZE + bytes.length ≤ PGSIZE then
      Prog.modify fun m => m.write (frame e) ((m.page (frame e)).splice (va % PGSIZE) bytes)
    else Prog.fail .fault

variable {A : Type} (args : A → Nat → Nat → Nat → M (Option Nat))

def State.exec (s : State) (p : Fin NPROC) (file : Option File) (a : A) : Option State :=
  s.call (Vm.exec im (args a) (s.proc p).pgdir file) fun r s =>
    match r with
    | none => s
    | some (d, sz) => s.setProc p { s.proc p with pgdir := d, sz := sz }

def step (s : State) : Act A → Option State
  | .fork p => if (s.proc p).state = .live then s.fork im p else none
  | .exec p file a => if (s.proc p).state = .live then s.exec im args p file a else none
  | .sbrk p n => if (s.proc p).state = .live then s.sbrk im p n else none
  | .pipe files fds => s.pipe im files fds
  | .pipeclose i writable => s.pipeclose im i writable
  | .exit p => if (s.proc p).state = .live then s.exit p else none
  | .wait p => if (s.proc p).state = .live then s.wait im p else none
  | .store p va bytes =>
    if (s.proc p).state = .live ∧ va < 2 ^ 32 then
      s.call (userStore (s.proc p).pgdir va bytes) fun _ s => s
    else none

def takePage : M Nat := do
  match ← kalloc with
  | none => Prog.fail .fault
  | some p => pure p

def takePages : Nat → M (List Nat)
  | 0 => pure []
  | n + 1 => do
    let p ← takePage
    let ps ← takePages n
    pure (p :: ps)

def newSpace : M Nat := do
  match ← setupkvm im with
  | none => Prog.fail .outOfMemory
  | some d => pure d

/-- What `main` does with pages, with `ncpu` processors: the kernel's page directory, the
stacks of the other processors, and the kernel stack and page directory of the first process. -/
def boot (ncpu : Nat) (initcode : List UInt8) : M (Nat × List Nat × Nat × Nat) := do
  freerange im im.top (4 * 1024 * 1024)
  let kpgdir ← newSpace im
  let cpustacks ← takePages (ncpu - 1)
  freerange im (4 * 1024 * 1024) PHYSTOP
  let kstack ← takePage
  let pgdir ← newSpace im
  inituvm pgdir initcode
  pure (kpgdir, cpustacks, kstack, pgdir)

def noProc : Proc := ⟨.unused, 0, 0, 0, initproc⟩

def bootState (r : Nat × List Nat × Nat × Nat) (m : Mem) : State where
  mem := m
  proc := Function.update (fun _ => noProc) initproc ⟨.live, r.2.2.1, r.2.2.2, PGSIZE, initproc⟩
  pipes := []
  kpgdir := r.1
  cpustacks := r.2.1

def Booted (ncpu : Nat) (initcode : List UInt8) (s : State) : Prop :=
  ncpu ≤ NCPU ∧ ∃ page r m, (boot im ncpu initcode).run ⟨page, []⟩ = .ok r m ∧ s = bootState r m

end

end BossOs.Vm
