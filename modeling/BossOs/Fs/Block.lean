import BossOs.Lib.Prog
import BossOs.Fs.Layout

/-!
# Blocks

Buffers, transactions and the block allocator of `fs.c`, run by one process. The
disk is the disk as seen through the buffer cache: `bread` returns the last
contents stored in a block, and takes the sleep-lock of its buffer.
-/

namespace BossOs.Fs

open Lib

/-- The calls of `panic` below the system calls of the file system. -/
inductive Panic
  | tooBig            -- too big a transaction
  | logOutside        -- log_write outside of trans
  | brelse
  | bwrite
  | outOfBlocks       -- balloc: out of blocks
  | freeingFree       -- freeing free block
  | noInodes          -- ialloc: no inodes
  | noEntries         -- iget: no inodes
  | ilock
  | noType            -- ilock: no type
  | iunlock
  | bmapRange         -- bmap: out of range
  | dirlookupNotDir
  | dirlookupRead
  | dirlinkRead
  | dirlink
  | isdiremptyReadi
  | unlinkNlink       -- unlink: nlink < 1
  | unlinkWritei
  | createDots
  | createDirlink
  | filedup
  | fileclose
  | fileread
  | filewrite
  | shortFilewrite
  deriving DecidableEq

/-- Why a call does not return: a panic, or `acquiresleep` of a lock the process holds. -/
inductive Stop
  | panic (p : Panic)
  | deadlock
  deriving DecidableEq

structure Blk where
  disk : Nat → Block
  /-- Blocks whose buffer is locked. -/
  held : List Nat
  /-- `log.outstanding`. -/
  outstanding : Nat
  /-- `log.lh.block`: the distinct blocks logged since the log was last empty. -/
  logged : List Nat
  /-- What each transaction that ended had logged. -/
  sections : List (List Nat)
  /-- Was `begin_op` called inside a transaction? -/
  nested : Bool
  /-- What `log_write` has asked of the log: one more than the largest `log.lh.n` that it found. -/
  asked : Nat

abbrev BlkM := Prog Stop Blk

variable {σ α : Type}

def panic (p : Panic) : Prog Stop σ α := Prog.fail (.panic p)

def bread (b : Nat) : BlkM Block := ⟨fun s =>
  if b ∈ s.held then .stop .deadlock s else .ok (s.disk b) { s with held := b :: s.held }⟩

def bset (b : Nat) (v : Block) : BlkM Unit :=
  Prog.modify fun s => { s with disk := Function.update s.disk b v }

def brelse (b : Nat) : BlkM Unit := ⟨fun s =>
  if b ∈ s.held then .ok () { s with held := s.held.erase b } else .stop (.panic .brelse) s⟩

/-- What `log_write` does first: `log.lh.n` is compared with the room in the log. -/
def Blk.ask (s : Blk) : Blk := { s with asked := max s.asked (s.logged.length + 1) }

def Blk.tooBig (sb : Superblock) (s : Blk) : Bool :=
  decide (LOGSIZE < s.asked ∨ sb.nlog - 1 < s.asked)

/-- The size of the log is in the superblock, so the first panic is that of `capped`. -/
def logWrite (b : Nat) : BlkM Unit := ⟨fun s =>
  if s.outstanding < 1 then .stop (.panic .logOutside) s.ask
  else .ok () { s.ask with logged := if b ∈ s.logged then s.logged else s.logged ++ [b] }⟩

/-- The machine with its log: if a `log_write` in `m` found it full, that was the end. -/
def capped (sb : Superblock) (blk : σ → Blk) (m : Prog Stop σ α) : Prog Stop σ α := ⟨fun s =>
  match m.run s with
  | .ok a t => if (blk t).tooBig sb then .stop (.panic .tooBig) t else .ok a t
  | .stop x t => if (blk t).tooBig sb then .stop (.panic .tooBig) t else .stop x t⟩

def bwrite (b : Nat) : BlkM Unit := ⟨fun s =>
  if b ∈ s.held then .ok () s else .stop (.panic .bwrite) s⟩

structure Commit where
  blk : Blk
  log : List Nat

abbrev CommitM := Prog Stop Commit

instance : MonadLift BlkM CommitM := ⟨Prog.zoom Commit.blk fun b c => { c with blk := b }⟩

def breadLog (i : Nat) : CommitM Unit := ⟨fun c =>
  if i ∈ c.log then .stop .deadlock c else .ok () { c with log := i :: c.log }⟩

def bwriteLog (i : Nat) : CommitM Unit := ⟨fun c =>
  if i ∈ c.log then .ok () c else .stop (.panic .bwrite) c⟩

def brelseLog (i : Nat) : CommitM Unit := ⟨fun c =>
  if i ∈ c.log then .ok () { c with log := c.log.erase i } else .stop (.panic .brelse) c⟩

def writeLog : Nat → List Nat → CommitM Unit
  | _, [] => pure ()
  | tail, b :: bs => do
    breadLog (tail + 1)
    let _ ← bread b
    bwriteLog (tail + 1)
    brelse b
    brelseLog (tail + 1)
    writeLog (tail + 1) bs

def writeHead : CommitM Unit := do
  breadLog 0
  bwriteLog 0
  brelseLog 0

def installTrans : Nat → List Nat → CommitM Unit
  | _, [] => pure ()
  | tail, b :: bs => do
    breadLog (tail + 1)
    let _ ← bread b
    bwrite b
    brelseLog (tail + 1)
    brelse b
    installTrans (tail + 1) bs

def commit : CommitM Unit := do
  let c ← Prog.get
  if c.blk.logged = [] then pure ()
  else do
    writeLog 0 c.blk.logged
    writeHead
    installTrans 0 c.blk.logged
    writeHead

def beginOp : BlkM Unit := Prog.modify fun s =>
  { s with outstanding := s.outstanding + 1, nested := s.nested || s.outstanding ≠ 0 }

def endOp : BlkM Unit := ⟨fun s =>
  if s.outstanding - 1 = 0 then
    match commit.run ⟨s, []⟩ with
    | .ok _ c =>
      .ok () { c.blk with
        outstanding := 0, logged := [], sections := c.blk.sections ++ [c.blk.logged] }
    | .stop e c => .stop e c.blk
  else .ok () { s with outstanding := s.outstanding - 1 }⟩

variable (sb : Superblock)

def bzero (bno : Nat) : BlkM Unit := do
  let _ ← bread bno
  bset bno Bytes.zero
  logWrite bno
  brelse bno

def ballocFrom : Nat → Nat → BlkM Nat
  | 0, _ => panic .outOfBlocks
  | n + 1, b => do
    let bp ← bread (sb.bblock b)
    match firstFrom (fun bi => !bp.bit bi) (min BPB (sb.size - b)) 0 with
    | some bi =>
      bset (sb.bblock b) (bp.setBit bi)
      logWrite (sb.bblock b)
      brelse (sb.bblock b)
      bzero (b + bi)
      pure (b + bi)
    | none =>
      brelse (sb.bblock b)
      ballocFrom n (b + BPB)

def balloc : BlkM Nat := ballocFrom sb ((sb.size + BPB - 1) / BPB) 0

def bfree (b : Nat) : BlkM Unit := do
  let bp ← bread (sb.bblock b)
  if bp.bit (b % BPB) then do
    bset (sb.bblock b) (bp.clearBit (b % BPB))
    logWrite (sb.bblock b)
    brelse (sb.bblock b)
  else panic .freeingFree

end BossOs.Fs
