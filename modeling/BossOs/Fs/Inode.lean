import BossOs.Fs.Block

/-!
# Inodes

The inode cache and the contents of inodes, `fs.c` from `ialloc` to `writei`. There
is one device, so the `dev` fields and arguments are left out. A sleep-lock is
held by the running process or by nobody; `acquiresleep` of a lock that is held
waits for ever.
-/

namespace BossOs.Fs

open Lib

def CONSOLE : Int16 := 1

structure Inode where
  inum : Nat
  ref : Int
  locked : Bool
  valid : Bool
  /-- `type` … `addrs`, the copy of the disk inode. -/
  din : Dinode

abbrev Entry := Fin NINODE

structure State where
  blk : Blk
  icache : Entry → Inode
  /-- What the coming calls of `consoleread` return; `none` is -1. -/
  input : List (Option (List UInt8))

abbrev FsM := Prog Stop State

instance : MonadLift BlkM FsM := ⟨Prog.zoom State.blk fun b s => { s with blk := b }⟩

def inode (e : Entry) : FsM Inode := ⟨fun s => .ok (s.icache e) s⟩

def State.update (s : State) (e : Entry) (f : Inode → Inode) : State :=
  { s with icache := Function.update s.icache e (f (s.icache e)) }

def setInode (e : Entry) (f : Inode → Inode) : FsM Unit := Prog.modify fun s => s.update e f

def setDin (e : Entry) (f : Dinode → Dinode) : FsM Unit :=
  setInode e fun ip => { ip with din := f ip.din }

def acquiresleep (e : Entry) : FsM Unit := ⟨fun s =>
  if (s.icache e).locked then .stop .deadlock s
  else .ok () (s.update e fun ip => { ip with locked := true })⟩

def releasesleep (e : Entry) : FsM Unit := setInode e fun ip => { ip with locked := false }

def iget (inum : Nat) : FsM Entry := ⟨fun s =>
  match (List.finRange NINODE).find? fun e => 0 < (s.icache e).ref ∧ (s.icache e).inum = inum with
  | some e => .ok e (s.update e fun ip => { ip with ref := ip.ref + 1 })
  | none =>
    match (List.finRange NINODE).find? fun e => (s.icache e).ref = 0 with
    | some e => .ok e (s.update e fun ip => { ip with inum := inum, ref := 1, valid := false })
    | none => .stop (.panic .noEntries) s⟩

def idup (e : Entry) : FsM Entry := do
  setInode e fun ip => { ip with ref := ip.ref + 1 }
  pure e

variable (sb : Superblock)

def iallocFrom (type : Int16) : Nat → Nat → FsM Entry
  | 0, _ => panic .noInodes
  | n + 1, inum => do
    let bp ← bread (sb.iblock inum)
    if (dinodeOf bp inum).type = 0 then do
      bset (sb.iblock inum) (putDinode bp inum (Dinode.fresh type))
      logWrite (sb.iblock inum)
      brelse (sb.iblock inum)
      iget inum
    else do
      brelse (sb.iblock inum)
      iallocFrom type n (inum + 1)

def ialloc (type : Int16) : FsM Entry := iallocFrom sb type (sb.ninodes - 1) 1

def iupdate (e : Entry) : FsM Unit := do
  let ip ← inode e
  let bp ← bread (sb.iblock ip.inum)
  bset (sb.iblock ip.inum) (putDinode bp ip.inum ip.din)
  logWrite (sb.iblock ip.inum)
  brelse (sb.iblock ip.inum)

def ilock (e : Entry) : FsM Unit := do
  let ip ← inode e
  if ip.ref < 1 then panic .ilock
  else do
    acquiresleep e
    if ip.valid then pure ()
    else do
      let bp ← bread (sb.iblock ip.inum)
      setInode e fun ip => { ip with din := dinodeOf bp ip.inum }
      brelse (sb.iblock ip.inum)
      setInode e fun ip => { ip with valid := true }
      if (dinodeOf bp ip.inum).type = 0 then panic .noType else pure ()

def iunlock (e : Entry) : FsM Unit := do
  let ip ← inode e
  if !ip.locked ∨ ip.ref < 1 then panic .iunlock else releasesleep e

def bmapIndirect (e : Entry) : FsM Nat := do
  let ip ← inode e
  if ip.din.addr NDIRECT = 0 then do
    let addr ← balloc sb
    setDin e fun d => d.setAddr NDIRECT addr
    pure addr
  else pure (ip.din.addr NDIRECT)

def bmapEntry (ind bn : Nat) : BlkM Nat := do
  let bp ← bread ind
  if bp.word bn = 0 then do
    let addr ← balloc sb
    bset ind (bp.setWord bn addr)
    logWrite ind
    brelse ind
    pure addr
  else do
    brelse ind
    pure (bp.word bn)

def bmap (e : Entry) (bn : Nat) : FsM Nat := do
  let ip ← inode e
  if bn < NDIRECT then
    if ip.din.addr bn = 0 then do
      let addr ← balloc sb
      setDin e fun d => d.setAddr bn addr
      pure addr
    else pure (ip.din.addr bn)
  else if bn - NDIRECT < NINDIRECT then do
    let ind ← bmapIndirect sb e
    bmapEntry sb ind (bn - NDIRECT)
  else panic .bmapRange

def freeDirect (e : Entry) (i : Nat) : FsM Unit := do
  let ip ← inode e
  if ip.din.addr i = 0 then pure ()
  else do
    bfree sb (ip.din.addr i)
    setDin e fun d => d.setAddr i 0

def freeEntry (bp : Block) (j : Nat) : BlkM Unit :=
  if bp.word j = 0 then pure () else bfree sb (bp.word j)

def freeEntries (ind : Nat) : BlkM Unit := do
  let bp ← bread ind
  Prog.loop (freeEntry sb bp) NINDIRECT 0
  brelse ind
  bfree sb ind

def freeIndirect (e : Entry) : FsM Unit := do
  let ip ← inode e
  if ip.din.addr NDIRECT = 0 then pure ()
  else do
    freeEntries sb (ip.din.addr NDIRECT)
    setDin e fun d => d.setAddr NDIRECT 0

def itrunc (e : Entry) : FsM Unit := do
  Prog.loop (freeDirect sb e) NDIRECT 0
  freeIndirect sb e
  setDin e fun d => { d with size := 0 }
  iupdate sb e

def iputFree (e : Entry) : FsM Unit := do
  let ip ← inode e
  if ip.valid ∧ ip.din.nlink = 0 ∧ ip.ref = 1 then do
    -- inode has no links and no other references: truncate and free.
    itrunc sb e
    setDin e fun d => { d with type := 0 }
    iupdate sb e
    setInode e fun ip => { ip with valid := false }
  else pure ()

def iput (e : Entry) : FsM Unit := do
  acquiresleep e
  iputFree sb e
  releasesleep e
  setInode e fun ip => { ip with ref := ip.ref - 1 }

def iunlockput (e : Entry) : FsM Unit := do
  iunlock e
  iput sb e

def consoleread (e : Entry) (n : Nat) : FsM (Option (List UInt8)) := do
  iunlock e
  let s ← Prog.get
  Prog.modify fun s => { s with input := s.input.tail }
  ilock sb e
  pure ((s.input.headD (some [])).map (List.take n))

def consolewrite (e : Entry) (src : List UInt8) : FsM (Option Nat) := do
  iunlock e
  ilock sb e
  pure (some src.length)

def readFrom (e : Entry) : Nat → Nat → Nat → FsM (List UInt8)
  | 0, _, _ => pure []
  | fuel + 1, off, n =>
    if n = 0 then pure []
    else do
      let b ← bmap sb e (off / BSIZE)
      let bp ← bread b
      let m := min n (BSIZE - off % BSIZE)
      brelse b
      let rest ← readFrom e fuel (off + m) (n - m)
      pure (bp.slice (off % BSIZE) m ++ rest)

def readi (e : Entry) (off n : Nat) : FsM (Option (List UInt8)) := do
  let ip ← inode e
  if ip.din.type = T_DEV then
    -- only devsw[CONSOLE] is set
    if ip.din.major = CONSOLE then consoleread sb e n else pure none
  else if ip.din.size.toNat < off ∨ (off + n) % 2 ^ 32 < off then pure none
  else do
    let n := if ip.din.size.toNat < off + n then ip.din.size.toNat - off else n
    let bytes ← readFrom sb e n off n
    pure (some bytes)

def writeFrom (e : Entry) : Nat → Nat → List UInt8 → FsM Unit
  | 0, _, _ => pure ()
  | fuel + 1, off, src =>
    if src = [] then pure ()
    else do
      let b ← bmap sb e (off / BSIZE)
      let bp ← bread b
      let m := min src.length (BSIZE - off % BSIZE)
      bset b (bp.splice (off % BSIZE) (src.take m))
      logWrite b
      brelse b
      writeFrom e fuel (off + m) (src.drop m)

def writeSize (e : Entry) (off : Nat) : FsM Unit := do
  let ip ← inode e
  if ip.din.size.toNat < off then do
    setDin e fun d => { d with size := UInt32.ofNat off }
    iupdate sb e
  else pure ()

def writei (e : Entry) (src : List UInt8) (off : Nat) : FsM (Option Nat) := do
  let ip ← inode e
  let n := src.length
  if ip.din.type = T_DEV then
    if ip.din.major = CONSOLE then consolewrite sb e src else pure none
  else if ip.din.size.toNat < off ∨ (off + n) % 2 ^ 32 < off then pure none
  else if MAXFILE * BSIZE < (off + n) % 2 ^ 32 then pure none
  else if n = 0 then pure (some 0)
  else do
    writeFrom sb e n off src
    writeSize sb e (off + n)
    pure (some n)

end BossOs.Fs
