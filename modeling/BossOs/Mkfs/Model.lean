import BossOs.Fs.Dir

/-!
# `mkfs`

`mkfs.c`: the program that builds the first image on the host. The image file is a
sequence of sectors; reading beyond its end fails. `freeinode` and `freeblock` are `uint`s
that cannot wrap, since `mkfs` stops where the image ends.
-/

namespace BossOs.Mkfs

open Lib Fs

def NINODES : Nat := 200
def nbitmap : Nat := FSSIZE / (BSIZE * 8) + 1
def ninodeblocks : Nat := NINODES / IPB + 1
def nlog : Nat := LOGSIZE
def nmeta : Nat := 2 + nlog + ninodeblocks + nbitmap
def nblocks : Nat := FSSIZE - nmeta

def sb : Superblock where
  size := FSSIZE
  nblocks := nblocks
  ninodes := NINODES
  nlog := nlog
  logstart := 2
  inodestart := 2 + nlog
  bmapstart := 2 + nlog + ninodeblocks

def sbBytes (sb : Superblock) : List UInt8 :=
  toLe 4 sb.size ++ (toLe 4 sb.nblocks ++ (toLe 4 sb.ninodes ++ (toLe 4 sb.nlog ++
    (toLe 4 sb.logstart ++ (toLe 4 sb.inodestart ++ toLe 4 sb.bmapstart)))))

inductive Exit where
  /-- `exit(1)` after a failed call of the host. -/
  | failed
  | assertion
  deriving DecidableEq

structure Img where
  sector : Nat → Block
  /-- The length of the image file, in sectors. -/
  len : Nat
  freeinode : Nat
  freeblock : Nat

abbrev MkM := Prog Exit Img

def seek (sec : Nat) : Nat := sec * BSIZE % 2 ^ 32 / BSIZE

def wsect (sec : Nat) (buf : Block) : MkM Unit := Prog.modify fun s =>
  { s with sector := Function.update s.sector (seek sec) buf, len := max s.len (seek sec + 1) }

def rsect (sec : Nat) : MkM Block := ⟨fun s =>
  if seek sec < s.len then .ok (s.sector (seek sec)) s else .stop .failed s⟩

def winode (inum : Nat) (ip : Dinode) : MkM Unit := do
  let buf ← rsect (sb.iblock inum)
  wsect (sb.iblock inum) (putDinode buf inum ip)

def rinode (inum : Nat) : MkM Dinode := do
  let buf ← rsect (sb.iblock inum)
  pure (dinodeOf buf inum)

def ialloc (type : Int16) : MkM Nat := do
  let s ← Prog.get
  Prog.modify fun s => { s with freeinode := s.freeinode + 1 }
  winode s.freeinode ⟨type, 0, 0, 1, 0, fun _ => 0⟩
  pure s.freeinode

def bitmap (used : Nat) : Block := (List.range used).foldl Bytes.setBit Bytes.zero

def balloc (used : Nat) : MkM Unit :=
  if used < BSIZE * 8 then wsect sb.bmapstart (bitmap used) else Prog.fail .assertion

def nextBlock : MkM Nat := ⟨fun s => .ok s.freeblock { s with freeblock := s.freeblock + 1 }⟩

def indirectOf (din : Dinode) : MkM Dinode := do
  if din.addr NDIRECT = 0 then do
    let b ← nextBlock
    pure (din.setAddr NDIRECT b)
  else pure din

def entryOf (ind k : Nat) : MkM Nat := do
  let indirect ← rsect ind
  if indirect.word k = 0 then do
    let b ← nextBlock
    wsect ind (indirect.setWord k b)
    pure ((indirect.setWord k b).word k)
  else pure (indirect.word k)

def blockOf (din : Dinode) (fbn : Nat) : MkM (Dinode × Nat) :=
  if fbn < NDIRECT then
    if din.addr fbn = 0 then do
      let b ← nextBlock
      pure (din.setAddr fbn b, (din.setAddr fbn b).addr fbn)
    else pure (din, din.addr fbn)
  else do
    let din ← indirectOf din
    let x ← entryOf (din.addr NDIRECT) (fbn - NDIRECT)
    pure (din, x)

def iappendFrom : Nat → Dinode → Nat → List UInt8 → MkM (Dinode × Nat)
  | 0, din, off, _ => pure (din, off)
  | fuel + 1, din, off, p =>
    if p = [] then pure (din, off)
    else
      let fbn := off / BSIZE
      if MAXFILE ≤ fbn then Prog.fail .assertion
      else do
        let (din, x) ← blockOf din fbn
        let n1 := min p.length ((fbn + 1) * BSIZE - off)
        let buf ← rsect x
        wsect x (buf.splice (off - fbn * BSIZE) (p.take n1))
        iappendFrom fuel din (off + n1) (p.drop n1)

def iappend (inum : Nat) (p : List UInt8) : MkM Unit := do
  let din ← rinode inum
  let (din, off) ← iappendFrom p.length din din.size.toNat p
  winode inum { din with size := UInt32.ofNat off }

/-- An argument of `mkfs`: the name, and what the calls of `read` return, or nothing if the file
cannot be opened. -/
structure Input where
  arg : Str
  data : Option (List (List UInt8))

def Input.name (f : Input) : Str := if f.arg.headD 0 = 95 then f.arg.tail else f.arg

def direntOf (inum : Nat) (name : Str) : List UInt8 := Dirent.encode ⟨inum, strncpy name DIRSIZ⟩

def copyFile (inum : Nat) : List (List UInt8) → MkM Unit
  | [] => pure ()
  | buf :: rest => do
    iappend inum buf
    copyFile inum rest

def addFile (rootino : Nat) (f : Input) : MkM Unit :=
  if slash ∈ f.arg then Prog.fail .assertion
  else match f.data with
    | none => Prog.fail .failed
    | some chunks => do
      let inum ← ialloc T_FILE
      iappend rootino (direntOf inum f.name)
      copyFile inum chunks

def addFiles (rootino : Nat) : List Input → MkM Unit
  | [] => pure ()
  | f :: rest => do
    addFile rootino f
    addFiles rootino rest

def roundRoot (rootino : Nat) : MkM Unit := do
  let din ← rinode rootino
  winode rootino { din with size := UInt32.ofNat ((din.size.toNat / BSIZE + 1) * BSIZE) }

def mkfs (files : List Input) : MkM Unit := do
  Prog.loop (fun i => wsect i Bytes.zero) FSSIZE 0
  wsect 1 (Bytes.zero.splice 0 (sbBytes sb))
  let rootino ← ialloc T_DIR
  if rootino ≠ ROOTINO then Prog.fail .assertion
  else do
    iappend rootino (direntOf rootino dot)
    iappend rootino (direntOf rootino dotdot)
    addFiles rootino files
    roundRoot rootino
    let s ← Prog.get
    balloc s.freeblock

def start : Img := ⟨fun _ => Bytes.zero, 0, 1, nmeta⟩

end BossOs.Mkfs
