import BossOs.Lib.Transition
import BossOs.Fs.Dir

/-!
# System calls

`file.c`, `sysfile.c` and what `fork` and `exit` do to files, each call run as a
whole by one process. Pipes are left out. An argument that cannot be fetched from
user memory is `none`; a descriptor that cannot be fetched is an invalid one.
-/

namespace BossOs.Fs

open Lib

/-- `type` of `struct file`, with the `ip` that is meaningful only for `FD_INODE`. -/
inductive FdType
  | none
  | inode (ip : Entry)
  deriving DecidableEq

structure File where
  type : FdType
  ref : Int
  readable : Bool
  writable : Bool
  off : UInt32

/-- The fields of `struct proc` that name files; an unused process has no `cwd`. -/
structure Proc where
  cwd : Option Entry
  ofile : Fin NOFILE → Option (Fin NFILE)

abbrev Pid := Fin NPROC

structure Sys where
  fs : State
  ftable : Fin NFILE → File
  procs : Pid → Proc

abbrev SysM := Prog Stop Sys

instance : MonadLift FsM SysM := ⟨Prog.zoom Sys.fs fun t s => { s with fs := t }⟩

def file (f : Fin NFILE) : SysM File := ⟨fun s => .ok (s.ftable f) s⟩

def setFile (f : Fin NFILE) (g : File → File) : SysM Unit :=
  Prog.modify fun s => { s with ftable := Function.update s.ftable f (g (s.ftable f)) }

def myproc (p : Pid) : SysM Proc := ⟨fun s => .ok (s.procs p) s⟩

def setProc (p : Pid) (g : Proc → Proc) : SysM Unit :=
  Prog.modify fun s => { s with procs := Function.update s.procs p (g (s.procs p)) }

def setFd (p : Pid) (fd : Fin NOFILE) (f : Option (Fin NFILE)) : SysM Unit :=
  setProc p fun pr => { pr with ofile := Function.update pr.ofile fd f }

def filealloc : SysM (Option (Fin NFILE)) := ⟨fun s =>
  match (List.finRange NFILE).find? fun f => (s.ftable f).ref = 0 with
  | some f =>
    .ok (some f) { s with ftable := Function.update s.ftable f { s.ftable f with ref := 1 } }
  | none => .ok none s⟩

def filedup (f : Fin NFILE) : SysM Unit := do
  let ff ← file f
  if ff.ref < 1 then panic .filedup
  else setFile f fun ff => { ff with ref := ff.ref + 1 }

variable (sb : Superblock)

def fileclose (f : Fin NFILE) : SysM Unit := do
  let ff ← file f
  if ff.ref < 1 then panic .fileclose
  else if 0 < ff.ref - 1 then setFile f fun ff => { ff with ref := ff.ref - 1 }
  else do
    setFile f fun ff => { ff with ref := 0, type := .none }
    match ff.type with
    | .none => pure ()
    | .inode ip =>
      beginOp
      iput sb ip
      endOp

def filestat (f : Fin NFILE) : SysM Int := do
  let ff ← file f
  match ff.type with
  | .none => pure (-1)
  | .inode ip =>
    ilock sb ip
    iunlock ip
    pure 0

def fileread (f : Fin NFILE) (n : Nat) : SysM Int := do
  let ff ← file f
  if !ff.readable then pure (-1)
  else match ff.type with
    | .none => panic .fileread
    | .inode ip =>
      ilock sb ip
      let r ← readi sb ip ff.off.toNat n
      match r with
      | none =>
        iunlock ip
        pure (-1)
      | some l =>
        setFile f fun ff => { ff with off := ff.off + UInt32.ofNat l.length }
        iunlock ip
        pure l.length

def maxWrite : Nat := (MAXOPBLOCKS - 1 - 1 - 2) / 2 * 512

def writeChunk (f : Fin NFILE) (ip : Entry) (src : List UInt8) : SysM (Option Nat) := do
  beginOp
  ilock sb ip
  let ff ← file f
  let r ← writei sb ip src ff.off.toNat
  match r with
  | none => pure ()
  | some n => setFile f fun ff => { ff with off := ff.off + UInt32.ofNat n }
  iunlock ip
  endOp
  pure r

def filewriteFrom (f : Fin NFILE) (ip : Entry) : Nat → List UInt8 → SysM Bool
  | 0, src => pure (src = [])
  | fuel + 1, src =>
    if src = [] then pure true
    else do
      let n1 := min src.length maxWrite
      let r ← writeChunk sb f ip (src.take n1)
      match r with
      | none => pure false
      | some r => if r ≠ n1 then panic .shortFilewrite else filewriteFrom f ip fuel (src.drop r)

def filewrite (f : Fin NFILE) (src : List UInt8) : SysM Int := do
  let ff ← file f
  if !ff.writable then pure (-1)
  else match ff.type with
    | .none => panic .filewrite
    | .inode ip => do
      let all ← filewriteFrom sb f ip src.length src
      pure (if all then src.length else -1)

def argfd (p : Pid) (fd : Int) : SysM (Option (Fin NOFILE × Fin NFILE)) := do
  let pr ← myproc p
  if fd < 0 ∨ (NOFILE : Int) ≤ fd then pure none
  else pure ((pr.ofile (Fin.ofNat _ fd.toNat)).map fun f => (Fin.ofNat _ fd.toNat, f))

def fdalloc (p : Pid) (f : Fin NFILE) : SysM (Option (Fin NOFILE)) := do
  let pr ← myproc p
  match (List.finRange NOFILE).find? fun fd => pr.ofile fd = none with
  | some fd =>
    setFd p fd (some f)
    pure (some fd)
  | none => pure none

def sysDup (p : Pid) (fd : Int) : SysM Int := do
  let r ← argfd p fd
  match r with
  | none => pure (-1)
  | some (_, f) =>
    let fd ← fdalloc p f
    match fd with
    | none => pure (-1)
    | some fd =>
      filedup f
      pure fd

def sysRead (p : Pid) (fd : Int) (n : Option Nat) : SysM Int := do
  let r ← argfd p fd
  match r, n with
  | some (_, f), some n => fileread sb f n
  | _, _ => pure (-1)

def sysWrite (p : Pid) (fd : Int) (src : Option (List UInt8)) : SysM Int := do
  let r ← argfd p fd
  match r, src with
  | some (_, f), some src => filewrite sb f src
  | _, _ => pure (-1)

def sysClose (p : Pid) (fd : Int) : SysM Int := do
  let r ← argfd p fd
  match r with
  | none => pure (-1)
  | some (fd, f) =>
    setFd p fd none
    fileclose sb f
    pure 0

def sysFstat (p : Pid) (fd : Int) : SysM Int := do
  let r ← argfd p fd
  match r with
  | none => pure (-1)
  | some (_, f) => filestat sb f

def linkBad (ip : Entry) : FsM Bool := do
  ilock sb ip
  setDin ip fun d => { d with nlink := d.nlink - 1 }
  iupdate sb ip
  iunlockput sb ip
  pure false

def linkNew (cwd : Entry) (new : Str) (ip : Entry) : FsM Bool := do
  let r ← nameiparent sb cwd new
  match r with
  | none => linkBad sb ip
  | some (dp, name) =>
    ilock sb dp
    -- dp->dev and ip->dev are the one device
    let i ← inode ip
    let ok ← dirlink sb dp name i.inum
    if ok then do
      iunlockput sb dp
      iput sb ip
      pure true
    else do
      iunlockput sb dp
      linkBad sb ip

def link (cwd : Entry) (old new : Str) : FsM Bool := do
  let r ← namei sb cwd old
  match r with
  | none => pure false
  | some ip =>
    ilock sb ip
    let i ← inode ip
    if i.din.type = T_DIR then do
      iunlockput sb ip
      pure false
    else do
      setDin ip fun d => { d with nlink := d.nlink + 1 }
      iupdate sb ip
      iunlock ip
      linkNew sb cwd new ip

def isdiremptyFrom (dp : Entry) : Nat → Nat → FsM Bool
  | 0, _ => pure true
  | fuel + 1, off => do
    let d ← inode dp
    if off < d.din.size.toNat then do
      let de ← readEntry sb .isdiremptyReadi dp off
      if de.inum ≠ 0 then pure false else isdiremptyFrom dp fuel (off + Dirent.bytes)
    else pure true

def isdirempty (dp : Entry) : FsM Bool := do
  let d ← inode dp
  isdiremptyFrom sb dp (d.din.size.toNat / Dirent.bytes + 1) (2 * Dirent.bytes)

/-- `sys_unlink` once `dirlookup` has found `ip` at offset `off` of the locked `dp`. -/
def unlinkEntry (dp ip : Entry) (off : Nat) : FsM Bool := do
  ilock sb ip
  let i ← inode ip
  if i.din.nlink < 1 then panic .unlinkNlink
  else do
    let busy ← if i.din.type = T_DIR then (do let b ← isdirempty sb ip; pure (!b)) else pure false
    if busy then do
      iunlockput sb ip
      iunlockput sb dp
      pure false
    else do
      let w ← writei sb dp (Dirent.encode ⟨0, List.replicate DIRSIZ 0⟩) off
      if w ≠ some Dirent.bytes then panic .unlinkWritei
      else do
        if i.din.type = T_DIR then do
          setDin dp fun d => { d with nlink := d.nlink - 1 }
          iupdate sb dp
        else pure ()
        iunlockput sb dp
        setDin ip fun d => { d with nlink := d.nlink - 1 }
        iupdate sb ip
        iunlockput sb ip
        pure true

def unlink (cwd : Entry) (path : Str) : FsM Bool := do
  let r ← nameiparent sb cwd path
  match r with
  | none => pure false
  | some (dp, name) =>
    ilock sb dp
    -- Cannot unlink "." or "..".
    if namecmp name dot = 0 ∨ namecmp name dotdot = 0 then do
      iunlockput sb dp
      pure false
    else do
      let r ← dirlookup sb dp name
      match r with
      | none =>
        iunlockput sb dp
        pure false
      | some (ip, off) => unlinkEntry sb dp ip off

def createNew (dp : Entry) (name : Str) (type major minor : Int16) : FsM Entry := do
  let ip ← ialloc sb type
  ilock sb ip
  setDin ip fun d => { d with major := major, minor := minor, nlink := 1 }
  iupdate sb ip
  let i ← inode ip
  if type = T_DIR then do
    setDin dp fun d => { d with nlink := d.nlink + 1 }  -- for ".."
    iupdate sb dp
    let d ← inode dp
    let ok ← dirlink sb ip dot i.inum
    if ok then do
      let ok ← dirlink sb ip dotdot d.inum
      if ok then pure () else panic .createDots
    else panic .createDots
  else pure ()
  let ok ← dirlink sb dp name i.inum
  if ok then do
    iunlockput sb dp
    pure ip
  else panic .createDirlink

def create (cwd : Entry) (path : Str) (type major minor : Int16) : FsM (Option Entry) := do
  let r ← nameiparent sb cwd path
  match r with
  | none => pure none
  | some (dp, name) =>
    ilock sb dp
    let r ← dirlookup sb dp name
    match r with
    | some (ip, _) =>
      iunlockput sb dp
      ilock sb ip
      let i ← inode ip
      if type = T_FILE ∧ i.din.type = T_FILE then pure (some ip)
      else do
        iunlockput sb ip
        pure none
    | none =>
      let ip ← createNew sb dp name type major minor
      pure (some ip)

def openInode (cwd : Entry) (path : Str) (omode : UInt32) : FsM (Option Entry) :=
  if omode &&& O_CREATE ≠ 0 then create sb cwd path T_FILE 0 0
  else do
    let r ← namei sb cwd path
    match r with
    | none => pure none
    | some ip =>
      ilock sb ip
      let i ← inode ip
      if i.din.type = T_DIR ∧ omode ≠ O_RDONLY then do
        iunlockput sb ip
        pure none
      else pure (some ip)

def sysLink (cwd : Entry) (args : Option (Str × Str)) : SysM Int :=
  match args with
  | none => pure (-1)
  | some (old, new) => do
    beginOp
    let ok ← link sb cwd old new
    endOp
    pure (if ok then 0 else -1)

def sysUnlink (cwd : Entry) (path : Option Str) : SysM Int :=
  match path with
  | none => pure (-1)
  | some path => do
    beginOp
    let ok ← unlink sb cwd path
    endOp
    pure (if ok then 0 else -1)

def sysOpen (p : Pid) (cwd : Entry) (args : Option (Str × UInt32)) : SysM Int :=
  match args with
  | none => pure (-1)
  | some (path, omode) => do
    beginOp
    let r ← openInode sb cwd path omode
    match r with
    | none =>
      endOp
      pure (-1)
    | some ip =>
      let f ← filealloc
      match f with
      | none =>
        iunlockput sb ip
        endOp
        pure (-1)
      | some f =>
        let fd ← fdalloc p f
        match fd with
        | none =>
          fileclose sb f
          iunlockput sb ip
          endOp
          pure (-1)
        | some fd =>
          iunlock ip
          endOp
          setFile f fun ff => { ff with
            type := .inode ip
            off := 0
            readable := omode &&& O_WRONLY = 0
            writable := omode &&& O_WRONLY ≠ 0 ∨ omode &&& O_RDWR ≠ 0 }
          pure fd

def sysCreate (cwd : Entry) (args : Option (Str × Int16 × Int16 × Int16)) : SysM Int := do
  beginOp
  match args with
  | none =>
    endOp
    pure (-1)
  | some (path, type, major, minor) =>
    let r ← create sb cwd path type major minor
    match r with
    | none =>
      endOp
      pure (-1)
    | some ip =>
      iunlockput sb ip
      endOp
      pure 0

def sysMkdir (cwd : Entry) (path : Option Str) : SysM Int :=
  sysCreate sb cwd (path.map fun path => (path, T_DIR, 0, 0))

def sysMknod (cwd : Entry) (args : Option (Str × Int16 × Int16)) : SysM Int :=
  sysCreate sb cwd (args.map fun a => (a.1, T_DEV, a.2.1, a.2.2))

/-- The part of `sys_chdir` before `iput(curproc->cwd)`: an unlocked directory, or nothing. -/
def chdirInode (cwd : Entry) (path : Str) : FsM (Option Entry) := do
  let r ← namei sb cwd path
  match r with
  | none => pure none
  | some ip =>
    ilock sb ip
    let i ← inode ip
    if i.din.type ≠ T_DIR then do
      iunlockput sb ip
      pure none
    else do
      iunlock ip
      pure (some ip)

def sysChdir (p : Pid) (cwd : Entry) (path : Option Str) : SysM Int := do
  beginOp
  match path with
  | none =>
    endOp
    pure (-1)
  | some path =>
    let r ← chdirInode sb cwd path
    match r with
    | none =>
      endOp
      pure (-1)
    | some ip =>
      iput sb cwd
      endOp
      setProc p fun pr => { pr with cwd := some ip }
      pure 0

def execReads (ip : Entry) : List (Nat × Nat) → FsM Unit
  | [] => pure ()
  | (off, n) :: rest => do
    let _ ← readi sb ip off n
    execReads ip rest

/-- What `exec` does to the file system: it looks up the program and reads it. The parts it
reads depend on the headers it finds and on memory, and are an argument here. -/
def exec (cwd : Entry) (path : Option Str) (reads : List (Nat × Nat)) : SysM Int :=
  match path with
  | none => pure (-1)
  | some path => do
    beginOp
    let r ← namei sb cwd path
    match r with
    | none =>
      endOp
      pure (-1)
    | some ip =>
      ilock sb ip
      execReads sb ip reads
      iunlockput sb ip
      endOp
      pure 0

def forkFd (p q : Pid) (i : Nat) : SysM Unit := do
  let pr ← myproc p
  match pr.ofile (Fin.ofNat _ i) with
  | none => pure ()
  | some f =>
    filedup f
    setFd q (Fin.ofNat _ i) (some f)

def fork (p q : Pid) (cwd : Entry) : SysM Int := do
  Prog.loop (forkFd p q) NOFILE 0
  let c ← idup cwd
  setProc q fun pr => { pr with cwd := some c }
  pure q

def exitFd (p : Pid) (i : Nat) : SysM Unit := do
  let pr ← myproc p
  match pr.ofile (Fin.ofNat _ i) with
  | none => pure ()
  | some f =>
    fileclose sb f
    setFd p (Fin.ofNat _ i) none

def exit (p : Pid) (cwd : Entry) : SysM Int := do
  Prog.loop (exitFd sb p) NOFILE 0
  beginOp
  iput sb cwd
  endOp
  setProc p fun pr => { pr with cwd := none }
  pure 0

inductive Call
  | open_ (args : Option (Str × UInt32))
  | mkdir (path : Option Str)
  | mknod (args : Option (Str × Int16 × Int16))
  | link (args : Option (Str × Str))
  | unlink (path : Option Str)
  | chdir (path : Option Str)
  | exec (path : Option Str) (reads : List (Nat × Nat))
  | dup (fd : Int)
  | read (fd : Int) (n : Option Nat)
  | write (fd : Int) (src : Option (List UInt8))
  | close (fd : Int)
  | fstat (fd : Int)
  | fork (q : Pid)
  | exit

def call (p : Pid) (cwd : Entry) : Call → SysM Int
  | .open_ args => sysOpen sb p cwd args
  | .mkdir path => sysMkdir sb cwd path
  | .mknod args => sysMknod sb cwd args
  | .link args => sysLink sb cwd args
  | .unlink path => sysUnlink sb cwd path
  | .chdir path => sysChdir sb p cwd path
  | .exec path reads => exec sb cwd path reads
  | .dup fd => sysDup p fd
  | .read fd n => sysRead sb p fd n
  | .write fd src => sysWrite sb p fd src
  | .close fd => sysClose sb p fd
  | .fstat fd => sysFstat sb p fd
  | .fork q => fork p q cwd
  | .exit => exit sb p cwd

def Sys.enabled (s : Sys) (p : Pid) : Call → Bool
  | .fork q => (s.procs p).cwd.isSome && (s.procs q).cwd.isNone
  | _ => (s.procs p).cwd.isSome

/-- A call that returns; a call that stops ends the run, also where it fills the log. -/
def step (s : Sys) (a : Pid × Call) : Option Sys :=
  match (s.procs a.1).cwd with
  | none => none
  | some cwd =>
    if s.enabled a.1 a.2 then
      match (call sb a.1 cwd a.2).run s with
      | .ok _ t => if t.fs.blk.tooBig sb then none else some t
      | .stop _ _ => none
    else none

end BossOs.Fs
