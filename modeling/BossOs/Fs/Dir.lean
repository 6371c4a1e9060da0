import BossOs.Fs.Inode

/-!
# Directories and path names

`fs.c` from `namecmp` to `nameiparent`. A C string is the list of bytes at its
address; reading past the end of the list yields NUL.
-/

namespace BossOs.Fs

open Lib

abbrev Str := List UInt8

def slash : UInt8 := 47

def strncmp : Str → Str → Nat → Int
  | _, _, 0 => 0
  | p, q, n + 1 =>
    if p.headD 0 ≠ 0 ∧ p.headD 0 = q.headD 0 then strncmp p.tail q.tail n
    else (p.headD 0).toNat - (q.headD 0).toNat

def strncpy : Str → Nat → Str
  | _, 0 => []
  | t, n + 1 => if t.headD 0 = 0 then List.replicate (n + 1) 0 else t.headD 0 :: strncpy t.tail n

def namecmp (s t : Str) : Int := strncmp s t DIRSIZ

def dot : Str := [46]
def dotdot : Str := [46, 46]

variable (sb : Superblock)

def readEntry (p : Panic) (dp : Entry) (off : Nat) : FsM Dirent := do
  let r ← readi sb dp off Dirent.bytes
  match r with
  | some l => if l.length = Dirent.bytes then pure (Dirent.decode l) else panic p
  | none => panic p

def lookupFrom (dp : Entry) (name : Str) : Nat → Nat → FsM (Option (Entry × Nat))
  | 0, _ => pure none
  | fuel + 1, off => do
    let d ← inode dp
    if off < d.din.size.toNat then do
      let de ← readEntry sb .dirlookupRead dp off
      if de.inum ≠ 0 ∧ namecmp name de.name = 0 then do
        let ip ← iget de.inum
        pure (some (ip, off))
      else lookupFrom dp name fuel (off + Dirent.bytes)
    else pure none

def dirlookup (dp : Entry) (name : Str) : FsM (Option (Entry × Nat)) := do
  let d ← inode dp
  if d.din.type ≠ T_DIR then panic .dirlookupNotDir
  else lookupFrom sb dp name (d.din.size.toNat / Dirent.bytes + 1) 0

def emptyFrom (dp : Entry) : Nat → Nat → FsM Nat
  | 0, off => pure off
  | fuel + 1, off => do
    let d ← inode dp
    if off < d.din.size.toNat then do
      let de ← readEntry sb .dirlinkRead dp off
      if de.inum = 0 then pure off else emptyFrom dp fuel (off + Dirent.bytes)
    else pure off

def dirlink (dp : Entry) (name : Str) (inum : Nat) : FsM Bool := do
  -- Check that name is not present.
  let r ← dirlookup sb dp name
  match r with
  | some (ip, _) =>
    iput sb ip
    pure false
  | none =>
    let d ← inode dp
    let off ← emptyFrom sb dp (d.din.size.toNat / Dirent.bytes + 1) 0
    let w ← writei sb dp (Dirent.encode ⟨inum, strncpy name DIRSIZ⟩) off
    if w = some Dirent.bytes then pure true else panic .dirlink

/-- The rest of the path and the name; the name's buffer is cut at `DIRSIZ` bytes. -/
def skipelem (path : Str) : Option (Str × Str) :=
  let s := path.dropWhile (· = slash)
  if s.headD 0 = 0 then none
  else
    let name := s.takeWhile fun c => c ≠ slash ∧ c ≠ 0
    some ((s.drop name.length).dropWhile (· = slash), name.take DIRSIZ)

def namexFrom (parent : Bool) : Nat → Str → Str → Entry → FsM (Option (Entry × Str))
  | 0, _, _, _ => pure none
  | fuel + 1, path, name, ip =>
    match skipelem path with
    | none =>
      if parent then do
        iput sb ip
        pure none
      else pure (some (ip, name))
    | some (rest, name) => do
      ilock sb ip
      let d ← inode ip
      if d.din.type ≠ T_DIR then do
        iunlockput sb ip
        pure none
      else if parent ∧ rest.headD 0 = 0 then do
        -- Stop one level early.
        iunlock ip
        pure (some (ip, name))
      else do
        let next ← dirlookup sb ip name
        match next with
        | none =>
          iunlockput sb ip
          pure none
        | some (next, _) =>
          iunlockput sb ip
          namexFrom parent fuel rest name next

def namex (cwd : Entry) (path : Str) (parent : Bool) : FsM (Option (Entry × Str)) := do
  let ip ← if path.headD 0 = slash then iget ROOTINO else idup cwd
  namexFrom sb parent (path.length + 1) path [] ip

def namei (cwd : Entry) (path : Str) : FsM (Option Entry) := do
  let r ← namex sb cwd path false
  pure (r.map Prod.fst)

def nameiparent (cwd : Entry) (path : Str) : FsM (Option (Entry × Str)) := namex sb cwd path true

end BossOs.Fs
