import Mathlib.Data.Fin.Basic
import BossOs.Lib.Bytes

/-! Constants that several modules share, of `param.h`, `fs.h`, `fcntl.h`, `memlayout.h` and `elf.h`. -/

namespace BossOs

def NPROC : Nat := 64
def NCPU : Nat := 8
def NOFILE : Nat := 16
def NFILE : Nat := 100
def NINODE : Nat := 50
def ROOTDEV : Nat := 1
def MAXARG : Nat := 32
def MAXOPBLOCKS : Nat := 10
def LOGSIZE : Nat := MAXOPBLOCKS * 3
def FSSIZE : Nat := 1000

def ROOTINO : Nat := 1
def BSIZE : Nat := 512

def O_RDONLY : UInt32 := 0
def O_WRONLY : UInt32 := 1
def O_RDWR : UInt32 := 2
def O_CREATE : UInt32 := 0x200

def KERNBASE : Nat := 0x80000000
def ELF_MAGIC : Nat := 0x464C457F

def newline : UInt8 := 10

/-- One disk block. -/
abbrev Block := Lib.Bytes BSIZE

theorem nproc_pos : 0 < NPROC := by decide

instance : NeZero NOFILE := ⟨by decide⟩

end BossOs
