import BossOs.Lib.Loop
import BossOs.Lib.Memory
import BossOs.Params

/-!
# Loading the kernel

`bootmain.c`: the program segments of the kernel are read from the disk sector by sector, each
from a sector boundary of the file on. `elf` and the program headers are read from memory
whenever the code does so, and a load may write over them.
-/

namespace BossOs.Boot

open UInt32 (lt_iff_toNat_lt ofNat toNat_add toNat_sub toNat_sub_of_le)
open Lib Lib.Memory

def SECTSIZE : Nat := 512

abbrev Disk := Nat → UInt8

def kernel (disk : Disk) (k : Nat) : UInt8 := disk (SECTSIZE + k)

def readsect (disk : Disk) (dst offset : UInt32) (m : Memory) : Memory := fun x =>
  if (x - dst).toNat < SECTSIZE then disk (offset.toNat * SECTSIZE + (x - dst).toNat) else m x

/-- `pa`, `offset` and the memory in the loop of `readseg`. -/
structure Reading where
  pa : UInt32
  offset : UInt32
  mem : Memory

def readRound (disk : Disk) (epa : UInt32) (s : Reading) : Round Reading Memory :=
  if s.pa < epa then
    .again ⟨s.pa + 512, s.offset + 1, readsect disk s.pa s.offset s.mem⟩
  else .leave s.mem

/-- A loop over all sectors of the address space does not end: `pa` has come back to its start. -/
def turns : Nat := 2 ^ 23 + 1

def readseg (disk : Disk) (pa count offset : UInt32) (m : Memory) : Option Memory :=
  Loop.run (readRound disk (pa + count)) turns ⟨pa - offset % 512, offset / 512 + 1, m⟩

def stosb (addr cnt : UInt32) (m : Memory) : Memory := fun x =>
  if (x - addr).toNat < cnt.toNat then 0 else m x

def elf : UInt32 := 0x10000

def load (disk : Disk) (ph : UInt32) (m : Memory) : Option Memory :=
  let pa := word m (ph + 12)
  (readseg disk pa (word m (ph + 16)) (word m (ph + 4)) m).map fun m =>
    if word m (ph + 20) > word m (ph + 16) then
      stosb (pa + word m (ph + 16)) (word m (ph + 20) - word m (ph + 16)) m
    else m

def loadRound (disk : Disk) (eph : UInt32) (s : UInt32 × Memory) :
    Round (UInt32 × Memory) (Option Memory) :=
  if s.1 < eph then
    match load disk s.1 s.2 with
    | none => .leave none
    | some m => .again (s.1 + 32, m)
  else .leave (some s.2)

/-- The memory after the loop; `none` if a loop does not end. Without `ELF_MAGIC` nothing is
loaded. -/
def bootmain (disk : Disk) (m : Memory) : Option Memory :=
  (readseg disk elf 4096 0 m).bind fun m =>
    if word m elf ≠ ofNat ELF_MAGIC then some m
    else
      let ph := elf + word m (elf + 28)
      let eph := ph + 32 * ushort m (elf + 44)
      (Loop.run (loadRound disk eph) (2 ^ 16 + 1) (ph, m)).join

section Image

variable (disk : Disk)

def fileWord (o : Nat) : UInt32 :=
  UInt32.ofNat (leNat ((List.range 4).map fun i => kernel disk (o + i)))

def phoff : Nat := (fileWord disk 28).toNat

def phnum : Nat := leNat ((List.range 2).map fun i => kernel disk (44 + i))

def field (i o : Nat) : UInt32 := fileWord disk (phoff disk + 32 * i + o)

def off (i : Nat) : UInt32 := field disk i 4
def paddr (i : Nat) : UInt32 := field disk i 12
def filesz (i : Nat) : UInt32 := field disk i 16
def memsz (i : Nat) : UInt32 := field disk i 20

def floor : Nat → Nat
  | 0 => elf.toNat + 4096
  | i + 1 => (paddr disk i).toNat + (memsz disk i).toNat

/-- The segments are listed in increasing order, above the headers, which lie in the first page
of the file. -/
structure Listed : Prop where
  magic : fileWord disk 0 = ofNat ELF_MAGIC
  headers : phoff disk + 32 * phnum disk ≤ 4096
  sizes : ∀ i, i < phnum disk → (filesz disk i).toNat ≤ (memsz disk i).toNat
  order : ∀ i, i < phnum disk → floor disk i ≤ (paddr disk i).toNat
  top : ∀ i, i < phnum disk → (paddr disk i).toNat + (memsz disk i).toNat ≤ 2 ^ 32

def start (i : Nat) : Nat := (paddr disk i).toNat - (off disk i).toNat % SECTSIZE

def readByte (i x : Nat) : UInt8 :=
  kernel disk ((off disk i).toNat / SECTSIZE * SECTSIZE + (x - start disk i))

def content (i k : Nat) : UInt8 :=
  if k < (filesz disk i).toNat then kernel disk ((off disk i).toNat + k) else 0

/-- The last segment before segment `n`, and after segment `j`, whose read goes over address `x`. -/
def lastOver (j x n : Nat) : Option Nat :=
  ((List.range n).filter fun i => j < i ∧ start disk i ≤ x).getLast?

def Clear : Prop := ∀ i < phnum disk, ∀ k < phoff disk + 32 * phnum disk, phoff disk ≤ k →
  start disk i ≤ elf.toNat + k → readByte disk i (elf.toNat + k) = kernel disk k

def Ends (i : Nat) : Prop :=
  (paddr disk i).toNat + (filesz disk i).toNat + SECTSIZE ≤ 2 ^ 32 + start disk i % SECTSIZE

/-- Every read ends, and the last one that goes down over a byte of an earlier segment has the same
byte for it. -/
structure Harmless : Prop where
  ends : ∀ i < phnum disk, Ends disk i
  below : ∀ j < phnum disk, ∀ k < (memsz disk j).toNat,
    ∀ i ∈ lastOver disk j ((paddr disk j).toNat + k) (phnum disk),
      readByte disk i ((paddr disk j).toNat + k) = content disk j k

/-- Segment `i` is in memory: its bytes of the file, then zeros. -/
structure Loaded (i : Nat) (m : Memory) : Prop where
  data : ∀ k, k < (filesz disk i).toNat →
    m (paddr disk i + UInt32.ofNat k) = kernel disk ((off disk i).toNat + k)
  zeros : ∀ k, (filesz disk i).toNat ≤ k → k < (memsz disk i).toNat →
    m (paddr disk i + UInt32.ofNat k) = 0

end Image

variable {disk : Disk} {m : Memory} {i : Nat}

-- `omega` would compare the two by computing them
attribute [irreducible] phoff phnum

theorem sectsize_eq : SECTSIZE = 512 := rfl

theorem readsect_outside {dst offset x : UInt32}
    (hx : (x.toNat < dst.toNat ∨ dst.toNat + SECTSIZE ≤ x.toNat) ∧ dst.toNat + SECTSIZE ≤ 2 ^ 32) :
    readsect disk dst offset m x = m x := by
  have := x.toNat_lt
  rw [sectsize_eq] at hx
  rw [readsect, if_neg]
  rw [toNat_sub, sectsize_eq]
  omega

theorem readsect_inside {dst offset x : UInt32} (hle : dst.toNat ≤ x.toNat)
    (hx : x.toNat < dst.toNat + SECTSIZE) :
    readsect disk dst offset m x = disk (offset.toNat * SECTSIZE + (x.toNat - dst.toNat)) := by
  have hsub : (x - dst).toNat = x.toNat - dst.toNat := toNat_sub_of_le _ _ hle
  rw [readsect, hsub, if_pos (by omega)]

theorem run_readRound (disk : Disk) {epa : UInt32} (s : Reading) (n : Nat)
    (htop : epa.toNat + SECTSIZE ≤ 2 ^ 32 + s.pa.toNat % SECTSIZE)
    (hn : epa.toNat ≤ s.pa.toNat + SECTSIZE * n) (hoff : s.offset.toNat + n < 2 ^ 32) :
    ∃ m', Loop.run (readRound disk epa) (n + 1) s = some m' ∧
      (∀ x, x.toNat < s.pa.toNat ∨ 2 ^ 32 + s.pa.toNat % SECTSIZE ≤ x.toNat + SECTSIZE →
        m' x = s.mem x) ∧
      ∀ x, s.pa.toNat ≤ x.toNat → x.toNat < epa.toNat →
        m' x = disk (s.offset.toNat * SECTSIZE + (x.toNat - s.pa.toNat)) := by
  rw [sectsize_eq] at htop hn ⊢
  induction n generalizing s with
  | zero =>
    have hround : readRound disk epa s = .leave s.mem := by
      rw [readRound, if_neg]
      rw [lt_iff_toNat_lt]
      omega
    refine ⟨s.mem, Loop.run_leave hround, fun _ _ => rfl, ?_⟩
    intro x hle hx
    omega
  | succ n ih =>
    by_cases hlt : s.pa < epa
    · have hround : readRound disk epa s =
          .again ⟨s.pa + 512, s.offset + 1, readsect disk s.pa s.offset s.mem⟩ := if_pos hlt
      rw [lt_iff_toNat_lt] at hlt
      have hpa : (s.pa + 512).toNat = s.pa.toNat + 512 := by
        rw [toNat_add]
        exact Nat.mod_eq_of_lt (show s.pa.toNat + 512 < 2 ^ 32 by omega)
      have hone : (s.offset + 1).toNat = s.offset.toNat + 1 := by
        rw [toNat_add]
        exact Nat.mod_eq_of_lt (show s.offset.toNat + 1 < 2 ^ 32 by omega)
      obtain ⟨m', hrun, hkeep, hdata⟩ :=
        ih ⟨s.pa + 512, s.offset + 1, readsect disk s.pa s.offset s.mem⟩
          (by simp only [hpa]; omega) (by simp only [hpa]; omega) (by simp only [hone]; omega)
      simp only [hpa, hone] at hkeep hdata
      refine ⟨m', (Loop.run_again hround).trans hrun, ?_, ?_⟩
      · intro x hx
        rw [hkeep x (by omega), readsect_outside]
        rw [sectsize_eq]
        omega
      · intro x hle hx
        by_cases hin : x.toNat < s.pa.toNat + 512
        · rw [hkeep x (Or.inl hin), readsect_inside hle hin, sectsize_eq]
        · have hbyte : (s.offset.toNat + 1) * 512 + (x.toNat - (s.pa.toNat + 512)) =
              s.offset.toNat * 512 + (x.toNat - s.pa.toNat) := by omega
          rw [hdata x (by omega) hx, hbyte]
    · have hround : readRound disk epa s = .leave s.mem := if_neg hlt
      rw [lt_iff_toNat_lt] at hlt
      refine ⟨s.mem, Loop.run_leave hround, fun _ _ => rfl, ?_⟩
      intro x hle hx
      omega

theorem run_readRound_none (disk : Disk) {epa : UInt32} (s : Reading) (n : Nat)
    (htop : 2 ^ 32 + s.pa.toNat % SECTSIZE < epa.toNat + SECTSIZE) :
    Loop.run (readRound disk epa) n s = none := by
  rw [Option.eq_none_iff_forall_not_mem]
  intro m' hrun
  refine Loop.not_exits (I := fun t : Reading => t.pa.toNat % 512 = s.pa.toNat % 512) ?_ rfl
    (Loop.exits_of_run hrun)
  intro t ht
  rw [sectsize_eq] at htop
  refine ⟨_, if_pos ?_, ?_⟩
  · rw [lt_iff_toNat_lt]
    have := t.pa.toNat_lt
    omega
  · change (t.pa + 512).toNat % 512 = _
    rw [toNat_add, show (512 : UInt32).toNat = 512 from rfl]
    omega

section Readseg

variable {pa count offset : UInt32} (hlow : offset.toNat % SECTSIZE ≤ pa.toNat)
include hlow

theorem toNat_start : (pa - offset % 512).toNat = pa.toNat - offset.toNat % SECTSIZE := by
  have hmod : (offset % 512).toNat = offset.toNat % 512 := UInt32.toNat_mod ..
  rw [toNat_sub_of_le _ _ (by rw [UInt32.le_iff_toNat_le, hmod]; exact hlow), hmod, sectsize_eq]

theorem readseg_spec (disk : Disk) (m : Memory)
    (htop : pa.toNat + count.toNat + SECTSIZE ≤
      2 ^ 32 + (pa.toNat - offset.toNat % SECTSIZE) % SECTSIZE) :
    ∃ m', readseg disk pa count offset m = some m' ∧
      (∀ x, x.toNat < pa.toNat - offset.toNat % SECTSIZE ∨ x.toNat = 2 ^ 32 - 1 → m' x = m x) ∧
      ∀ x, pa.toNat - offset.toNat % SECTSIZE ≤ x.toNat → x.toNat < pa.toNat + count.toNat →
        m' x = kernel disk (offset.toNat / SECTSIZE * SECTSIZE +
          (x.toNat - (pa.toNat - offset.toNat % SECTSIZE))) := by
  have hoff := offset.toNat_lt
  have hstart := toNat_start hlow
  rw [sectsize_eq] at *
  have hepa : (pa + count).toNat = pa.toNat + count.toNat := by
    rw [toNat_add]
    exact Nat.mod_eq_of_lt (by omega)
  have hsec : (offset / 512 + 1).toNat = offset.toNat / 512 + 1 := by
    rw [toNat_add, UInt32.toNat_div]
    exact Nat.mod_eq_of_lt (show offset.toNat / 512 + 1 < 2 ^ 32 by omega)
  have hend : (pa + count).toNat + SECTSIZE ≤ 2 ^ 32 + (pa - offset % 512).toNat % SECTSIZE := by
    rw [hepa, hstart]
    exact htop
  obtain ⟨m', hrun, hkeep, hdata⟩ := run_readRound disk
    ⟨pa - offset % 512, offset / 512 + 1, m⟩ (2 ^ 23) hend
    (by simp only [hepa, sectsize_eq]; omega) (by simp only [hsec]; omega)
  simp only [hstart, hsec, hepa, sectsize_eq] at hkeep hdata
  refine ⟨m', ?_, fun x hx => hkeep x (by omega), fun x hle hx => ?_⟩
  · rw [readseg, turns, hrun]
  · rw [hdata x hle hx, kernel, sectsize_eq]
    congr 1
    omega

theorem readseg_none (disk : Disk) (m : Memory) (hlt : pa.toNat + count.toNat < 2 ^ 32)
    (htop : 2 ^ 32 + (pa.toNat - offset.toNat % SECTSIZE) % SECTSIZE <
      pa.toNat + count.toNat + SECTSIZE) : readseg disk pa count offset m = none := by
  apply run_readRound_none
  rw [toNat_start hlow, toNat_add, Nat.mod_eq_of_lt hlt]
  exact htop

end Readseg

theorem readseg_top (disk : Disk) (m : Memory) {pa count : UInt32} (offset : UInt32)
    (htop : pa.toNat + count.toNat = 2 ^ 32) : readseg disk pa count offset m = some m := by
  apply Loop.run_leave (n := 2 ^ 23)
  have hepa : (pa + count).toNat = 0 := by
    rw [toNat_add, htop]
    exact Nat.mod_self _
  rw [readRound, if_neg]
  rw [lt_iff_toNat_lt, hepa]
  exact Nat.not_lt_zero _

def Table (disk : Disk) (m : Memory) : Prop :=
  ∀ k, phoff disk ≤ k → k < phoff disk + 32 * phnum disk → m (elf + ofNat k) = kernel disk k

theorem bytes_of_file {o w : Nat} (h : ∀ k, o ≤ k → k < o + w → m (elf + ofNat k) = kernel disk k) :
    Memory.bytes m (elf + ofNat o) w = (List.range w).map fun i => kernel disk (o + i) := by
  apply List.map_congr_left
  intro i hi
  have hlt := List.mem_range.mp hi
  rw [add_add_ofNat]
  exact h (o + i) (by omega) (by omega)

theorem word_of_file {o : Nat} (h : ∀ k, o ≤ k → k < o + 4 → m (elf + ofNat k) = kernel disk k) :
    word m (elf + ofNat o) = fileWord disk o := by
  rw [word, bytes_of_file h, fileWord]

theorem Table.field (h : Table disk m) (hi : i < phnum disk) {o : Nat} (ho : o + 4 ≤ 32) :
    word m (elf + ofNat (phoff disk + 32 * i) + ofNat o) = field disk i o := by
  rw [add_add_ofNat, word_of_file fun k hle hk => h k (by omega) (by omega), Boot.field]

theorem Table.fields (h : Table disk m) (hi : i < phnum disk) :
    word m (elf + ofNat (phoff disk + 32 * i) + 12) = paddr disk i ∧
      word m (elf + ofNat (phoff disk + 32 * i) + 16) = filesz disk i ∧
      word m (elf + ofNat (phoff disk + 32 * i) + 4) = off disk i ∧
      word m (elf + ofNat (phoff disk + 32 * i) + 20) = memsz disk i := by
  have hfield : ∀ o, o + 4 ≤ 32 →
      word m (elf + ofNat (phoff disk + 32 * i) + ofNat o) = Boot.field disk i o :=
    fun o ho => h.field hi ho
  exact ⟨hfield 12 (by decide), hfield 16 (by decide), hfield 4 (by decide), hfield 20 (by decide)⟩

theorem elf_toNat : elf.toNat = 0x10000 := rfl

theorem toNat_elf_add {k : Nat} (hk : k ≤ 4096) : (elf + ofNat k).toNat = elf.toNat + k := by
  apply toNat_add_ofNat
  rw [elf_toNat]
  omega

theorem floor_mono (hl : Listed disk) {j : Nat} (hji : j ≤ i) (hi : i ≤ phnum disk) :
    floor disk j ≤ floor disk i := by
  induction i with
  | zero =>
    obtain rfl := Nat.le_zero.mp hji
    exact Nat.le_refl _
  | succ i ih =>
    rcases Nat.le_succ_iff.mp hji with hle | rfl
    · have horder := hl.order i hi
      have hih := ih hle (Nat.le_of_succ_le hi)
      rw [floor]
      omega
    · exact Nat.le_refl _

theorem page_le (hl : Listed disk) (hi : i < phnum disk) :
    elf.toNat + 4096 ≤ (paddr disk i).toNat :=
  (floor_mono hl (Nat.zero_le i) (Nat.le_of_lt hi)).trans (hl.order i hi)

theorem low (hl : Listed disk) (hi : i < phnum disk) :
    (off disk i).toNat % SECTSIZE ≤ (paddr disk i).toNat := by
  have hpage := page_le hl hi
  rw [elf_toNat] at hpage
  rw [sectsize_eq]
  omega

theorem readByte_self (hl : Listed disk) (hi : i < phnum disk) (k : Nat) :
    readByte disk i ((paddr disk i).toNat + k) = kernel disk ((off disk i).toNat + k) := by
  have hlow := low hl hi
  unfold readByte start
  rw [sectsize_eq] at *
  congr 1
  omega

theorem loaded_iff (hl : Listed disk) (hi : i < phnum disk) : Loaded disk i m ↔
    ∀ k < (memsz disk i).toNat, m (paddr disk i + ofNat k) = content disk i k := by
  have hsize := hl.sizes i hi
  constructor
  · intro h k hk
    by_cases hlt : k < (filesz disk i).toNat
    · rw [content, if_pos hlt]
      exact h.data k hlt
    · rw [content, if_neg hlt]
      exact h.zeros k (by omega) hk
  · intro h
    refine ⟨fun k hk => ?_, fun k hle hk => ?_⟩
    · rw [h k (by omega), content, if_pos hk]
    · rw [h k hk, content, if_neg (by omega)]

theorem load_eq (h : Table disk m) (hi : i < phnum disk) {m₁ : Memory}
    (hread : readseg disk (paddr disk i) (filesz disk i) (off disk i) m = some m₁)
    (h₁ : Table disk m₁) : load disk (elf + ofNat (phoff disk + 32 * i)) m =
      some (if memsz disk i > filesz disk i then
        stosb (paddr disk i + filesz disk i) (memsz disk i - filesz disk i) m₁ else m₁) := by
  obtain ⟨hpa, hfilesz, hoff, -⟩ := h.fields hi
  obtain ⟨-, hfilesz₁, -, hmemsz⟩ := h₁.fields hi
  simp only [load, hpa, hfilesz, hoff, hread, Option.map_some, hfilesz₁, hmemsz]

theorem cleared (hl : Listed disk) (hi : i < phnum disk) (m₁ : Memory) (x : UInt32) :
    (if memsz disk i > filesz disk i then
      stosb (paddr disk i + filesz disk i) (memsz disk i - filesz disk i) m₁ else m₁) x =
    if (paddr disk i).toNat + (filesz disk i).toNat ≤ x.toNat ∧
        x.toNat < (paddr disk i).toNat + (memsz disk i).toNat then 0 else m₁ x := by
  have htop := hl.top i hi
  by_cases hgt : filesz disk i < memsz disk i
  · rw [if_pos hgt]
    rw [lt_iff_toNat_lt] at hgt
    have hend : (paddr disk i + filesz disk i).toNat =
        (paddr disk i).toNat + (filesz disk i).toNat := by
      rw [toNat_add]
      exact Nat.mod_eq_of_lt (by omega)
    have hcnt : (memsz disk i - filesz disk i).toNat =
        (memsz disk i).toNat - (filesz disk i).toNat :=
      toNat_sub_of_le _ _ (Nat.le_of_lt hgt)
    have hin : (x - (paddr disk i + filesz disk i)).toNat < (memsz disk i - filesz disk i).toNat ↔
        (paddr disk i).toNat + (filesz disk i).toNat ≤ x.toNat ∧
          x.toNat < (paddr disk i).toNat + (memsz disk i).toNat := by
      have := x.toNat_lt
      rw [toNat_sub, hend, hcnt]
      omega
    simp only [stosb, hin]
  · rw [if_neg hgt, if_neg]
    rw [lt_iff_toNat_lt] at hgt
    omega

section Load

variable (h : Table disk m) (hl : Listed disk) (hi : i < phnum disk)
include h hl hi

theorem load_spec (hc : Clear disk) (hends : Ends disk i) :
    ∃ m', load disk (elf + ofNat (phoff disk + 32 * i)) m = some m' ∧ Table disk m' ∧
      (∀ x, x.toNat < (paddr disk i).toNat →
        m' x = if start disk i ≤ x.toNat then readByte disk i x.toNat else m x) ∧
      (∀ k < (memsz disk i).toNat, m' (paddr disk i + ofNat k) = content disk i k) ∧
      ∀ x, x.toNat = 2 ^ 32 - 1 → (paddr disk i).toNat + (memsz disk i).toNat < 2 ^ 32 →
        m' x = m x := by
  have htop := hl.top i hi
  have hsize := hl.sizes i hi
  have hpage := page_le hl hi
  have hheaders := hl.headers
  obtain ⟨m₁, hread, hkeep, hdata⟩ := readseg_spec (low hl hi) disk m hends
  have hbelow : ∀ x, x.toNat < (paddr disk i).toNat →
      m₁ x = if start disk i ≤ x.toNat then readByte disk i x.toNat else m x := by
    intro x hx
    split
    · rename_i hle
      exact hdata x hle (by omega)
    · rename_i hle
      exact hkeep x (Or.inl (Nat.lt_of_not_le hle))
  -- bytes of the table are as before, or read the same
  have htable : ∀ m' : Memory, (∀ x, x.toNat < (paddr disk i).toNat →
      m' x = if start disk i ≤ x.toNat then readByte disk i x.toNat else m x) → Table disk m' := by
    intro m' hm' k hle hk
    have haddr := toNat_elf_add (show k ≤ 4096 by omega)
    rw [hm' _ (by omega), haddr]
    split
    · rename_i hover
      exact hc i hi k hk hle hover
    · exact h k hle hk
  refine ⟨_, load_eq h hi hread (htable m₁ hbelow), ?_⟩
  have hbelow' : ∀ x, x.toNat < (paddr disk i).toNat →
      (if memsz disk i > filesz disk i then
        stosb (paddr disk i + filesz disk i) (memsz disk i - filesz disk i) m₁ else m₁) x =
      if start disk i ≤ x.toNat then readByte disk i x.toNat else m x := by
    intro x hx
    rw [cleared hl hi, if_neg (by omega)]
    exact hbelow x hx
  refine ⟨htable _ hbelow', hbelow', fun k hk => ?_, fun x hx hlt => ?_⟩
  · have hx := toNat_add_ofNat (d := paddr disk i) (i := k) (by omega)
    rw [cleared hl hi, content, hx]
    by_cases hfile : k < (filesz disk i).toNat
    · rw [if_neg (by omega), if_pos hfile, hdata _ (by omega) (by omega), hx]
      exact readByte_self hl hi k
    · rw [if_pos (by omega), if_neg hfile]
  · rw [cleared hl hi, if_neg (by omega)]
    exact hkeep x (Or.inr hx)

theorem load_none (hlt : (paddr disk i).toNat + (filesz disk i).toNat < 2 ^ 32)
    (hends : ¬ Ends disk i) : load disk (elf + ofNat (phoff disk + 32 * i)) m = none := by
  obtain ⟨hpa, hfilesz, hoff, -⟩ := h.fields hi
  have hread := readseg_none (low hl hi) disk m hlt (Nat.lt_of_not_le hends)
  simp only [load, hpa, hfilesz, hoff, hread, Option.map_none]

theorem load_top (htop : (paddr disk i).toNat + (filesz disk i).toNat = 2 ^ 32) :
    load disk (elf + ofNat (phoff disk + 32 * i)) m = some m := by
  have hend := hl.top i hi
  rw [load_eq h hi (readseg_top disk m _ htop) h, if_neg]
  rw [gt_iff_lt, lt_iff_toNat_lt]
  omega

end Load

theorem lastOver_succ (j x n : Nat) : lastOver disk j x (n + 1) =
    if j < n ∧ start disk n ≤ x then some n else lastOver disk j x n := by
  unfold lastOver
  rw [List.range_succ, List.filter_append]
  by_cases hover : j < n ∧ start disk n ≤ x
  · rw [if_pos hover, List.filter_cons_of_pos (by simpa using hover), List.filter_nil,
      List.getLast?_append_of_ne_nil _ (List.cons_ne_nil _ _)]
    rfl
  · rw [if_neg hover, List.filter_cons_of_neg (by simpa using hover), List.filter_nil,
      List.append_nil]

theorem lastOver_self (j x : Nat) : lastOver disk j x (j + 1) = none := by
  unfold lastOver
  rw [List.getLast?_eq_none_iff, List.filter_eq_nil_iff]
  intro i hi hover
  have hlt := List.mem_range.mp hi
  simp only [decide_eq_true_eq] at hover
  omega

/-- The memory before segment `i` is loaded, which was `m₀` before the first one. -/
structure Reached (disk : Disk) (m₀ : Memory) (i : Nat) (m : Memory) : Prop where
  table : Table disk m
  segs : ∀ j < i, ∀ k < (memsz disk j).toNat, m (paddr disk j + ofNat k) =
    ((lastOver disk j ((paddr disk j).toNat + k) i).map
      (readByte disk · ((paddr disk j).toNat + k))).getD (content disk j k)
  top : (∀ j < i, (paddr disk j).toNat + (memsz disk j).toNat < 2 ^ 32) →
    ∀ x, x.toNat = 2 ^ 32 - 1 → m x = m₀ x

theorem Reached.step {m₀ : Memory} (h : Reached disk m₀ i m) (hl : Listed disk) (hc : Clear disk)
    (hi : i < phnum disk) (hends : Ends disk i) :
    ∃ m', load disk (elf + ofNat (phoff disk + 32 * i)) m = some m' ∧ Reached disk m₀ (i + 1) m' := by
  obtain ⟨m', hload, htable, hbelow, hself, htop⟩ := load_spec h.table hl hi hc hends
  refine ⟨m', hload, htable, fun j hj k hk => ?_, fun hall x hx => ?_⟩
  · rcases Nat.lt_succ_iff_lt_or_eq.mp hj with hji | rfl
    · have hend := hl.top j (by omega)
      have hfloor : floor disk (j + 1) ≤ floor disk i := floor_mono hl hji (Nat.le_of_lt hi)
      have horder := hl.order i hi
      rw [floor] at hfloor
      have hx := toNat_add_ofNat (d := paddr disk j) (i := k) (by omega)
      rw [hbelow _ (by omega), hx, lastOver_succ]
      by_cases hover : start disk i ≤ (paddr disk j).toNat + k
      · rw [if_pos hover, if_pos ⟨hji, hover⟩]
        rfl
      · rw [if_neg hover, if_neg fun hboth => hover hboth.2]
        exact h.segs j hji k hk
    · rw [lastOver_self]
      exact hself k hk
  · rw [htop x hx (hall i (Nat.lt_succ_self i))]
    exact h.top (fun j hj => hall j (Nat.lt_succ_of_lt hj)) x hx

section Rounds

variable (hl : Listed disk)
include hl

theorem header_lt (hi : i < phnum disk) :
    elf + ofNat (phoff disk + 32 * i) < elf + ofNat (phoff disk + 32 * phnum disk) := by
  have hheaders := hl.headers
  rw [lt_iff_toNat_lt, toNat_elf_add (by omega), toNat_elf_add (by omega)]
  omega

theorem loadRound_again (hi : i < phnum disk) {m' : Memory}
    (hload : load disk (elf + ofNat (phoff disk + 32 * i)) m = some m') : loadRound disk
      (elf + ofNat (phoff disk + 32 * phnum disk)) (elf + ofNat (phoff disk + 32 * i), m) =
      .again (elf + ofNat (phoff disk + 32 * (i + 1)), m') := by
  have hnext : elf + ofNat (phoff disk + 32 * i) + 32 = elf + ofNat (phoff disk + 32 * (i + 1)) :=
    add_add_ofNat _ _ 32
  simp only [loadRound, header_lt hl hi, if_true, hload, hnext]

theorem loadRound_none (hi : i < phnum disk)
    (hload : load disk (elf + ofNat (phoff disk + 32 * i)) m = none) : loadRound disk
      (elf + ofNat (phoff disk + 32 * phnum disk)) (elf + ofNat (phoff disk + 32 * i), m) =
      .leave none := by
  simp only [loadRound, header_lt hl hi, if_true, hload]

omit hl in
theorem loadRound_end : loadRound disk (elf + ofNat (phoff disk + 32 * phnum disk))
    (elf + ofNat (phoff disk + 32 * phnum disk), m) = .leave (some m) :=
  if_neg (UInt32.lt_irrefl _)

theorem run_reached (hc : Clear disk) {m₀ : Memory} (h₀ : Table disk m₀) (hi : i ≤ phnum disk)
    (hends : ∀ j < i, Ends disk j) : ∃ m, Reached disk m₀ i m ∧ ∀ fuel,
      Loop.run (loadRound disk (elf + ofNat (phoff disk + 32 * phnum disk))) (fuel + i)
        (elf + ofNat (phoff disk + 32 * 0), m₀) =
      Loop.run (loadRound disk (elf + ofNat (phoff disk + 32 * phnum disk))) fuel
        (elf + ofNat (phoff disk + 32 * i), m) := by
  induction i with
  | zero =>
    exact ⟨m₀, ⟨h₀, fun j hj => absurd hj (Nat.not_lt_zero j), fun _ _ _ => rfl⟩, fun _ => rfl⟩
  | succ i ih =>
    obtain ⟨m, hm, hrun⟩ := ih (Nat.le_of_succ_le hi) fun j hj => hends j (Nat.lt_succ_of_lt hj)
    obtain ⟨m', hload, hm'⟩ := hm.step hl hc hi (hends i (Nat.lt_succ_self i))
    refine ⟨m', hm', fun fuel => ?_⟩
    have hfuel : fuel + (i + 1) = fuel + 1 + i := by omega
    rw [hfuel, hrun, Loop.run_again (loadRound_again hl hi hload)]

theorem bootmain_eq (m : Memory) : ∃ m₀, Table disk m₀ ∧ (∀ x, x.toNat = 2 ^ 32 - 1 → m₀ x = m x) ∧
    bootmain disk m = (Loop.run (loadRound disk (elf + ofNat (phoff disk + 32 * phnum disk)))
      (2 ^ 16 + 1) (elf + ofNat (phoff disk + 32 * 0), m₀)).join := by
  have hlow : (0 : UInt32).toNat % SECTSIZE ≤ elf.toNat := Nat.zero_le _
  have htop : elf.toNat + (4096 : UInt32).toNat + SECTSIZE ≤
      2 ^ 32 + (elf.toNat - (0 : UInt32).toNat % SECTSIZE) % SECTSIZE := by decide
  obtain ⟨m₀, hread, hkeep, hdata⟩ := readseg_spec hlow disk m htop
  have hheaders := hl.headers
  have h : ∀ k < 4096, m₀ (elf + ofNat k) = kernel disk k := by
    intro k hk
    have haddr := toNat_elf_add (Nat.le_of_lt hk)
    have hbyte := hdata (elf + ofNat k) (by rw [haddr]; exact Nat.le_add_right ..)
      (by rw [haddr]; exact Nat.add_lt_add_left hk _)
    have hidx : (0 : UInt32).toNat / SECTSIZE * SECTSIZE +
        (elf.toNat + k - (elf.toNat - (0 : UInt32).toNat % SECTSIZE)) = k := by
      rw [show (0 : UInt32).toNat = 0 from rfl, sectsize_eq]
      omega
    rw [hbyte, haddr, hidx]
  have hmagic : word m₀ elf = ofNat ELF_MAGIC := by
    have hw := word_of_file (o := 0) fun k _ hk => h k (by omega)
    rwa [add_zero_ofNat, hl.magic] at hw
  have hph : elf + word m₀ (elf + 28) = elf + ofNat (phoff disk + 32 * 0) := by
    have hw : word m₀ (elf + 28) = fileWord disk 28 :=
      word_of_file (o := 28) fun k _ hk => h k (by omega)
    rw [hw, phoff, Nat.mul_zero, Nat.add_zero, UInt32.ofNat_toNat]
  have hnum : ushort m₀ (elf + 44) = ofNat (phnum disk) := by
    have hb : Memory.bytes m₀ (elf + 44) 2 = _ :=
      bytes_of_file (o := 44) fun k _ hk => h k (by omega)
    rw [ushort, hb, phnum]
  have heph : elf + word m₀ (elf + 28) + 32 * ushort m₀ (elf + 44) =
      elf + ofNat (phoff disk + 32 * phnum disk) := by
    rw [hph, hnum, Nat.mul_zero, Nat.add_zero, UInt32.ofNat_add, UInt32.ofNat_mul,
      UInt32.add_assoc]
    rfl
  refine ⟨m₀, fun k _ hk => h k (by omega), fun x hx => hkeep x (Or.inr hx), ?_⟩
  rw [bootmain, hread, Option.bind_some, if_neg (not_not.mpr hmagic)]
  change (Loop.run (loadRound disk (elf + word m₀ (elf + 28) + 32 * ushort m₀ (elf + 44)))
    (2 ^ 16 + 1) (elf + word m₀ (elf + 28), m₀)).join = _
  rw [heph, hph]

omit hl in
theorem phnum_le (disk : Disk) : phnum disk ≤ 2 ^ 16 := by
  have hlt := leNat_lt ((List.range 2).map fun i => kernel disk (44 + i))
  rw [List.length_map, List.length_range] at hlt
  rw [phnum]
  exact Nat.le_trans (Nat.le_of_lt hlt) (by decide)

variable (hc : Clear disk)
include hc

theorem bootmain_reached (m : Memory) (hi : i ≤ phnum disk) (hends : ∀ j < i, Ends disk j) :
    ∃ m₀ m₁, (∀ x, x.toNat = 2 ^ 32 - 1 → m₀ x = m x) ∧ Reached disk m₀ i m₁ ∧ ∃ fuel,
      bootmain disk m = (Loop.run (loadRound disk (elf + ofNat (phoff disk + 32 * phnum disk)))
        (fuel + (phnum disk - i) + 1) (elf + ofNat (phoff disk + 32 * i), m₁)).join := by
  obtain ⟨m₀, h₀, hsame, hboot⟩ := bootmain_eq hl m
  obtain ⟨m₁, hm₁, hrun⟩ := run_reached hl hc h₀ hi hends
  refine ⟨m₀, m₁, hsame, hm₁, 2 ^ 16 - phnum disk, ?_⟩
  have hle := phnum_le disk
  have hfuel : 2 ^ 16 + 1 = 2 ^ 16 - phnum disk + (phnum disk - i) + 1 + i := by omega
  rw [hboot, hfuel, hrun]

theorem bootmain_some (m : Memory) (hends : ∀ i < phnum disk, Ends disk i) :
    ∃ m₀ m', bootmain disk m = some m' ∧ Reached disk m₀ (phnum disk) m' := by
  obtain ⟨m₀, m', -, hm', fuel, hboot⟩ := bootmain_reached hl hc m (Nat.le_refl _) hends
  refine ⟨m₀, m', ?_, hm'⟩
  rw [hboot, Loop.run_leave loadRound_end]
  rfl

theorem not_loads (hi : i < phnum disk) (hbefore : ∀ j < i, Ends disk j) (hends : ¬ Ends disk i) :
    ∃ m, ¬ ∃ m', bootmain disk m = some m' ∧ Loaded disk i m' := by
  have htop := hl.top i hi
  have hsize := hl.sizes i hi
  by_cases hlt : (paddr disk i).toNat + (filesz disk i).toNat < 2 ^ 32
  · refine ⟨fun _ => 0, ?_⟩
    obtain ⟨m₀, m₁, -, hm₁, fuel, hboot⟩ :=
      bootmain_reached hl hc (fun _ => 0) (Nat.le_of_lt hi) hbefore
    have hround := loadRound_none hl hi (load_none hm₁.table hl hi hlt hends)
    rintro ⟨m', hm', -⟩
    rw [hboot, Loop.run_leave hround] at hm'
    cases hm'
  · have hpaddr := (paddr disk i).toNat_lt
    obtain ⟨b, hb⟩ : ∃ b, b = kernel disk ((off disk i).toNat + ((filesz disk i).toNat - 1)) :=
      ⟨_, rfl⟩
    refine ⟨fun _ => b + 1, ?_⟩
    obtain ⟨m₀, m₁, hsame, hm₁, fuel, hboot⟩ :=
      bootmain_reached hl hc (fun _ => b + 1) (Nat.le_of_lt hi) hbefore
    -- the segment is the last one
    have hlast : i + 1 = phnum disk := by
      by_contra hne
      have horder := hl.order (i + 1) (by omega)
      have := (paddr disk (i + 1)).toNat_lt
      rw [floor] at horder
      omega
    have hround := loadRound_again hl hi (load_top hm₁.table hl hi (by omega))
    rw [hlast] at hround
    rintro ⟨m', hm', hloaded⟩
    rw [hboot, show phnum disk - i = 1 by omega, Loop.run_again hround,
      Loop.run_leave loadRound_end] at hm'
    cases hm'
    have hx := toNat_add_ofNat (d := paddr disk i) (i := (filesz disk i).toNat - 1) (by omega)
    have hbyte := hloaded.data ((filesz disk i).toNat - 1) (by omega)
    rw [hm₁.top ?_ _ (by omega), hsame _ (by omega), ← hb] at hbyte
    · exact absurd hbyte (by simp)
    · intro j hj
      have hfloor : floor disk (j + 1) ≤ floor disk i := floor_mono hl hj (Nat.le_of_lt hi)
      have horder := hl.order i hi
      rw [floor] at hfloor
      omega

/-- The loader ends with every segment in memory, whatever was there before, if and only if every
read ends and what the reads leave over earlier segments is what belongs there. -/
theorem bootmain_loads : (∀ m, ∃ m', bootmain disk m = some m' ∧
    ∀ i, i < phnum disk → Loaded disk i m') ↔ Harmless disk := by
  constructor
  · intro hall
    have hends : ∀ i < phnum disk, Ends disk i := by
      intro i hi
      induction i using Nat.strong_induction_on with
      | _ i ih =>
        by_contra hends
        obtain ⟨m, hm⟩ := not_loads hl hc hi (fun j hj => ih j hj (Nat.lt_trans hj hi)) hends
        obtain ⟨m', hboot, hloaded⟩ := hall m
        exact hm ⟨m', hboot, hloaded i hi⟩
    refine ⟨hends, fun j hj k hk i hlast => ?_⟩
    obtain ⟨m', hboot, hloaded⟩ := hall fun _ => 0
    obtain ⟨m₀, m'', hsome, hm⟩ := bootmain_some hl hc (fun _ => 0) hends
    cases hboot.symm.trans hsome
    have hbyte := hm.segs j hj k hk
    rw [(loaded_iff hl hj).mp (hloaded j hj) k hk, Option.mem_def.mp hlast] at hbyte
    exact hbyte.symm
  · intro h m
    obtain ⟨m₀, m', hsome, hm⟩ := bootmain_some hl hc m h.ends
    refine ⟨m', hsome, fun j hj => (loaded_iff hl hj).mpr fun k hk => ?_⟩
    rw [hm.segs j hj k hk]
    cases hlast : lastOver disk j ((paddr disk j).toNat + k) (phnum disk) with
    | none => rfl
    | some i => exact h.below j hj k hk i hlast

end Rounds

def header (off paddr filesz memsz : Nat) : List UInt8 :=
  toLe 4 1 ++ toLe 4 off ++ toLe 4 0 ++ toLe 4 paddr ++ toLe 4 filesz ++ toLe 4 memsz ++
    toLe 4 0 ++ toLe 4 0

/-- An image with two program headers after the file header; the other bytes of sector `s` are all
`s`. -/
def image (headers : List UInt8) : Disk := fun x =>
  if x < 1024 then
    (List.replicate 512 0 ++ (toLe 4 0x464C457F ++ List.replicate 24 0 ++ toLe 4 52 ++
      List.replicate 12 0 ++ toLe 2 2 ++ List.replicate 6 0 ++ headers)).getD x 0
  else UInt8.ofNat (x / 512)

instance (disk : Disk) : Decidable (Listed disk) :=
  decidable_of_iff (fileWord disk 0 = ofNat ELF_MAGIC ∧ phoff disk + 32 * phnum disk ≤ 4096 ∧
      (∀ i, i < phnum disk → (filesz disk i).toNat ≤ (memsz disk i).toNat) ∧
      (∀ i, i < phnum disk → floor disk i ≤ (paddr disk i).toNat) ∧
      ∀ i, i < phnum disk → (paddr disk i).toNat + (memsz disk i).toNat ≤ 2 ^ 32)
    ⟨fun ⟨h₁, h₂, h₃, h₄, h₅⟩ => ⟨h₁, h₂, h₃, h₄, h₅⟩,
      fun h => ⟨h.magic, h.headers, h.sizes, h.order, h.top⟩⟩

instance (disk : Disk) : Decidable (Clear disk) := by
  unfold Clear
  infer_instance

instance (disk : Disk) : Decidable (Harmless disk) :=
  decidable_of_iff ((∀ i < phnum disk, (paddr disk i).toNat + (filesz disk i).toNat + SECTSIZE ≤
        2 ^ 32 + start disk i % SECTSIZE) ∧
      ∀ j < phnum disk, ∀ k < (memsz disk j).toNat,
        ∀ i ∈ lastOver disk j ((paddr disk j).toNat + k) (phnum disk),
          readByte disk i ((paddr disk j).toNat + k) = content disk j k)
    ⟨fun h => ⟨h.1, h.2⟩, fun h => ⟨h.ends, h.below⟩⟩

/-- The second segment goes on where the first one ends, in the file and in memory: its read has the
bytes of the first one. -/
def closedUpImage : Disk := image (header 0x1000 0x100000 16 16 ++ header 0x1010 0x100010 16 32)

theorem bootmain_loads_closedUp : ∃ m', bootmain closedUpImage (fun _ => 7) = some m' ∧
    Loaded closedUpImage 0 m' ∧ Loaded closedUpImage 1 m' := by
  have hl : Listed closedUpImage := by decide +kernel
  have hc : Clear closedUpImage := by decide +kernel
  have hs : Harmless closedUpImage := by decide +kernel
  have hnum : phnum closedUpImage = 2 := by decide +kernel
  obtain ⟨m', hrun, hloaded⟩ := (bootmain_loads hl hc).mpr hs fun _ => 7
  exact ⟨m', hrun, hloaded 0 (by omega), hloaded 1 (by omega)⟩

/-- The second segment follows the first one at once, from the middle of a sector of the file. -/
def closeImage : Disk := image (header 0x1000 0x100000 0x80 0x100 ++ header 0x1300 0x100100 16 16)

/-- The first half of that sector is read over the first segment. -/
theorem bootmain_overwrites : ¬ ∀ (disk : Disk) (m : Memory), Listed disk →
    ∃ m', bootmain disk m = some m' ∧ ∀ i, i < phnum disk → Loaded disk i m' := by
  intro hall
  have hl : Listed closeImage := by decide +kernel
  obtain ⟨m', hrun, hloaded⟩ := hall closeImage (fun _ => 7) hl
  have hpos : 0 < phnum closeImage := by decide +kernel
  have hbyte : (bootmain closeImage (fun _ => 7)).map (fun m => m 0x100000) = some 10 := by
    decide +kernel
  have hdata := (hloaded 0 hpos).data 0 (by decide +kernel)
  have hfirst : paddr closeImage 0 + UInt32.ofNat 0 = 0x100000 := by decide +kernel
  have hfile : kernel closeImage ((off closeImage 0).toNat + 0) = 9 := by decide +kernel
  rw [hfirst, hfile] at hdata
  rw [hrun, Option.map_some, hdata] at hbyte
  exact absurd hbyte (by decide)

end BossOs.Boot
