import BossOs.Lib.Loop
import BossOs.Lib.Memory
import BossOs.Params

/-!
# Arguments of system calls

`fetchint`, `fetchstr`, `argint`, `argptr` and `argstr` of `syscall.c` and the loop of
`sys_exec` over the argument vector, in 32-bit arithmetic. A fetch keeps a record of what it
has read from the process's memory.
-/

namespace BossOs.Syscall

open Lib Lib.Memory

inductive Access where
  | word (addr : UInt32)
  | byte (addr : UInt32)
  deriving DecidableEq

/-- What has been read, and the value if the fetch succeeds. -/
structure Fetch (α : Type) where
  reads : List Access
  value : Option α

namespace Fetch

variable {α β : Type}

instance : Monad Fetch where
  pure a := ⟨[], some a⟩
  bind x f :=
    match x.value with
    | none => ⟨x.reads, none⟩
    | some a => ⟨x.reads ++ (f a).reads, (f a).value⟩

def fail : Fetch α := ⟨[], none⟩

end Fetch

structure Proc where
  mem : Memory
  sz : UInt32
  esp : UInt32

variable (p : Proc)

def fetchint (addr : UInt32) : Fetch UInt32 :=
  if p.sz ≤ addr ∨ p.sz < addr + 4 then .fail else ⟨[.word addr], some (p.mem.word addr)⟩

def strlenFrom : Nat → UInt32 → Fetch UInt32
  | 0, _ => .fail
  | n + 1, s =>
    if s < p.sz then
      if p.mem s = 0 then ⟨[.byte s], some s⟩
      else ⟨.byte s :: (strlenFrom n (s + 1)).reads, (strlenFrom n (s + 1)).value⟩
    else .fail

def fetchstr (addr : UInt32) : Fetch (UInt32 × UInt32) :=
  if p.sz ≤ addr then .fail
  else do
    let s ← strlenFrom p (p.sz - addr).toNat addr
    pure (addr, s - addr)

def argint (n : Int32) : Fetch UInt32 := fetchint p (p.esp + 4 + 4 * n.toUInt32)

def argptr (n size : Int32) : Fetch UInt32 := do
  let i ← argint p n
  if size < 0 ∨ p.sz ≤ i ∨ p.sz < i + size.toUInt32 then .fail else pure i

def argstr (n : Int32) : Fetch (UInt32 × UInt32) := do
  let addr ← argint p n
  fetchstr p addr

structure ArgLoop where
  i : Nat
  reads : List Access
  argv : List UInt32

def execRound (uargv : UInt32) (s : ArgLoop) : Round ArgLoop (Fetch (List UInt32)) :=
  if MAXARG ≤ s.i then .leave ⟨s.reads, none⟩
  else
    let w := fetchint p (uargv + 4 * UInt32.ofNat s.i)
    match w.value with
    | none => .leave ⟨s.reads ++ w.reads, none⟩
    | some uarg =>
      if uarg = 0 then .leave ⟨s.reads ++ w.reads, some s.argv⟩
      else
        let str := fetchstr p uarg
        match str.value with
        | none => .leave ⟨s.reads ++ w.reads ++ str.reads, none⟩
        | some arg => .again ⟨s.i + 1, s.reads ++ w.reads ++ str.reads, s.argv ++ [arg.1]⟩

/-- The path and the arguments with which `sys_exec` calls `exec`. The loop needs no more than
`MAXARG + 1` rounds. -/
def sysExec : Fetch (UInt32 × List UInt32) := do
  let path ← argstr p 0
  let uargv ← argint p 1
  let argv ← (Loop.run (execRound p uargv) (MAXARG + 1) ⟨0, [], []⟩).getD .fail
  pure (path.1, argv)

def Access.inside (sz : UInt32) : Access → Prop
  | .word a => a.toNat + 4 ≤ sz.toNat
  | .byte a => a.toNat < sz.toNat

def Access.isWord : Access → Bool
  | .word _ => true
  | .byte _ => false

def Confined {α : Type} (p : Proc) (x : Fetch α) : Prop := ∀ a ∈ x.reads, a.inside p.sz

section Rules

variable {p} {α β : Type} {x : Fetch α} {f : α → Fetch β} {b : β}

theorem confined_fail : Confined p (.fail : Fetch α) := fun _ h => nomatch h

theorem confined_pure (a : α) : Confined p (pure a : Fetch α) := fun _ h => nomatch h

theorem bind_none (h : x.value = none) : (x >>= f) = ⟨x.reads, none⟩ := by
  change (match x.value with
    | none => (⟨x.reads, none⟩ : Fetch β)
    | some a => ⟨x.reads ++ (f a).reads, (f a).value⟩) = _
  rw [h]

theorem bind_some {a : α} (h : x.value = some a) :
    (x >>= f) = ⟨x.reads ++ (f a).reads, (f a).value⟩ := by
  change (match x.value with
    | none => (⟨x.reads, none⟩ : Fetch β)
    | some a => ⟨x.reads ++ (f a).reads, (f a).value⟩) = _
  rw [h]

theorem bind_value (h : (x >>= f).value = some b) :
    ∃ a, x.value = some a ∧ (f a).value = some b := by
  cases hx : x.value with
  | none =>
    rw [bind_none hx] at h
    cases h
  | some a =>
    rw [bind_some hx] at h
    exact ⟨a, rfl, h⟩

theorem Confined.bind (hx : Confined p x) (hf : ∀ a, x.value = some a → Confined p (f a)) :
    Confined p (x >>= f) := by
  intro a ha
  cases hv : x.value with
  | none =>
    rw [bind_none hv] at ha
    exact hx a ha
  | some c =>
    rw [bind_some hv] at ha
    rcases List.mem_append.mp ha with ha | ha
    · exact hx a ha
    · exact hf c hv a ha

end Rules

section Below

variable {p} (hsz : p.sz.toNat < KERNBASE)
include hsz

variable {addr : UInt32}

theorem fetchint_inside (h : ¬ (p.sz ≤ addr ∨ p.sz < addr + 4)) : addr.toNat + 4 ≤ p.sz.toNat := by
  rw [not_or, UInt32.le_iff_toNat_le, UInt32.lt_iff_toNat_lt, UInt32.toNat_add] at h
  change ¬ _ ∧ ¬ p.sz.toNat < (addr.toNat + 4) % 2 ^ 32 at h
  unfold KERNBASE at hsz
  omega

theorem fetchint_confined (addr : UInt32) : Confined p (fetchint p addr) := by
  unfold fetchint
  split
  · exact confined_fail
  · rename_i h
    intro a ha
    rw [List.mem_singleton.mp ha]
    exact fetchint_inside hsz h

theorem fetchint_value {v : UInt32} (h : (fetchint p addr).value = some v) :
    addr.toNat + 4 ≤ p.sz.toNat := by
  unfold fetchint at h
  split at h
  · cases h
  · exact fetchint_inside hsz ‹_›

omit hsz in
theorem strlenFrom_confined (n : Nat) (s : UInt32) : Confined p (strlenFrom p n s) := by
  induction n generalizing s with
  | zero => exact confined_fail
  | succ n ih =>
    unfold strlenFrom
    split
    · rename_i hlt
      rw [UInt32.lt_iff_toNat_lt] at hlt
      split
      · intro a ha
        rw [List.mem_singleton.mp ha]
        exact hlt
      · intro a ha
        rcases List.mem_cons.mp ha with rfl | ha
        · exact hlt
        · exact ih _ a ha
    · exact confined_fail

theorem strlenFrom_value {n : Nat} {s e : UInt32} (h : (strlenFrom p n s).value = some e) :
    s.toNat ≤ e.toNat ∧ e.toNat < p.sz.toNat ∧ p.mem e = 0 ∧
      ∀ a : UInt32, s.toNat ≤ a.toNat → a.toNat < e.toNat → p.mem a ≠ 0 := by
  induction n generalizing s with
  | zero => cases h
  | succ n ih =>
    unfold strlenFrom at h
    split at h
    · rename_i hlt
      rw [UInt32.lt_iff_toNat_lt] at hlt
      split at h
      · rename_i hzero
        cases h
        exact ⟨Nat.le_refl _, hlt, hzero, fun a ha ha' => absurd ha' (Nat.not_lt.mpr ha)⟩
      · rename_i hzero
        obtain ⟨hle, hend, hnul, hbytes⟩ := ih h
        have hnext : (s + 1).toNat = s.toNat + 1 := by
          unfold KERNBASE at hsz
          exact toNat_add_ofNat (i := 1) (by omega)
        refine ⟨by omega, hend, hnul, fun a ha ha' => ?_⟩
        rcases Nat.eq_or_lt_of_le ha with heq | hlt'
        · rw [← UInt32.toNat_inj.mp heq]
          exact hzero
        · exact hbytes a (by omega) ha'
    · cases h

omit hsz in
theorem fetchstr_confined (addr : UInt32) : Confined p (fetchstr p addr) := by
  unfold fetchstr
  split
  · exact confined_fail
  · exact (strlenFrom_confined _ _).bind fun _ _ => confined_pure _

theorem fetchstr_value {a len : UInt32} (h : (fetchstr p addr).value = some (a, len)) :
    a = addr ∧ a.toNat + len.toNat < p.sz.toNat ∧ p.mem (a + len) = 0 := by
  unfold fetchstr at h
  split at h
  · cases h
  · obtain ⟨e, he, hpair⟩ := bind_value h
    cases hpair
    obtain ⟨hle, hend, hnul, -⟩ := strlenFrom_value hsz he
    have hsub : (e - addr).toNat = e.toNat - addr.toNat :=
      UInt32.toNat_sub_of_le _ _ (UInt32.le_iff_toNat_le.mpr hle)
    refine ⟨rfl, by omega, ?_⟩
    rw [UInt32.add_comm, UInt32.sub_add_cancel]
    exact hnul

theorem argptr_value {n size : Int32} {i : UInt32} (h : (argptr p n size).value = some i) :
    0 ≤ size ∧ i.toNat + size.toInt.toNat ≤ p.sz.toNat := by
  obtain ⟨i', -, hcheck⟩ := bind_value h
  split at hcheck
  · cases hcheck
  · rename_i hin
    cases hcheck
    rw [not_or, not_or, Int32.not_lt] at hin
    obtain ⟨hsize, hlow, hhigh⟩ := hin
    have hcount : size.toUInt32.toNat = size.toInt.toNat := Int32.toNat_toUInt32_of_le hsize
    have hbound : size.toInt.toNat < 2 ^ 31 := Int32.toNatClampNeg_lt size
    rw [UInt32.le_iff_toNat_le] at hlow
    rw [UInt32.lt_iff_toNat_lt, UInt32.toNat_add, hcount] at hhigh
    unfold KERNBASE at hsz
    exact ⟨hsize, by omega⟩

end Below

def wordCount (reads : List Access) : Nat := reads.countP Access.isWord

/-- In round `i` no more than `i` argument words have been read. -/
structure LoopInv (p : Proc) (s : ArgLoop) : Prop where
  reads : ∀ a ∈ s.reads, a.inside p.sz
  words : wordCount s.reads ≤ s.i

structure LoopPost (p : Proc) (r : Fetch (List UInt32)) : Prop where
  confined : Confined p r
  words : wordCount r.reads ≤ MAXARG

variable {p} {s : ArgLoop} {u : UInt32}

theorem wordCount_append (xs ys : List Access) :
    wordCount (xs ++ ys) = wordCount xs + wordCount ys := List.countP_append

theorem wordCount_fetchint (addr : UInt32) : wordCount (fetchint p addr).reads ≤ 1 := by
  unfold fetchint
  split
  · exact Nat.zero_le 1
  · exact Nat.le_refl 1

theorem wordCount_strlenFrom (n : Nat) (s : UInt32) : wordCount (strlenFrom p n s).reads = 0 := by
  induction n generalizing s with
  | zero => rfl
  | succ n ih =>
    unfold strlenFrom
    split
    · split
      · rfl
      · exact (List.countP_cons_of_neg Bool.false_ne_true).trans (ih _)
    · rfl

theorem wordCount_fetchstr (addr : UInt32) : wordCount (fetchstr p addr).reads = 0 := by
  unfold fetchstr
  split
  · rfl
  · have hloop := wordCount_strlenFrom (p := p) (p.sz - addr).toNat addr
    cases hv : (strlenFrom p (p.sz - addr).toNat addr).value with
    | none =>
      rw [bind_none hv]
      exact hloop
    | some s =>
      rw [bind_some hv, wordCount_append, hloop]
      rfl

section Loop

variable (hsz : p.sz.toNat < KERNBASE) (h : LoopInv p s)
include hsz h

theorem round_reads (uarg : UInt32) :
    (∀ a ∈ s.reads ++ (fetchint p u).reads ++ (fetchstr p uarg).reads, a.inside p.sz) ∧
      wordCount (s.reads ++ (fetchint p u).reads ++ (fetchstr p uarg).reads) ≤ s.i + 1 := by
  have hword := wordCount_fetchint (p := p) u
  have hstr := wordCount_fetchstr (p := p) uarg
  have hwords := h.words
  rw [wordCount_append, wordCount_append]
  refine ⟨fun a ha => ?_, by omega⟩
  rcases List.mem_append.mp ha with ha | ha
  · rcases List.mem_append.mp ha with ha | ha
    · exact h.reads a ha
    · exact fetchint_confined hsz u a ha
  · exact fetchstr_confined uarg a ha

theorem execRound_spec (hi : s.i < MAXARG) : (∃ r, execRound p u s = .leave r ∧ LoopPost p r) ∨
      ∃ t, execRound p u s = .again t ∧ LoopInv p t ∧ t.i = s.i + 1 := by
  unfold execRound
  rw [if_neg (Nat.not_le.mpr hi)]
  simp only
  obtain ⟨w, hw⟩ : ∃ w, w = u + 4 * UInt32.ofNat s.i := ⟨_, rfl⟩
  rw [← hw]
  have hfirst : LoopPost p ⟨s.reads ++ (fetchint p w).reads, none⟩ := by
    have hround := round_reads (u := w) hsz h p.sz
    have hnone : (fetchstr p p.sz).reads = [] := by
      rw [fetchstr, if_pos (UInt32.le_refl _)]
      rfl
    rw [hnone, List.append_nil] at hround
    exact ⟨hround.1, by have := hround.2; simp only; omega⟩
  cases hv : (fetchint p w).value with
  | none => exact Or.inl ⟨_, rfl, hfirst⟩
  | some uarg =>
    simp only
    split
    · exact Or.inl ⟨_, rfl, hfirst.confined, hfirst.words⟩
    · have hround := round_reads (u := w) hsz h uarg
      cases hstr : (fetchstr p uarg).value with
      | none => exact Or.inl ⟨_, rfl, hround.1, by have := hround.2; simp only; omega⟩
      | some arg => exact Or.inr ⟨_, rfl, ⟨hround.1, hround.2⟩, rfl⟩

omit h in
theorem execLoop_spec (k : Nat) (h : LoopInv p s) (hk : s.i + k = MAXARG) :
    ∃ r, Loop.run (execRound p u) (k + 1) s = some r ∧ LoopPost p r := by
  induction k generalizing s with
  | zero =>
    have hwords := h.words
    refine ⟨⟨s.reads, none⟩, Loop.run_leave (if_pos (by omega)), h.reads, ?_⟩
    simp only
    omega
  | succ k ih =>
    rcases execRound_spec (u := u) hsz h (by omega) with ⟨r, hr, hpost⟩ | ⟨t, ht, hinv, hi⟩
    · exact ⟨r, Loop.run_leave hr, hpost⟩
    · rw [Loop.run_again ht]
      exact ih hinv (by omega)

end Loop

structure ArgsInside (p : Proc) : Prop where
  fetchint : ∀ addr, Confined p (fetchint p addr) ∧
    ∀ v, (fetchint p addr).value = some v → addr.toNat + 4 ≤ p.sz.toNat
  fetchstr : ∀ addr, Confined p (fetchstr p addr) ∧
    ∀ a len, (fetchstr p addr).value = some (a, len) →
      a = addr ∧ a.toNat + len.toNat < p.sz.toNat ∧ p.mem (a + len) = 0
  argint : ∀ n, Confined p (argint p n)
  argptr : ∀ n size, Confined p (argptr p n size) ∧
    ∀ i, (argptr p n size).value = some i →
      0 ≤ size ∧ i.toNat + size.toInt.toNat ≤ p.sz.toNat
  argstr : ∀ n, Confined p (argstr p n) ∧
    ∀ a len, (argstr p n).value = some (a, len) →
      a.toNat + len.toNat < p.sz.toNat ∧ p.mem (a + len) = 0
  exec : Confined p (sysExec p)
  execLoop : ∀ uargv, ∃ r, Loop.run (execRound p uargv) (MAXARG + 1) ⟨0, [], []⟩ = some r ∧
    Confined p r ∧ wordCount r.reads ≤ MAXARG

theorem syscall_args_inside (hsz : p.sz.toNat < KERNBASE) : ArgsInside p := by
  have hargint : ∀ n, Confined p (argint p n) := fun n => fetchint_confined hsz _
  have hstr : ∀ n, Confined p (argstr p n) := fun n =>
    (hargint n).bind fun addr _ => fetchstr_confined addr
  have hloop : ∀ uargv, ∃ r, Loop.run (execRound p uargv) (MAXARG + 1) ⟨0, [], []⟩ = some r ∧
      LoopPost p r := fun uargv =>
    execLoop_spec hsz MAXARG ⟨List.forall_mem_nil _, Nat.le_refl 0⟩ (Nat.zero_add _)
  refine ⟨fun addr => ⟨fetchint_confined hsz addr, fun v hv => fetchint_value hsz hv⟩,
    fun addr => ⟨fetchstr_confined addr, fun a len hv => fetchstr_value hsz hv⟩, hargint,
    fun n size => ⟨(hargint n).bind fun i _ => ?_, fun i hv => argptr_value hsz hv⟩,
    fun n => ⟨hstr n, fun a len hv => ?_⟩, ?_, fun uargv => ?_⟩
  · split
    · exact confined_fail
    · exact confined_pure i
  · obtain ⟨addr, -, hv⟩ := bind_value hv
    exact (fetchstr_value hsz hv).2
  · refine (hstr 0).bind fun path _ => (hargint 1).bind fun uargv _ => Confined.bind ?_ fun argv _ =>
      confined_pure _
    obtain ⟨r, hr, hpost⟩ := hloop uargv
    rw [hr]
    exact hpost.confined
  · obtain ⟨r, hr, hpost⟩ := hloop uargv
    exact ⟨r, hr, hpost.confined, hpost.words⟩

/-- A process of one page whose stack pointer is at the top of the address space. -/
theorem syscall_args_inside_page : ArgsInside ⟨fun _ => 0, 4096, 0xFFFFFFFC⟩ ∧
      (argptr ⟨fun _ => 0, 4096, 0xFFFFFFFC⟩ 0 4096).value = some 0 :=
  ⟨syscall_args_inside (by decide), by decide⟩

end BossOs.Syscall
