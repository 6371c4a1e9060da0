import BossOs.Lib.Transition
import BossOs.Vm.Stack

/-!
# Who owns which page

In every state the free list, the address spaces, the kernel stacks, the pipes and what
was taken at boot are together the pages of the allocator, each once. A call works on the
pages of one process, or of one pipe, and everyone else's keep their contents.
-/

namespace BossOs.Vm

open Lib

variable {im : Image} {K : Multiset Nat} {cur d : Nat} {m m' : Mem} {E : Stop → Mem → Prop}

def ArgsOk (im : Image) (args : Nat → Nat → Nat → M (Option Nat)) (cur : Nat) : Prop :=
  ∀ {K : Multiset Nat} {d n : Nat} {m : Mem}, Ready im K d n m →
    ((args cur d ((n + 2) * PGSIZE)).run m).Sat
      (fun _ m' => Turn im K K d (fun _ => False) (lookup m d) m m') fun _ _ => True

/-- What `exec` leaves: the new address space in place of the old one, or all as it was. -/
structure Replaced (im : Image) (K : Multiset Nat) (cur : Nat) (m : Mem)
    (r : Option (Nat × Nat)) (m' : Mem) : Prop where
  agree : Agree m m' K
  fail : r = none → Accounts im m' (space m cur + K) ∧ Agree m m' (space m cur)
  commit : ∀ d sz, r = some (d, sz) →
    Accounts im m' (space m' d + K) ∧ UserMap im sz (lookup m' d)

theorem Replaced.of_agree (h : Accounts im m' (space m cur + K))
    (ha : Agree m m' (space m cur + K)) : Replaced im K cur m none m' :=
  ⟨ha.mono fun _ hn => Multiset.mem_add.mpr (Or.inr hn),
    fun _ => ⟨h, ha.mono fun _ hn => Multiset.mem_add.mpr (Or.inl hn)⟩, fun _ _ hr => by cases hr⟩

theorem execEnter_spec {args : Nat → Nat → Nat → M (Option Nat)} {file : Option File} {n : Nat}
    {m₁ : Mem} (h₁ : Program im (space m cur + K) file d n m m₁)
    (hargs : ((args cur d ((n + 2) * PGSIZE)).run m₁).Sat (fun _ m' => Turn im (space m cur + K)
      (space m cur + K) d (fun _ => False) (lookup m₁ d) m₁ m') E) :
    ((execEnter im args cur (some (d, (n + 2) * PGSIZE))).run m₁).Sat (Replaced im K cur m) E := by
  unfold execEnter
  rw [Prog.sat_bind]
  apply hargs.imp
  intro r m₂ hturn
  have hagree := h₁.agree.trans hturn.agree
  cases r with
  | none =>
    unfold execTail
    rw [Prog.sat_bind]
    apply (freevm_spec hturn.total).imp
    rintro _ m₃ ⟨hacc₃, hagree₃⟩
    rw [Prog.sat_pure]
    exact .of_agree hacc₃ (hagree.trans hagree₃)
  | some sp =>
    -- the old address space goes, and the new one is kept as part of the rest
    have hcur : Agree m m₂ (cur ::ₘ tables m cur) :=
      (hagree.mono fun _ hn => Multiset.mem_add.mpr (Or.inl hn)).of_space
    have hacc : Accounts im m₂ (space m₂ cur + (space m₂ d + K)) := by
      rw [hcur.space_eq, add_left_comm]
      exact hturn.total
    unfold execTail
    rw [Prog.sat_bind]
    apply (freevm_spec hacc).imp
    rintro _ m₃ ⟨hacc₃, hagree₃⟩
    have hd : Agree m₂ m₃ (d ::ₘ tables m₂ d) :=
      (hagree₃.mono fun _ hn => Multiset.mem_add.mpr (Or.inl hn)).of_space
    rw [Prog.sat_pure]
    refine ⟨?_, (fun hr => by cases hr), ?_⟩
    · apply (hagree.mono fun _ hn => Multiset.mem_add.mpr (Or.inr hn)).trans
      exact hagree₃.mono fun _ hn => Multiset.mem_add.mpr (Or.inr hn)
    · rintro _ _ hr
      cases hr
      rw [hd.space_eq]
      refine ⟨hacc₃, h₁.map.congr fun v hv => ?_⟩
      rw [hd.lookup_eq hv, hturn.entry v hv]

theorem exec_sat {args : Nat → Nat → Nat → M (Option Nat)}
    (hargs : ∀ {K : Multiset Nat} {d n : Nat} {m : Mem}, Ready im K d n m →
      ((args cur d ((n + 2) * PGSIZE)).run m).Sat
        (fun _ m' => Turn im K K d (fun _ => False) (lookup m d) m m') E)
    (h : Accounts im m (space m cur + K)) (file : Option File) :
    ((exec im args cur file).run m).Sat (Replaced im K cur m) E := by
  rw [exec_run, Prog.sat_bind]
  apply (execLoad_spec h file).imp
  rintro r m₁ (⟨d, n, rfl, h₁⟩ | ⟨rfl, hacc, hagree⟩)
  · exact execEnter_spec h₁ (hargs h₁.ready)
  · unfold execEnter
    rw [Prog.sat_pure]
    exact .of_agree hacc hagree

theorem exec_spec {args : Nat → Nat → Nat → M (Option Nat)} (hargs : ArgsOk im args cur)
    (h : Accounts im m (space m cur + K)) (file : Option File) :
    ((exec im args cur file).run m).Sat (Replaced im K cur m) fun _ _ => True :=
  exec_sat hargs h file

def Proc.pages (q : Proc) (m : Mem) : Multiset Nat :=
  if q.state = .unused then 0 else q.kstack ::ₘ space m q.pgdir

def State.inUse (s : State) : Multiset Nat :=
  space s.mem s.kpgdir + s.cpustacks + ∑ p, (s.proc p).pages s.mem +
    (s.pipes.map Pipe.page : Multiset Nat)

def State.pages (s : State) : Multiset Nat := (s.mem.free : Multiset Nat) + s.inUse

def State.others (s : State) (p : Fin NPROC) : Multiset Nat :=
  space s.mem s.kpgdir + s.cpustacks + ∑ q ∈ Finset.univ.erase p, (s.proc q).pages s.mem +
    (s.pipes.map Pipe.page : Multiset Nat)

structure PageInv (im : Image) (s : State) : Prop where
  total : Accounts im s.mem s.inUse
  map : ∀ p, (s.proc p).state ≠ .unused →
    UserMap im (s.proc p).sz (lookup s.mem (s.proc p).pgdir)

theorem inUse_eq (s : State) (p : Fin NPROC) : s.inUse = (s.proc p).pages s.mem + s.others p := by
  unfold State.inUse State.others
  rw [← Finset.add_sum_erase Finset.univ (fun q => (s.proc q).pages s.mem) (Finset.mem_univ p)]
  simp only [add_assoc, add_left_comm]

theorem Agree.proc_pages {q : Proc} (h : Agree m m' (q.pages m)) : q.pages m' = q.pages m ∧
      (q.state ≠ .unused → ∀ v < VPAGES, lookup m' q.pgdir v = lookup m q.pgdir v) := by
  unfold Proc.pages at *
  by_cases hq : q.state = .unused
  · rw [if_pos hq, if_pos hq]
    exact ⟨rfl, fun hne => absurd hq hne⟩
  · rw [if_neg hq] at h
    have htree : Agree m m' (q.pgdir ::ₘ tables m q.pgdir) :=
      (h.mono fun _ hn => Multiset.mem_cons_of_mem hn).of_space
    rw [if_neg hq, if_neg hq, htree.space_eq]
    exact ⟨rfl, fun _ v hv => htree.lookup_eq hv⟩

end BossOs.Vm
