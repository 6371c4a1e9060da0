import BossOs.Vm.Owned

/-!
# What each call does to the pages

Every call replaces the pages of one process, or of one pipe, and keeps everyone else's;
`PageInv.replace` and `PageInv.pipes` turn that into the invariant of the new state.
-/

namespace BossOs.Vm

open Multiset (add_cons coe_add cons_add map_coe mem_add mem_cons_self)
open Lib
open Function (update update_eq_self update_of_ne update_self)
open Prog (sat_bind sat_fail sat_ite sat_modify sat_pure)

variable {im : Image} {K : Multiset Nat} {m m' : Mem} {E : Stop → Mem → Prop} {s s' : State}

theorem State.call_some {α : Type} {f : M α} {k : α → State → State} {Q : α → Mem → Prop}
    (hf : (f.run s.mem).Sat Q E) (h : s.call f k = some s') :
    ∃ a m', Q a m' ∧ s' = k a { s with mem := m' } := by
  unfold State.call at h
  cases hr : f.run s.mem with
  | ok a m' =>
    rw [hr, Outcome.sat_ok] at hf
    rw [hr] at h
    cases h
    exact ⟨a, m', hf, rfl⟩
  | stop e m' =>
    rw [hr] at h
    cases h

section Others

variable {p : Fin NPROC}

theorem kernel_mem_others {n : Nat} (hn : n ∈ space s.mem s.kpgdir) : n ∈ s.others p := by
  unfold State.others
  simp only [mem_add]
  exact Or.inl (Or.inl (Or.inl hn))

theorem proc_mem_others {q : Fin NPROC} (hq : q ≠ p) {n : Nat} (hn : n ∈ (s.proc q).pages s.mem) :
    n ∈ s.others p := by
  unfold State.others
  simp only [mem_add]
  refine Or.inl (Or.inr (Multiset.mem_sum.mpr ⟨q, ?_, hn⟩))
  exact Finset.mem_erase.mpr ⟨hq, Finset.mem_univ q⟩

theorem others_setProc (h : Agree s.mem m' (s.others p)) (q : Proc) :
    (({ s with mem := m' } : State).setProc p q).others p = s.others p := by
  have hkernel : space m' s.kpgdir = space s.mem s.kpgdir :=
    (h.mono fun _ hn => kernel_mem_others hn).of_space.space_eq
  have hprocs : ∑ r ∈ Finset.univ.erase p, (update s.proc p q r).pages m' =
      ∑ r ∈ Finset.univ.erase p, (s.proc r).pages s.mem := by
    apply Finset.sum_congr rfl
    intro r hr
    have hrp := Finset.ne_of_mem_erase hr
    rw [update_of_ne hrp]
    exact (h.mono fun _ hn => proc_mem_others hrp hn).proc_pages.1
  unfold State.others State.setProc
  simp only [hkernel, hprocs]

theorem PageInv.replace (hi : PageInv im s) {q : Proc} (hagree : Agree s.mem m' (s.others p))
    (hacc : Accounts im m' (q.pages m' + s.others p))
    (hmap : q.state ≠ .unused → UserMap im q.sz (lookup m' q.pgdir)) :
    PageInv im (({ s with mem := m' } : State).setProc p q) := by
  have hself : ∀ r, (({ s with mem := m' } : State).setProc p q).proc r =
      update s.proc p q r := fun _ => rfl
  refine ⟨?_, ?_⟩
  · rw [inUse_eq _ p, others_setProc hagree, hself, update_self]
    exact hacc
  · intro r hr
    rw [hself] at hr ⊢
    by_cases hrp : r = p
    · subst hrp
      rw [update_self] at hr ⊢
      exact hmap hr
    · rw [update_of_ne hrp] at hr ⊢
      exact (hi.map r hr).congr
        ((hagree.mono fun _ hn => proc_mem_others hrp hn).proc_pages.2 hr)

theorem PageInv.keep (hi : PageInv im s) (hagree : Agree s.mem m' s.inUse)
    (hacc : Accounts im m' s.inUse) : PageInv im { s with mem := m' } := by
  have hsplit : ∀ n ∈ (s.proc initproc).pages s.mem + s.others initproc, n ∈ s.inUse := by
    rw [← inUse_eq]
    exact fun _ hn => hn
  have hself := (hagree.mono fun n hn => hsplit n (mem_add.mpr (Or.inl hn))).proc_pages
  have hset : ({ s with mem := m' } : State) =
      ({ s with mem := m' } : State).setProc initproc (s.proc initproc) := by
    unfold State.setProc
    rw [update_eq_self]
  rw [hset]
  apply hi.replace (hagree.mono fun n hn => hsplit n (mem_add.mpr (Or.inr hn)))
  · rw [hself.1, ← inUse_eq]
    exact hacc
  · intro hlive
    exact (hi.map _ hlive).congr (hself.2 hlive)

theorem pages_of_used {q : Proc} (hq : q.state ≠ .unused) (m : Mem) :
    q.pages m = q.kstack ::ₘ space m q.pgdir := if_neg hq

theorem inUse_space (hp : (s.proc p).state ≠ .unused) :
    s.inUse = space s.mem (s.proc p).pgdir + ((s.proc p).kstack ::ₘ s.others p) := by
  rw [inUse_eq s p, pages_of_used hp, cons_add, add_cons]

theorem PageInv.respace (hi : PageInv im s) (hp : (s.proc p).state ≠ .unused) {d sz : Nat}
    (hagree : Agree s.mem m' ((s.proc p).kstack ::ₘ s.others p))
    (hacc : Accounts im m' (space m' d + ((s.proc p).kstack ::ₘ s.others p)))
    (hmap : UserMap im sz (lookup m' d)) :
    PageInv im (({ s with mem := m' } : State).setProc p { s.proc p with pgdir := d, sz := sz }) := by
  apply hi.replace (hagree.mono fun _ hn => Multiset.mem_cons_of_mem hn)
  · unfold Proc.pages
    rw [if_neg hp, cons_add]
    rw [add_cons] at hacc
    exact hacc
  · exact fun _ => hmap

end Others

section
variable (hi : PageInv im s)
include hi

theorem PageInv.fork {p : Fin NPROC} (hp : (s.proc p).state = .live)
    (h : s.fork im p = some s') : PageInv im s' := by
  unfold State.fork at h
  cases hfind : (List.finRange NPROC).find? fun q => (s.proc q).state = .unused with
  | none =>
    rw [hfind] at h
    cases h
    exact hi
  | some q =>
    rw [hfind] at h
    have hq : (s.proc q).state = .unused := of_decide_eq_true (List.find?_some hfind :)
    have hlive : (s.proc p).state ≠ .unused := by
      rw [hp]
      decide
    have hothers : s.inUse = s.others q := by
      rw [inUse_eq s q, Proc.pages, if_pos hq, zero_add]
    obtain ⟨r, m', ⟨hagree, hr⟩, rfl⟩ :=
      State.call_some (forkPages_spec hi.total (hi.map p hlive).size False.elim) h
    rcases hr with ⟨kstack, d, rfl, hacc, hmap⟩ | ⟨rfl, hacc, -⟩
    · rw [hothers] at hagree hacc
      apply hi.replace hagree
      · rw [pages_of_used (by exact fun hc => by cases hc), cons_add]
        exact hacc
      · exact fun _ => hmap
    · exact hi.keep hagree hacc

theorem PageInv.sbrk {p : Fin NPROC} {n : Int}
    (hp : (s.proc p).state ≠ .unused) (h : s.sbrk im p n = some s') : PageInv im s' := by
  have htotal := hi.total
  rw [inUse_space hp] at htotal
  obtain ⟨r, m', ⟨L, hmap, hturn⟩, rfl⟩ :=
    State.call_some (E := fun _ _ => True) (growproc_spec htotal (hi.map p hp)) h
  have hres := hi.respace hp hturn.agree hturn.total (hmap.congr hturn.entry)
  cases r with
  | none =>
    have hself : ({ s.proc p with pgdir := (s.proc p).pgdir, sz := (s.proc p).sz } : Proc) =
      s.proc p := rfl
    rw [Option.getD_none, hself, State.setProc] at hres
    rw [update_eq_self] at hres
    exact hres
  | some sz => exact hres

theorem PageInv.exec {A : Type} {args : A → Nat → Nat → Nat → M (Option Nat)} {p : Fin NPROC}
    {file : Option File} {a : A} (hp : (s.proc p).state ≠ .unused)
    (hargs : ArgsOk im (args a) (s.proc p).pgdir) (h : s.exec im args p file a = some s') :
    PageInv im s' := by
  have htotal := hi.total
  rw [inUse_space hp] at htotal
  obtain ⟨r, m', hr, rfl⟩ := State.call_some (exec_spec hargs htotal file) h
  cases r with
  | none =>
    obtain ⟨hacc, hown⟩ := hr.fail rfl
    rw [← inUse_space hp] at hacc
    apply hi.keep _ hacc
    rw [inUse_space hp]
    intro n hn
    exact (mem_add.mp hn).elim (hown n) (hr.agree n)
  | some q =>
    obtain ⟨hacc, hmap⟩ := hr.commit q.1 q.2 rfl
    exact hi.respace hp hr.agree hacc hmap

theorem PageInv.exit {p : Fin NPROC} (hp : (s.proc p).state ≠ .unused)
    (h : s.exit p = some s') : PageInv im s' := by
  unfold State.exit at h
  split at h
  · cases h
  · cases h
    -- no process changes what it owns
    have hsame : ∀ q, (if q = p then { (if (s.proc q).parent = p then
        { s.proc q with parent := initproc } else s.proc q) with state := ProcState.zombie }
        else if (s.proc q).parent = p then { s.proc q with parent := initproc } else s.proc q).pages
          s.mem = (s.proc q).pages s.mem := by
      intro q
      by_cases hqp : q = p
      · subst hqp
        rw [if_pos rfl, pages_of_used hp, pages_of_used (by exact fun hc => by cases hc)]
        split
        · rfl
        · rfl
      · rw [if_neg hqp]
        split
        · rfl
        · rfl
    refine ⟨?_, ?_⟩
    · have htotal := hi.total
      unfold State.inUse at htotal ⊢
      simp only [hsame]
      exact htotal
    · intro q hq
      by_cases hqp : q = p
      · subst hqp
        have hmap := hi.map q hp
        simp only [if_true]
        split
        · exact hmap
        · exact hmap
      · simp only [if_neg hqp] at hq ⊢
        split at hq
        · rename_i hpar
          rw [if_pos hpar]
          exact hi.map q hq
        · rename_i hpar
          rw [if_neg hpar]
          exact hi.map q hq

theorem PageInv.wait {p : Fin NPROC} (h : s.wait im p = some s') :
    PageInv im s' := by
  unfold State.wait at h
  cases hfind : (List.finRange NPROC).find? fun q =>
      (s.proc q).parent = p ∧ (s.proc q).state = .zombie with
  | none =>
    rw [hfind] at h
    cases h
    exact hi
  | some q =>
    rw [hfind] at h
    have hq : (s.proc q).state = .zombie :=
      (of_decide_eq_true (List.find?_some hfind :)).2
    have hused : (s.proc q).state ≠ .unused := by
      rw [hq]
      decide
    have htotal := hi.total
    rw [inUse_space hused, add_cons] at htotal
    have hrest := (Multiset.nodup_cons.mp (Multiset.nodup_add.mp htotal.nodup).2.1).1
    have hfree : ((do kfree im (s.proc q).kstack; freevm im (s.proc q).pgdir : M Unit).run
        s.mem).Sat (fun _ m' => Accounts im m' (s.others q) ∧ Agree s.mem m' (s.others q))
          (fun _ _ => True) := by
      rw [sat_bind, sat_kfree (htotal.mem_pool (mem_cons_self _ _))]
      have hspace : Agree s.mem (s.mem.push (s.proc q).kstack)
          (space s.mem (s.proc q).pgdir + s.others q) := agree_push hrest
      have hacc : Accounts im (s.mem.push (s.proc q).kstack)
          (space (s.mem.push (s.proc q).kstack) (s.proc q).pgdir + s.others q) := by
        rw [(hspace.mono fun _ hn => mem_add.mpr (Or.inl hn)).of_space.space_eq]
        exact htotal.push
      apply (freevm_spec hacc).imp
      rintro _ m' ⟨hacc', hagree'⟩
      exact ⟨hacc', (hspace.mono fun _ hn => mem_add.mpr (Or.inr hn)).trans hagree'⟩
    obtain ⟨_, m', ⟨hacc, hagree⟩, rfl⟩ := State.call_some hfree h
    apply hi.replace hagree
    · rw [Proc.pages, if_pos rfl, zero_add]
      exact hacc
    · exact fun hc => absurd rfl hc

end

theorem userStore_spec {d sz va : Nat} {bytes : List UInt8} (hva : va < 2 ^ 32)
    (h : Accounts im m (space m d + K)) (hmap : UserMap im sz (lookup m d)) :
    ((userStore d va bytes).run m).Sat
      (fun _ m' => Turn im K K d (fun _ => False) (lookup m d) m m') fun _ _ => True := by
  unfold userStore
  rw [sat_bind, sat_walkpgdir hva]
  cases ht : tablePage m d (va / PGSIZE / 1024) with
  | none => simp only [Option.map_none, sat_fail]
  | some t =>
    simp only [Option.map_some, sat_bind]
    rw [sat_load, ← lookup_of_table ht]
    apply sat_ite
    · rintro ⟨hpres, huser, -, -⟩
      have hv : va / PGSIZE < UPAGES := by
        by_contra hge
        rw [hmap.kernel _ (by omega) (vpage_lt hva), kernelEntry_not_user] at huser
        exact Bool.false_ne_true huser
      rw [sat_modify]
      exact turn_frame h hv hpres _
    · intro _
      rw [sat_fail]
      trivial

theorem PageInv.store {p : Fin NPROC} {va : Nat} {bytes : List UInt8} (hi : PageInv im s)
    (hp : (s.proc p).state ≠ .unused) (hva : va < 2 ^ 32)
    (h : s.call (userStore (s.proc p).pgdir va bytes) (fun _ s => s) = some s') :
    PageInv im s' := by
  have htotal := hi.total
  rw [inUse_space hp] at htotal
  obtain ⟨_, m', hturn, rfl⟩ := State.call_some (userStore_spec hva htotal (hi.map p hp)) h
  have hres := hi.respace hp hturn.agree hturn.total ((hi.map p hp).congr hturn.entry)
  have hself : ({ s.proc p with pgdir := (s.proc p).pgdir, sz := (s.proc p).sz } : Proc) =
    s.proc p := rfl
  rw [hself, State.setProc] at hres
  rw [update_eq_self] at hres
  exact hres

def State.kept (s : State) : Multiset Nat :=
  space s.mem s.kpgdir + s.cpustacks + ∑ p, (s.proc p).pages s.mem

theorem PageInv.pipes (hi : PageInv im s) {ps : List Pipe} (hagree : Agree s.mem m' s.kept)
    (hacc : Accounts im m' (s.kept + (ps.map Pipe.page : Multiset Nat))) :
    PageInv im { s with mem := m', pipes := ps } := by
  have hproc : ∀ q, Agree s.mem m' ((s.proc q).pages s.mem) := by
    intro q
    apply hagree.mono
    intro n hn
    exact mem_add.mpr (Or.inr (Multiset.mem_sum.mpr ⟨q, Finset.mem_univ q, hn⟩))
  have hkernel : space m' s.kpgdir = space s.mem s.kpgdir := by
    apply Agree.space_eq
    apply Agree.of_space
    apply hagree.mono
    intro n hn
    exact mem_add.mpr (Or.inl (mem_add.mpr (Or.inl hn)))
  refine ⟨?_, fun q hq => (hi.map q hq).congr ((hproc q).proc_pages.2 hq)⟩
  unfold State.kept at hacc
  unfold State.inUse
  simp only [hkernel, fun q => (hproc q).proc_pages.1]
  exact hacc

theorem pipeclose_spec {pi : Pipe} {writable : Bool} (h : Accounts im m (pi.page ::ₘ K)) :
    ((pipeclose im pi writable).run m).Sat (fun r m' => Agree m m' K ∧
        ((∃ pi', r = some pi' ∧ pi'.page = pi.page ∧ Accounts im m' (pi.page ::ₘ K)) ∨
          (r = none ∧ Accounts im m' K))) E := by
  have hpage : (if writable = true then { pi with writeopen := false }
      else { pi with readopen := false } : Pipe).page = pi.page := by
    split
    · rfl
    · rfl
  unfold pipeclose
  simp only
  generalize (if writable = true then { pi with writeopen := false }
      else { pi with readopen := false } : Pipe) = pi' at hpage ⊢
  apply sat_ite
  · intro _
    rw [sat_pure]
    exact ⟨fun _ _ => rfl, Or.inl ⟨pi', rfl, hpage, h⟩⟩
  · intro _
    rw [sat_bind, hpage, sat_kfree (h.mem_pool (mem_cons_self _ _)), sat_pure]
    refine ⟨agree_push ?_, Or.inr ⟨rfl, h.push⟩⟩
    exact (Multiset.nodup_cons.mp (Multiset.nodup_add.mp h.nodup).2.1).1

theorem sysPipe_spec {files fds : Bool} (h : Accounts im m K) : ((sysPipe im files fds).run m).Sat
      (fun r m' => Agree m m' K ∧
        ((∃ pi, r = some pi ∧ Accounts im m' (pi.page ::ₘ K)) ∨ (r = none ∧ Accounts im m' K)))
      E := by
  have hnone : ((pure none : M (Option Pipe)).run m).Sat
      (fun r m' => Agree m m' K ∧
        ((∃ pi, r = some pi ∧ Accounts im m' (pi.page ::ₘ K)) ∨ (r = none ∧ Accounts im m' K)))
      E := by
    rw [sat_pure]
    exact ⟨fun _ _ => rfl, Or.inr ⟨rfl, h⟩⟩
  unfold sysPipe
  apply sat_ite
  · intro _
    rw [sat_bind]
    apply sat_kalloc
    · intro _
      exact hnone
    · intro page ps hfree
      have hpop : Accounts im m.pop (page ::ₘ K) := h.pop hfree
      apply sat_ite
      · intro _
        rw [sat_pure]
        exact ⟨fun _ _ => rfl, Or.inl ⟨_, rfl, hpop⟩⟩
      · intro _
        rw [sat_bind]
        have hpop : Accounts im m.pop ((⟨page, true, true⟩ : Pipe).page ::ₘ K) := hpop
        apply (pipeclose_spec hpop).imp
        rintro r m₁ ⟨hagree, ⟨pi, rfl, hpage, hacc⟩ | ⟨rfl, hacc⟩⟩
        · rw [← hpage] at hacc
          apply (pipeclose_spec hacc).imp
          rintro r m₂ ⟨hagree', ⟨pi', rfl, hpage', hacc'⟩ | ⟨rfl, hacc'⟩⟩
          · rw [← hpage'] at hacc'
            exact ⟨hagree.trans hagree', Or.inl ⟨pi', rfl, hacc'⟩⟩
          · exact ⟨hagree.trans hagree', Or.inr ⟨rfl, hacc'⟩⟩
        · rw [sat_pure]
          exact ⟨hagree, Or.inr ⟨rfl, hacc⟩⟩
  · intro _
    exact hnone

theorem PageInv.pipe {files fds : Bool} (hi : PageInv im s)
    (h : s.pipe im files fds = some s') : PageInv im s' := by
  have htotal : Accounts im s.mem (s.kept + (s.pipes.map Pipe.page : Multiset Nat)) := hi.total
  obtain ⟨r, m', ⟨hagree, hr⟩, rfl⟩ :=
    State.call_some (E := fun _ _ => True) (sysPipe_spec htotal) h
  have hkept := hagree.mono fun _ hn => mem_add.mpr (Or.inl hn)
  rcases hr with ⟨pi, rfl, hacc⟩ | ⟨rfl, hacc⟩
  · apply hi.pipes hkept
    rw [List.map_append, ← coe_add, List.map_singleton, Multiset.coe_singleton, ← add_assoc,
      add_comm, Multiset.singleton_add]
    exact hacc
  · exact hi.pipes hkept hacc

theorem coe_eraseIdx {α : Type} {l : List α} {i : Nat} {a : α} (h : l[i]? = some a) :
    (l : Multiset α) = a ::ₘ (l.eraseIdx i : Multiset α) := by
  obtain ⟨hi, rfl⟩ := List.getElem?_eq_some_iff.mp h
  rw [Multiset.cons_coe, Multiset.coe_eq_coe]
  exact (List.getElem_cons_eraseIdx_perm hi).symm

theorem PageInv.pipeclose {i : Nat} {writable : Bool} (hi : PageInv im s)
    (h : s.pipeclose im i writable = some s') : PageInv im s' := by
  unfold State.pipeclose at h
  cases hpi : s.pipes[i]? with
  | none =>
    rw [hpi] at h
    cases h
  | some pi =>
    rw [hpi] at h
    have herase : ((s.pipes.map Pipe.page : List Nat) : Multiset Nat) =
        pi.page ::ₘ ((s.pipes.eraseIdx i).map Pipe.page : List Nat) := by
      rw [← map_coe, coe_eraseIdx hpi, Multiset.map_cons, map_coe]
    have htotal : Accounts im s.mem
        (pi.page ::ₘ (s.kept + ((s.pipes.eraseIdx i).map Pipe.page : List Nat))) := by
      rw [← add_cons, ← herase]
      exact hi.total
    obtain ⟨r, m', ⟨hagree, hr⟩, rfl⟩ :=
      State.call_some (E := fun _ _ => True) (pipeclose_spec htotal) h
    have hkept := hagree.mono fun _ hn => mem_add.mpr (Or.inl hn)
    rcases hr with ⟨pi', rfl, hpage, hacc⟩ | ⟨rfl, hacc⟩
    · apply hi.pipes hkept
      have hset : (s.pipes.set i pi').map Pipe.page = s.pipes.map Pipe.page := by
        rw [List.map_set, hpage]
        apply List.ext_getElem?
        intro j
        rw [List.getElem?_set]
        split
        · rename_i hij
          subst hij
          rw [List.getElem?_map, hpi, List.length_map]
          rw [if_pos (List.getElem?_eq_some_iff.mp hpi).1, Option.map_some]
        · rfl
      rw [hset, herase, add_cons]
      exact hacc
    · exact hi.pipes hkept hacc

theorem PageInv.step {A : Type} {args : A → Nat → Nat → Nat → M (Option Nat)} {a : Act A}
    (hi : PageInv im s)
    (hargs : ∀ p file x, a = .exec p file x → ArgsOk im (args x) (s.proc p).pgdir)
    (h : step im args s a = some s') : PageInv im s' := by
  have hused : ∀ {p : Fin NPROC}, (s.proc p).state = .live → (s.proc p).state ≠ .unused := by
    intro p hp
    rw [hp]
    decide
  cases a with
  | fork p =>
    obtain ⟨hp, h⟩ := Option.ite_none_right_eq_some.mp h
    exact hi.fork hp h
  | exec p file x =>
    obtain ⟨hp, h⟩ := Option.ite_none_right_eq_some.mp h
    exact hi.exec (hused hp) (hargs p file x rfl) h
  | sbrk p n =>
    obtain ⟨hp, h⟩ := Option.ite_none_right_eq_some.mp h
    exact hi.sbrk (hused hp) h
  | pipe files fds => exact hi.pipe h
  | pipeclose i writable => exact hi.pipeclose h
  | exit p =>
    obtain ⟨hp, h⟩ := Option.ite_none_right_eq_some.mp h
    exact hi.exit (hused hp) h
  | wait p =>
    obtain ⟨_, h⟩ := Option.ite_none_right_eq_some.mp h
    exact hi.wait h
  | store p va bytes =>
    obtain ⟨⟨hp, hva⟩, h⟩ := Option.ite_none_right_eq_some.mp h
    exact hi.store (hused hp) hva h

end BossOs.Vm
