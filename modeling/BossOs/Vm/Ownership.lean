import BossOs.Vm.Boot

/-!
# Every page has one owner

In every state that calls reach from boot, the free list, the address spaces, the kernel
stacks, the pipes and what was taken at boot hold the pages of the allocator, each once.
-/

namespace BossOs.Vm

open Lib

variable {im : Image} {s s' : State}

def ShortExec : State → Act (List (List UInt8)) → Prop
  | _, .exec _ _ argv => ShortArgs argv
  | _, _ => True

theorem argsOk_pushArgs {argv : List (List UInt8)} (h : ShortArgs argv) (cur : Nat) :
    ArgsOk im (pushArgs im argv) cur := fun hready => pushArgs_spec h hready

theorem PageInv.run {acts : List (Act (List (List UInt8)))} (hi : PageInv im s)
    (hrun : Run ShortExec (Vm.step im (pushArgs im)) s acts s') : PageInv im s' := by
  apply hrun.invariant _ hi
  intro t a u ht hok hstep
  apply ht.step _ hstep
  rintro p file argv rfl
  exact argsOk_pushArgs hok _

/-- The pages of the free list and those in use are the allocator's, and no page is in two
places. -/
theorem page_ownership {ncpu : Nat} {initcode : List UInt8} {acts : List (Act (List (List UInt8)))}
    (hboot : Booted im ncpu initcode s) (hrun : Run ShortExec (step im (pushArgs im)) s acts s') :
    s'.pages = im.pool ∧ s'.pages.Nodup := by
  have hinv := hboot.inv.pages.run hrun
  have htotal : s'.pages = im.pool := hinv.total
  refine ⟨htotal, ?_⟩
  rw [htotal]
  exact im.pool_nodup

def image : Image := ⟨0x108000, 0x116000, by decide, by decide, by decide, by decide⟩

theorem image_pool_card : image.pool.card = 57066 := card_pageRange _ _

def emptyElf : File where
  size := 52
  byte i := ([0x7F, 0x45, 0x4C, 0x46] : List UInt8).getD i 0

theorem image_booted : ∃ s, Booted image 2 [] s :=
  exists_booted (by decide) (by decide) (by decide)

theorem State.exists_call {α : Type} {f : M α} {k : α → State → State} {Q : α → Mem → Prop}
    (hf : (f.run s.mem).Sat Q fun _ _ => False) :
    ∃ a m', Q a m' ∧ s.call f k = some (k a { s with mem := m' }) := by
  obtain ⟨a, m', hr, hQ⟩ := hf.exists_ok
  refine ⟨a, m', hQ, ?_⟩
  unfold State.call
  rw [hr]

theorem exists_sbrk (hi : PageInv im s) {p : Fin NPROC} (hp : (s.proc p).state = .live) (n : Int) :
    ∃ s', s.sbrk im p n = some s' := by
  have hused : (s.proc p).state ≠ .unused := by
    rw [hp]
    decide
  have htotal := hi.total
  rw [inUse_space hused] at htotal
  obtain ⟨_, _, -, hcall⟩ := State.exists_call (growproc_spec htotal (hi.map p hused))
  exact ⟨_, hcall⟩

theorem exists_exec (hi : PageInv im s) {p : Fin NPROC} (hp : (s.proc p).state = .live)
    (file : Option File) {argv : List (List UInt8)} (hargs : ShortArgs argv) :
    ∃ s', s.exec im (pushArgs im) p file argv = some s' ∧ (s'.proc p).state = .live := by
  have hused : (s.proc p).state ≠ .unused := by
    rw [hp]
    decide
  have htotal := hi.total
  rw [inUse_space hused] at htotal
  obtain ⟨r, m', -, hcall⟩ := State.exists_call
    (exec_sat (fun hready => pushArgs_spec hargs hready) htotal file)
  refine ⟨_, hcall, ?_⟩
  cases r with
  | none => exact hp
  | some q =>
    simp only [State.setProc, Function.update_self]
    exact hp

theorem exists_fork (hboot : Booted image 2 [] s) :
    ∃ s', s.fork image initproc = some s' ∧ (s'.proc 1).state = .live := by
  have hinv := hboot.inv
  have hused : (s.proc initproc).state ≠ .unused := by
    rw [hinv.live]
    decide
  have hfind : ((List.finRange NPROC).find? fun q => (s.proc q).state = .unused) = some 1 := by
    obtain ⟨-, _, r, m, -, rfl⟩ := hboot
    rfl
  have hpages : pages (s.proc initproc).sz = 1 := by
    rw [hinv.size]
    decide
  have hsource : Source s.inUse s.mem (s.proc initproc).pgdir (pages (s.proc initproc).sz) := by
    constructor
    · intro n hn
      rw [inUse_space hused]
      exact Multiset.mem_add.mpr (Or.inl hn)
    · intro v hv
      obtain rfl : v = 0 := by omega
      exact hinv.first.present
  have hfork := (forkPages_spec (G := True) hinv.pages.total (hinv.pages.map _ hused).size
    fun _ => hsource).mono (fun _ _ h => h) fun _ _ h => h trivial
  obtain ⟨r, m', hrun, -, hr⟩ := hfork.exists_ok
  rcases hr with ⟨kstack, d, rfl, -, -⟩ | ⟨rfl, -, hfull⟩
  · refine ⟨({ s with mem := m' } : State).setProc 1
      ⟨.live, kstack, d, (s.proc initproc).sz, initproc⟩, ?_, ?_⟩
    · unfold State.fork State.call
      rw [hfind]
      dsimp only
      rw [hrun]
    · simp only [State.setProc, Function.update_self]
  · have hcard := hinv.card
    rw [image_pool_card, hpages] at hfull
    omega

def forkExec (file : Option File) : List (Act (List (List UInt8))) :=
  [.fork initproc, .exec 1 file [[101, 99, 104, 111]], .sbrk 1 8192]

theorem exists_forkExec (file : Option File) : ∃ s s', Booted image 2 [] s ∧
    Run ShortExec (step image (pushArgs image)) s (forkExec file) s' := by
  obtain ⟨s, hboot⟩ := image_booted
  have hlive := hboot.inv.live
  have hshort : ShortArgs [[101, 99, 104, 111]] := by decide
  obtain ⟨s₁, hfork, hlive₁⟩ := exists_fork hboot
  have hinv₁ := hboot.inv.pages.fork hlive hfork
  obtain ⟨s₂, hexec, hlive₂⟩ := exists_exec hinv₁ hlive₁ file hshort
  have hused : (s₁.proc 1).state ≠ .unused := by
    rw [hlive₁]
    decide
  have hinv₂ := hinv₁.exec hused (argsOk_pushArgs hshort _) hexec
  obtain ⟨s₃, hsbrk⟩ := exists_sbrk hinv₂ hlive₂ 8192
  refine ⟨s, s₃, hboot, .cons trivial ((if_pos hlive).trans hfork) ?_⟩
  refine .cons hshort ((if_pos hlive₁).trans hexec) ?_
  exact .cons trivial ((if_pos hlive₂).trans hsbrk) (.nil s₃)

theorem page_ownership_forkExec : ∃ s s', Booted image 2 [] s ∧
    Run ShortExec (step image (pushArgs image)) s (forkExec (some emptyElf)) s' ∧
    s'.pages = image.pool ∧ s'.pages.Nodup := by
  obtain ⟨s, s', hboot, hrun⟩ := exists_forkExec (some emptyElf)
  exact ⟨s, s', hboot, hrun, page_ownership hboot hrun⟩

end BossOs.Vm
