import BossOs.Bio.Cache

/-!
# The cache and the log on top of it

`commit` keeps to the rules of the buffer cache, so it may run next to any other programs
that do. In every run, reading a block through the cache gives what was last written to it.
-/

namespace BossOs.Bio

open Lib
open Function (update update_self update_of_ne update_eq_self update_apply)

namespace Prog

theorem clean_copy {held : Slot → Option Bool} {dst src : Slot} {k : Prog} (hne : src ≠ dst)
    (hdst : held dst = some false) (hsrc : held src = some false)
    (hk : k.Clean (update (update held src none) dst none)) :
    (memmove dst src (.bwrite dst (.brelse src (.brelse dst k)))).Clean held := by
  have hne' := hne.symm
  refine ⟨by simp [hsrc], fun v => ⟨by simp [hdst], by simp, ?_, ?_, ?_⟩⟩
  · simp [hne, hsrc]
  · simp [hne']
  · refine cast (congrArg (fun f => k.Clean f) (funext fun i => ?_)) hk
    by_cases hi : i = dst
    · subst hi
      simp
    · by_cases hs : i = src
      · subst hs
        simp [hi]
      · simp [hi, hs]

theorem clean_transfer {a b : Nat} {k : Prog} (first : Bool) (hk : k.Clean fun _ => none) :
    (Prog.bread a fun x => .bread b fun y =>
      memmove (if first then x else y) (if first then y else x)
        (.bwrite (if first then x else y) (.brelse (if first then y else x)
          (.brelse (if first then x else y) k)))).Clean fun _ => none := by
  intro x _ y hy
  have hyx : y ≠ x := by
    rintro rfl
    simp at hy
  have done : ∀ u w : Slot, (u = x ∧ w = y ∨ u = y ∧ w = x) → k.Clean (update
      (update (update (update (fun _ => none) x (some false)) y (some false))
        u none) w none) := by
    intro u w huw
    refine cast (congrArg (fun f => k.Clean f) (funext fun i => ?_)) hk
    rcases huw with ⟨rfl, rfl⟩ | ⟨rfl, rfl⟩ <;> by_cases h1 : i = u <;> by_cases h2 : i = w <;>
      simp [update_apply, h1, h2]
  cases first with
  | true => exact clean_copy hyx (by simp [hyx.symm]) (by simp) (done y x (Or.inr ⟨rfl, rfl⟩))
  | false => exact clean_copy hyx.symm (by simp) (by simp [hyx.symm]) (done x y (Or.inl ⟨rfl, rfl⟩))

variable (g : Log.Geometry) {k : Prog}

theorem clean_writeLog (hk : k.Clean fun _ => none) (n : Nat) :
    (writeLog g k n).Clean fun _ => none := by
  induction n with
  | zero => exact hk
  | succ n ih =>
    intro lh
    simp only
    split
    · exact clean_transfer true ih
    · exact hk

theorem clean_installTrans (hk : k.Clean fun _ => none) (n : Nat) :
    (installTrans g k n).Clean fun _ => none := by
  induction n with
  | zero => exact hk
  | succ n ih =>
    intro lh
    simp only
    split
    · exact clean_transfer false ih
    · exact hk

theorem clean_writeHead (hk : k.Clean fun _ => none) : (writeHead g k).Clean fun _ => none := by
  refine fun buf _ lh => ⟨by simp, fun v => ⟨by simp, by simp, by simp, ?_⟩⟩
  refine cast (congrArg (fun f => k.Clean f) (funext fun i => ?_)) hk
  by_cases hi : i = buf
  · subst hi
    simp
  · simp [hi]

theorem clean_commit : (commit g).Clean fun _ => none := by
  intro lh
  simp only
  split
  · have herase : (writeHead g .ret).Clean fun _ => none := clean_writeHead g fun _ => rfl
    have hclear : (Prog.clear (writeHead g .ret)).Clean fun _ => none := herase
    exact clean_writeLog g (clean_writeHead g (clean_installTrans g hclear LOGSIZE)) LOGSIZE
  · exact fun _ => rfl

end Prog

def Call.commit (g : Log.Geometry) : Call := ⟨Prog.commit g, Prog.clean_commit g⟩

variable {i : Slot}

section
variable {P : Type} [DecidableEq P] {size : Nat} {d : Nat → Block} {acts : List (Act P)} {s : State P}

theorem cacheInv_of_run (h : Run (fun _ _ => True) (step size) (binit P d) acts s) : CacheInv s :=
  Run.invariant (I := CacheInv) (fun _ _ _ hi _ hs => cacheInv_step hi hs) h (cacheInv_binit d)

def Buf.live (b : Buf P) : Bool := b.valid || decide (b.refcnt ≠ 0)

def Placed (s s' : State P) (i : Slot) : Prop :=
  (s'.buf i).dev = (s.buf i).dev ∧ (s'.buf i).blockno = (s.buf i).blockno

omit [DecidableEq P] in
theorem placed_update {s' : State P} {v : Buf P}
    (hbuf : s'.buf = update s.buf i v) (hdev : v.dev = (s.buf i).dev)
    (hno : v.blockno = (s.buf i).blockno) (j : Slot) : Placed s s' j := by
  rw [Placed, hbuf]
  by_cases hj : j = i
  · subst hj
    rw [update_self]
    exact ⟨hdev, hno⟩
  · rw [update_of_ne hj]
    exact ⟨rfl, rfl⟩

theorem placed_bget {p : P} {b : Nat} {k : Slot → Prog} (hd : (s.buf i).dirty = true) :
    Placed s (s.bget p b k) i := by
  unfold State.bget
  split
  · exact placed_update (by rfl) (by rfl) (by rfl) i
  · split
    · rename_i j hj
      have hne : i ≠ j := by
        rintro rfl
        exact absurd (hd.symm.trans (unused_some hj).2) (by simp)
      simp [Placed, State.goto, State.setBuf, update_of_ne hne]
    · exact ⟨rfl, rfl⟩

theorem placed_iderw (p : P) (i : Slot) (t : Thread) (j : Slot) : Placed s (s.iderw size p i t) j := by
  unfold State.iderw
  simp only
  split_ifs
  · exact ⟨rfl, rfl⟩
  · exact ⟨rfl, rfl⟩
  · exact ⟨rfl, rfl⟩
  · exact ⟨rfl, rfl⟩
  · exact placed_update (by rfl) (by rfl) (by rfl) j
  · exact placed_update (by rfl) (by rfl) (by rfl) j

theorem placed_unref (p : P) (i : Slot) (k : Prog) (j : Slot) : Placed s (s.unref p i k) j := by
  unfold State.unref
  simp only
  split <;> exact placed_update (by rfl) (by rfl) (by rfl) j

theorem placed_prog {s' : State P} {p : P} {c : Prog} (hs : runProg s p c = some s')
    (hd : (s.buf i).dirty = true) : Placed s s' i := by
  cases c with
  | ret => cases hs
  | bread b k =>
    cases hs
    exact placed_bget hd
  | read | header | clear =>
    cases hs
    exact ⟨rfl, rfl⟩
  | modify | logWrite =>
    cases hs
    exact placed_update (by rfl) (by rfl) (by rfl) i
  | bwrite | brelse =>
    simp only [runProg] at hs
    split at hs <;> cases hs
    · exact ⟨rfl, rfl⟩
    · exact placed_update (by rfl) (by rfl) (by rfl) i

theorem placed_step {s' : State P} {a : Act P} (hs : step size s a = some s')
    (hd : (s.buf i).dirty = true) : Placed s s' i := by
  cases a with
  | run p =>
    simp only [step] at hs
    split at hs
    · unfold runThread at hs
      split at hs
      · exact placed_prog hs hd
      · split at hs <;> cases hs
        exact placed_update (by rfl) (by rfl) (by rfl) i
      · cases hs
        exact ⟨rfl, rfl⟩
      · cases hs
        exact placed_iderw ..
      · cases hs
        exact ⟨rfl, rfl⟩
      · cases hs
        exact placed_iderw ..
      · cases hs
        exact placed_unref ..
    · cases hs
  | call p c =>
    simp only [step] at hs
    split at hs
    · split at hs <;> cases hs
      exact ⟨rfl, rfl⟩
    · cases hs

theorem cache_transparent (h : Run (fun _ _ => True) (step size) (binit P d) acts s) :
    (∀ i j, (s.buf i).live = true → (s.buf j).live = true →
      (s.buf i).blockno = (s.buf j).blockno → i = j) ∧
    (∀ a s' i, step size s a = some s' → (s.buf i).dirty = true → Placed s s' i) ∧
    (∀ i, (s.buf i).valid = true → (s.buf i).lock = none → (s.buf i).dirty = false →
      (s.buf i).data = s.disk (s.buf i).blockno) ∧ ∀ p b i k, s.thread p = .back b i k →
      (s.buf i).lock = some p ∧ (s.buf i).blockno = b ∧ (s.buf i).data = s.latest b := by
  have hi := cacheInv_of_run h
  refine ⟨fun i j hli hlj he => ?_, fun a s' i hs hd => placed_step hs hd,
    fun i hv hl hd => hi.block.stored i hv hd (hi.use.idle i hl), fun p b i k ht => ?_⟩
  · refine hi.block.unique i j (hi.block.root i ?_) (hi.block.root j ?_) he
    · simpa [Buf.live] using hli
    · simpa [Buf.live] using hlj
  · have ha := hi.use.at_ p
    rw [ht] at ha
    obtain ⟨⟨hdev, hno⟩, hv⟩ := ha
    refine ⟨hi.use.lock_of_busy (by rw [ht]; rfl), hno, ?_⟩
    rw [← hno, hi.block.cached i hv]

end

section
variable {P : Type} [DecidableEq P] {size : Nat} {s s' : State P}

def State.dev (s : State P) : Log.Dev := ⟨s.latest, s.disk⟩

/-- The log's device after the next step of a thread: a change goes to the cache, and `bwrite`
puts on the disk what the cache has. -/
def Thread.devAfter (d : Log.Dev) (buf : Slot → Buf P) : Thread → Log.Dev
  | .prog (.modify i v _) => d.modify (buf i).blockno v
  | .write i _ => d.bwrite (buf i).blockno (d.bread (buf i).blockno)
  | _ => d

def State.devAfter (s : State P) : Act P → Log.Dev
  | .run p => (s.thread p).devAfter s.dev s.buf
  | .call _ _ => s.dev

theorem dev_iderw (h : CacheInv s) (p : P) (i : Slot) (t : Thread)
    (ht : (s.iderw size p i t).stop = none) : (s.iderw size p i t).dev =
      if (s.buf i).dirty then s.dev.bwrite (s.buf i).blockno (s.dev.bread (s.buf i).blockno)
      else s.dev := by
  unfold State.iderw at ht ⊢
  simp only at ht ⊢
  -- what is left are the two branches that do not panic
  split_ifs at ht ⊢ <;> try cases ht
  · have hc := h.block.cached i (h.block.loaded i (Or.inl ‹_›))
    simp only [Log.Dev.bwrite, Log.Dev.bread, State.dev, hc]
    rw [← hc, update_eq_self]
    rfl
  · rfl

theorem dev_bget (p : P) (b : Nat) (k : Slot → Prog) : (s.bget p b k).dev = s.dev := by
  unfold State.bget
  split
  · rfl
  · split <;> rfl

theorem dev_unref (p : P) (i : Slot) (k : Prog) : (s.unref p i k).dev = s.dev := by
  unfold State.unref
  simp only
  split <;> rfl

theorem dev_prog {p : P} {c : Prog} (hs : runProg s p c = some s') :
    s'.dev = (Thread.prog c).devAfter s.dev s.buf := by
  cases c with
  | ret => cases hs
  | bread b k =>
    cases hs
    exact dev_bget ..
  | read | header | clear | logWrite | modify =>
    cases hs
    rfl
  | bwrite | brelse =>
    simp only [runProg] at hs
    split at hs <;> cases hs <;> rfl

theorem dev_step (h : CacheInv s) {a : Act P} (hs : step size s a = some s')
    (hstop : s'.stop = none) : s'.dev = s.devAfter a := by
  cases a with
  | run p =>
    have hat := h.use.at_ p
    simp only [step] at hs
    split at hs
    · rw [State.devAfter]
      unfold runThread at hs
      split at hs <;> rename_i heq <;> rw [heq] at hat ⊢
      · exact dev_prog hs
      · split at hs <;> cases hs
        rfl
      · cases hs
        rfl
      · cases hs
        -- a buffer that has to be filled is not dirty
        rw [dev_iderw h _ _ _ hstop, if_neg]
        · rfl
        · intro hdirty
          have hvalid := h.block.loaded _ (Or.inl hdirty)
          rw [hat.2] at hvalid
          cases hvalid
      · cases hs
        rfl
      · cases hs
        rw [dev_iderw h _ _ _ hstop]
        exact if_pos hat
      · cases hs
        exact dev_unref ..
    · cases hs
  | call p c =>
    simp only [step] at hs
    split at hs
    · split at hs <;> cases hs
      rfl
    · cases hs

/-- Whatever processes do with buffers, every step of theirs is the step of the log's device
that they ask for, and they read what the device has. -/
theorem cache_refines_device {d : Nat → Block} {acts : List (Act P)}
    (h : Run (fun _ _ => True) (step size) (binit P d) acts s) :
    (∀ a t, step size s a = some t → t.stop = none → t.dev = s.devAfter a) ∧
      ∀ p i k, s.thread p = .prog (.read i k) →
        (s.buf i).data = s.dev.bread (s.buf i).blockno := by
  have hi := cacheInv_of_run h
  refine ⟨fun a t hs hstop => dev_step hi hs hstop, fun p i k hread => ?_⟩
  have hclean := hi.use.clean p
  rw [hread] at hclean
  rcases hi.use.valid i p (lock_of_view hclean.1) with hvalid | hloading
  · exact (hi.block.cached i hvalid).symm
  · rw [hread] at hloading
    exact hloading.elim

end

def Call.update (b : Nat) (v : Block) : Call :=
  ⟨.bread b fun i => .modify i v (.logWrite i (.brelse i .ret)), by
    refine fun i _ => ⟨by simp, by simp, by simp, fun j => ?_⟩
    by_cases hj : j = i
    · subst hj
      simp
    · simp [hj]⟩

def Thread.returns : Thread → Option (Nat × Slot)
  | .back b i _ => some (b, i)
  | _ => none

theorem eq_back_of_returns {t : Thread} {b : Nat} (h : t.returns = some (b, i)) :
    ∃ k, t = .back b i k := by
  cases t with
  | back b i k =>
    cases h
    exact ⟨k, rfl⟩
  | _ => cases h

/-- `false` logs a change to block 40, `true` commits it, and `false` reads the block again. -/
def commitOne : List (Act Bool) :=
  List.flatten [[.call false (Call.update 40 (Bytes.zero.setWord 0 7))], List.replicate 9 (.run false),
    [.call true (Call.commit ⟨2, 30⟩)], List.replicate 62 (.run true),
    [.call false (Call.update 40 .zero)], List.replicate 3 (.run false)]

theorem cache_transparent_commit_one : ∃ s : State Bool,
    Run (fun _ _ => True) (step 1000) (binit Bool fun _ => .zero) commitOne s ∧
    ((s.thread false).returns, s.latest 40) = (some (40, 0), Bytes.zero.setWord 0 7) ∧
    (s.buf 0).data = Bytes.zero.setWord 0 7 := by
  obtain ⟨s, hs, hf⟩ : ∃ s : State Bool,
      Run (fun _ _ => True) (step 1000) (binit Bool fun _ => .zero) commitOne s ∧
      ((s.thread false).returns, s.latest 40) = (some (40, 0), Bytes.zero.setWord 0 7) :=
    Run.of_exec_map (by decide +kernel)
  obtain ⟨-, -, -, hback⟩ := cache_transparent hs
  obtain ⟨k, hk⟩ := eq_back_of_returns (congrArg Prod.fst hf)
  obtain ⟨-, -, hdata⟩ := hback false 40 0 k hk
  exact ⟨s, hs, hf, hdata.trans (congrArg Prod.snd hf)⟩

def Thread.writes {P : Type} (buf : Slot → Buf P) : Thread → Option Nat
  | .write i _ => some (buf i).blockno
  | _ => none

theorem devAfter_of_writes {P : Type} {d : Log.Dev} {buf : Slot → Buf P} {t : Thread} {b : Nat}
    (h : t.writes buf = some b) : t.devAfter d buf = d.bwrite b (d.bread b) := by
  cases t with
  | write i k =>
    cases h
    rfl
  | _ => cases h

theorem cache_refines_device_commit_one : ∃ s t : State Bool,
    Run (fun _ _ => True) (step 1000) (binit Bool fun _ => .zero) (commitOne.take 55) s ∧
    step 1000 s (.run true) = some t ∧ t.dev = s.dev.bwrite 40 (s.dev.bread 40) ∧
    t.disk 40 = Bytes.zero.setWord 0 7 := by
  obtain ⟨s, hrun, hf⟩ : ∃ s : State Bool,
      Run (fun _ _ => True) (step 1000) (binit Bool fun _ => .zero) (commitOne.take 55) s ∧
      ((s.thread true).writes s.buf,
        (step 1000 s (.run true)).map fun t => (t.stop, t.disk 40)) =
        (some 40, some (none, Bytes.zero.setWord 0 7)) :=
    Run.of_exec_map (by decide +kernel)
  rw [Prod.mk.injEq] at hf
  obtain ⟨t, hstep, ht⟩ := Option.map_eq_some_iff.mp hf.2
  rw [Prod.mk.injEq] at ht
  have hdev := (cache_refines_device hrun).1 _ t hstep ht.1
  exact ⟨s, t, hrun, hstep, hdev.trans (devAfter_of_writes hf.1), ht.2⟩

end BossOs.Bio
