import BossOs.Sync.Killed

/-!
# Services

A service is code that processes enter from outside and leave again, with the locks, the channels
and the data it uses. Services are put side by side: two different ones, or many copies of one.
-/

namespace BossOs.Sync

structure Service (P L Ch D K : Type) where
  instr : P → K → Instr P L Ch D K
  /-- Points outside the service. -/
  idle : K → Bool
  /-- The first points of its functions. -/
  entry : K → Bool

variable {P L L' Ch Ch' D D' K K' : Type}

def Service.code (v : Service P L Ch D K) : Code P L Ch D K where
  instr := v.instr
  call k k' := v.idle k && v.entry k'

def Lock.map (f : L → L') : Lock L → Lock L'
  | .ptable => .ptable
  | .of l => .of (f l)

/-- How the names of one service become names of a larger one. -/
structure Renaming (L L' Ch Ch' D D' K K' : Type) where
  lock : L → L'
  chan : Ch → Ch'
  point : K → K'
  get : D' → D
  set : D' → D → D'

def Instr.rename (r : Renaming L L' Ch Ch' D D' K K') : Instr P L Ch D K → Instr P L' Ch' D' K'
  | .idle => .idle
  | .acquire lk k => .acquire (lk.map r.lock) (r.point k)
  | .release lk k => .release (lk.map r.lock) (r.point k)
  | .sleep ch lk k => .sleep (r.chan ch) (lk.map r.lock) (r.point k)
  | .wakeup ch k => .wakeup (r.chan ch) (r.point k)
  | .wakeup1 ch k => .wakeup1 (r.chan ch) (r.point k)
  | .kill q k => .kill q (r.point k)
  | .killed f => .killed fun b => r.point (f b)
  | .update f => .update fun d => (r.point (f (r.get d)).1, r.set d (f (r.get d)).2)

def Renaming.inl : Renaming L (L ⊕ L') Ch (Ch ⊕ Ch') D (D × D') K (K ⊕ K') :=
  ⟨.inl, .inl, .inl, Prod.fst, fun d x => (x, d.2)⟩

def Renaming.inr : Renaming L' (L ⊕ L') Ch' (Ch ⊕ Ch') D' (D × D') K' (K ⊕ K') :=
  ⟨.inr, .inr, .inr, Prod.snd, fun d x => (d.1, x)⟩

def Renaming.at {J : Type} [DecidableEq J] (j : J) :
    Renaming L (J × L) Ch (J × Ch) D (J → D) K (J × K) :=
  ⟨Prod.mk j, Prod.mk j, Prod.mk j, fun d => d j, fun d x => Function.update d j x⟩

namespace Service

def sum (v : Service P L Ch D K) (w : Service P L' Ch' D' K') :
    Service P (L ⊕ L') (Ch ⊕ Ch') (D × D') (K ⊕ K') where
  instr p
    | .inl k => (v.instr p k).rename .inl
    | .inr k => (w.instr p k).rename .inr
  idle := Sum.elim v.idle w.idle
  entry := Sum.elim v.entry w.entry

def copies (J : Type) [DecidableEq J] (v : Service P L Ch D K) :
    Service P (J × L) (J × Ch) (J → D) (J × K) where
  instr p k := (v.instr p k.2).rename (.at k.1)
  idle k := v.idle k.2
  entry k := v.entry k.2

end Service

/-- The locks `h'` are the locks `h` under their new names. -/
structure Extends (f : L → L') (h : Lock L → Bool) (h' : Lock L' → Bool) : Prop where
  map : ∀ m, h' (Lock.map f m) = h m
  other : ∀ m', (∀ m, m' ≠ Lock.map f m) → h' m' = false

section Rename
variable [DecidableEq L] [DecidableEq L']

omit [DecidableEq L] [DecidableEq L'] in
theorem Lock.map_injective {f : L → L'} (hf : Function.Injective f) :
    Function.Injective (Lock.map f) := by
  intro m n h
  cases m <;> cases n <;> simp_all [Lock.map, hf.eq_iff]

omit [DecidableEq L] [DecidableEq L'] in
theorem Lock.forall_map (f : L → L') {Φ : Lock L' → Prop} (map : ∀ m, Φ (Lock.map f m))
    (other : ∀ m', (∀ m, m' ≠ Lock.map f m) → Φ m') (m' : Lock L') : Φ m' := by
  by_cases hm : ∃ m, m' = Lock.map f m
  · obtain ⟨m, rfl⟩ := hm
    exact map m
  · exact other m' fun m h => hm ⟨m, h⟩

variable {r : Renaming L L' Ch Ch' D D' K K'} {held : K → Lock L → Bool}
  {held' : K' → Lock L' → Bool} {h : Lock L → Bool} {h' : Lock L' → Bool}

theorem Instr.Disciplined.rename (hr : Function.Injective r.lock)
    (hk : ∀ k, Extends r.lock (held k) (held' (r.point k))) (hh : Extends r.lock h h')
    {i : Instr P L Ch D K} (hi : i.Disciplined held h) : (i.rename r).Disciplined held' h' := by
  have same : ∀ {k}, held k = h → held' (r.point k) = h' := by
    intro k he
    refine funext (Lock.forall_map r.lock (fun m => ?_) fun m' hm => ?_)
    · rw [(hk k).map, hh.map, he]
    · rw [(hk k).other m' hm, hh.other m' hm]
  have hdec : ∀ m lk, decide (Lock.map r.lock m = lk.map r.lock) = decide (m = lk) := fun m lk =>
    decide_eq_decide.mpr (Lock.map_injective hr).eq_iff
  cases i with
  | idle => trivial
  | acquire lk k =>
    refine ⟨(hh.map lk).trans hi.1, Lock.forall_map r.lock (fun m => ?_) fun m' hm => ?_⟩
    · rw [(hk k).map, hh.map, hi.2 m, hdec]
    · rw [(hk k).other m' hm, hh.other m' hm, Bool.false_or, decide_eq_false (hm lk)]
  | release lk k =>
    refine ⟨(hh.map lk).trans hi.1, Lock.forall_map r.lock (fun m => ?_) fun m' hm => ?_⟩
    · rw [(hk k).map, hh.map, hi.2 m, decide_not, decide_not, hdec]
    · rw [(hk k).other m' hm, hh.other m' hm, Bool.false_and]
  | sleep ch lk k =>
    refine ⟨Lock.forall_map r.lock (fun m => ?_) fun m' hm => ?_, same hi.2⟩
    · rw [hh.map, hi.1 m, hdec]
    · rw [hh.other m' hm, decide_eq_false (hm lk)]
  | wakeup ch k => exact ⟨(hh.map .ptable).trans hi.1, same hi.2⟩
  | wakeup1 ch k => exact ⟨(hh.map .ptable).trans hi.1, same hi.2⟩
  | kill q k => exact ⟨(hh.map .ptable).trans hi.1, same hi.2⟩
  | killed f => exact fun b => same (hi b)
  | update f => exact fun d => same (hi (r.get d))

omit [DecidableEq L] [DecidableEq L'] in
theorem Instr.Tested.rename {tested : K → Bool} {tested' : K' → Bool}
    (ht : ∀ k, tested' (r.point k) = tested k) {k : K} {i : Instr P L Ch D K}
    (hi : i.Tested tested k) : (i.rename r).Tested tested' (r.point k) := by
  cases i with
  | idle => trivial
  | acquire | release | wakeup | wakeup1 | sleep | kill | killed =>
    simpa only [Instr.rename, Instr.Tested, ht] using hi
  | update f =>
    intro d
    rw [ht, ht]
    exact hi (r.get d)

end Rename

/-- A service whose code is consistent with the annotations, and that is entered and left
without locks. -/
structure Annotated [DecidableEq L] (held : K → Lock L → Bool) (tested : K → Bool)
    (v : Service P L Ch D K) : Prop where
  locks : ∀ p k, (v.instr p k).Disciplined held (held k)
  tests : ∀ p k, (v.instr p k).Tested tested k
  idle : ∀ k, v.idle k = true → ∀ m, held k m = false
  entry : ∀ k, v.entry k = true → (∀ m, held k m = false) ∧ tested k = false

section
variable [DecidableEq L] [DecidableEq L'] {held : K → Lock L → Bool} {tested : K → Bool}
  {held' : K' → Lock L' → Bool} {tested' : K' → Bool}
  {v : Service P L Ch D K} {w : Service P L' Ch' D' K'}

omit [DecidableEq L'] in
theorem Annotated.code_disciplined (h : Annotated held tested v) : Disciplined held v.code where
  instr := h.locks
  call := by
    intro k k' hcall
    obtain ⟨hi, he⟩ := (Bool.and_eq_true _ _).mp hcall
    funext m
    rw [h.idle k hi, (h.entry k' he).1]

omit [DecidableEq L'] in
theorem Annotated.code_tested (h : Annotated held tested v) : Tested tested v.code where
  instr := h.tests
  call := fun _ k' hcall => (h.entry k' ((Bool.and_eq_true _ _).mp hcall).2).2

def heldSum (held : K → Lock L → Bool) (held' : K' → Lock L' → Bool) :
    K ⊕ K' → Lock (L ⊕ L') → Bool
  | .inl k, .ptable => held k .ptable
  | .inl k, .of (.inl l) => held k (.of l)
  | .inr k, .ptable => held' k .ptable
  | .inr k, .of (.inr l) => held' k (.of l)
  | _, _ => false

def heldCopies (J : Type) [DecidableEq J] (held : K → Lock L → Bool) :
    J × K → Lock (J × L) → Bool
  | (_, k), .ptable => held k .ptable
  | (j, k), .of (j', l) => decide (j' = j) && held k (.of l)

omit [DecidableEq L] [DecidableEq L'] in
theorem extends_inl (k : K) : Extends Sum.inl (held k) (heldSum held held' (.inl k)) where
  map := fun m => by cases m <;> rfl
  other := by
    rintro (_ | l | l) hm
    · exact absurd rfl (hm .ptable)
    · exact absurd rfl (hm (.of l))
    · rfl

omit [DecidableEq L] [DecidableEq L'] in
theorem extends_inr (k : K') : Extends Sum.inr (held' k) (heldSum held held' (.inr k)) where
  map := fun m => by cases m <;> rfl
  other := by
    rintro (_ | l | l) hm
    · exact absurd rfl (hm .ptable)
    · rfl
    · exact absurd rfl (hm (.of l))

omit [DecidableEq L] in
theorem extends_copy {J : Type} [DecidableEq J] (j : J) (k : K) :
    Extends (Prod.mk j) (held k) (heldCopies J held (j, k)) where
  map := fun m => by cases m <;> simp [Lock.map, heldCopies]
  other := by
    rintro (_ | ⟨j', l⟩) hm
    · exact absurd rfl (hm .ptable)
    · by_cases hj : j' = j
      · subst hj
        exact absurd rfl (hm (.of l))
      · simp [heldCopies, hj]

omit [DecidableEq L] [DecidableEq L'] in
theorem Extends.none {f : L → L'} {h : Lock L → Bool} {h' : Lock L' → Bool} (he : Extends f h h')
    (hn : ∀ m, h m = false) : ∀ m', h' m' = false :=
  Lock.forall_map f (fun m => (he.map m).trans (hn m)) he.other

theorem Annotated.sum (hv : Annotated held tested v) (hw : Annotated held' tested' w) :
    Annotated (heldSum held held') (Sum.elim tested tested') (v.sum w) where
  locks := by
    rintro p (k | k)
    · exact (hv.locks p k).rename Sum.inl_injective extends_inl (extends_inl k)
    · exact (hw.locks p k).rename Sum.inr_injective extends_inr (extends_inr k)
  tests := by
    rintro p (k | k)
    · exact (hv.tests p k).rename fun _ => rfl
    · exact (hw.tests p k).rename fun _ => rfl
  idle := by
    rintro (k | k) h
    · exact (extends_inl k).none (hv.idle k h)
    · exact (extends_inr k).none (hw.idle k h)
  entry := by
    rintro (k | k) h
    · exact ⟨(extends_inl k).none (hv.entry k h).1, (hv.entry k h).2⟩
    · exact ⟨(extends_inr k).none (hw.entry k h).1, (hw.entry k h).2⟩

omit [DecidableEq L'] in
theorem Annotated.copies (J : Type) [DecidableEq J] (hv : Annotated held tested v) :
    Annotated (heldCopies J held) (fun k => tested k.2) (v.copies J) where
  locks := by
    rintro p ⟨j, k⟩
    exact (hv.locks p k).rename (Prod.mk_right_injective j) (extends_copy j) (extends_copy j k)
  tests := by
    rintro p ⟨j, k⟩
    exact (hv.tests p k).rename fun _ => rfl
  idle := by
    rintro ⟨j, k⟩ h
    exact (extends_copy j k).none (hv.idle k h)
  entry := by
    rintro ⟨j, k⟩ h
    exact ⟨(extends_copy j k).none (hv.entry k h).1, (hv.entry k h).2⟩

end

end BossOs.Sync
