import BossOs.Vm.Map

/-!
# The bytes of an address space

`Holds` follows a page through the calls that move pages, `Patched` says that a run of
bytes was stored at a virtual address and no other byte has changed. Both rest on the
frames being pages of their own.
-/

namespace BossOs.Vm

open Lib

variable {im : Image} {K R : Multiset Nat} {d : Nat} {m m' m'' : Mem}

/-- Virtual page `v` is present, with the contents `c`. -/
structure Holds (m : Mem) (d v : Nat) (c : Page) : Prop where
  present : Vm.present (lookup m d v) = true
  page : m.page (frame (lookup m d v)) = c

theorem holds_self {v : Nat} (hp : present (lookup m d v) = true) :
    Holds m d v (m.page (frame (lookup m d v))) := ⟨hp, rfl⟩

namespace Holds

variable {v : Nat} {c : Page} (h : Holds m d v c) (hv : v < UPAGES)
include h hv

theorem agree (ha : Agree m m' (space m d)) : Holds m' d v c := by
  have hlook := ha.of_space.lookup_eq (upage_lt hv)
  constructor
  · rw [hlook]
    exact h.present
  · rw [hlook, ha _ (frame_mem_space hv h.present)]
    exact h.page

variable (hacc : Accounts im m (space m d + R))
include hacc

theorem take {p : Nat} {ps : List Nat} (hfree : m.free = p :: ps) (c' : Page) :
    Holds (m.pop.write p c') d v c := by
  have hp := head_not_mem hacc hfree
  apply h.agree hv
  exact agree_write (m := m.pop) c' fun hmem => hp (Multiset.mem_add.mpr (Or.inl hmem))

theorem edit (hedit : Edit d m m') (hsame : lookup m' d v = lookup m d v) : Holds m' d v c := by
  have hframe := frame_mem_space hv h.present
  constructor
  · rw [hsame]
    exact h.present
  · rw [hsame, hedit.agree _ (hacc.frame_not_tree hv h.present)
      (hacc.not_free (Multiset.mem_add.mpr (Or.inl hframe)))]
    exact h.page

theorem write {w : Nat} (hw : w < UPAGES) (hp : Vm.present (lookup m d w) = true) (hne : v ≠ w)
    (c' : Page) : Holds (m.write (frame (lookup m d w)) c') d v c := by
  have hlook := (agree_write c' (hacc.frame_not_tree hw hp)).lookup_eq (upage_lt hv)
  have hframe : frame (lookup m d v) ≠ frame (lookup m d w) := fun heq =>
    hne (hacc.frame_inj hv hw h.present hp heq)
  constructor
  · rw [hlook]
    exact h.present
  · rw [hlook, write_page_of_ne _ _ hframe]
    exact h.page

end Holds

theorem holds_mapped {v p x : Nat} (hacc : Accounts im m (space m d + (p ::ₘ K)))
    (hedit : Edit d m m') (hx : x < PGSIZE) (hentry : lookup m' d v = p * PGSIZE ||| x ||| PTE_P) :
    Holds m' d v (m.page p) := by
  have hp : p ∈ p ::ₘ K := Multiset.mem_cons_self p K
  constructor
  · rw [hentry]
    exact present_or_p _
  · rw [hentry, Nat.or_assoc, frame_entry (or_perm_lt hx)]
    apply hedit.agree
    · intro htree
      apply hacc.disjoint_rest _ hp
      exact Multiset.mem_of_le (Multiset.cons_le_cons d (Multiset.le_add_right _ _)) htree
    · exact hacc.not_free (Multiset.mem_add.mpr (Or.inr hp))

theorem holds_written {v : Nat} (hacc : Accounts im m (space m d + R)) (hv : v < UPAGES)
    (hp : present (lookup m d v) = true) (c : Page) :
    Holds (m.write (frame (lookup m d v)) c) d v c := by
  have hlook := (agree_write c (hacc.frame_not_tree hv hp)).lookup_eq (upage_lt hv)
  constructor
  · rw [hlook]
    exact hp
  · rw [hlook, write_page_self]

def byteAt (m : Mem) (d a : Nat) : UInt8 :=
  (m.page (frame (lookup m d (a / PGSIZE)))).get (a % PGSIZE)

theorem Holds.byteAt {a : Nat} {c : Page} (h : Holds m d (a / PGSIZE) c) :
    byteAt m d a = c.get (a % PGSIZE) := by
  unfold Vm.byteAt
  rw [h.page]

def Keeps (m m' : Mem) (d : Nat) : Prop := ∀ v c, v < UPAGES → Holds m d v c → Holds m' d v c

theorem Keeps.trans (h : Keeps m m' d) (h' : Keeps m' m'' d) : Keeps m m'' d :=
  fun v c hv hc => h' v c hv (h v c hv hc)

theorem Keeps.byteAt (h : Keeps m m' d) {a : Nat} (ha : a / PGSIZE < UPAGES)
    (hp : present (lookup m d (a / PGSIZE)) = true) : byteAt m' d a = byteAt m d a :=
  (h _ _ ha (holds_self hp)).byteAt

def Patched (m m' : Mem) (d lo : Nat) (bs : List UInt8) : Prop :=
  ∀ a, a / PGSIZE < UPAGES → present (lookup m d (a / PGSIZE)) = true →
    byteAt m' d a = if lo ≤ a ∧ a < lo + bs.length then (bs[a - lo]?).getD 0 else byteAt m d a

theorem patched_nil (m : Mem) (d lo : Nat) : Patched m m d lo [] := by
  intro a _ _
  rw [if_neg (by simp)]

theorem Patched.of_nil {lo : Nat} (h : Patched m m' d lo []) (lo' : Nat) :
    Patched m m' d lo' [] := by
  intro a ha hp
  rw [h a ha hp, if_neg (by simp), if_neg (by simp)]

theorem Patched.append {lo : Nat} {bs bs' : List UInt8} (h : Patched m m' d lo bs)
    (h' : Patched m' m'' d (lo + bs.length) bs')
    (hentry : ∀ v < VPAGES, lookup m' d v = lookup m d v) : Patched m m'' d lo (bs ++ bs') := by
  intro a ha hp
  have hp' : present (lookup m' d (a / PGSIZE)) = true := by
    rw [hentry _ (upage_lt ha)]
    exact hp
  rw [h' a ha hp', h a ha hp, List.length_append]
  by_cases h1 : lo + bs.length ≤ a
  · rw [if_neg (show ¬ (lo ≤ a ∧ a < lo + bs.length) by omega),
      List.getElem?_append_right (by omega), show a - (lo + bs.length) = a - lo - bs.length by omega]
    by_cases h2 : a < lo + bs.length + bs'.length
    · rw [if_pos ⟨h1, h2⟩, if_pos (by omega)]
    · rw [if_neg (by omega), if_neg (by omega)]
  · rw [if_neg (by omega)]
    by_cases h2 : lo ≤ a
    · rw [if_pos (by omega), if_pos (by omega), List.getElem?_append_left (by omega)]
    · rw [if_neg (by omega), if_neg (by omega)]

theorem patched_splice {v : Nat} (off : Nat) (bs : List UInt8) (hacc : Accounts im m (space m d + R))
    (hv : v < UPAGES) (hp : present (lookup m d v) = true) (hfit : off + bs.length ≤ PGSIZE) :
    Patched m (m.write (frame (lookup m d v)) ((m.page (frame (lookup m d v))).splice off bs)) d
      (v * PGSIZE + off) bs := by
  intro a ha hpa
  by_cases hav : a / PGSIZE = v
  · subst hav
    have hmod : a % PGSIZE < PGSIZE := Nat.mod_lt _ (by decide)
    have hdiv : a / PGSIZE * PGSIZE + a % PGSIZE = a := Nat.div_add_mod' a PGSIZE
    rw [(holds_written hacc hv hp _).byteAt, Bytes.get_splice _ _ _ hmod]
    by_cases h1 : off ≤ a % PGSIZE
    · rw [if_pos h1, show a - (a / PGSIZE * PGSIZE + off) = a % PGSIZE - off by omega]
      by_cases h2 : a % PGSIZE < off + bs.length
      · rw [if_pos (by omega), List.getElem?_eq_getElem (by omega)]
        rfl
      · rw [if_neg (by omega), List.getElem?_eq_none (by omega)]
        rfl
    · rw [if_neg h1, if_neg (by omega)]
      rfl
  · have hout : ¬ (v * PGSIZE + off ≤ a ∧ a < v * PGSIZE + off + bs.length) := by
      rw [pgsize_eq] at *
      omega
    rw [if_neg hout, ((holds_self hpa).write ha hacc hv hp hav _).byteAt]
    rfl

end BossOs.Vm
