import BossOs.Fs.Transfer
import BossOs.Fs.Dir

/-!
# Directories as sequences of entries

`dirlookup` returns the first live entry of a name, `dirlink` fills the first empty slot or
adds one at the end. Both read the directory entry by entry, which needs its size to be a
multiple of the size of an entry.
-/

namespace BossOs.Fs

open Dirent (bytes)
open Lib
open Prog (sat_bind sat_fail sat_pure)

variable {sb : Superblock}

theorem dirent_bytes : bytes = 16 := rfl

theorem Dirent.decode_encode {de : Dirent} (h : de.inum < 2 ^ 16) : decode (encode de) = de := by
  have htake : (toLe 2 de.inum ++ de.name).take 2 = toLe 2 de.inum :=
    List.take_left' (length_toLe ..)
  have hdrop : (toLe 2 de.inum ++ de.name).drop 2 = de.name := List.drop_left' (length_toLe ..)
  have hmod : de.inum % 256 ^ 2 = de.inum := Nat.mod_eq_of_lt h
  rw [decode, encode, htake, hdrop, leNat_toLe, hmod]

theorem Dirent.length_encode (de : Dirent) : (encode de).length = 2 + de.name.length := by
  rw [encode, List.length_append, length_toLe]

theorem Dirent.length_encode_of {de : Dirent} (hname : de.name.length = DIRSIZ) :
    de.encode.length = bytes := by
  rw [length_encode, hname]
  rfl

theorem length_strncpy (t : Str) (n : Nat) : (strncpy t n).length = n := by
  induction n generalizing t with
  | zero => rfl
  | succ n ih =>
    unfold strncpy
    split
    · exact List.length_replicate
    · rw [List.length_cons, ih]

variable {k : Nat}

section Slots

variable {nd : Node} (hdvd : bytes ∣ nd.size)
include hdvd

theorem Node.size_eq : nd.size = nd.slots * bytes := (Nat.div_mul_cancel hdvd).symm

theorem Node.read_dirent (hk : k < nd.slots) : nd.read (k * bytes) bytes =
      (List.range bytes).map fun j => nd.byte (k * bytes + j) := by
  have hsize := Node.size_eq hdvd
  rw [Node.read, Nat.min_eq_left]
  rw [dirent_bytes] at hsize ⊢
  omega

theorem Node.length_read (hk : k < nd.slots) :
    (nd.read (k * bytes) bytes).length = bytes := by
  rw [Node.read_dirent hdvd hk, List.length_map, List.length_range]

theorem Node.slots_write {j : Nat} {src : List UInt8} (hj : j ≤ nd.slots)
    (hlen : src.length = bytes) : bytes ∣ (nd.write (j * bytes) src).size ∧
      (nd.write (j * bytes) src).slots = max nd.slots (j + 1) := by
  have hsize := Node.size_eq hdvd
  have hw : (nd.write (j * bytes) src).size = max nd.slots (j + 1) * bytes := by
    change max nd.size (j * bytes + src.length) = _
    rw [hlen, dirent_bytes] at *
    omega
  rw [Node.slots, hw]
  exact ⟨Nat.dvd_mul_left _ _, Nat.mul_div_cancel _ (by decide)⟩

theorem Node.dirent_write {j : Nat} {de : Dirent} (hj : j ≤ nd.slots)
    (hname : de.name.length = DIRSIZ) (hinum : de.inum < 2 ^ 16) (hk : k < max nd.slots (j + 1)) :
    (nd.write (j * bytes) de.encode).dirent k = if k = j then de else nd.dirent k := by
  have hlen := Dirent.length_encode_of hname
  obtain ⟨hdvd', hslots⟩ := Node.slots_write hdvd hj hlen
  rw [Node.dirent, Node.read_dirent hdvd' (by rw [hslots]; exact hk)]
  by_cases hkj : k = j
  · subst hkj
    rw [if_pos rfl]
    have hbytes : (List.range bytes).map (fun i =>
        (nd.write (k * bytes) de.encode).byte (k * bytes + i)) = de.encode := by
      apply List.ext_getElem
      · rw [List.length_map, List.length_range, hlen]
      · intro i h1 h2
        rw [List.getElem_map, List.getElem_range]
        simp only [Node.write]
        rw [if_pos (by omega), Nat.add_sub_cancel_left, List.getD_eq_getElem _ _ h2]
    rw [hbytes, Dirent.decode_encode hinum]
  · rw [if_neg hkj, Node.dirent, Node.read_dirent hdvd (by omega)]
    congr 1
    apply List.map_congr_left
    intro i hi
    rw [List.mem_range] at hi
    simp only [Node.write]
    rw [if_neg]
    rw [hlen, dirent_bytes] at *
    omega

end Slots

def Node.find (nd : Node) (name : Str) : Option Nat :=
  firstFrom (fun k => (nd.dirent k).inum ≠ 0 ∧ namecmp name (nd.dirent k).name = 0) nd.slots 0

def Node.hole (nd : Node) : Nat :=
  (firstFrom (fun k => (nd.dirent k).inum = 0) nd.slots 0).getD nd.slots

variable {name : Str}

theorem Node.find_some {nd : Node} (h : nd.find name = some k) :
    k < nd.slots ∧ (nd.dirent k).inum ≠ 0 ∧ namecmp name (nd.dirent k).name = 0 := by
  obtain ⟨-, h2, h3, -⟩ := firstFrom_some h
  refine ⟨by omega, ?_⟩
  simpa using h3

theorem Node.find_none {nd : Node} (h : nd.find name = none)
    (hk : k < nd.slots) (hlive : (nd.dirent k).inum ≠ 0) : namecmp name (nd.dirent k).name ≠ 0 := by
  have hf := firstFrom_none h (Nat.zero_le k) (by omega)
  intro heq
  simp [hlive, heq] at hf

theorem Node.hole_spec (nd : Node) : nd.hole ≤ nd.slots ∧
    (nd.hole < nd.slots → (nd.dirent nd.hole).inum = 0) := by
  unfold Node.hole
  cases hf : firstFrom (fun k => decide ((nd.dirent k).inum = 0)) nd.slots 0 with
  | none => exact ⟨Nat.le_refl _, fun hlt => absurd hlt (Nat.lt_irrefl _)⟩
  | some j =>
    obtain ⟨-, h2, h3, -⟩ := firstFrom_some hf
    rw [Option.getD_some]
    refine ⟨by omega, fun _ => ?_⟩
    simpa using h3

theorem Node.hole_eq {nd : Node} (h : nd.hole = nd.slots) (hk : k < nd.slots) :
    (nd.dirent k).inum ≠ 0 := by
  unfold Node.hole at h
  cases hf : firstFrom (fun k => decide ((nd.dirent k).inum = 0)) nd.slots 0 with
  | none =>
    have hne := firstFrom_none hf (Nat.zero_le k) (by omega)
    simpa using hne
  | some j =>
    obtain ⟨-, h2, -, -⟩ := firstFrom_some hf
    rw [hf, Option.getD_some] at h
    omega

/-- The directory `dp` is open; `de` is what can be read of its first `m` entries. -/
structure DirView (sb : Superblock) (s : State) (dp : Entry) (m : Nat) (de : Nat → Dirent) :
    Prop where
  type : (s.icache dp).din.type = T_DIR
  le : m * Dirent.bytes ≤ (s.icache dp).din.size.toNat
  read : ∀ (p : Panic) (k : Nat), k < m →
    (readEntry sb p dp (k * Dirent.bytes)).run s = .ok (de k) s

def Found (s : State) (de : Nat → Dirent) (k : Option Nat) (Q : Option (Entry × Nat) → State → Prop)
    (E : Stop → State → Prop) : Prop :=
  match k with
  | none => Q none s
  | some j => ((iget (de j).inum).run s).Sat (fun e t => Q (some (e, j * Dirent.bytes)) t) E

def slotOf (de : Nat → Dirent) (name : Str) (m k : Nat) : Option Nat :=
  firstFrom (fun k => (de k).inum ≠ 0 ∧ namecmp name (de k).name = 0) (m - k) k

variable {Q : Nat → State → Prop}

namespace DirView

variable {s : State} {dp : Entry} {m : Nat} {de : Nat → Dirent} (h : DirView sb s dp m de)
  {E : Stop → State → Prop}
include h

theorem more (hk : k < m) : k * bytes < (s.icache dp).din.size.toNat := by
  have hle := h.le
  rw [dirent_bytes] at *
  omega

theorem sat_read {p : Panic} (hk : k < m) {Q : Dirent → State → Prop} :
    ((readEntry sb p dp (k * bytes)).run s).Sat Q E = Q (de k) s := by
  rw [h.read p k hk, Outcome.sat_ok]

theorem sat_lookupFrom (name : Str) {Q : Option (Entry × Nat) → State → Prop} (fuel k : Nat)
    (hk : k ≤ m) (hfuel : m < fuel + k)
    (hend : slotOf de name m k = none → (s.icache dp).din.size.toNat = m * bytes) :
    ((lookupFrom sb dp name fuel (k * bytes)).run s).Sat Q E =
      Found s de (slotOf de name m k) Q E := by
  induction fuel generalizing k with
  | zero => omega
  | succ fuel ih =>
    rw [lookupFrom, sat_bind, sat_inode]
    by_cases hlt : k < m
    · have hslot : slotOf de name m k = if (de k).inum ≠ 0 ∧ namecmp name (de k).name = 0
          then some k else slotOf de name m (k + 1) := by
        rw [slotOf, show m - k = m - (k + 1) + 1 by omega, firstFrom]
        simp only [decide_eq_true_eq]
        rfl
      rw [hslot] at hend ⊢
      rw [if_pos (h.more hlt), sat_bind, h.sat_read hlt]
      by_cases hhit : (de k).inum ≠ 0 ∧ namecmp name (de k).name = 0
      · rw [if_pos hhit, if_pos hhit, sat_bind]
        simp only [sat_pure, Found]
      · rw [if_neg hhit] at hend
        rw [if_neg hhit, if_neg hhit, show k * bytes + bytes = (k + 1) * bytes by
          rw [Nat.add_mul, Nat.one_mul]]
        exact ih (k + 1) (by omega) (by omega) hend
    · have hnone : slotOf de name m k = none := by
        rw [slotOf, show m - k = 0 by omega, firstFrom]
      have hsize := hend hnone
      rw [if_neg (by rw [hsize, dirent_bytes]; omega), hnone, sat_pure, Found]

theorem sat_dirlookup (name : Str) {Q : Option (Entry × Nat) → State → Prop}
    (hend : slotOf de name m 0 = none → (s.icache dp).din.size.toNat = m * bytes) :
    ((dirlookup sb dp name).run s).Sat Q E = Found s de (slotOf de name m 0) Q E := by
  have hfuel : m ≤ (s.icache dp).din.size.toNat / bytes :=
    (Nat.le_div_iff_mul_le (by decide)).mpr h.le
  have hspec := h.sat_lookupFrom (E := E) name (Q := Q)
    ((s.icache dp).din.size.toNat / bytes + 1) 0 (Nat.zero_le m) (by omega) hend
  rw [Nat.zero_mul] at hspec
  rw [dirlookup, sat_bind, sat_inode, if_neg fun hne => hne h.type]
  exact hspec

theorem sat_emptyFrom (hsize : (s.icache dp).din.size.toNat = m * bytes) (fuel k : Nat)
    (hk : k ≤ m) (hfuel : m < fuel + k) :
    ((emptyFrom sb dp fuel (k * bytes)).run s).Sat Q E =
      Q ((firstFrom (fun k => (de k).inum = 0) (m - k) k).getD m * bytes) s := by
  induction fuel generalizing k with
  | zero => omega
  | succ fuel ih =>
    rw [emptyFrom, sat_bind, sat_inode]
    by_cases hlt : k < m
    · rw [if_pos (h.more hlt), sat_bind, h.sat_read hlt,
        show m - k = m - (k + 1) + 1 by omega, firstFrom]
      simp only [decide_eq_true_eq]
      by_cases h0 : (de k).inum = 0
      · rw [if_pos h0, if_pos h0, sat_pure, Option.getD_some]
      · rw [if_neg h0, if_neg h0, show k * bytes + bytes = (k + 1) * bytes by
          rw [Nat.add_mul, Nat.one_mul]]
        exact ih (k + 1) (by omega) (by omega)
    · rw [if_neg (by rw [hsize, dirent_bytes]; omega), sat_pure, show m - k = 0 by omega,
        firstFrom, Option.getD_none, show k = m by omega]

theorem sat_empty (hsize : (s.icache dp).din.size.toNat = m * bytes) :
    ((emptyFrom sb dp ((s.icache dp).din.size.toNat / bytes + 1) 0).run s).Sat Q E =
      Q ((firstFrom (fun k => (de k).inum = 0) m 0).getD m * bytes) s := by
  have hspec := h.sat_emptyFrom (E := E) hsize (Q := Q)
    ((s.icache dp).din.size.toNat / bytes + 1) 0 (Nat.zero_le m)
    (by rw [hsize, dirent_bytes]; omega)
  rw [Nat.zero_mul] at hspec
  exact hspec

end DirView

theorem Good.view {s : State} {dp : Entry} (hg : Good sb s) (hr : 0 < (s.icache dp).ref)
    (hv : (s.icache dp).valid = true) (ht : (s.nodeAt sb dp).type = T_DIR)
    (hdvd : bytes ∣ (s.nodeAt sb dp).size) :
    DirView sb s dp (s.nodeAt sb dp).slots (s.nodeAt sb dp).dirent ∧
      (s.icache dp).din.size.toNat = (s.nodeAt sb dp).slots * bytes := by
  have hnd := hg.nodeAt_eq hr hv
  have hdin : (s.icache dp).din.size.toNat = (s.nodeAt sb dp).size := by rw [hnd]
  have hsize := Node.size_eq hdvd
  have hlt : (s.nodeAt sb dp).size < 2 ^ 31 := by
    rw [← hdin]
    exact Nat.lt_of_le_of_lt (hg.size_le hr hv) (by decide)
  have hne : (s.nodeAt sb dp).type ≠ T_DEV := by
    rw [ht]
    decide
  refine ⟨⟨?_, Nat.le_of_eq (hdin.trans hsize).symm, ?_⟩, hdin.trans hsize⟩
  · rw [← ht, hnd]
  · intro p k hk
    apply Outcome.eq_ok_of_sat
    rw [readEntry, sat_bind, sat_readi hg hr hv hne, if_neg]
    · simp only [Node.length_read hdvd hk, if_true]
      rw [sat_pure, Node.dirent]
      exact ⟨rfl, rfl⟩
    · rw [dirent_bytes] at *
      omega

def Looked (sb : Superblock) (R : Multiset Entry) (L : List Entry) (s : State) (nd : Node)
    (k : Option Nat) (r : Option (Entry × Nat)) (t : State) : Prop :=
  (k = none ∧ r = none ∧ t = s) ∨
    ∃ j e, k = some j ∧ r = some (e, j * Dirent.bytes) ∧ Cached sb (e ::ₘ R) L t ∧
      Quiet sb R s t ∧ t.blk = s.blk ∧ (t.icache e).inum = (nd.dirent j).inum

section Read

variable {R : Multiset Entry} {L : List Entry} {s : State} {dp : Entry}
  (h : Cached sb R L s) (hdp : dp ∈ L) (ht : (s.nodeAt sb dp).type = T_DIR)
include h hdp ht

theorem Cached.dirOk : bytes ∣ (s.nodeAt sb dp).size ∧
    ∀ k < (s.nodeAt sb dp).slots, ((s.nodeAt sb dp).dirent k).inum < sb.ninodes :=
  h.dirs _ (h.inum_lt (h.mem_of_locked hdp)) ht

theorem Cached.view : DirView sb s dp (s.nodeAt sb dp).slots (s.nodeAt sb dp).dirent ∧
    (s.icache dp).din.size.toNat = (s.nodeAt sb dp).slots * bytes :=
  h.good.view (h.ref_of_locked hdp) (h.valid dp hdp).2 ht (h.dirOk hdp ht).1

theorem dirlookup_spec (name : Str) : ((dirlookup sb dp name).run s).Sat
      (Looked sb R L s (s.nodeAt sb dp) ((s.nodeAt sb dp).find name))
      (fun x _ => x = .panic .noEntries ∧ ∀ e, e ∈ R) := by
  obtain ⟨hview, hsize⟩ := h.view hdp ht
  have hslot : slotOf (s.nodeAt sb dp).dirent name (s.nodeAt sb dp).slots 0 =
      (s.nodeAt sb dp).find name := rfl
  rw [hview.sat_dirlookup name fun _ => hsize, hslot]
  cases hf : (s.nodeAt sb dp).find name with
  | none => exact Or.inl ⟨rfl, rfl, rfl⟩
  | some k =>
    refine (iget_spec h ((h.dirOk hdp ht).2 k (Node.find_some hf).1)).imp ?_
    rintro e t ⟨hc, hi, hq, hb, -⟩
    exact Or.inr ⟨k, e, rfl, rfl, hc, hq, hb, hi⟩

theorem sat_empty {E : Stop → State → Prop} :
    ((emptyFrom sb dp ((s.icache dp).din.size.toNat / bytes + 1) 0).run s).Sat Q E =
      Q ((s.nodeAt sb dp).hole * bytes) s := by
  obtain ⟨hview, hsize⟩ := h.view hdp ht
  exact hview.sat_empty hsize

end Read

theorem dirOk_write {nd : Node} (de : Dirent) (hd : DirOk sb nd) {j : Nat} (hj : j ≤ nd.slots)
    (hname : de.name.length = DIRSIZ) (hinum : de.inum < sb.ninodes) (hsb : sb.Wf) :
    DirOk sb (nd.write (j * bytes) de.encode) := by
  intro ht
  obtain ⟨hdvd, hin⟩ := hd ht
  have hlen := Dirent.length_encode_of hname
  obtain ⟨hdvd', hslots⟩ := Node.slots_write hdvd hj hlen
  refine ⟨hdvd', ?_⟩
  intro k hk
  rw [hslots] at hk
  rw [Node.dirent_write hdvd hj hname (Nat.lt_of_lt_of_le hinum hsb.ninodes_le) hk]
  split
  · exact hinum
  · exact hin k (by omega)

def newDirent (name : Str) (inum : Nat) : Dirent := ⟨inum, strncpy name DIRSIZ⟩

def noDirent : Dirent := ⟨0, List.replicate DIRSIZ 0⟩

section Dirlink

variable {R : Multiset Entry} {L : List Entry} {s : State} {dp : Entry}

def Linked (sb : Superblock) (R : Multiset Entry) (L : List Entry) (s : State) (dp : Entry)
    (name : Str) (inum : Nat) (r : Bool) (t : State) : Prop :=
  (r = false ∧ (∃ k, (s.nodeAt sb dp).find name = some k ∧
      ∀ e ∈ L, (s.icache e).inum ≠ ((s.nodeAt sb dp).dirent k).inum) ∧
      Cached sb R L t ∧ Quiet sb R s t) ∨
    (r = true ∧ (s.nodeAt sb dp).find name = none ∧ Wrote sb R L s dp
      ((s.nodeAt sb dp).hole * Dirent.bytes) (newDirent name inum).encode t)

/-- Why `dirlink` may stop. The lock it may wait for is that of the inode it finds. -/
def LinkStop (sb : Superblock) (L : List Entry) (s : State) (dp : Entry) (name : Str) (x : Stop) :
    Prop :=
  x = .panic .noEntries ∨ x = .panic .outOfBlocks ∨ x = .panic .dirlink ∨
    x = .deadlock ∧ ∃ k, (s.nodeAt sb dp).find name = some k ∧
      ∃ e ∈ L, (s.icache e).inum = ((s.nodeAt sb dp).dirent k).inum

theorem dirlink_spec (hsb : sb.Wf) (h : Cached sb R (dp :: L) s) (hl : dp ∉ L)
    (ht : (s.nodeAt sb dp).type = T_DIR) (hop : 1 ≤ s.blk.outstanding) {inum : Nat}
    (hinum : inum < sb.ninodes) :
    ((dirlink sb dp name inum).run s).Sat (Linked sb R (dp :: L) s dp name inum)
      (fun x _ => LinkStop sb (dp :: L) s dp name x) := by
  have hdp : dp ∈ dp :: L := List.mem_cons_self
  rw [dirlink, sat_bind]
  refine (dirlookup_spec h hdp ht name).mono ?_ fun x _ hx => Or.inl hx.1
  rintro r t (⟨hnone, rfl, rfl⟩ | ⟨k, e, hsome, rfl, hc, hq, hb, hi⟩)
  · simp only [sat_bind, sat_inode]
    rw [sat_empty h hdp ht]
    obtain ⟨hhole, -⟩ := Node.hole_spec (t.nodeAt sb dp)
    have hlen : (newDirent name inum).encode.length = bytes := by
      rw [Dirent.length_encode, newDirent, length_strncpy]
      rfl
    have hdir := dirOk_write (newDirent name inum) (h.dirs _ (h.inum_lt (h.mem_of_locked hdp)))
      hhole (length_strncpy ..) hinum hsb
    refine (writei_cached hsb h hl hop (by rw [hlen]; decide) hdir).mono ?_ fun x _ hx =>
      Or.inr (Or.inl hx.1)
    rintro w u (⟨hsame, ⟨hdev, -⟩ | ⟨rfl, rfl, -⟩⟩ | ⟨-, rfl, -, -, hw⟩)
    · rw [ht] at hdev
      exact absurd hdev (by decide)
    · rw [if_neg (by exact fun hc => by cases hc), panic, sat_fail]
      exact Or.inr (Or.inr (Or.inl rfl))
    · rw [hlen, if_pos rfl, sat_pure]
      exact Or.inr ⟨rfl, hnone, hw⟩
  · simp only [sat_bind]
    refine (iput_spec hsb hc (by rw [hb]; exact hop)).mono ?_ ?_
    · rintro _ u ⟨hp, hfree⟩
      rw [sat_pure]
      refine Or.inl ⟨rfl, ⟨k, hsome, fun e' he' heq => hfree ?_⟩, hp.cached, hq.trans hp.quiet⟩
      -- two entries in use are not for one inode
      have hmem := hc.mem_of_locked he'
      have hsame : (t.icache e').inum = (t.icache e).inum :=
        ((hq.inum e' (h.mem_of_locked he')).trans heq).trans hi.symm
      rwa [hc.good.unique e' e (hc.ref_pos.mpr hmem) (hc.ref_pos.mpr (Multiset.mem_cons_self ..))
        hsame] at he'
    · rintro x _ ⟨rfl, hmem⟩
      have hR : e ∈ R := h.mem_of_locked hmem
      exact Or.inr (Or.inr (Or.inr ⟨rfl, k, hsome, e, hmem, (hq.inum e hR).symm.trans hi⟩))

end Dirlink

end BossOs.Fs
