import BossOs.Fs.Names
import BossOs.Fs.Format

/-!
# Operations on a locked directory

`dirlookup` and `dirlink` on a directory that the process has locked, whatever inode numbers its
entries have.
-/

namespace BossOs.Fs

open Dirent (bytes)
open Lib
open Prog (sat_bind sat_fail sat_pure)

variable {sb : Superblock}

/-- Entry `dp` has the only inode that is locked, a directory, and the cache has room. -/
structure DirOpen (sb : Superblock) (dp : Entry) (s : State) : Prop where
  good : Good sb s
  ref : 0 < (s.icache dp).ref
  valid : (s.icache dp).valid = true
  locked : (s.icache dp).locked = true
  type : (s.nodeAt sb dp).type = T_DIR
  dvd : Dirent.bytes ∣ (s.nodeAt sb dp).size
  op : 1 ≤ s.blk.outstanding
  others : ∀ e, e ≠ dp → 0 ≤ (s.icache e).ref ∧ (s.icache e).locked = false
  room : ∃ e, e ≠ dp ∧ (s.icache e).ref = 0

def removeEntry (sb : Superblock) (dp : Entry) (name : Str) : FsM Bool := do
  let r ← dirlookup sb dp name
  match r with
  | none => pure false
  | some (ip, off) =>
    let w ← writei sb dp (Dirent.encode ⟨0, List.replicate DIRSIZ 0⟩) off
    if w ≠ some Dirent.bytes then panic .unlinkWritei
    else do
      iput sb ip
      pure true

theorem sat_iput {s : State} {e : Entry} (hl : (s.icache e).locked = false)
    (hkeep : (s.icache e).valid = true → (s.icache e).ref ≠ 1) {Q : Unit → State → Prop}
    {E : Stop → State → Prop} : ((iput sb e).run s).Sat Q E = Q () (s.set e s.blk { s.icache e with
      ref := (s.icache e).ref - 1, locked := false }) := by
  simp only [iput, sat_bind]
  rw [sat_acquiresleep, if_neg (by rw [hl]; exact Bool.false_ne_true)]
  simp only [iputFree, sat_bind, sat_inode, set_icache_self]
  rw [if_neg fun hc => hkeep hc.1 hc.2.2, sat_pure, releasesleep, sat_setInode, sat_setInode]
  simp only [State.set, State.update, Function.update_self, Function.update_idem]

/-- Between `s` and `v` references to entries other than `dp` were taken and given back. -/
structure Alike (dp : Entry) (s v : State) : Prop where
  ref : ∀ e, e ≠ dp → (v.icache e).ref = (s.icache e).ref
  locked : ∀ e, e ≠ dp → (s.icache e).locked = false → (v.icache e).locked = false
  inum : (v.icache dp).inum = (s.icache dp).inum
  count : (v.icache dp).ref = (s.icache dp).ref
  lock : (v.icache dp).locked = (s.icache dp).locked
  valid : (v.icache dp).valid = (s.icache dp).valid

theorem Alike.refl (dp : Entry) (s : State) : Alike dp s s :=
  ⟨fun _ _ => rfl, fun _ _ h => h, rfl, rfl, rfl, rfl⟩

theorem alike_withDin (s : State) (dp : Entry) (u : Blk) (d : Dinode) :
    Alike dp s (s.withDin dp u d) := by
  refine ⟨?_, ?_, ?_, ?_, ?_, ?_⟩
  · intro e he
    rw [withDin_eq_set, set_icache_of_ne _ _ _ _ he]
  · intro e he hl
    rw [withDin_eq_set, set_icache_of_ne _ _ _ _ he]
    exact hl
  all_goals rw [withDin_icache_self]

theorem DirOpen.alike {dp : Entry} {s v : State} (h : DirOpen sb dp s) (ha : Alike dp s v)
    (hg : Good sb v) (hop : 1 ≤ v.blk.outstanding) (ht : (v.nodeAt sb dp).type = T_DIR)
    (hdvd : bytes ∣ (v.nodeAt sb dp).size) : DirOpen sb dp v := by
  refine ⟨hg, ?_, ?_, ?_, ht, hdvd, hop, ?_, ?_⟩
  · rw [ha.count]
    exact h.ref
  · rw [ha.valid]
    exact h.valid
  · rw [ha.lock]
    exact h.locked
  · intro e he
    rw [ha.ref e he]
    exact ⟨(h.others e he).1, ha.locked e he (h.others e he).2⟩
  · obtain ⟨e, he, h0⟩ := h.room
    exact ⟨e, he, (ha.ref e he).trans h0⟩

section Borrow

variable {dp e : Entry} {s t u : State} {i : Nat}

theorem DirOpen.iget (h : DirOpen sb dp s) (i : Nat) {E : Stop → State → Prop} :
    ((iget i).run s).Sat (fun e t => Got s i e t) E := by
  refine (iget_got i).mono (fun _ _ hq => hq) ?_
  rintro x _ ⟨-, hfull⟩
  obtain ⟨e, -, h0⟩ := h.room
  exact absurd h0 (hfull e)

section
variable (h : Got s i e t)
include h

theorem Got.inum : (t.icache e).inum = i := by
  cases h with
  | found hr hi =>
    rw [set_icache_self]
    exact hi
  | taken h0 hno =>
    rw [set_icache_self]
    rfl

theorem Got.blk : t.blk = s.blk := by
  cases h with
  | found hr hi => rfl
  | taken h0 hno => rfl

theorem Got.of_ne {e' : Entry} (hne : e' ≠ e) : t.icache e' = s.icache e' := by
  cases h with
  | found hr hi => exact set_icache_of_ne _ _ _ _ hne
  | taken h0 hno => exact set_icache_of_ne _ _ _ _ hne

theorem Got.ne (hr : 0 < (s.icache dp).ref) (hi : i ≠ (s.icache dp).inum) :
    e ≠ dp := by
  rintro rfl
  cases h with
  | found _ hi' => exact hi hi'.symm
  | taken h0 _ => omega

theorem Alike.put (hne : e ≠ dp) (ha : Alike dp t u) {v : State}
    (hdp : v.icache dp = u.icache dp)
    (hothers : ∀ e' ≠ dp, (v.icache e').ref = (s.icache e').ref ∧ (v.icache e').locked = false) :
    Alike dp s v := by
  have hdpt : t.icache dp = s.icache dp := h.of_ne hne.symm
  refine ⟨fun e' he' => (hothers e' he').1, fun e' he' _ => (hothers e' he').2, ?_, ?_, ?_, ?_⟩
  · rw [hdp, ha.inum, hdpt]
  · rw [hdp, ha.count, hdpt]
  · rw [hdp, ha.lock, hdpt]
  · rw [hdp, ha.valid, hdpt]

theorem Got.put (hs : DirOpen sb dp s) (hne : e ≠ dp) (hg : Good sb u)
    (hu : ∀ e' ≠ dp, u.icache e' = t.icache e') {E : Stop → State → Prop} :
    ((iput sb e).run u).Sat (fun _ v => v.blk = u.blk ∧ Good sb v ∧ v.icache dp = u.icache dp ∧
      (∀ e' ≠ dp, (v.icache e').ref = (s.icache e').ref ∧ (v.icache e').locked = false)) E := by
  have hue := hu e hne
  obtain ⟨hnn, hlock⟩ := hs.others e hne
  have hl : (u.icache e).locked = false ∧ 0 < (u.icache e).ref ∧
      (u.icache e).ref = (s.icache e).ref + 1 ∧
      ((u.icache e).valid = true → (u.icache e).ref ≠ 1) := by
    rw [hue]
    cases h with
    | found hr hi =>
      have hmore : (s.icache e).more.ref = (s.icache e).ref + 1 := rfl
      rw [set_icache_self]
      exact ⟨hlock, by omega, hmore, fun _ => by omega⟩
    | taken h0 hno =>
      have hone : ((s.icache e).reuse i).ref = 1 := rfl
      rw [set_icache_self]
      exact ⟨hlock, by omega, by omega, fun hv => absurd hv Bool.false_ne_true⟩
  obtain ⟨hlu, hpos, href, hkeep⟩ := hl
  rw [sat_iput hlu hkeep]
  refine ⟨rfl, hg.set hpos hg.disk hg.held (Others.refl ..) rfl (hg.agree hpos),
    set_icache_of_ne _ _ _ _ hne.symm, ?_⟩
  intro e' he'
  by_cases heq : e' = e
  · rw [heq, set_icache_self]
    refine ⟨?_, rfl⟩
    simp only
    omega
  · rw [set_icache_of_ne _ _ _ _ heq, hu e' he', h.of_ne heq]
    exact ⟨rfl, (hs.others e' he').2⟩

end

end Borrow

def NoRoom (sb : Superblock) (D : Nat → Block) (nd : Node) (j : Nat) : Prop :=
  MAXFILE * BSIZE < j * Dirent.bytes + Dirent.bytes ∨
    freeBlocks sb D + need (blocks nd.size) <
      need (max (blocks nd.size) (blocks (j * Dirent.bytes + Dirent.bytes)))

theorem not_noRoom {D : Nat → Block} {nd : Node} {j : Nat} (hdvd : bytes ∣ nd.size)
    (hmax : nd.size ≤ MAXFILE * BSIZE) (hj : j < nd.slots) : ¬ NoRoom sb D nd j := by
  have hsize := Node.size_eq hdvd
  have hle : j * bytes + bytes ≤ nd.size := by
    rw [hsize, dirent_bytes]
    omega
  have hblocks : blocks (j * bytes + bytes) ≤ blocks nd.size := by
    apply blocks_le
    exact Nat.le_trans hle (le_blocks_mul _)
  unfold NoRoom
  rw [Nat.max_eq_left hblocks]
  omega

theorem writeEntry_spec (hsb : sb.Wf) {dp : Entry} {s : State} (hg : Good sb s)
    (hr : 0 < (s.icache dp).ref) (hv : (s.icache dp).valid = true)
    (ht : (s.nodeAt sb dp).type = T_DIR) (hdvd : bytes ∣ (s.nodeAt sb dp).size)
    (hop : 1 ≤ s.blk.outstanding) {j : Nat} (de : Dirent) (hj : j ≤ (s.nodeAt sb dp).slots)
    (hname : de.name.length = DIRSIZ) : ((writei sb dp de.encode (j * bytes)).run s).Sat
      (fun r t => r = none ∧ NoRoom sb s.blk.disk (s.nodeAt sb dp) j ∨
        r = some bytes ∧ Good sb t ∧ (∃ u d, t = s.withDin dp u d) ∧ 1 ≤ t.blk.outstanding ∧
          t.nodeAt sb dp = (s.nodeAt sb dp).write (j * bytes) de.encode ∧
          ∀ i < sb.ninodes, i ≠ (s.icache dp).inum → t.node sb i = s.node sb i)
      (fun _ _ => NoRoom sb s.blk.disk (s.nodeAt sb dp) j) := by
  have hlen := Dirent.length_encode_of hname
  have hle : ¬ (s.nodeAt sb dp).size < j * bytes := by
    rw [Node.size_eq hdvd]
    exact Nat.not_lt_of_le (Nat.mul_le_mul_right _ hj)
  have hspec := writei_spec hg hr hv hsb hop (by rw [ht]; decide)
    (j * bytes) (show de.encode.length < 2 ^ 32 by rw [hlen]; decide)
  simp only [hlen, hle, false_or] at hspec
  refine hspec.mono ?_ fun _ _ hx => Or.inr hx.2.2
  intro r t hrt
  by_cases hbig : MAXFILE * BSIZE < j * bytes + bytes
  · rw [if_pos hbig] at hrt
    exact Or.inl ⟨hrt.1, Or.inl hbig⟩
  · rw [if_neg hbig] at hrt
    obtain ⟨rfl, hc, -⟩ := hrt
    refine Or.inr ⟨rfl, hc.good, hc.cache, ?_, hc.nodeAt, hc.others⟩
    rw [hc.frame.outstanding]
    exact hop

section Open

variable {dp : Entry} {s : State} (h : DirOpen sb dp s) {E : Stop → State → Prop}
include h

theorem DirOpen.view : DirView sb s dp (s.nodeAt sb dp).slots (s.nodeAt sb dp).dirent ∧
    (s.icache dp).din.size.toNat = (s.nodeAt sb dp).slots * bytes :=
  h.good.view h.ref h.valid h.type h.dvd

theorem DirOpen.sat_dirlookup (name : Str) {Q : Option (Entry × Nat) → State → Prop} :
    ((dirlookup sb dp name).run s).Sat Q E =
      Found s (s.nodeAt sb dp).dirent ((s.nodeAt sb dp).find name) Q E := by
  obtain ⟨hview, hsize⟩ := h.view
  exact hview.sat_dirlookup name fun _ => hsize

def NotSelf (sb : Superblock) (dp : Entry) (s : State) (name : Str) : Prop :=
  ∀ k, (s.nodeAt sb dp).find name = some k →
    ((s.nodeAt sb dp).dirent k).inum ≠ (s.icache dp).inum

theorem DirOpen.wrote {u : State} (ha : Alike dp s u) (hg : Good sb u)
    (hop : 1 ≤ u.blk.outstanding) {j : Nat} {de : Dirent} (hj : j ≤ (s.nodeAt sb dp).slots)
    (hname : de.name.length = DIRSIZ)
    (hnode : u.nodeAt sb dp = (s.nodeAt sb dp).write (j * bytes) de.encode) :
    DirOpen sb dp u := by
  have hlen := Dirent.length_encode_of hname
  refine h.alike ha hg hop ?_ ?_
  · rw [hnode]
    exact h.type
  · rw [hnode]
    exact (Node.slots_write h.dvd hj hlen).1

structure Untouched (sb : Superblock) (dp : Entry) (s t : State) : Prop where
  dir : DirOpen sb dp t
  inum : (t.icache dp).inum = (s.icache dp).inum
  others : ∀ i, i < sb.ninodes → i ≠ (s.icache dp).inum → t.node sb i = s.node sb i

theorem DirOpen.dirlink (hsb : sb.Wf) {name : Str} (inum : Nat) (hself : NotSelf sb dp s name) :
    ((dirlink sb dp name inum).run s).Sat (fun r t => Untouched sb dp s t ∧
        (r = false ∧ (∃ k, (s.nodeAt sb dp).find name = some k) ∧ t.blk = s.blk ∨
          r = true ∧ (s.nodeAt sb dp).find name = none ∧ t.nodeAt sb dp =
            (s.nodeAt sb dp).write ((s.nodeAt sb dp).hole * bytes)
              (newDirent name inum).encode)) (fun _ _ => (s.nodeAt sb dp).find name = none ∧
        NoRoom sb s.blk.disk (s.nodeAt sb dp) (s.nodeAt sb dp).hole) := by
  obtain ⟨hview, hsize⟩ := h.view
  rw [Fs.dirlink, sat_bind, h.sat_dirlookup]
  cases hf : (s.nodeAt sb dp).find name with
  | none =>
    obtain ⟨hhole, -⟩ := Node.hole_spec (s.nodeAt sb dp)
    simp only [Found, sat_bind, sat_inode, true_and]
    rw [hview.sat_empty hsize]
    refine (writeEntry_spec hsb h.good h.ref h.valid h.type h.dvd h.op (j := (s.nodeAt sb dp).hole)
      (newDirent name inum) hhole (length_strncpy ..)).mono ?_ fun _ _ hfull => hfull
    rintro r t (⟨rfl, hfull⟩ | ⟨rfl, hg, ⟨u, d, rfl⟩, hop, hnode, hoth⟩)
    · rw [if_neg (by simp), panic, sat_fail]
      exact hfull
    · have ha := alike_withDin s dp u d
      rw [if_pos rfl, sat_pure]
      exact ⟨⟨h.wrote ha hg hop hhole (length_strncpy ..) hnode, ha.inum, hoth⟩,
        Or.inr ⟨rfl, hnode⟩⟩
  | some k =>
    simp only [Found]
    refine (h.iget _).imp ?_
    intro e t hgot
    have hne : e ≠ dp := hgot.ne h.ref (hself k hf)
    rw [sat_bind]
    refine (hgot.put h hne (hgot.good h.good) fun _ _ => rfl).imp ?_
    rintro _ v ⟨hb, hg, hdp, hothers⟩
    have hblk : v.blk = s.blk := hb.trans hgot.blk
    have ha := Alike.put hgot hne (Alike.refl dp t) hdp hothers
    have hnode : ∀ i, v.node sb i = s.node sb i := fun i => by rw [State.node, hblk, State.node]
    have hdir : v.nodeAt sb dp = s.nodeAt sb dp := by
      rw [State.nodeAt, ha.inum, hnode, State.nodeAt]
    rw [sat_pure]
    refine ⟨⟨h.alike ha hg ?_ ?_ ?_, ha.inum, fun i _ _ => hnode i⟩, Or.inl ⟨rfl, ⟨k, rfl⟩, hblk⟩⟩
    · rw [hblk]
      exact h.op
    · rw [hdir]
      exact h.type
    · rw [hdir]
      exact h.dvd

theorem DirOpen.removeEntry (hsb : sb.Wf) {name : Str} (hself : NotSelf sb dp s name) :
    ((removeEntry sb dp name).run s).Sat (fun r t => Untouched sb dp s t ∧
        (r = false ∧ (s.nodeAt sb dp).find name = none ∧ t = s ∨
          r = true ∧ ∃ k, (s.nodeAt sb dp).find name = some k ∧ t.nodeAt sb dp =
            (s.nodeAt sb dp).write (k * bytes) noDirent.encode)) E := by
  rw [Fs.removeEntry, sat_bind, h.sat_dirlookup]
  cases hf : (s.nodeAt sb dp).find name with
  | none =>
    simp only [Found]
    rw [sat_pure]
    exact ⟨⟨h, rfl, fun _ _ _ => rfl⟩, Or.inl ⟨rfl, trivial, rfl⟩⟩
  | some k =>
    obtain ⟨hk, -, -⟩ := Node.find_some hf
    simp only [Found]
    refine (h.iget _).imp ?_
    intro e t hgot
    have hne : e ≠ dp := hgot.ne h.ref (hself k hf)
    have hdpt : t.icache dp = s.icache dp := hgot.of_ne hne.symm
    have hnt : t.nodeAt sb dp = s.nodeAt sb dp := by
      rw [State.nodeAt, hdpt, State.node, hgot.blk, State.nodeAt, State.node]
    have hmax : (s.nodeAt sb dp).size ≤ MAXFILE * BSIZE := by
      have hsz := h.good.size_le h.ref h.valid
      rw [h.view.2, ← Node.size_eq h.dvd] at hsz
      exact hsz
    have hroom : ¬ NoRoom sb t.blk.disk (t.nodeAt sb dp) k := by
      rw [hnt]
      exact not_noRoom h.dvd hmax hk
    rw [sat_bind]
    refine (writeEntry_spec hsb (hgot.good h.good) (by rw [hdpt]; exact h.ref)
      (by rw [hdpt]; exact h.valid) (by rw [hnt]; exact h.type) (by rw [hnt]; exact h.dvd)
      (by rw [hgot.blk]; exact h.op) (j := k) noDirent (by rw [hnt]; omega)
      (by decide)).mono ?_ fun _ _ hfull => absurd hfull hroom
    rintro r u (⟨-, hfull⟩ | ⟨rfl, hg, ⟨b, d, hcache⟩, hop, hnode, hoth⟩)
    · exact absurd hfull hroom
    rw [if_neg (by simp), sat_bind]
    have hau : Alike dp t u := by
      rw [hcache]
      exact alike_withDin t dp b d
    have hu : ∀ e' ≠ dp, u.icache e' = t.icache e' := by
      intro e' he'
      rw [hcache, withDin_eq_set, set_icache_of_ne _ _ _ _ he']
    refine (hgot.put h hne hg hu).imp ?_
    rintro _ v ⟨hb, hgv, hdp, hothers⟩
    have ha := Alike.put hgot hne hau hdp hothers
    have hnv : ∀ i, v.node sb i = u.node sb i := fun i => by rw [State.node, hb, State.node]
    have hdir : v.nodeAt sb dp = (s.nodeAt sb dp).write (k * bytes) noDirent.encode := by
      rw [State.nodeAt, hdp, hnv, ← State.nodeAt, hnode, hnt]
    rw [sat_pure]
    refine ⟨⟨h.wrote ha hgv (by rw [hb]; exact hop) (Nat.le_of_lt hk) (by decide) hdir, ha.inum, ?_⟩,
      Or.inr ⟨rfl, k, rfl, hdir⟩⟩
    intro i hi hne'
    rw [hnv, hoth i hi (by rw [hdpt]; exact hne'), State.node, hgot.blk, State.node]

end Open

end BossOs.Fs
