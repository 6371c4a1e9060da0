import BossOs.Fs.Tables
import BossOs.Fs.Transaction
import BossOs.Fs.Unlink

/-!
# The state between system calls

`Ok` is what holds whenever no call is running. `Turns` compares the inodes before a call with
those after it, through the table that the call makes, and says what its transactions logged.
-/

namespace BossOs.Fs

open Function (update update_apply)

open Lib

variable {sb : Superblock}

/-- The inode cache serves the references of files and current directories; nothing is locked
and no transaction is open. -/
structure FsOk (sb : Superblock) (s : Sys) : Prop where
  cached : Cached sb s.refs [] s.fs
  alive : ∀ e ∈ s.refs, (s.fs.nodeAt sb e).type ≠ 0
  loaded : ∀ e ∈ s.refs, (s.fs.icache e).valid = true ∨ (s.fs.icache e).inum = ROOTINO
  outstanding : s.fs.blk.outstanding = 0
  logged : s.fs.blk.logged = []
  nested : s.fs.blk.nested = false
  writable : ∀ f ip, (s.ftable f).type = .inode ip → (s.ftable f).writable = true →
    (s.fs.nodeAt sb ip).type ≠ T_DIR
  offsets : ∀ f ip, (s.ftable f).type = .inode ip → (s.fs.nodeAt sb ip).type ≠ T_DEV →
    (s.ftable f).off.toNat ≤ (s.fs.nodeAt sb ip).size

structure Ok (sb : Superblock) (s : Sys) : Prop extends FsOk sb s where
  tables : Tables s.fds s
  opened : ∀ f ∈ s.fds, (s.ftable f).type ≠ .none
  unused : ∀ p, (s.procs p).cwd = none → ∀ fd, (s.procs p).ofile fd = none

/-- Inode `j` has no link, and nothing of the references `R` holds it. The root directory may be
held by an entry that was never loaded. -/
def Slack (sb : Superblock) (R : Multiset Entry) (s : State) (j : Nat) : Prop :=
  Loose sb R s j ∨ j = ROOTINO ∧ (s.node sb j).nlink = 0

def Fits (sb : Superblock) (L : Nat → Prop) (sec : List Nat) : Prop :=
  (∃ I D : List Nat, I.length ≤ 3 ∧ D.length ≤ 6 ∧
    ∀ b ∈ sec, (∃ j, L j ∧ b = sb.iblock j) ∨ callFoot sb I D b) ∨
  ∃ F : List Nat, F.length ≤ MAXOPBLOCKS ∧ ∀ b ∈ sec, b ∈ F

/-- Between `s` and `t` there are transactions, each of which logs what `G` allows, and `log_write`
has asked for no more than one block beside those of a transaction. -/
def Sections (G : List Nat → Prop) (s t : Blk) : Prop :=
  ∃ secs, t.sections = s.sections ++ secs ∧ (∀ sec ∈ secs, G sec) ∧
    ∀ n, s.asked ≤ n → (∀ sec ∈ secs, sec.toFinset.card < n) → t.asked ≤ n

namespace Sections

variable {G G' : List Nat → Prop} {s t u : Blk}

theorem refl (G : List Nat → Prop) (s : Blk) : Sections G s s :=
  ⟨[], (List.append_nil _).symm, fun _ h => absurd h List.not_mem_nil, fun _ h _ => h⟩

theorem mono (h : Sections G s t) (hG : ∀ sec, G sec → G' sec) : Sections G' s t := by
  obtain ⟨secs, hsecs, hfit, hasked⟩ := h
  exact ⟨secs, hsecs, fun sec hsec => hG sec (hfit sec hsec), hasked⟩

theorem trans (h : Sections G s t) (h' : Sections G t u) : Sections G s u := by
  obtain ⟨secs, hsecs, hfit, hasked⟩ := h
  obtain ⟨secs', hsecs', hfit', hasked'⟩ := h'
  refine ⟨secs ++ secs', by rw [hsecs', hsecs, List.append_assoc], ?_, ?_⟩
  · intro sec hsec
    exact (List.mem_append.mp hsec).elim (hfit sec) (hfit' sec)
  · intro n hn hall
    refine hasked' n (hasked n hn fun sec hsec => ?_) fun sec hsec => ?_
    · exact hall sec (List.mem_append_left secs' hsec)
    · exact hall sec (List.mem_append_right secs hsec)

theorem one {L : Nat → Prop} (hnil : s.logged = []) (hf : Frame L s.begin u) (hG : G u.logged) :
    Sections G s u.finish := by
  refine ⟨[u.logged], ?_, fun sec hsec => List.mem_singleton.mp hsec ▸ hG, fun n hn hall => ?_⟩
  · change u.sections ++ [u.logged] = _
    rw [hf.sections]
    rfl
  · have hasked : u.asked ≤ max s.asked (u.logged.length + 1) := hf.log.asked_le
    have hnodup : u.logged.Nodup := hf.log.nodup (by
      change s.logged.Nodup
      rw [hnil]
      exact List.nodup_nil)
    have hlt := hall u.logged (List.mem_singleton_self _)
    rw [List.toFinset_card_of_nodup hnodup] at hlt
    change u.asked ≤ n
    omega

end Sections

/-- From `s` with the references `R` to `t` with the references `R'`, by way of the table `M`. -/
structure Turns (sb : Superblock) (R : Multiset Entry) (s : State) (M : Nat → Node)
    (R' : Multiset Entry) (t : State) : Prop where
  node : ∀ j, j < sb.ninodes → t.node sb j = M j ∨
    ((M j).type ≠ 0 ∧ (M j).nlink = 0 ∧ ∀ e ∈ R', (t.icache e).inum ≠ j) ∧ t.node sb j = Node.free
  inum : ∀ e ∈ R', e ∈ R → (t.icache e).inum = (s.icache e).inum
  freed : ∀ j, Loose sb R' t j → s.node sb j = M j → Slack sb R s j
  sections : Sections (Fits sb (Slack sb R s)) s.blk t.blk

inductive Act (sb : Superblock) (R : Multiset Entry) (P : Nat → Prop) (s t : State) :
    (Nat → Node) → Prop
  | look : Act sb R P s t (s.node sb)
  | link {name : Str} {i d : Nat} {M : Nat → Node} (h : LinkDone sb P (s.node sb) name i d M) :
    Act sb R P s t M
  | unlink {name : Str} {i d k : Nat} {M : Nat → Node}
    (h : UnlinkDone sb P (s.node sb) name i d k M)
    (hfree : (M i).nlink = 0 → (∀ e ∈ R, (s.icache e).inum ≠ i) → t.node sb i = Node.free) :
    Act sb R P s t M
  | create {type major minor : Int16} {name : Str} {i d : Nat} {M : Nat → Node} (ht : type ≠ 0)
    (h : CreateDone sb R P s type major minor name i d M) : Act sb R P s t M
  | write {i : Nat} {nd : Node} (hi : (s.node sb i).type ≠ T_DIR) (ht : nd.type = (s.node sb i).type)
    (hl : nd.nlink = (s.node sb i).nlink) (hsize : (s.node sb i).size ≤ nd.size) :
    Act sb R P s t (update (s.node sb) i nd)

def State.begun (s : State) : State := { s with blk := s.blk.begin }

def State.ended (s : State) : State := { s with blk := s.blk.finish }

section Rules

variable {s : Sys} {E : Stop → Sys → Prop}

theorem sat_blk {α : Type} (m : BlkM α) {Q : α → Sys → Prop} : ((liftM m : SysM α).run s).Sat Q E =
      (m.run s.fs.blk).Sat (fun a b => Q a (s.withFs { s.fs with blk := b }))
        (fun x b => E x (s.withFs { s.fs with blk := b })) := by
  change ((Prog.zoom Sys.fs (fun t s => { s with fs := t })
    (Prog.zoom State.blk (fun b s => { s with blk := b }) m)).run s).Sat Q E = _
  rw [Prog.sat_zoom, Prog.sat_zoom]
  rfl

theorem sat_begin {Q : Unit → Sys → Prop} :
    ((liftM beginOp : SysM Unit).run s).Sat Q E = Q () (s.withFs s.fs.begun) := by
  rw [sat_blk, sat_beginOp]
  rfl

theorem sat_end {Q : Unit → Sys → Prop} (hheld : s.fs.blk.held = [])
    (hop : s.fs.blk.outstanding = 1) :
    ((liftM endOp : SysM Unit).run s).Sat Q E = Q () (s.withFs s.fs.ended) := by
  rw [sat_blk, sat_endOp hheld hop]
  rfl

end Rules

section Begun

variable {R : Multiset Entry} {P : Nat → Prop} {s : State}

theorem loose_begun {j : Nat} : Loose sb R s.begun j ↔ Loose sb R s j :=
  ⟨fun h => ⟨h.inum, h.type, h.nlink, h.unref⟩, fun h => ⟨h.inum, h.type, h.nlink, h.unref⟩⟩

theorem NameStop.begun {x : Stop} (h : NameStop sb R P s.begun x) : NameStop sb R P s x :=
  h.imp_right fun ⟨hx, i, hi, hp, hcase⟩ => ⟨hx, i, hi, hp, hcase.imp_right loose_begun.mp⟩

theorem CallStop.begun {x : Stop} (h : CallStop sb R P s.begun x) : CallStop sb R P s x := by
  cases h with
  | name h => exact .name h.begun
  | outOfBlocks => exact .outOfBlocks
  | noInodes => exact .noInodes
  | dirlink => exact .dirlink

theorem UnlinkStop.begun {name : Str} {x : Stop} (h : UnlinkStop sb R P s.begun name x) :
    UnlinkStop sb R P s name x := by
  cases h with
  | call h => exact .call h.begun
  | deadlock hd hp ht hdots hk hi => exact .deadlock hd hp ht hdots hk hi
  | nlink hd hp ht hdots hk hi => exact .nlink hd hp ht hdots hk hi

theorem CreateDone.begun {type major minor : Int16} {name : Str} {i d : Nat} {M : Nat → Node}
    (h : CreateDone sb R P s.begun type major minor name i d M) :
    CreateDone sb R P s type major minor name i d M :=
  ⟨⟨h.vacant.lt, h.vacant.pos, h.vacant.free.imp_right loose_begun.mp, h.vacant.unref⟩, h.dir_lt,
    h.dir, h.dir_prop, h.absent, h.ne, h.table⟩

end Begun

/-- Inode `j` keeps its type, does not shrink, and keeps its contents if it is no directory. -/
structure Kept (N M : Nat → Node) (j : Nat) : Prop where
  type : (M j).type = (N j).type
  size : (N j).size ≤ (M j).size
  contents : (N j).type ≠ T_DIR → (M j).size = (N j).size ∧ (M j).byte = (N j).byte

theorem Node.size_le_write (nd : Node) (off : Nat) (src : List UInt8) :
    nd.size ≤ (nd.write off src).size := Nat.le_max_left ..

namespace Kept

variable {N M : Nat → Node} {j : Nat}

theorem refl (N : Nat → Node) (j : Nat) : Kept N N j := ⟨rfl, Nat.le_refl _, fun _ => ⟨rfl, rfl⟩⟩

theorem store_of_ne (h : Kept N M j) {i : Nat} (hij : j ≠ i) (nd : Node) :
    Kept N (update M i nd) j := by
  have heq : update M i nd j = M j := Function.update_of_ne hij ..
  exact ⟨heq ▸ h.type, heq ▸ h.size, heq ▸ h.contents⟩

theorem store (h : Kept N M j) {i : Nat} {nd : Node} (ht : nd.type = (N i).type)
    (hs : (N i).size ≤ nd.size)
    (hc : (N i).type ≠ T_DIR → nd.size = (N i).size ∧ nd.byte = (N i).byte) :
    Kept N (update M i nd) j := by
  by_cases hij : j = i
  · subst hij
    have heq : update M j nd j = nd := Function.update_self ..
    exact ⟨heq.symm ▸ ht, heq.symm ▸ hs, heq.symm ▸ hc⟩
  · exact h.store_of_ne hij nd

theorem relink (h : Kept N M j) (i : Nat) (n : Int16) : Kept N (update M i ((N i).relink n)) j :=
  h.store rfl (Nat.le_refl _) fun _ => ⟨rfl, rfl⟩

theorem write (h : Kept N M j) {d : Nat} (hd : (N d).type = T_DIR) (off : Nat) (src : List UInt8) :
    Kept N (update M d ((N d).write off src)) j :=
  h.store rfl (Node.size_le_write ..) fun hne => absurd hd hne

end Kept

section Kept

variable {P : Nat → Prop} {N M : Nat → Node} {name : Str} {i d k : Nat}

theorem LinkDone.kept (h : LinkDone sb P N name i d M) (j : Nat) : Kept N M j := by
  rw [h.table]
  exact ((Kept.refl N j).relink i _).write h.dir _ _

theorem UnlinkDone.kept (h : UnlinkDone sb P N name i d k M) (j : Nat) : Kept N M j := by
  rw [h.table]
  refine ((Kept.refl N j).store (i := d) ?_ ?_ fun hne => absurd h.dir hne).relink i _
  · unfold Node.removed
    split
    · rfl
    · rfl
  · unfold Node.removed
    split
    · apply Node.size_le_write
    · apply Node.size_le_write

theorem CreateDone.kept {R : Multiset Entry} {s : State} {type major minor : Int16}
    (h : CreateDone sb R P s type major minor name i d M) {j : Nat} (hj : ¬ Vacant sb R s j) :
    Kept (s.node sb) M j := by
  have hji : j ≠ i := fun heq => hj (heq ▸ h.vacant)
  rw [h.table]
  unfold created
  split
  · refine ((Kept.refl _ j).store_of_ne hji _).store (i := d) rfl ?_ fun hne => absurd h.dir hne
    apply Node.size_le_write
  · exact ((Kept.refl _ j).store_of_ne hji _).write h.dir _ _

end Kept

theorem Act.held {R : Multiset Entry} {P : Nat → Prop} {s t : State} {M : Nat → Node}
    (h : Act sb R P s t M) {j : Nat} (hj : ¬ Vacant sb R s j) :
    (M j).type = (s.node sb j).type ∧ (s.node sb j).size ≤ (M j).size := by
  cases h with
  | look => exact ⟨rfl, Nat.le_refl _⟩
  | link h => exact ⟨(h.kept j).type, (h.kept j).size⟩
  | unlink h _ => exact ⟨(h.kept j).type, (h.kept j).size⟩
  | create _ h => exact ⟨(h.kept hj).type, (h.kept hj).size⟩
  | write _ ht _ hsize =>
    rw [update_apply]
    split
    · subst j
      exact ⟨ht, hsize⟩
    · exact ⟨rfl, Nat.le_refl _⟩

variable {R₀ : Multiset Entry}

theorem Settles.fits {R : Multiset Entry} {s u : State} {M : Nat → Node} {I D : List Nat}
    (hs : Settles sb R₀ s.begun M I D u) (hlog : s.blk.logged = []) (hI : I.length ≤ 3)
    (hD : D.length ≤ 6) (hfoot : ∀ j, Loose sb R₀ s.begun j → Slack sb R s j ∨ j ∈ I) :
    Fits sb (Slack sb R s) u.blk.logged := by
  refine Or.inl ⟨I, D, hI, hD, fun b hb => ?_⟩
  rcases hs.frame.logged b hb with hold | ⟨j, hj, hb⟩ | hc
  · have hnil : s.begun.blk.logged = [] := hlog
    rw [hnil] at hold
    exact absurd hold List.not_mem_nil
  · rcases hfoot j hj with hslack | hmem
    · exact Or.inl ⟨j, hslack, hb⟩
    · exact Or.inr (Or.inl ⟨j, hmem, hb⟩)
  · exact Or.inr hc

variable {R' : Multiset Entry}

theorem Turns.of_settles {R : Multiset Entry} {s u : State} {M : Nat → Node} {I D : List Nat}
    (hs : Settles sb R₀ s.begun M I D u) (hlog : s.blk.logged = [])
    (hfit : Fits sb (Slack sb R s) u.blk.logged)
    (halive : ∀ e ∈ R', (u.nodeAt sb e).type ≠ 0)
    (hinum : ∀ e ∈ R', e ∈ R → (u.icache e).inum = (s.icache e).inum)
    (hfreed : ∀ j, Loose sb R' u j → s.node sb j = M j → Slack sb R s j) :
    Turns sb R s M R' u.ended := by
  refine ⟨?_, hinum, ?_, .one hlog hs.frame hfit⟩
  · intro j hj
    rcases hs.node j hj with heq | ⟨⟨ht, h0, -⟩, hfree⟩
    · exact Or.inl heq
    · refine Or.inr ⟨⟨ht, h0, ?_⟩, hfree⟩
      rintro e he rfl
      exact halive e he (congrArg Node.type hfree)
  · intro j hl
    exact hfreed j ⟨hl.inum, hl.type, hl.nlink, hl.unref⟩

theorem Turns.of_put {R : Multiset Entry} {s t u : State} {e : Entry} (hR : R = e ::ₘ R₀)
    (hR' : R₀ ⊆ R') (h : Cached sb R [] s.begun) (hlog : s.blk.logged = [])
    (hq : Quiet sb R s.begun t) (hp : Put sb R' [] e t u)
    (halive : ∀ e' ∈ R', (u.nodeAt sb e').type ≠ 0)
    (hload : (s.icache e).valid = true ∨ (s.icache e).inum = ROOTINO) :
    Turns sb R s (s.node sb) R' u.ended := by
  subst hR
  have hmem : e ∈ e ::ₘ R₀ := Multiset.mem_cons_self e R₀
  have hsub : R₀ ⊆ e ::ₘ R₀ := fun _ => Multiset.mem_cons_of_mem
  have hq' : Quiet sb R₀ s.begun u := (hq.mono hsub).trans (hp.quiet.mono hR')
  have hinum : ∀ e' ∈ R', e' ∈ e ::ₘ R₀ → (u.icache e').inum = (s.icache e').inum :=
    fun e' he' he => (hp.quiet.inum e' he').trans (hq.inum e' he)
  have hs : Settles sb R₀ s.begun (s.node sb) [(s.icache e).inum] [] u :=
    hq'.settles.mono (List.nil_subset _)
  refine Turns.of_settles hs hlog (hs.fits hlog (Nat.le_add_left 1 2) (Nat.zero_le 6) ?_) halive hinum ?_
  · intro j hl
    by_cases hj : j = (s.icache e).inum
    · exact Or.inr (List.mem_singleton.mpr hj)
    · refine Or.inl (Or.inl ⟨hl.inum, hl.type, hl.nlink, fun e' he' heq => ?_⟩)
      rcases Multiset.mem_cons.mp he' with rfl | hm
      · exact hj heq.symm
      · exact hl.unref e' hm heq
  · intro j hl _
    have hn : u.node sb j = s.node sb j := hs.node_of_type hl.inum hl.type
    by_cases hj : ∃ e' ∈ e ::ₘ R₀, (s.icache e').inum = j
    · -- the reference that was the last one
      obtain ⟨e', he', rfl⟩ := hj
      have hnot : e' ∉ R' := fun hm => hl.unref e' hm (hinum e' hm he')
      obtain rfl : e' = e := by
        rcases Multiset.mem_cons.mp he' with heq | hm
        · exact heq
        · exact absurd (hR' hm) hnot
      rcases hload with hv | hroot
      · have hnode : t.nodeAt sb e' = s.nodeAt sb e' := hq.nodeAt hmem (h.inum_lt hmem)
        have hfree := hp.freed (hq.valid e' hmem hv) hnot (by
          rw [hnode, State.nodeAt, ← hn]
          exact hl.nlink)
        have hi : (t.icache e').inum = (s.icache e').inum := hq.inum e' hmem
        rw [hi] at hfree
        exact absurd (congrArg Node.type hfree) hl.type
      · exact Or.inr ⟨hroot, hn ▸ hl.nlink⟩
    · exact Or.inl ⟨hl.inum, hn ▸ hl.type, hn ▸ hl.nlink, fun e' he' heq => hj ⟨e', he', heq⟩⟩

theorem not_vacant {R : Multiset Entry} {s : State} {e : Entry} (he : e ∈ R) :
    ¬ Vacant sb R s (s.icache e).inum := fun h => h.unref e he rfl

structure Done (sb : Superblock) (P : Nat → Prop) (s : Sys) (M : Nat → Node) (t : Sys) : Prop where
  ok : Ok sb t
  turns : Turns sb s.refs s.fs M t.refs t.fs
  act : Act sb s.refs P s.fs t.fs M

namespace FsOk

variable {s : Sys} (h : FsOk sb s)
include h

theorem begun : Cached sb s.refs [] s.fs.begun := h.cached.congr rfl rfl rfl

theorem op : s.fs.begun.blk.outstanding = 1 := by
  change s.fs.blk.outstanding + 1 = 1
  rw [h.outstanding]

theorem not_nested : s.fs.begun.blk.nested = false := by
  change (s.fs.blk.nested || decide (s.fs.blk.outstanding ≠ 0)) = false
  rw [h.nested, h.outstanding]
  rfl

end FsOk

/-- A file of `t` is one of `s`, or it agrees with the inode of `u` that it is for. -/
def Carried (sb : Superblock) (s t : Sys) (u : State) (f : Fin NFILE) (ip : Entry) : Prop :=
  t.ftable f = s.ftable f ∨
    ((t.ftable f).writable = true → (u.nodeAt sb ip).type ≠ T_DIR) ∧
      ((u.nodeAt sb ip).type ≠ T_DEV → (t.ftable f).off.toNat ≤ (u.nodeAt sb ip).size)

theorem FsOk.carry {s t : Sys} {u : State} (h : FsOk sb s) (hfs : t.fs = u)
    (hc : Cached sb t.refs [] u)
    (hidle : u.blk.outstanding = 0 ∧ u.blk.logged = [] ∧ u.blk.nested = false)
    (hold : ∀ e ∈ t.refs, e ∈ s.refs → (u.nodeAt sb e).type = (s.fs.nodeAt sb e).type ∧
      (s.fs.nodeAt sb e).size ≤ (u.nodeAt sb e).size ∧
      ((s.fs.icache e).valid = true → (u.icache e).valid = true) ∧
      (u.icache e).inum = (s.fs.icache e).inum)
    (hnew : ∀ e ∈ t.refs, e ∈ s.refs ∨ (u.nodeAt sb e).type ≠ 0 ∧ (u.icache e).valid = true)
    (hfiles : ∀ f ip, (t.ftable f).type = .inode ip → Carried sb s t u f ip) : FsOk sb t := by
  subst hfs
  refine ⟨hc, ?_, ?_, hidle.1, hidle.2.1, hidle.2.2, ?_, ?_⟩
  · intro e he
    rcases hnew e he with hs | ⟨ht, -⟩
    · rw [(hold e he hs).1]
      exact h.alive e hs
    · exact ht
  · intro e he
    rcases hnew e he with hs | ⟨-, hv⟩
    · obtain ⟨-, -, hvalid, hinum⟩ := hold e he hs
      exact (h.loaded e hs).imp hvalid hinum.trans
    · exact Or.inl hv
  · intro f ip hf hw
    have hip := mem_refs_of_file hf
    rcases hfiles f ip hf with heq | hnew
    · rw [heq] at hf hw
      rw [(hold ip hip (mem_refs_of_file hf)).1]
      exact h.writable f ip hf hw
    · exact hnew.1 hw
  · intro f ip hf hdev
    have hip := mem_refs_of_file hf
    rcases hfiles f ip hf with heq | hnew
    · rw [heq] at hf ⊢
      obtain ⟨htype, hsize, -⟩ := hold ip hip (mem_refs_of_file hf)
      rw [htype] at hdev
      exact (h.offsets f ip hf hdev).trans hsize
    · exact hnew.2 hdev

theorem FsOk.of_put {s t : Sys} (h : FsOk sb s) {e : Entry} {u v : State}
    (hR : s.refs = e ::ₘ R₀) (hR₀ : R₀ ⊆ t.refs) (hfs : t.fs = v.ended)
    (hc : Cached sb (e ::ₘ t.refs) [] u) (hq : Quiet sb s.refs s.fs.begun u)
    (hp : Put sb t.refs [] e u v)
    (hnew : ∀ e' ∈ t.refs, e' ∈ s.refs ∨ (u.nodeAt sb e').type ≠ 0 ∧ (u.icache e').valid = true)
    (hfiles : ∀ f ip, (t.ftable f).type = .inode ip → t.ftable f = s.ftable f) :
    FsOk sb t ∧ Turns sb s.refs s.fs (s.fs.node sb) t.refs t.fs := by
  have hnode : ∀ e' ∈ t.refs, v.nodeAt sb e' = u.nodeAt sb e' := fun e' he' =>
    hp.quiet.nodeAt he' (hc.inum_lt (Multiset.mem_cons_of_mem he'))
  have hsame : ∀ e' ∈ t.refs, e' ∈ s.refs → v.nodeAt sb e' = s.fs.nodeAt sb e' := fun e' he' hs =>
    (hnode e' he').trans (hq.nodeAt hs (h.begun.inum_lt hs))
  have hmem : e ∈ s.refs := by
    rw [hR]
    exact Multiset.mem_cons_self e R₀
  have hok : FsOk sb t := by
    refine h.carry hfs (hp.cached.congr rfl rfl rfl)
      ⟨rfl, rfl, hp.quiet.frame.nested.trans (hq.frame.nested.trans h.not_nested)⟩ ?_ ?_
      fun f ip hf => Or.inl (hfiles f ip hf)
    · intro e' he' hs
      have heq : v.ended.nodeAt sb e' = s.fs.nodeAt sb e' := hsame e' he' hs
      rw [heq]
      exact ⟨rfl, Nat.le_refl _, fun hv => hp.quiet.valid e' he' (hq.valid e' hs hv),
        (hp.quiet.inum e' he').trans (hq.inum e' hs)⟩
    · intro e' he'
      have heq : v.ended.nodeAt sb e' = u.nodeAt sb e' := hnode e' he'
      rw [heq]
      exact (hnew e' he').imp_right fun ⟨ht, hv⟩ => ⟨ht, hp.quiet.valid e' he' hv⟩
  refine ⟨hok, ?_⟩
  have halive := hok.alive
  rw [hfs] at halive ⊢
  exact Turns.of_put hR hR₀ h.begun h.logged hq hp halive (h.loaded e hmem)

theorem Slack.of_turns {R : Multiset Entry} {s t : State} (hsb : sb.Wf)
    (h : Turns sb R s (s.node sb) R' t) {j : Nat} (hj : Slack sb R' t j) : Slack sb R s j := by
  rcases hj with hl | ⟨rfl, h0⟩
  · exact h.freed j hl rfl
  · refine Or.inr ⟨rfl, ?_⟩
    rcases h.node ROOTINO hsb.root with heq | ⟨⟨-, h0', -⟩, -⟩
    · rwa [heq] at h0
    · exact h0'

theorem Turns.refl (R : Multiset Entry) (s : State) : Turns sb R s (s.node sb) R s :=
  ⟨fun _ _ => Or.inl rfl, fun _ _ _ => rfl, fun _ hl _ => Or.inl hl, .refl ..⟩

theorem Turns.trans {R R'' : Multiset Entry} {s t u : State} (hsb : sb.Wf)
    (h : Turns sb R s (s.node sb) R' t) (h' : Turns sb R' t (t.node sb) R'' u) (hsub : R'' ⊆ R') :
    Turns sb R s (s.node sb) R'' u := by
  have hi : ∀ e ∈ R'', (u.icache e).inum = (t.icache e).inum := fun e he => h'.inum e he (hsub he)
  refine ⟨?_, ?_, ?_, h.sections.trans (h'.sections.mono ?_)⟩
  · intro j hj
    rcases h.node j hj with heq | ⟨⟨ht, h0, hun⟩, hfree⟩
    · rw [← heq]
      exact h'.node j hj
    · -- it was free already
      refine Or.inr ⟨⟨ht, h0, fun e he => ?_⟩, ?_⟩
      · rw [hi e he]
        exact hun e (hsub he)
      · rcases h'.node j hj with heq' | ⟨⟨ht', -, -⟩, -⟩
        · exact heq'.trans hfree
        · rw [hfree] at ht'
          exact absurd rfl ht'
  · intro e he hR
    rw [hi e he]
    exact h.inum e (hsub he) hR
  · intro j hl _
    exact (h'.freed j hl rfl).of_turns hsb h
  · rintro sec (⟨I, D, hI, hD, hb⟩ | hF)
    · refine Or.inl ⟨I, D, hI, hD, fun b hbm => ?_⟩
      exact (hb b hbm).imp_left fun ⟨j, hj, hbj⟩ => ⟨j, hj.of_turns hsb h, hbj⟩
    · exact Or.inr hF

section Settle

variable {s t : Sys} {u : State} {P : Nat → Prop} {M : Nat → Node} {I D : List Nat}

theorem FsOk.settle (h : FsOk sb s) (hc : Cached sb t.refs [] u)
    (hs : Settles sb s.refs s.fs.begun M I D u) (ha : Act sb s.refs P s.fs u.ended M)
    (hfit : Fits sb (Slack sb s.refs s.fs) u.blk.logged) (hfs : t.fs = u.ended)
    (hsub : s.refs ⊆ t.refs)
    (hnew : ∀ e ∈ t.refs, e ∈ s.refs ∨ (u.nodeAt sb e).type ≠ 0 ∧ (u.icache e).valid = true)
    (hfiles : ∀ f ip, (t.ftable f).type = .inode ip → Carried sb s t u f ip) :
    FsOk sb t ∧ Turns sb s.refs s.fs M t.refs t.fs := by
  have hheld : ∀ e ∈ s.refs, u.nodeAt sb e = M (s.fs.icache e).inum := fun e he =>
    hs.nodeAt he (h.begun.inum_lt he)
  have htype : ∀ e ∈ s.refs, (u.nodeAt sb e).type = (s.fs.nodeAt sb e).type := by
    intro e he
    rw [hheld e he]
    exact (ha.held (not_vacant he)).1
  have hsize : ∀ e ∈ s.refs, (s.fs.nodeAt sb e).size ≤ (u.nodeAt sb e).size := by
    intro e he
    rw [hheld e he]
    exact (ha.held (not_vacant he)).2
  have hok : FsOk sb t := h.carry hfs (hc.congr rfl rfl rfl)
    ⟨rfl, rfl, hs.frame.nested.trans h.not_nested⟩
    (fun e _ he => ⟨htype e he, hsize e he, hs.valid e he, hs.inum e he⟩) hnew hfiles
  refine ⟨hok, ?_⟩
  have halive := hok.alive
  rw [hfs] at halive ⊢
  refine Turns.of_settles hs h.logged hfit halive (fun e _ he => hs.inum e he) ?_
  intro j hl heq
  have hn := hs.node_of_type hl.inum hl.type
  rw [← heq] at hn
  refine Or.inl ⟨hl.inum, hn ▸ hl.type, hn ▸ hl.nlink, ?_⟩
  intro e he heq'
  exact hl.unref e (hsub he) ((hs.inum e he).trans heq')

theorem FsOk.fits (h : FsOk sb s) (hs : Settles sb s.refs s.fs.begun M I D u) (hI : I.length ≤ 3)
    (hD : D.length ≤ 6) : Fits sb (Slack sb s.refs s.fs) u.blk.logged :=
  hs.fits h.logged hI hD fun _ hj => Or.inl (Or.inl (loose_begun.mp hj))

theorem Ok.settle (h : Ok sb s) (hc : Cached sb s.refs [] u)
    (hs : Settles sb s.refs s.fs.begun M I D u) (ha : Act sb s.refs P s.fs u.ended M)
    (hI : I.length ≤ 3) (hD : D.length ≤ 6) : Done sb P s M (s.withFs u.ended) := by
  obtain ⟨hfs, hturns⟩ := h.toFsOk.settle (t := s.withFs u.ended) hc hs ha (h.fits hs hI hD) rfl
    (fun _ he => he) (fun e he => Or.inl he) fun f _ _ => Or.inl rfl
  exact ⟨⟨hfs, h.tables.congr rfl, h.opened, h.unused⟩, hturns, ha⟩

end Settle

theorem FsOk.look {s t : Sys} (h : FsOk sb s) (hc : Cached sb t.refs [] t.fs)
    (hq : Quiet sb s.refs s.fs t.fs) (hb : t.fs.blk = s.fs.blk) (hmem : ∀ e, e ∈ t.refs ↔ e ∈ s.refs)
    (hfiles : ∀ f ip, (t.ftable f).type = .inode ip → Carried sb s t s.fs f ip) :
    FsOk sb t ∧ Turns sb s.refs s.fs (s.fs.node sb) t.refs t.fs := by
  have hnode : ∀ e ∈ s.refs, t.fs.nodeAt sb e = s.fs.nodeAt sb e := fun e he =>
    hq.nodeAt he (h.cached.inum_lt he)
  have hok : FsOk sb t := by
    refine h.carry rfl hc ?_ ?_ (fun e he => Or.inl ((hmem e).mp he)) ?_
    · rw [hb]
      exact ⟨h.outstanding, h.logged, h.nested⟩
    · intro e _ he
      rw [hnode e he]
      exact ⟨rfl, Nat.le_refl _, hq.valid e he, hq.inum e he⟩
    · intro f ip hf
      rw [Carried, hnode ip ((hmem ip).mp (mem_refs_of_file hf))]
      exact hfiles f ip hf
  refine ⟨hok, ?_, ?_, ?_, by rw [hb]; exact .refl ..⟩
  · intro j _
    rw [State.node, hb]
    exact Or.inl rfl
  · intro e _ he
    exact hq.inum e he
  · intro j hl _
    have hn : t.fs.node sb j = s.fs.node sb j := by
      rw [State.node, hb]
      rfl
    refine Or.inl ⟨hl.inum, hn ▸ hl.type, hn ▸ hl.nlink, fun e he heq => ?_⟩
    exact hl.unref e ((hmem e).mpr he) ((hq.inum e he).trans heq)

end BossOs.Fs
