import BossOs.Fs.Iput

/-!
# Reading and writing a locked inode

`readi` and `writei` as their callers see them, for files, directories and the console.
The console gives up the lock while it waits and takes it again.
-/

namespace BossOs.Fs

open Lib

variable {sb : Superblock} {R : Multiset Entry} {L : List Entry} {s : State} {e : Entry}
  {E : Stop → State → Prop}

structure Same (sb : Superblock) (R : Multiset Entry) (L : List Entry) (s t : State) : Prop where
  cached : Cached sb R L t
  quiet : Quiet sb R s t
  blk : t.blk = s.blk

theorem Same.refl (h : Cached sb R L s) : Same sb R L s s := ⟨h, Quiet.refl .., rfl⟩

theorem relock_spec (h : Cached sb R (e :: L) s) (hl : e ∉ L) (f : State → State)
    (hf : ∀ t, (f t).blk = t.blk ∧ (f t).icache = t.icache) : ((iunlock e).run s).Sat
      (fun _ t => ((ilock sb e).run (f t)).Sat (fun _ u => Same sb R (e :: L) s u) E) E := by
  have he := h.mem_of_locked List.mem_cons_self
  have hne := h.type_ne List.mem_cons_self
  refine (iunlock_spec h hl).imp ?_
  rintro _ t ⟨hc, hq, hb, hip⟩
  obtain ⟨hfb, hfi⟩ := hf t
  have hnodes : ∀ j, (f t).node sb j = s.node sb j := fun j => by
    rw [State.node, hfb, hb, State.node]
  have hc' : Cached sb R L (f t) := hc.congr (by rw [hfb]) (by rw [hfb]) hfi
  have hq' : Quiet sb R s (f t) := by
    refine ⟨fun j _ => Or.inl (hnodes j), ?_, ?_, fun _ _ _ => by rw [hfb, hb], ?_⟩
    · rw [hfi]
      exact hq.inum
    · rw [hfi]
      exact hq.valid
    · rw [hfb]
      exact hq.frame
  refine (ilock_alive hc' he hl (hq'.nodeAt he (h.inum_lt he) ▸ hne)).imp ?_
  rintro _ u ⟨hcu, hqu, hbu⟩
  exact ⟨hcu, hq'.trans hqu, hbu.trans (hfb.trans hb)⟩

theorem readi_spec (h : Cached sb R (e :: L) s) (hl : e ∉ L) (off n : Nat) :
    ((readi sb e off n).run s).Sat
      (fun r t => Same sb R (e :: L) s t ∧ ((s.nodeAt sb e).type ≠ T_DEV → t = s ∧
        r = if (s.nodeAt sb e).size < off ∨ (off + n) % 2 ^ 32 < off then none
          else some ((s.nodeAt sb e).read off n))) E := by
  have he : e ∈ e :: L := List.mem_cons_self
  by_cases hdev : (s.nodeAt sb e).type = T_DEV
  · simp only [readi, Prog.sat_bind, sat_inode]
    rw [h.din_type he, if_pos hdev]
    apply Prog.sat_ite
    · intro _
      simp only [consoleread, Prog.sat_bind]
      have hre := relock_spec (E := E) h hl (fun t => { t with input := t.input.tail })
        fun _ => ⟨rfl, rfl⟩
      refine hre.imp ?_
      intro _ t ht
      rw [Prog.sat_get, Prog.sat_modify]
      refine ht.imp ?_
      intro _ u hu
      rw [Prog.sat_pure]
      exact ⟨hu, fun hne => absurd hdev hne⟩
    · intro _
      rw [Prog.sat_pure]
      exact ⟨Same.refl h, fun hne => absurd hdev hne⟩
  · rw [sat_readi h.good (h.ref_of_locked he) (h.valid e he).2 hdev]
    split
    · exact ⟨Same.refl h, fun _ => ⟨rfl, rfl⟩⟩
    · exact ⟨Same.refl h, fun _ => ⟨rfl, rfl⟩⟩

structure Wrote (sb : Superblock) (R : Multiset Entry) (L : List Entry) (s : State) (e : Entry)
    (off : Nat) (src : List UInt8) (t : State) : Prop where
  cached : Cached sb R L t
  changed : Changed sb s e (t.writeFoot sb e (blocks (s.nodeAt sb e).size) off src.length)
    ((s.nodeAt sb e).write off src) t
  spare : t.spare sb e = s.spare sb e

theorem writei_cached (hsb : sb.Wf) (h : Cached sb R (e :: L) s) (hl : e ∉ L)
    (hop : 1 ≤ s.blk.outstanding) {src : List UInt8} {off : Nat} (hn : src.length < 2 ^ 32)
    (hdir : DirOk sb ((s.nodeAt sb e).write off src)) : ((writei sb e src off).run s).Sat
      (fun r t => Same sb R (e :: L) s t ∧
          ((s.nodeAt sb e).type = T_DEV ∧ (r = none ∨ r = some src.length) ∨ r = none ∧ t = s ∧
            ((s.nodeAt sb e).size < off ∨ MAXFILE * BSIZE < off + src.length)) ∨
        (s.nodeAt sb e).type ≠ T_DEV ∧ r = some src.length ∧ off ≤ (s.nodeAt sb e).size ∧
          off + src.length ≤ MAXFILE * BSIZE ∧ Wrote sb R (e :: L) s e off src t)
      (fun x _ => x = .panic .outOfBlocks ∧ (s.nodeAt sb e).type ≠ T_DEV ∧
        off + src.length ≤ MAXFILE * BSIZE ∧ s.spare sb e <
        need (max (blocks (s.nodeAt sb e).size) (blocks (off + src.length)))) := by
  have he : e ∈ e :: L := List.mem_cons_self
  by_cases hdev : (s.nodeAt sb e).type = T_DEV
  · simp only [writei, Prog.sat_bind, sat_inode]
    rw [h.din_type he, if_pos hdev]
    apply Prog.sat_ite
    · intro _
      simp only [consolewrite, Prog.sat_bind]
      refine (relock_spec h hl id fun _ => ⟨rfl, rfl⟩).imp ?_
      intro _ t ht
      refine ht.imp ?_
      intro _ u hu
      rw [Prog.sat_pure]
      exact Or.inl ⟨hu, Or.inl ⟨hdev, Or.inr rfl⟩⟩
    · intro _
      rw [Prog.sat_pure]
      exact Or.inl ⟨Same.refl h, Or.inl ⟨hdev, Or.inl rfl⟩⟩
  · refine (writei_spec h.good (h.ref_of_locked he) (h.valid e he).2 hsb hop hdev _ hn).mono ?_
      fun _ _ hx => ⟨hx.1, hdev, by omega, hx.2.2⟩
    intro r t ht
    by_cases hbad : (s.nodeAt sb e).size < off ∨ MAXFILE * BSIZE < off + src.length
    · rw [if_pos hbad] at ht
      obtain ⟨rfl, rfl⟩ := ht
      exact Or.inl ⟨Same.refl h, Or.inr ⟨rfl, rfl, hbad⟩⟩
    · rw [if_neg hbad] at ht
      obtain ⟨rfl, hc, hspare, -⟩ := ht
      exact Or.inr ⟨hdev, rfl, by omega, by omega, h.changed he hc hdir, hc, hspare⟩

theorem update_spec (hsb : sb.Wf) (h : Cached sb R L s) (he : e ∈ L) (hop : 1 ≤ s.blk.outstanding)
    (f : Dinode → Dinode) (htype : ∀ d, (f d).type = d.type) (hsize : ∀ d, (f d).size = d.size)
    (haddrs : ∀ d, (f d).addrs = d.addrs) :
    ((setDin e f).run s).Sat (fun _ t => ((iupdate sb e).run t).Sat (fun _ u =>
      Cached sb R L u ∧ Changed sb s e (· = sb.iblock (s.icache e).inum)
        ((s.nodeAt sb e).setFields (f (s.icache e).din).major (f (s.icache e).din).minor
          (f (s.icache e).din).nlink) u ∧
      ino sb u.blk.disk (s.icache e).inum = f (ino sb s.blk.disk (s.icache e).inum)) E) E := by
  have hc := changed_fields h.good (h.ref_of_locked he) (h.valid e he).2 hsb
    (htype (s.icache e).din) (hsize _) (haddrs _)
  rw [sat_setDin, sat_iupdate (by exact h.good.held) (by exact hop), withDin_icache_self]
  change Cached sb R L (s.withDin e _ _) ∧ Changed sb s e _ _ (s.withDin e _ _) ∧ _
  refine ⟨h.changed he hc ?_, hc, ?_⟩
  · exact h.dirs _ (h.inum_lt (h.mem_of_locked he))
  · rw [← h.good.sync e (h.ref_of_locked he) (h.valid e he).2]
    exact ino_put_self ..

end BossOs.Fs
