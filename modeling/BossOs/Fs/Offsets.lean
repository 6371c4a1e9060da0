import BossOs.Fs.Runs
import BossOs.Fs.ByteArray

/-!
# Offsets of open files

The chunks of `filewrite` add up to one `writei`, as far as the size limit allows. No offset of an
open file is beyond the end of the file, so a read or a write never fails for that reason.
-/

namespace BossOs.Fs

open Lib

variable {sb : Superblock}

section Filewrite

variable {s : Sys} {f : Fin NFILE} {ip : Entry} (hsb : sb.Wf) (h : Ok sb s)
  (hf : (s.ftable f).type = .inode ip) (hwr : (s.ftable f).writable = true)
include hsb h hf hwr

omit hwr in
theorem writei_once (hdev : (s.fs.nodeAt sb ip).type ≠ T_DEV) {src : List UInt8}
    (hend : (s.ftable f).off.toNat + src.length ≤ MAXFILE * BSIZE)
    (hfree : missing (s.fs.nodeAt sb ip) (s.ftable f).off.toNat src.length ≤
      freeBlocks sb s.fs.blk.disk) : ∃ u v, (ilock sb ip).run s.fs.begun = .ok () u ∧
      (writei sb ip src (s.ftable f).off.toNat).run u = .ok (some src.length) v ∧
      v.nodeAt sb ip = (s.fs.nodeAt sb ip).write (s.ftable f).off.toNat src := by
  have hip := mem_refs_of_file hf
  have hoff := h.offsets f ip hf hdev
  rw [maxBytes_eq] at hend
  obtain ⟨_, u, hrun, hc, hq, hb⟩ :=
    (ilock_alive h.begun hip List.not_mem_nil (h.alive ip hip)).exists_ok
  have hnode : u.nodeAt sb ip = s.fs.nodeAt sb ip := hq.nodeAt hip (h.begun.inum_lt hip)
  have hl : ip ∈ [ip] := List.mem_singleton_self ip
  have hbad : ¬ ((u.nodeAt sb ip).size < (s.ftable f).off.toNat ∨
      MAXFILE * BSIZE < (s.ftable f).off.toNat + src.length) := by
    rw [hnode, maxBytes_eq]
    omega
  obtain ⟨v, hv, hch, -⟩ := writei_run hc.good (hc.ref_of_locked hl) (hc.valid ip hl).2
    (by rw [hnode]; exact hdev) hsb (by rw [hb]; exact h.op.ge) (by omega) hbad
    (by rw [hnode, hb]; exact hfree)
  exact ⟨u, v, hrun, hv, hch.nodeAt.trans (by rw [hnode])⟩

/-- `filewrite` of `n` bytes to a regular file whose offset is `off`. -/
theorem filewrite_chunks (hreg : (s.fs.nodeAt sb ip).type = T_FILE) {off n : Nat}
    (hoff : (s.ftable f).off.toNat = off) {src : List UInt8} (hn : src.length = n) :
    (∀ x t, (filewrite sb f src).run s = .stop x t → x ≠ .panic .shortFilewrite) ∧
    (off + n ≤ MAXFILE * BSIZE → missing (s.fs.nodeAt sb ip) off n ≤ freeBlocks sb s.fs.blk.disk →
      ∃ t u v, (filewrite sb f src).run s = .ok n t ∧
        (ilock sb ip).run s.fs.begun = .ok () u ∧ (writei sb ip src off).run u = .ok (some n) v ∧
        t.fs.nodeAt sb ip = v.nodeAt sb ip ∧
        (t.fs.nodeAt sb ip).contents = (s.fs.nodeAt sb ip).contents.take off ++ src ++
          (s.fs.nodeAt sb ip).contents.drop (off + n) ∧ (t.ftable f).off.toNat = off + n) ∧
    (MAXFILE * BSIZE < off + n → ∀ k, k = (MAXFILE * BSIZE - off) / 1536 →
      missing (s.fs.nodeAt sb ip) off (1536 * k) ≤ freeBlocks sb s.fs.blk.disk →
      ∃ t, (filewrite sb f src).run s = .ok (-1) t ∧
        (t.fs.nodeAt sb ip).contents = (s.fs.nodeAt sb ip).contents.take off ++
          src.take (1536 * k) ++ (s.fs.nodeAt sb ip).contents.drop (off + 1536 * k) ∧
        (t.ftable f).off.toNat = off + 1536 * k) := by
  have hdev : (s.fs.nodeAt sb ip).type ≠ T_DEV := by
    rw [hreg]
    decide
  have hle := h.offsets f ip hf hdev
  have hspec := filewrite_spec hsb src h hf hwr
  subst hoff hn
  -- with enough blocks the call returns
  have hret : missing (s.fs.nodeAt sb ip) (s.ftable f).off.toNat
        (writable (s.ftable f).off.toNat src.length) ≤ freeBlocks sb s.fs.blk.disk →
      ∃ r t off nd, (filewrite sb f src).run s = .ok r t ∧ Chunks sb s f ip off nd t ∧
        off.toNat = (s.ftable f).off.toNat + writable (s.ftable f).off.toNat src.length ∧
        nd = (s.fs.nodeAt sb ip).write (s.ftable f).off.toNat
          (src.take (writable (s.ftable f).off.toNat src.length)) ∧
        r = if (s.ftable f).off.toNat + src.length ≤ MAXFILE * BSIZE
          then (src.length : Int) else -1 := by
    intro hfree
    obtain ⟨r, t, hrun, all, ⟨off, nd, hch, hcase⟩, hr⟩ :=
      hspec.returns (by
        rintro x _ ⟨-, -, hfull⟩
        unfold missing at hfree
        unfold State.spare at hfull
        omega)
    obtain ⟨h1, h2, rfl⟩ := hcase.resolve_left hdev
    refine ⟨r, t, off, nd, hrun, hch, h1, h2, ?_⟩
    rw [hr]
    simp only [decide_eq_true_eq]
  refine ⟨?_, ?_, ?_⟩
  · rintro x t hrun rfl
    rw [hrun, Outcome.sat_stop] at hspec
    exact absurd hspec.1 (by decide)
  · intro hend hfree
    have hall : writable (s.ftable f).off.toNat src.length = src.length := if_pos hend
    rw [hall] at hret
    obtain ⟨r, t, off, nd, hrun, hch, h1, h2, rfl⟩ := hret hfree
    obtain ⟨u, v, hu, hv, hnv⟩ := writei_once hsb h hf hdev hend hfree
    rw [if_pos hend] at hrun
    rw [List.take_length] at h2
    refine ⟨t, u, v, hrun, hu, hv, ?_, ?_, ?_⟩
    · rw [hch.node, h2, hnv]
    · rw [hch.node, h2, Node.contents_write hle]
    · rw [hch.file]
      exact h1
  · rintro hbig k rfl hfree
    have hpart : writable (s.ftable f).off.toNat src.length =
        1536 * ((MAXFILE * BSIZE - (s.ftable f).off.toNat) / 1536) := if_neg (by omega)
    rw [hpart] at hret
    obtain ⟨r, t, off, nd, hrun, hch, h1, h2, rfl⟩ := hret hfree
    rw [if_neg (by omega)] at hrun
    have hlen : (src.take (1536 * ((MAXFILE * BSIZE - (s.ftable f).off.toNat) / 1536))).length =
        1536 * ((MAXFILE * BSIZE - (s.ftable f).off.toNat) / 1536) := by
      rw [List.length_take]
      omega
    refine ⟨t, hrun, ?_, ?_⟩
    · rw [hch.node, h2, Node.contents_write hle, hlen]
    · rw [hch.file]
      exact h1

end Filewrite

/-- The bytes are more than one chunk. -/
theorem filewrite_chunks_new : ∃ s t, Run (fun _ _ => True) (step tiny) tinyBoot [openNew] s ∧
    (filewrite tiny file0 (List.replicate 2000 7)).run s = .ok 2000 t ∧
    (t.ftable file0).off.toNat = 2000 := by
  have hexec : (Lib.exec (fun _ _ => True) (step tiny) tinyBoot [openNew]).map (fun s =>
      ((s.ftable file0).type, (s.ftable file0).writable, (s.ftable file0).off,
        ((s.ftable file0).type.entry.map fun ip => ((s.fs.nodeAt tiny ip).type,
          decide (missing (s.fs.nodeAt tiny ip) 0 2000 ≤ freeBlocks tiny s.fs.blk.disk))))) =
      some (.inode ⟨1, by decide⟩, true, 0, some (T_FILE, true)) := by decide +kernel
  obtain ⟨s, hrun, hs⟩ := Run.of_exec_map hexec
  obtain ⟨hf, hs⟩ := Prod.mk.inj hs
  obtain ⟨hwr, hs⟩ := Prod.mk.inj hs
  obtain ⟨hoff, hs⟩ := Prod.mk.inj hs
  rw [hf] at hs
  obtain ⟨hreg, hfree⟩ := Prod.mk.inj (Option.some.inj hs)
  obtain ⟨-, hall, -⟩ := filewrite_chunks tiny_formats.wf (run_ok tiny_formats.wf tinyBoot_ok hrun) hf
    hwr hreg (show (s.ftable file0).off.toNat = 0 by rw [hoff]; rfl)
    (List.length_replicate (n := 2000) (a := (7 : UInt8)))
  obtain ⟨t, u, v, ht, -, -, -, -, hoff'⟩ := hall (by decide) (of_decide_eq_true hfree)
  exact ⟨s, t, hrun, ht, hoff'⟩

section Within

variable {D : Nat → Block} {input : List (Option (List UInt8))} {as : List (Pid × Call)} {s : Sys}

/-- After any calls by any processes, the offset of every open file or directory is within it. A
read then returns what there is from the offset on, at the end nothing, and a write returns -1
only for the size limit. -/
theorem offsets_within (hsb : sb.Wf) (hD : WellFormed sb D)
    (hrun : Run (fun _ _ => True) (step sb) (boot D input) as s) {f : Fin NFILE} {ip : Entry}
    (hf : (s.ftable f).type = .inode ip)
    (htype : (s.fs.nodeAt sb ip).type = T_FILE ∨ (s.fs.nodeAt sb ip).type = T_DIR) {off size : Nat}
    (hoff : (s.ftable f).off.toNat = off) (hsize : (s.fs.nodeAt sb ip).size = size) : off ≤ size ∧
    ((s.ftable f).readable = true → ∀ n, n < 2 ^ 31 →
      ∃ t, (fileread sb f n).run s = .ok (min n (size - off) : Nat) t) ∧
    ((s.ftable f).readable = true → off = size → ∀ n, n < 2 ^ 31 →
      ∃ t, (fileread sb f n).run s = .ok 0 t) ∧
    ((s.ftable f).writable = true → ∀ src : List UInt8, off + src.length ≤ MAXFILE * BSIZE →
      ∀ r t, (filewrite sb f src).run s = .ok r t → r = src.length) := by
  have h := run_ok hsb (boot_ok hsb hD) hrun
  have hdev : (s.fs.nodeAt sb ip).type ≠ T_DEV := by
    rcases htype with ht | ht <;> rw [ht] <;> decide
  have hle := h.offsets f ip hf hdev
  have hread : (s.ftable f).readable = true → ∀ n, n < 2 ^ 31 →
      ∃ t, (fileread sb f n).run s = .ok (min n (size - off) : Nat) t := by
    intro hrd n hn
    obtain ⟨r, t, ht, -, off', -, hres⟩ :=
      (fileread_spec (P := fun _ => True) (E := fun _ _ => False) h hf hrd n).exists_ok
    refine ⟨t, ?_⟩
    rw [ht, (hres hdev hn).1, Node.read, List.length_map, List.length_range, hoff, hsize]
  subst hoff hsize
  refine ⟨hle, hread, ?_, ?_⟩
  · intro hrd hend n hn
    obtain ⟨t, ht⟩ := hread hrd n hn
    rw [hend, Nat.sub_self, Nat.min_zero] at ht
    exact ⟨t, ht⟩
  · intro hwr src hfit r t ht
    have hspec := filewrite_spec hsb src h hf hwr
    rw [ht, Outcome.sat_ok] at hspec
    obtain ⟨all, ⟨_, _, -, hcase⟩, hr⟩ := hspec
    obtain ⟨-, -, hall⟩ := hcase.resolve_left hdev
    rw [hr, hall, decide_eq_true hfit, if_pos rfl]

end Within

def writeThree : List (Pid × Call) := [openNew, (initproc, .write 0 (some [1, 2, 3]))]

/-- After the write the offset is at the end of the file. -/
theorem offsets_within_new : ∃ s, Run (fun _ _ => True) (step tiny) tinyBoot writeThree s ∧
    (s.ftable file0).off = 3 ∧ ∃ t, (fileread tiny file0 5).run s = .ok 0 t := by
  have hexec : (Lib.exec (fun _ _ => True) (step tiny) tinyBoot writeThree).map (fun s =>
      ((s.ftable file0).type, (s.ftable file0).readable, (s.ftable file0).off,
        ((s.ftable file0).type.entry.map fun ip => ((s.fs.nodeAt tiny ip).type,
          (s.fs.nodeAt tiny ip).size)))) =
      some (.inode ⟨1, by decide⟩, true, 3, some (T_FILE, 3)) := by decide +kernel
  obtain ⟨s, hrun, hs⟩ := Run.of_exec_map hexec
  obtain ⟨hf, hs⟩ := Prod.mk.inj hs
  obtain ⟨hrd, hs⟩ := Prod.mk.inj hs
  obtain ⟨hoff, hs⟩ := Prod.mk.inj hs
  rw [hf] at hs
  obtain ⟨hreg, hsize⟩ := Prod.mk.inj (Option.some.inj hs)
  obtain ⟨-, -, hend, -⟩ := offsets_within tiny_formats.wf tiny_formats.wellFormed hrun hf
    (Or.inl hreg) (show (s.ftable file0).off.toNat = 3 by rw [hoff]; rfl) hsize
  exact ⟨s, hrun, hoff, hend hrd rfl 5 (by decide)⟩

end BossOs.Fs
