import BossOs.Fs.Format

/-!
# A file is a byte array

`readi` and `writei` on an open inode, as operations on the list of its bytes. Writing needs free
blocks for the part of the file that is new, and room in the log for all that it writes.
-/

namespace BossOs.Fs

open Lib

variable {sb : Superblock}

def Node.contents (nd : Node) : List UInt8 := (List.range nd.size).map nd.byte

theorem Node.length_contents (nd : Node) : nd.contents.length = nd.size := by
  rw [Node.contents, List.length_map, List.length_range]

theorem Node.getElem_contents {nd : Node} {k : Nat} (h : k < nd.contents.length) :
    nd.contents[k] = nd.byte k := by
  simp only [Node.contents, List.getElem_map, List.getElem_range]

variable {off : Nat}

theorem Node.contents_write {nd : Node} (hoff : off ≤ nd.size) (src : List UInt8) :
    (nd.write off src).contents =
      nd.contents.take off ++ src ++ nd.contents.drop (off + src.length) := by
  have hlen := nd.length_contents
  have htake : (nd.contents.take off).length = off := by
    rw [List.length_take]
    omega
  apply List.ext_getElem
  · rw [Node.length_contents, List.length_append, List.length_append, htake, List.length_drop, hlen]
    change max nd.size (off + src.length) = _
    omega
  · intro k h1 h2
    rw [Node.getElem_contents]
    simp only [Node.write]
    by_cases hlo : k < off
    · rw [if_neg (by omega), List.getElem_append_left (by rw [List.length_append]; omega),
        List.getElem_append_left (by omega), List.getElem_take, Node.getElem_contents]
    · by_cases hhi : k < off + src.length
      · rw [if_pos (by omega), List.getElem_append_left (by rw [List.length_append]; omega),
          List.getElem_append_right (by omega), List.getD_eq_getElem _ _ (by omega)]
        simp only [htake]
      · rw [if_neg (by omega), List.getElem_append_right (by rw [List.length_append]; omega),
          List.getElem_drop, Node.getElem_contents]
        congr 1
        rw [List.length_append]
        omega

def missing (nd : Node) (off len : Nat) : Nat :=
  need (max (blocks nd.size) (blocks (off + len))) - need (blocks nd.size)

def logCap (sb : Superblock) : Nat := min LOGSIZE (sb.nlog - 1)

/-- The log of a transaction in which `log_write` has not panicked. -/
structure LogOk (sb : Superblock) (u : Blk) : Prop where
  nodup : u.logged.Nodup
  length_le : u.logged.length ≤ u.asked
  asked_le : u.asked ≤ logCap sb

section Log

variable {t : State} {e : Entry} {m n : Nat}
  (ho : Open sb t.blk (t.icache e).inum (t.icache e).din m (NDIRECT < m)) (hM : m ≤ MAXFILE)
  (hm : blocks (off + n) ≤ m)
include ho hM hm

end Log

section Calls

variable {s : State} {e : Entry} (hg : Good sb s) (hr : 0 < (s.icache e).ref)
  (hv : (s.icache e).valid = true) (hdev : (s.nodeAt sb e).type ≠ T_DEV)
include hg hr hv hdev

theorem writei_run (hsb : sb.Wf) (hop : 1 ≤ s.blk.outstanding) {src : List UInt8}
    (hn : src.length < 2 ^ 32)
    (hbad : ¬ ((s.nodeAt sb e).size < off ∨ MAXFILE * BSIZE < off + src.length))
    (hfree : missing (s.nodeAt sb e) off src.length ≤ freeBlocks sb s.blk.disk) :
    ∃ t, (writei sb e src off).run s = .ok (some src.length) t ∧
      Changed sb s e (t.writeFoot sb e (blocks (s.nodeAt sb e).size) off src.length)
        ((s.nodeAt sb e).write off src) t ∧ t.Logged e off src.length := by
  have hspec := writei_spec hg hr hv hsb hop hdev off hn
  simp only [if_neg hbad] at hspec
  unfold missing at hfree
  obtain ⟨r, t, hrun, rfl, hc, -, hlog⟩ := (hspec.mono (fun _ _ h => h)
    fun x _ ⟨_, _, hfull⟩ => by omega).exists_ok
  exact ⟨t, hrun, hc, hlog⟩

omit hg hr hv hdev in
theorem Changed.isOpen {L : Nat → Prop} {src : List UInt8} {t : State}
    (h : Changed sb s e L ((s.nodeAt sb e).write off src) t) (hr : 0 < (s.icache e).ref)
    (hv : (s.icache e).valid = true) : ∃ m, m ≤ MAXFILE ∧ blocks (off + src.length) ≤ m ∧
      Open sb t.blk (t.icache e).inum (t.icache e).din m (NDIRECT < m) := by
  obtain ⟨u, d, ht⟩ := h.cache
  have hr' : 0 < (t.icache e).ref := by
    rw [ht, withDin_icache_self]
    exact hr
  have hv' : (t.icache e).valid = true := by
    rw [ht, withDin_icache_self]
    exact hv
  have hsize := congrArg Node.size h.nodeAt
  rw [h.good.nodeAt_eq hr' hv'] at hsize
  refine ⟨_, blocks_le (h.good.size_le hr' hv'), ?_, h.good.isOpen hr' hv'⟩
  refine blocks_le (Nat.le_trans ?_ (le_blocks_mul _))
  change (t.icache e).din.size.toNat = max _ _ at hsize
  omega

section Room

variable {src : List UInt8} (hsb : sb.Wf) (hop : 1 ≤ s.blk.outstanding) (hlog : LogOk sb s.blk)
  (hn : src.length < 2 ^ 32)
  (hbad : ¬ ((s.nodeAt sb e).size < off ∨ MAXFILE * BSIZE < off + src.length))
  (hfree : missing (s.nodeAt sb e) off src.length ≤ freeBlocks sb s.blk.disk)
include hsb hop hlog hn hbad hfree

end Room

end Calls

end BossOs.Fs
