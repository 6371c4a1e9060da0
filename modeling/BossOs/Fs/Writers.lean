import BossOs.Fs.Offsets

/-!
# Writers that share a file

Processes that have one open file in common write to it chunk by chunk, in any interleaving: the
lock of the inode makes the write of a chunk one step. No chunk overwrites another.
-/

namespace BossOs.Fs

open Lib

variable {sb : Superblock} {ι : Type}

/-- Processes `ι` that share a file. `calls i` are the buffers of the calls of `filewrite` that `i`
has to make, the first without the bytes that this call has already written; `log` has the chunks
in the order in which the lock of the inode was taken for them. -/
structure Writers (ι : Type) where
  sys : Sys
  calls : ι → List (List UInt8)
  log : List (ι × List UInt8)

def nextChunk : List (List UInt8) → Option (List UInt8 × List (List UInt8))
  | [] => none
  | src :: rest =>
    if src = [] then nextChunk rest
    else some (src.take (min src.length maxWrite), src.drop (min src.length maxWrite) :: rest)

theorem nextChunk_spec {calls : List (List UInt8)} {c : List UInt8} {rest : List (List UInt8)}
    (h : nextChunk calls = some (c, rest)) :
    c.length ≤ maxWrite ∧ calls.flatten = c ++ rest.flatten := by
  induction calls with
  | nil => cases h
  | cons src calls ih =>
    rw [nextChunk] at h
    split at h
    case isTrue hnil =>
      rw [hnil, List.flatten_cons, List.nil_append]
      exact ih h
    case isFalse =>
      cases h
      refine ⟨?_, ?_⟩
      · rw [List.length_take]
        omega
      · rw [List.flatten_cons, List.flatten_cons, ← List.append_assoc, List.take_append_drop]

def bytesOf (log : List (ι × List UInt8)) : List UInt8 := (log.map Prod.snd).flatten

theorem bytesOf_append (a b : List (ι × List UInt8)) : bytesOf (a ++ b) = bytesOf a ++ bytesOf b := by
  rw [bytesOf, List.map_append, List.flatten_append, bytesOf, bytesOf]

theorem bytesOf_singleton (i : ι) (c : List UInt8) : bytesOf [(i, c)] = c := by
  rw [bytesOf, List.map_singleton, List.flatten_singleton]

variable [DecidableEq ι]

def writeStep (sb : Superblock) (f : Fin NFILE) (ip : Entry) (x : Writers ι) (i : ι) :
    Option (Writers ι) :=
  match nextChunk (x.calls i) with
  | none => none
  | some (c, rest) =>
    match (writeChunk sb f ip c).run x.sys with
    | .ok (some n) t =>
      if n ≠ c.length then none
      else some ⟨t, Function.update x.calls i rest, x.log ++ [(i, c)]⟩
    | .ok none t => some ⟨t, Function.update x.calls i rest.tail, x.log⟩
    | .stop _ _ => none

def Writers.Fits (f : Fin NFILE) (x : Writers ι) (i : ι) : Prop :=
  ∀ y ∈ nextChunk (x.calls i), (x.sys.ftable f).off.toNat + y.1.length ≤ MAXFILE * BSIZE

instance (f : Fin NFILE) (x : Writers ι) (i : ι) : Decidable (x.Fits f i) :=
  inferInstanceAs (Decidable (∀ y ∈ nextChunk (x.calls i), _))

def ownChunks (i : ι) (log : List (ι × List UInt8)) : List (ι × List UInt8) :=
  log.filter fun c => c.1 = i

theorem ownChunks_append_self (i : ι) (log : List (ι × List UInt8)) (c : List UInt8) :
    ownChunks i (log ++ [(i, c)]) = ownChunks i log ++ [(i, c)] := by
  simp only [ownChunks, List.filter_append, List.filter_singleton, decide_true, cond_true]

theorem ownChunks_append_of_ne {i j : ι} (h : j ≠ i) (log : List (ι × List UInt8))
    (c : List UInt8) : ownChunks i (log ++ [(j, c)]) = ownChunks i log := by
  simp only [ownChunks, List.filter_append, List.filter_singleton, h, decide_false, cond_false,
    List.append_nil]

/-- From `s`, where the processes had `calls` to make, the chunks logged in `x` were written. -/
structure Appended (sb : Superblock) (s : Sys) (calls : ι → List (List UInt8)) (f : Fin NFILE)
    (ip : Entry) (x : Writers ι) : Prop where
  chunks : ∃ off, Chunks sb s f ip off
    ((s.fs.nodeAt sb ip).write (s.ftable f).off.toNat (bytesOf x.log)) x.sys ∧
    off.toNat = (s.ftable f).off.toNat + (bytesOf x.log).length
  calls : ∀ i, bytesOf (ownChunks i x.log) ++ (x.calls i).flatten = (calls i).flatten

theorem filewriteFrom_run {f : Fin NFILE} {ip : Entry} {i : ι} {rest : List (List UInt8)} {t : Sys}
    (fuel : Nat) : ∀ {x : Writers ι} {src : List UInt8}, src.length ≤ fuel →
    x.calls i = src :: rest → (filewriteFrom sb f ip fuel src).run x.sys = .ok true t →
    ∃ n y, Run (fun _ _ => True) (writeStep sb f ip) x (List.replicate n i) y ∧ y.sys = t ∧
      y.calls i = [] :: rest := by
  induction fuel with
  | zero =>
    intro x src hlen hcalls hrun
    obtain rfl := List.eq_nil_of_length_eq_zero (Nat.le_zero.mp hlen)
    cases hrun
    exact ⟨0, x, .nil x, rfl, hcalls⟩
  | succ fuel ih =>
    intro x src hlen hcalls hrun
    rw [filewriteFrom] at hrun
    by_cases hne : src = []
    · subst hne
      cases hrun
      exact ⟨0, x, .nil x, rfl, hcalls⟩
    rw [if_neg hne] at hrun
    obtain ⟨n₁, hn₁⟩ : ∃ n₁, n₁ = min src.length maxWrite := ⟨_, rfl⟩
    have hpos : 0 < src.length := List.length_pos_iff.mpr hne
    have htake : (src.take n₁).length = n₁ := by
      rw [List.length_take]
      omega
    have hnext : nextChunk (x.calls i) = some (src.take n₁, src.drop n₁ :: rest) := by
      rw [hcalls, nextChunk, if_neg hne, hn₁]
    rw [← hn₁] at hrun
    obtain ⟨r, u, hchunk, hloop⟩ := Prog.run_bind_ok.mp hrun
    cases r with
    | none => cases hloop
    | some r =>
      dsimp only at hloop
      by_cases hr : r = n₁
      · subst hr
        rw [if_neg (fun hc => hc rfl)] at hloop
        obtain ⟨x', hx'⟩ : ∃ x', x' = Writers.mk u (Function.update x.calls i (src.drop r :: rest))
          (x.log ++ [(i, src.take r)]) := ⟨_, rfl⟩
        have hstep : writeStep sb f ip x i = some x' := by
          rw [writeStep, hnext]
          dsimp only
          rw [hchunk]
          dsimp only
          rw [htake, if_neg (fun hc => hc rfl), hx']
        have hcalls' : x'.calls i = src.drop r :: rest := by
          rw [hx']
          exact Function.update_self ..
        have hlen' : (src.drop r).length ≤ fuel := by
          rw [List.length_drop, hn₁, maxWrite_eq]
          omega
        obtain ⟨n, y, hy, hsys, hleft⟩ := ih hlen' hcalls' (by rw [hx']; exact hloop)
        exact ⟨n + 1, y, .cons trivial hstep hy, hsys, hleft⟩
      · rw [if_pos hr] at hloop
        cases hloop

section Runs

variable {s : Sys} {calls : ι → List (List UInt8)} {f : Fin NFILE} {ip : Entry} {x y : Writers ι}
  (hsb : sb.Wf) (h : Ok sb s) (hf : (s.ftable f).type = .inode ip)
  (hwr : (s.ftable f).writable = true) (hreg : (s.fs.nodeAt sb ip).type = T_FILE)
include h hf hreg

theorem appended_nil : Appended sb s calls f ip ⟨s, calls, []⟩ := by
  have hdev : (s.fs.nodeAt sb ip).type ≠ T_DEV := by
    rw [hreg]
    decide
  refine ⟨⟨_, ?_, (Nat.add_zero _).symm⟩, fun i => List.nil_append _⟩
  change Chunks sb s f ip _ ((s.fs.nodeAt sb ip).write _ []) s
  rw [Node.write_nil (h.offsets f ip hf hdev)]
  exact Chunks.refl h f ip

include hsb hwr

omit h in
theorem appended_step (hx : Appended sb s calls f ip x) {i : ι} (hfits : x.Fits f i)
    (hstep : writeStep sb f ip x i = some y) :
    Appended sb s calls f ip y ∧ ∃ c, y.log = x.log ++ [(i, c)] := by
  obtain ⟨off, hch, hoff⟩ := hx.chunks
  have hfile := hch.file
  have hoff' : (x.sys.ftable f).off.toNat = (s.ftable f).off.toNat + (bytesOf x.log).length := by
    rw [hfile]
    exact hoff
  have hnode := hch.node
  have htype : (x.sys.fs.nodeAt sb ip).type = T_FILE := by
    rw [hnode]
    exact hreg
  rw [writeStep] at hstep
  cases hnext : nextChunk (x.calls i) with
  | none =>
    rw [hnext] at hstep
    cases hstep
  | some next =>
    obtain ⟨c, rest⟩ := next
    obtain ⟨hlen, hrest⟩ := nextChunk_spec hnext
    have hfit : (x.sys.ftable f).off.toNat + c.length ≤ MAXFILE * BSIZE := hfits _ hnext
    have hspec := writeChunk_spec hch.ok (by rw [hfile]; exact hf) (by rw [hfile]; exact hwr) hsb hlen
    rw [hnext] at hstep
    dsimp only at hstep
    cases hrun : (writeChunk sb f ip c).run x.sys with
    | stop e t =>
      rw [hrun] at hstep
      cases hstep
    | ok r t =>
      rw [hrun] at hstep hspec
      rw [Outcome.sat_ok] at hspec
      obtain ⟨off', nd, ht, ⟨hdev, -⟩ | ⟨-, ⟨-, hbig, -⟩ | ⟨rfl, -, hend, rfl⟩⟩⟩ := hspec
      · rw [htype] at hdev
        cases hdev
      · omega
      · dsimp only at hstep
        rw [if_neg (fun hne => hne rfl)] at hstep
        cases hstep
        refine ⟨⟨⟨off', ?_, ?_⟩, ?_⟩, c, rfl⟩
        · have htrans := hch.trans (mem_refs_of_file hf) ht
          rw [hnode, hoff', Node.write_append] at htrans
          rw [bytesOf_append, bytesOf_singleton]
          exact htrans
        · rw [hend, hoff', bytesOf_append, bytesOf_singleton, List.length_append, Nat.add_assoc]
        · intro j
          have hj := hx.calls j
          dsimp only
          by_cases hji : i = j
          · subst hji
            rw [Function.update_self, ownChunks_append_self, bytesOf_append, bytesOf_singleton,
              List.append_assoc, ← hrest]
            exact hj
          · rw [Function.update_of_ne (Ne.symm hji), ownChunks_append_of_ne hji]
            exact hj

omit h in
theorem appended_run {as : List ι} (hx : Appended sb s calls f ip x)
    (hrun : Run (Writers.Fits f) (writeStep sb f ip) x as y) :
    Appended sb s calls f ip y ∧ y.log.map Prod.fst = x.log.map Prod.fst ++ as := by
  induction hrun with
  | nil x => exact ⟨hx, (List.append_nil _).symm⟩
  | cons hfits hstep _ ih =>
    obtain ⟨hy, c, hlog⟩ := appended_step hsb hf hwr hreg hx hfits hstep
    obtain ⟨hz, hord⟩ := ih hy
    refine ⟨hz, ?_⟩
    rw [hord, hlog, List.map_append, List.append_assoc]
    rfl

/-- Whatever the interleaving, the chunks are in the file one after the other, in the order of
their steps and from the initial offset on, and each process's bytes in its own order. -/
theorem shared_writes {off : Nat} (hoff : (s.ftable f).off.toNat = off) {as : List ι}
    (hrun : Run (Writers.Fits f) (writeStep sb f ip) ⟨s, calls, []⟩ as x) {old new : List UInt8}
    (hold : (s.fs.nodeAt sb ip).contents = old) (hnew : (x.sys.fs.nodeAt sb ip).contents = new) :
    x.log.map Prod.fst = as ∧ (x.sys.ftable f).off.toNat = off + (bytesOf x.log).length ∧
    new = old.take off ++ bytesOf x.log ++ old.drop (off + (bytesOf x.log).length) ∧
    (∀ before i c after, x.log = before ++ (i, c) :: after →
      (new.drop (off + (bytesOf before).length)).take c.length = c) ∧
    ∀ i, bytesOf (ownChunks i x.log) ++ (x.calls i).flatten = (calls i).flatten := by
  have hdev : (s.fs.nodeAt sb ip).type ≠ T_DEV := by
    rw [hreg]
    decide
  have hle := h.offsets f ip hf hdev
  obtain ⟨hx, hord⟩ := appended_run hsb hf hwr hreg (appended_nil h hf hreg) hrun
  obtain ⟨off', hch, hoff'⟩ := hx.chunks
  subst hoff hold
  have hall : new = (s.fs.nodeAt sb ip).contents.take (s.ftable f).off.toNat ++ bytesOf x.log ++
      (s.fs.nodeAt sb ip).contents.drop ((s.ftable f).off.toNat + (bytesOf x.log).length) := by
    rw [← hnew, hch.node, Node.contents_write hle]
  refine ⟨hord, ?_, hall, ?_, hx.calls⟩
  · rw [hch.file]
    exact hoff'
  · intro before i c after hlog
    have htake : ((s.fs.nodeAt sb ip).contents.take (s.ftable f).off.toNat).length =
        (s.ftable f).off.toNat := by
      rw [List.length_take, Node.length_contents]
      exact Nat.min_eq_left hle
    rw [hall, hlog, bytesOf_append, List.append_assoc, List.append_assoc, ← List.drop_drop,
      List.drop_left' htake, List.drop_left' rfl, bytesOf, List.map_cons, List.flatten_cons,
      List.append_assoc, List.take_left' rfl]

end Runs

def twoWriters : Bool → List (List UInt8)
  | true => [[1], [3]]
  | false => [[2, 2]]

def fileEntry : Entry := ⟨1, by decide⟩

theorem shared_writes_two : ∃ s x, Run (fun _ _ => True) (step tiny) tinyBoot [openNew] s ∧
    Run (Writers.Fits file0) (writeStep tiny file0 fileEntry) ⟨s, twoWriters, []⟩
      [true, false, true] x ∧ (x.sys.fs.nodeAt tiny fileEntry).contents = [1, 2, 2, 3] := by
  have hexec : (Lib.exec (fun _ _ => True) (step tiny) tinyBoot [openNew]).map (fun s =>
      ((s.ftable file0).type, (s.ftable file0).writable, (s.ftable file0).off,
        decide ((s.fs.nodeAt tiny fileEntry).type = T_FILE ∧ (s.fs.nodeAt tiny fileEntry).size = 0),
        (Lib.exec (Writers.Fits file0) (writeStep tiny file0 fileEntry) ⟨s, twoWriters, []⟩
          [true, false, true]).map fun x =>
            decide (x.log = [(true, [1]), (false, [2, 2]), (true, [3])]))) =
      some (.inode fileEntry, true, 0, true, some true) := by
    decide +kernel
  obtain ⟨s, hrun, hs⟩ := Run.of_exec_map hexec
  simp only [Prod.mk.injEq] at hs
  obtain ⟨hf, hwr, hoff, hnode, hlog⟩ := hs
  obtain ⟨hreg, hsize⟩ := of_decide_eq_true hnode
  obtain ⟨x, hx, hlog⟩ := Run.of_exec_map hlog
  have hold : (s.fs.nodeAt tiny fileEntry).contents = [] := by
    rw [← List.length_eq_zero_iff, Node.length_contents]
    exact hsize
  obtain ⟨-, -, hnew, -⟩ := shared_writes tiny_formats.wf (run_ok tiny_formats.wf tinyBoot_ok hrun) hf
    hwr hreg (show (s.ftable file0).off.toNat = 0 by rw [hoff]; rfl) hx hold rfl
  refine ⟨s, x, hrun, hx, ?_⟩
  rw [hnew, of_decide_eq_true hlog]
  rfl

end BossOs.Fs
