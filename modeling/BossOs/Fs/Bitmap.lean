import BossOs.Fs.Alloc

/-!
# The free map

What `balloc` and `bfree` do to the bits of the free map and to the other blocks of the
disk, for a free map of any number of blocks.
-/

namespace BossOs.Fs

open Lib

/-- The free map can be used: block numbers fit the `int` in which `balloc` counts, and the
blocks of the free map are not free themselves. -/
structure Blk.Mapped (sb : Superblock) (s : Blk) : Prop where
  size_le : sb.size + BPB ≤ 2 ^ 31
  used : ∀ c, c < sb.size → sb.bblock c < sb.size → used sb s.disk (sb.bblock c) = true

structure Allocates (sb : Superblock) (s : Blk) (b : Nat) (t : Blk) : Prop where
  lt : b < sb.size
  clear : used sb s.disk b = false
  lowest : ∀ c, c < b → used sb s.disk c = true
  bits : ∀ c, c < sb.size ∨ sb.bblock c = sb.bblock b →
    used sb t.disk c = (used sb s.disk c || decide (c = b))
  zeroed : t.disk b = Bytes.zero
  rest : ∀ x, x ≠ b → x ≠ sb.bblock b → t.disk x = s.disk x
  frame : Frame (fun x => x = b ∨ x = sb.bblock b) s t

structure Frees (sb : Superblock) (s : Blk) (b : Nat) (t : Blk) : Prop where
  bits : ∀ c, used sb t.disk c = (used sb s.disk c && decide (c ≠ b))
  rest : ∀ x, x ≠ sb.bblock b → t.disk x = s.disk x
  frame : Frame (· = sb.bblock b) s t

variable {sb : Superblock} {s t : Blk} {b : Nat}

theorem Allocates.of_alloc (hm : s.Mapped sb) (hlt : b < sb.size)
    (hclear : used sb s.disk b = false) (hlow : ∀ c < b, used sb s.disk c = true) :
    Allocates sb s b (s.alloc sb b) := by
  have hown : ∀ c < sb.size, sb.bblock c ≠ b := by
    intro c hc heq
    have h := hm.used c hc (by omega)
    rw [heq, hclear] at h
    cases h
  refine ⟨hlt, hclear, hlow, ?_, ?_, ?_, frame_alloc s⟩
  · intro c hc
    have hne : sb.bblock c ≠ b := by
      rcases hc with hc | hc
      · exact hown c hc
      · rw [hc]
        exact hown b hlt
    simp only [Blk.alloc, Blk.store]
    rw [used_update_of_ne _ _ hne, used_setBit]
  · exact Function.update_self ..
  · intro x hx hx'
    simp only [Blk.alloc, Blk.store]
    rw [Function.update_of_ne hx, Function.update_of_ne hx']

theorem Frees.of_free (s : Blk) (b : Nat) : Frees sb s b (s.free sb b) :=
  ⟨fun _ => used_free s, fun _ hx => Function.update_of_ne hx _ _, frame_free s⟩

theorem bfree_cases (hop : 1 ≤ s.outstanding) (hh : sb.bblock b ∉ s.held) :
    ((bfree sb b).run s).Sat (fun _ t => used sb s.disk b = true ∧ Frees sb s b t)
      (fun e _ => e = .panic .freeingFree ∧ used sb s.disk b = false) := by
  cases hb : used sb s.disk b with
  | true => exact bfree_spec hop hh hb ⟨rfl, Frees.of_free s b⟩
  | false =>
    have hbit : (s.disk (sb.bblock b)).bit (b % BPB) = false := hb
    simp only [bfree, Prog.sat_bind, sat_bread hh, hbit, Bool.false_eq_true, if_false]
    rw [panic, Prog.sat_fail]
    exact ⟨rfl, trivial⟩

theorem balloc_cases (hop : 1 ≤ s.outstanding) (hh : s.Unheld sb) (hm : s.Mapped sb) :
    ((balloc sb).run s).Sat (Allocates sb s)
      (fun e _ => e = .panic .outOfBlocks ∧ ∀ c < sb.size, used sb s.disk c = true) := by
  apply (balloc_spec hop hh).mono
  · rintro b t ⟨hlt, hclear, hlow, rfl⟩
    exact .of_alloc hm hlt hclear hlow
  · rintro e t ⟨he, -, hall⟩
    exact ⟨he, hall⟩

theorem Allocates.restores (h : Allocates sb s b t) {u : Blk} (h' : Frees sb t b u) {c : Nat}
    (hc : c < sb.size) : used sb u.disk c = used sb s.disk c := by
  rw [h'.bits, h.bits c (Or.inl hc)]
  by_cases hcb : c = b
  · subst hcb
    simp [h.clear]
  · simp [hcb]

/-- `balloc` takes the lowest free block and panics only if there is none, `bfree` releases one
block and panics only if it is free, and `bfree` of what `balloc` returned undoes it. -/
theorem free_map_exact (sb : Superblock) (s : Blk) (hop : 1 ≤ s.outstanding)
    (hh : s.Unheld sb) (hm : s.Mapped sb) :
    (((balloc sb).run s).stopped = some (.panic .outOfBlocks) ↔
        ∀ c, c < sb.size → used sb s.disk c = true) ∧
      ((∃ c, c < sb.size ∧ used sb s.disk c = false) →
        ∃ b t, (balloc sb).run s = .ok b t ∧ Allocates sb s b t ∧
          ∃ u, (bfree sb b).run t = .ok () u ∧ Frees sb t b u ∧
            ∀ c, c < sb.size → used sb u.disk c = used sb s.disk c) ∧ ∀ b, sb.bblock b ∉ s.held →
        (((bfree sb b).run s).stopped = some (.panic .freeingFree) ↔ used sb s.disk b = false) ∧
        (used sb s.disk b = true → ∃ t, (bfree sb b).run s = .ok () t ∧ Frees sb s b t) := by
  have halloc := balloc_cases hop hh hm
  refine ⟨?_, ?_, ?_⟩
  · cases hr : (balloc sb).run s with
    | ok b t =>
      rw [hr, Outcome.sat_ok] at halloc
      constructor
      · intro h
        cases h
      · intro hall
        have h := hall b halloc.lt
        rw [halloc.clear] at h
        cases h
    | stop e t =>
      rw [hr, Outcome.sat_stop] at halloc
      obtain ⟨rfl, hall⟩ := halloc
      exact ⟨fun _ => hall, fun _ => rfl⟩
  · rintro ⟨c, hc, hclear⟩
    have hsome : ∀ (e : Stop) (_ : Blk), ¬ (e = .panic .outOfBlocks ∧
        ∀ c, c < sb.size → used sb s.disk c = true) := by
      rintro e - ⟨-, hall⟩
      rw [hall c hc] at hclear
      cases hclear
    obtain ⟨b, t, hr, h⟩ := halloc.returns hsome
    have hset : used sb t.disk b = true := by
      rw [h.bits b (Or.inl h.lt)]
      simp
    have hheld : sb.bblock b ∉ t.held := by
      rw [h.frame.held]
      exact hh.bitmap b h.lt
    have hop' : 1 ≤ t.outstanding := by
      rw [h.frame.outstanding]
      exact hop
    have hreturns : ∀ (e : Stop) (_ : Blk), ¬ (e = .panic .freeingFree ∧
        used sb t.disk b = false) := by
      rintro e - ⟨-, hclear⟩
      rw [hset] at hclear
      cases hclear
    obtain ⟨_, u, hu, -, h'⟩ := (bfree_cases hop' hheld).returns hreturns
    exact ⟨b, t, hr, h, u, hu, h', fun c hc => h.restores h' hc⟩
  · intro b hheld
    have hfree := bfree_cases hop hheld
    cases hr : (bfree sb b).run s with
    | ok v t =>
      rw [hr, Outcome.sat_ok] at hfree
      refine ⟨⟨fun h => ?_, fun h => ?_⟩, fun _ => ⟨t, rfl, hfree.2⟩⟩
      · cases h
      · rw [hfree.1] at h
        cases h
    | stop e t =>
      rw [hr, Outcome.sat_stop] at hfree
      obtain ⟨rfl, hclear⟩ := hfree
      refine ⟨⟨fun _ => hclear, fun _ => rfl⟩, fun h => ?_⟩
      rw [hclear] at h
      cases h

def mapped (n : Nat) : Superblock where
  size := n
  nblocks := 0
  ninodes := 0
  nlog := 0
  logstart := 0
  inodestart := 0
  bmapstart := 1

def firstUsed (n : Nat) : Blk where
  disk := Function.update (fun _ => Bytes.zero) 1 (Bytes.lowBits n)
  held := []
  outstanding := 1
  logged := []
  sections := []
  nested := false
  asked := 0

theorem firstUsed_mapped : (firstUsed 4).Mapped (mapped 5000) := by
  refine ⟨by decide, ?_⟩
  intro c hc _
  have hblock : (mapped 5000).bblock c = 1 ∨ (mapped 5000).bblock c = 2 := by
    simp only [Superblock.bblock, mapped, BPB, BSIZE] at hc ⊢
    omega
  rcases hblock with h | h
  · rw [h]
    decide +kernel
  · rw [h]
    decide +kernel

theorem firstUsed_unheld : (firstUsed 4).Unheld (mapped 5000) :=
  ⟨fun _ _ h => (nomatch h), fun _ _ h => (nomatch h)⟩

theorem free_map_exact_two : ∃ b t, (balloc (mapped 5000)).run (firstUsed 4) = .ok b t ∧
      Allocates (mapped 5000) (firstUsed 4) b t := by
  obtain ⟨-, hfree, -⟩ := free_map_exact (mapped 5000) (firstUsed 4) (by decide)
    firstUsed_unheld firstUsed_mapped
  obtain ⟨b, t, hr, h, -⟩ := hfree ⟨4, by decide, by decide +kernel⟩
  exact ⟨b, t, hr, h⟩

/-- If the free map's own block is marked free, `balloc` returns it and clears the map. -/
theorem balloc_own_block : used (mapped 10) (firstUsed 1).disk 0 = true ∧
      ((balloc (mapped 10)).run (firstUsed 1)).view
        (fun b t => (b, used (mapped 10) t.disk 0, used (mapped 10) t.disk b)) =
        some (1, false, false) := by
  decide +kernel

end BossOs.Fs
