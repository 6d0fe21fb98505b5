import Mathlib

/-! The chunks that a write larger than a registered buffer is split into (`write_fn` of the io_uring file
context, `core/aio/aio.cpp`), and the bytes that their submissions write. -/

namespace Plexdb.UringFile

/-- A range of a file, half open. -/
structure Rng1U64 where
  start : Nat := 0
  stop : Nat := 0
  deriving DecidableEq

/-- The difference of two `U64`. -/
def Rng1U64.size (rng : Rng1U64) : Nat := (rng.stop + 2 ^ 64 - rng.start) % 2 ^ 64

def Rng1U64.bytes (rng : Rng1U64) : List Nat := List.range' rng.start (rng.stop - rng.start)

/-- What the kernel is asked for: an offset and a `U32` count. -/
def Rng1U64.submitted (rng : Rng1U64) : Rng1U64 := ⟨rng.start, rng.start + rng.size % 2 ^ 32⟩

def chunks (bufSize : Nat) (rng : Rng1U64) : List Rng1U64 :=
  let total := rng.size
  if total ≤ bufSize then [rng]
  else
    let chunkCount := (total + bufSize - 1) % 2 ^ 64 / bufSize
    (List.range chunkCount).map fun i =>
      let start := (rng.start + i * bufSize) % 2 ^ 64
      ⟨start, min ((start + bufSize) % 2 ^ 64) rng.stop⟩

/-- The range is one, and stays below the end of a `U64` with a buffer added to it. -/
def Fits (bufSize : Nat) (rng : Rng1U64) : Prop := rng.start ≤ rng.stop ∧ rng.stop + bufSize ≤ 2 ^ 64

instance (bufSize : Nat) (rng : Rng1U64) : Decidable (Fits bufSize rng) := inferInstanceAs (Decidable (_ ∧ _))

/-! ### Cover -/

section

variable {bufSize : Nat} {rng : Rng1U64}

theorem Fits.size_eq (h : Fits bufSize rng) (hpos : 0 < bufSize) : rng.size = rng.stop - rng.start := by
  obtain ⟨hle, hfits⟩ := h
  rw [Rng1U64.size, show rng.stop + 2 ^ 64 - rng.start = rng.stop - rng.start + 2 ^ 64 by omega, Nat.add_mod_right,
    Nat.mod_eq_of_lt (by omega)]

/-- `n` full chunks in a row. -/
theorem flatMap_range' (start size n : Nat) :
    (List.range n).flatMap (fun i => List.range' (start + i * size) size) = List.range' start (n * size) := by
  induction n with
  | zero => simp
  | succ n ih =>
      rw [List.range_succ, List.flatMap_append, ih, List.flatMap_singleton, Nat.succ_mul, ← List.range'_append_1]

/-- The number of chunks: all but the last are full. -/
theorem chunkCount_eq {total : Nat} (hpos : 0 < bufSize) (htotal : bufSize < total) :
    ∃ n, (total + bufSize - 1) / bufSize = n + 1 ∧ n * bufSize < total ∧ total ≤ n * bufSize + bufSize := by
  have hdiv := Nat.div_add_mod (total + bufSize - 1) bufSize
  have hmod := Nat.mod_lt (total + bufSize - 1) hpos
  have hone : 1 ≤ (total + bufSize - 1) / bufSize := (Nat.one_le_div_iff hpos).mpr (by omega)
  obtain ⟨n, hn⟩ := Nat.exists_eq_add_of_le' hone
  have hmul : bufSize * (n + 1) = n * bufSize + bufSize := by ring
  rw [hn, hmul] at hdiv
  exact ⟨n, hn, by omega, by omega⟩

/-- The chunk at `i`, without wrapping. -/
theorem chunk_eq (h : Fits bufSize rng) {i : Nat} (hi : i * bufSize < rng.stop - rng.start) :
    (⟨(rng.start + i * bufSize) % 2 ^ 64, min (((rng.start + i * bufSize) % 2 ^ 64 + bufSize) % 2 ^ 64) rng.stop⟩ : Rng1U64) =
      ⟨rng.start + i * bufSize, min (rng.start + i * bufSize + bufSize) rng.stop⟩ := by
  obtain ⟨hle, hfits⟩ := h
  have hstart : (rng.start + i * bufSize) % 2 ^ 64 = rng.start + i * bufSize := Nat.mod_eq_of_lt (by omega)
  rw [hstart]
  rcases Nat.lt_or_ge (rng.start + i * bufSize + bufSize) (2 ^ 64) with hlt | hge
  · rw [Nat.mod_eq_of_lt hlt]
  · omega

theorem chunks_eq (h : Fits bufSize rng) (hpos : 0 < bufSize) (hlarge : bufSize < rng.stop - rng.start) :
    ∃ n, n * bufSize < rng.stop - rng.start ∧ rng.stop - rng.start ≤ n * bufSize + bufSize ∧
      chunks bufSize rng = (List.range (n + 1)).map fun i =>
        ⟨rng.start + i * bufSize, min (rng.start + i * bufSize + bufSize) rng.stop⟩ := by
  obtain ⟨n, hcount, hlt, hle⟩ := chunkCount_eq hpos hlarge
  have hmod : (rng.size + bufSize - 1) % 2 ^ 64 = rng.stop - rng.start + bufSize - 1 := by
    rw [h.size_eq hpos]
    exact Nat.mod_eq_of_lt (by have := h.2; omega)
  refine ⟨n, hlt, hle, ?_⟩
  rw [chunks]
  dsimp only
  rw [if_neg (by rw [h.size_eq hpos]; omega), hmod, hcount]
  refine List.map_congr_left fun i hi => chunk_eq h ?_
  have hi : i ≤ n := Nat.le_of_lt_succ (List.mem_range.mp hi)
  exact (Nat.mul_le_mul_right bufSize hi).trans_lt hlt

/-- Every chunk fits in a buffer. -/
theorem chunk_le (h : Fits bufSize rng) (hpos : 0 < bufSize) {c : Rng1U64} (hc : c ∈ chunks bufSize rng) :
    c.start ≤ c.stop ∧ c.stop - c.start ≤ bufSize ∧ c.stop ≤ rng.stop := by
  rcases Nat.lt_or_ge bufSize (rng.stop - rng.start) with hlarge | hsmall
  · obtain ⟨n, hlt, hle, heq⟩ := chunks_eq h hpos hlarge
    rw [heq] at hc
    obtain ⟨i, hi, rfl⟩ := List.mem_map.mp hc
    have hi : i ≤ n := Nat.le_of_lt_succ (List.mem_range.mp hi)
    have hmul := Nat.mul_le_mul_right bufSize hi
    have hstart : rng.start + i * bufSize ≤ rng.stop := by omega
    refine ⟨le_min (Nat.le_add_right _ _) hstart, ?_, min_le_right _ _⟩
    rw [Nat.sub_le_iff_le_add']
    exact min_le_left _ _
  · rw [chunks, if_pos (by rw [h.size_eq hpos]; exact hsmall), List.mem_singleton] at hc
    subst hc
    exact ⟨h.1, hsmall, le_rfl⟩

theorem bytes_submitted (h : Fits bufSize rng) (hpos : 0 < bufSize) (hword : bufSize < 2 ^ 32) {c : Rng1U64}
    (hc : c ∈ chunks bufSize rng) : c.submitted.bytes = c.bytes := by
  obtain ⟨hle, hsize, hstop⟩ := chunk_le h hpos hc
  have hfits : Fits bufSize c := ⟨hle, (Nat.add_le_add_right hstop bufSize).trans h.2⟩
  simp only [Rng1U64.submitted, Rng1U64.bytes, hfits.size_eq hpos]
  rw [Nat.mod_eq_of_lt (by omega), Nat.add_sub_cancel_left]

/-- The submissions of a write cover its range, each byte once and in order. -/
theorem bytes_chunks (h : Fits bufSize rng) (hpos : 0 < bufSize) (hword : bufSize < 2 ^ 32) :
    ((chunks bufSize rng).map Rng1U64.submitted).flatMap Rng1U64.bytes = rng.bytes := by
  have hsubmitted : ((chunks bufSize rng).map Rng1U64.submitted).flatMap Rng1U64.bytes =
      (chunks bufSize rng).flatMap Rng1U64.bytes := by
    rw [List.flatMap_map]
    exact List.flatMap_congr fun c hc => bytes_submitted h hpos hword hc
  rw [hsubmitted]
  rcases Nat.lt_or_ge bufSize (rng.stop - rng.start) with hlarge | hsmall
  · obtain ⟨n, hlt, hle, heq⟩ := chunks_eq h hpos hlarge
    rw [heq, List.flatMap_map, List.range_succ, List.flatMap_append, List.flatMap_singleton]
    have hfull : (List.range n).flatMap (fun i =>
        Rng1U64.bytes ⟨rng.start + i * bufSize, min (rng.start + i * bufSize + bufSize) rng.stop⟩) =
          List.range' rng.start (n * bufSize) := by
      rw [← flatMap_range']
      refine List.flatMap_congr fun i hi => ?_
      have hi : i + 1 ≤ n := List.mem_range.mp hi
      have hmul := Nat.mul_le_mul_right bufSize hi
      rw [Nat.succ_mul] at hmul
      rw [Rng1U64.bytes, min_eq_left (by have := h.1; omega), Nat.add_sub_cancel_left]
    rw [hfull, Rng1U64.bytes, min_eq_right (by have := h.1; omega), Rng1U64.bytes]
    have hlast : rng.stop - (rng.start + n * bufSize) = rng.stop - rng.start - n * bufSize := by omega
    rw [hlast, List.range'_append_1]
    congr 1
    omega
  · rw [chunks, if_pos (by rw [h.size_eq hpos]; exact hsmall), List.flatMap_singleton]

end

end Plexdb.UringFile
