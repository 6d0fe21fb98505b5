import Mathlib

/-! The split of `[0, N)` into `n` ranges by `t ↦ ⌊t * n / N⌋`: it is monotone, every range is an interval,
and the intervals' sizes differ by at most one. -/

namespace Plexdb.EvenSplit

/-- The first member of the `i`-th range: `⌈i * N / n⌉`. -/
def start (N n i : ℕ) : ℕ := (i * N) ⌈/⌉ n

variable {N n : ℕ}

theorem start_le_iff (hn : 0 < n) {i t : ℕ} : start N n i ≤ t ↔ i * N ≤ t * n := by
  rw [start, ceilDiv_le_iff_le_mul hn, Nat.mul_comm n t]

theorem part_mono {s t : ℕ} (h : s ≤ t) : s * n / N ≤ t * n / N :=
  Nat.div_le_div_right (Nat.mul_le_mul_right n h)

theorem part_lt (hn : 0 < n) {t : ℕ} (ht : t < N) : t * n / N < n := by
  apply Nat.div_lt_of_lt_mul
  exact Nat.mul_lt_mul_of_pos_right ht hn

/-- The members of the `i`-th range are those from its start up to the next range's. -/
theorem part_eq_iff (hN : 0 < N) (hn : 0 < n) {i t : ℕ} :
    t * n / N = i ↔ start N n i ≤ t ∧ t < start N n (i + 1) := by
  rw [start_le_iff hn, ← Nat.not_le, start_le_iff hn, Nat.div_eq_iff hN, Nat.add_mul]
  omega

theorem start_last (hn : 0 < n) : start N n n = N := by
  apply Nat.le_antisymm
  · rw [start_le_iff hn, Nat.mul_comm]
  · have h := (start_le_iff (N := N) hn (i := n) (t := start N n n)).mp le_rfl
    rw [Nat.mul_comm n N] at h
    exact Nat.le_of_mul_le_mul_right h hn

theorem start_mono (hn : 0 < n) {i j : ℕ} (h : i ≤ j) : start N n i ≤ start N n j := by
  rw [start_le_iff hn]
  calc i * N ≤ j * N := Nat.mul_le_mul_right N h
    _ ≤ start N n j * n := (start_le_iff hn).mp le_rfl

/-- A start times the number of ranges is the exact cut, rounded up to a multiple of `n`. -/
theorem start_mul (hn : 0 < n) (i : ℕ) : i * N ≤ start N n i * n ∧ start N n i * n < i * N + n := by
  refine ⟨(start_le_iff hn).mp le_rfl, ?_⟩
  by_contra hge
  have hpos : 0 < start N n i := by
    rcases Nat.eq_zero_or_pos (start N n i) with h0 | h0
    · rw [h0] at hge
      omega
    · exact h0
  have hle : start N n i ≤ start N n i - 1 := by
    rw [start_le_iff hn, Nat.sub_mul]
    omega
  omega

/-- No range holds more than one member more than another. -/
theorem size_le (hn : 0 < n) (i j : ℕ) :
    start N n (i + 1) - start N n i ≤ start N n (j + 1) - start N n j + 1 := by
  have hi := start_mul (N := N) hn i
  have hi' := start_mul (N := N) hn (i + 1)
  have hj := start_mul (N := N) hn j
  have hj' := start_mul (N := N) hn (j + 1)
  have hle := start_mono (N := N) hn (Nat.le_succ j)
  rw [Nat.add_mul] at hi' hj'
  by_contra hlt
  have hmul : (start N n (j + 1) + 2 + start N n i) * n ≤ (start N n (i + 1) + start N n j) * n := by
    apply Nat.mul_le_mul_right
    omega
  simp only [Nat.add_mul] at hmul
  omega

/-- The numbers below `N` whose part is the `i`-th are an interval's. -/
theorem filter_part (hN : 0 < N) (hn : 0 < n) {i : ℕ} (hi : i < n) :
    (Finset.range N).filter (fun t => t * n / N = i) = Finset.Ico (start N n i) (start N n (i + 1)) := by
  have hlast : start N n (i + 1) ≤ N := (start_mono hn hi).trans_eq (start_last hn)
  ext t
  rw [Finset.mem_filter, Finset.mem_range, Finset.mem_Ico, part_eq_iff hN hn]
  exact ⟨fun h => h.2, fun h => ⟨h.2.trans_le hlast, h⟩⟩

end Plexdb.EvenSplit
