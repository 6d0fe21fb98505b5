import Mathlib.Data.List.TakeDrop

/-! Data taken in blocks of a fixed size: what is done to a state block by block, and what is left of the data. -/

namespace BlockStream

variable {σ α : Type*} {n : Nat} {step : σ → List α → σ}

/-- Steps over the full blocks of the data, and what is left behind them. -/
def absorb (n : Nat) (step : σ → List α → σ) (s : σ) (data : List α) : σ × List α :=
  if _h : 0 < n ∧ n ≤ data.length then absorb n step (step s (data.take n)) (data.drop n) else (s, data)
  termination_by data.length
  decreasing_by
    rw [List.length_drop]
    omega

theorem absorb_short (s : σ) {data : List α} (h : data.length < n) : absorb n step s data = (s, data) := by
  rw [absorb, dif_neg fun hfull => absurd hfull.2 (Nat.not_le.mpr h)]

theorem absorb_block (s : σ) {data : List α} (hpos : 0 < n) (h : n ≤ data.length) :
    absorb n step s data = absorb n step (step s (data.take n)) (data.drop n) := by
  rw [absorb, dif_pos ⟨hpos, h⟩]

/-- Less than a block is left. -/
theorem length_absorb_lt (hpos : 0 < n) (s : σ) (data : List α) : (absorb n step s data).2.length < n := by
  induction s, data using absorb.induct n step with
  | case1 s data h ih => rwa [absorb_block s hpos h.2]
  | case2 s data h =>
      have hshort : data.length < n := Nat.lt_of_not_le fun hle => h ⟨hpos, hle⟩
      rwa [absorb_short s hshort]

/-- What was left is taken first when more data comes. -/
theorem absorb_append (hpos : 0 < n) (s : σ) (data more : List α) :
    absorb n step s (data ++ more) =
      absorb n step (absorb n step s data).1 ((absorb n step s data).2 ++ more) := by
  induction s, data using absorb.induct n step with
  | case1 s data h ih =>
      have hle : n ≤ (data ++ more).length := by
        rw [List.length_append]
        omega
      rw [absorb_block s hpos hle, List.take_append_of_le_length h.2, List.drop_append_of_le_length h.2, ih,
        absorb_block s hpos h.2]
  | case2 s data h =>
      have hshort : data.length < n := Nat.lt_of_not_le fun hle => h ⟨hpos, hle⟩
      rw [absorb_short s hshort]

end BlockStream
