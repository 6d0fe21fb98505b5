import Mathlib

/-! A search through a ring of slots for one that is not in use, from where the last one was found. -/

namespace Plexdb.RoundRobin

/-- The slot at `cur` or the next free one, with `n` slots left to try. -/
def searchFrom (inUse : Nat → Bool) (count : Nat) : (n cur : Nat) → Option Nat
  | 0, _ => none
  | n + 1, cur => if inUse cur = false then some cur else searchFrom inUse count n ((cur + 1) % count)

/-- One round. -/
def search (inUse : Nat → Bool) (count start : Nat) : Option Nat := searchFrom inUse count count start

variable {inUse : Nat → Bool} {count : Nat}

theorem searchFrom_eq_some {n cur idx : Nat} (hcur : cur < count) (h : searchFrom inUse count n cur = some idx) :
    idx < count ∧ inUse idx = false := by
  induction n generalizing cur with
  | zero => cases h
  | succ n ih =>
      rw [searchFrom] at h
      split_ifs at h with hfree
      · obtain rfl := Option.some.inj h
        exact ⟨hcur, hfree⟩
      · exact ih (Nat.mod_lt _ (Nat.zero_lt_of_lt hcur)) h

theorem searchFrom_eq_none {n cur : Nat} (hcur : cur < count) (h : searchFrom inUse count n cur = none) :
    ∀ k < n, inUse ((cur + k) % count) = true := by
  induction n generalizing cur with
  | zero => exact fun k hk => absurd hk (Nat.not_lt_zero k)
  | succ n ih =>
      rw [searchFrom] at h
      split_ifs at h with hfree
      intro k hk
      cases k with
      | zero =>
          rw [Nat.add_zero, Nat.mod_eq_of_lt hcur]
          simpa using hfree
      | succ k =>
          have := ih (Nat.mod_lt _ (Nat.zero_lt_of_lt hcur)) h k (Nat.lt_of_succ_lt_succ hk)
          rwa [Nat.mod_add_mod, Nat.add_assoc, Nat.add_comm 1 k] at this

theorem search_eq_some {start idx : Nat} (hstart : start < count) (h : search inUse count start = some idx) :
    idx < count ∧ inUse idx = false := searchFrom_eq_some hstart h

/-- A round finds a free slot when there is one. -/
theorem search_eq_none_iff {start : Nat} (hstart : start < count) :
    search inUse count start = none ↔ ∀ i < count, inUse i = true := by
  have hpos : 0 < count := Nat.zero_lt_of_lt hstart
  constructor
  · intro h i hi
    have hround := searchFrom_eq_none hstart h ((i + count - start) % count) (Nat.mod_lt _ hpos)
    rwa [Nat.add_mod_mod, show start + (i + count - start) = i + count by omega, Nat.add_mod_right,
      Nat.mod_eq_of_lt hi] at hround
  · intro hall
    cases h : search inUse count start with
    | none => rfl
    | some idx =>
        obtain ⟨hidx, hfree⟩ := search_eq_some hstart h
        cases (hall idx hidx).symm.trans hfree

end Plexdb.RoundRobin
