import Mathlib

/-! A queue in a ring of `N` slots. The slot before the head stays free, so that a full ring differs from
an empty one, and the ring holds at most `N - 1` values. -/

namespace Plexdb

structure RingFifo (α : Type) (N : Nat) where
  slots : Nat → Option α := fun _ => none
  head : Nat := 0
  tail : Nat := 0

namespace RingFifo

variable {α : Type} {N : Nat}

def empty (r : RingFifo α N) : Bool := r.head = r.tail

def full (r : RingFifo α N) : Bool := (r.tail + 1) % N = r.head

/-- Appends, in spite of its name. -/
def pushFront (r : RingFifo α N) (a : α) : Option (RingFifo α N) :=
  if r.full then none
  else some { r with slots := Function.update r.slots r.tail (some a), tail := (r.tail + 1) % N }

def popFront (r : RingFifo α N) : Option (α × RingFifo α N) :=
  if r.empty then none
  else (r.slots r.head).map fun a => (a, { r with head := (r.head + 1) % N })

/-- The ring holds the values of `q`, the first of them at the head. -/
structure Holds (r : RingFifo α N) (q : List α) : Prop where
  head_lt : r.head < N
  tail_eq : r.tail = (r.head + q.length) % N
  length_lt : q.length < N
  slot : ∀ i (hi : i < q.length), r.slots ((r.head + i) % N) = some q[i]

theorem holds_nil (hN : 0 < N) : Holds ({} : RingFifo α N) [] :=
  ⟨hN, (Nat.zero_mod N).symm, hN, fun i hi => absurd hi (Nat.not_lt_zero i)⟩

/-- Slots that are less than a round apart are different. -/
theorem index_inj {h i j : Nat} (hi : i < N) (hj : j < N) (heq : (h + i) % N = (h + j) % N) : i = j := by
  have hmod : i ≡ j [MOD N] := Nat.ModEq.add_left_cancel' h heq
  exact Nat.ModEq.eq_of_lt_of_lt hmod hi hj

variable {r : RingFifo α N} {q : List α}

theorem Holds.empty_iff (h : Holds r q) : r.empty = true ↔ q = [] := by
  rw [empty, decide_eq_true_eq, h.tail_eq]
  constructor
  · intro heq
    have hzero : (r.head + 0) % N = (r.head + q.length) % N := by
      rw [← heq, Nat.add_zero, Nat.mod_eq_of_lt h.head_lt]
    have hlt : 0 < N := Nat.lt_of_le_of_lt (Nat.zero_le _) h.head_lt
    exact List.length_eq_zero_iff.mp (index_inj hlt h.length_lt hzero).symm
  · rintro rfl
    rw [List.length_nil, Nat.add_zero, Nat.mod_eq_of_lt h.head_lt]

theorem Holds.full_iff (h : Holds r q) : r.full = true ↔ q.length + 1 = N := by
  have hlen := h.length_lt
  have hhead := h.head_lt
  rw [full, decide_eq_true_eq, h.tail_eq, Nat.mod_add_mod, Nat.add_assoc]
  constructor
  · intro heq
    by_contra hne
    have hzero : (r.head + (q.length + 1)) % N = (r.head + 0) % N := by
      rw [heq, Nat.add_zero, Nat.mod_eq_of_lt hhead]
    have := index_inj (by omega) (by omega) hzero
    omega
  · intro heq
    rw [heq, Nat.add_mod_right, Nat.mod_eq_of_lt hhead]

theorem Holds.pushFront (h : Holds r q) (hroom : q.length + 1 < N) (a : α) :
    ∃ r', r.pushFront a = some r' ∧ Holds r' (q ++ [a]) := by
  have hnot : ¬ r.full = true := fun hfull => by
    have := h.full_iff.mp hfull
    omega
  refine ⟨_, if_neg hnot, h.head_lt, ?_, ?_, fun i hi => ?_⟩
  · change (r.tail + 1) % N = _
    rw [h.tail_eq, Nat.mod_add_mod, List.length_append, List.length_singleton, Nat.add_assoc]
  · rw [List.length_append, List.length_singleton]
    exact hroom
  · rw [List.length_append, List.length_singleton] at hi
    change Function.update r.slots r.tail (some a) ((r.head + i) % N) = _
    by_cases hlast : i < q.length
    · have hne : (r.head + i) % N ≠ r.tail := fun heq => by
        rw [h.tail_eq] at heq
        have := index_inj (by omega) h.length_lt heq
        omega
      rw [Function.update_of_ne hne, h.slot i hlast, List.getElem_append_left hlast]
    · obtain rfl : i = q.length := by omega
      rw [← h.tail_eq, Function.update_self, List.getElem_concat_length rfl]

theorem Holds.popFront {a : α} (h : Holds r (a :: q)) : ∃ r', r.popFront = some (a, r') ∧ Holds r' q := by
  have hlen := h.length_lt
  rw [List.length_cons] at hlen
  have hnot : ¬ r.empty = true := fun hempty => List.cons_ne_nil a q (h.empty_iff.mp hempty)
  have hfirst : r.slots r.head = some a := by
    have := h.slot 0 (Nat.succ_pos _)
    rwa [Nat.add_zero, Nat.mod_eq_of_lt h.head_lt] at this
  refine ⟨{ r with head := (r.head + 1) % N }, ?_, Nat.mod_lt _ (by omega), ?_, by omega, fun i hi => ?_⟩
  · rw [RingFifo.popFront, if_neg hnot, hfirst]
    rfl
  · change r.tail = ((r.head + 1) % N + q.length) % N
    rw [h.tail_eq, Nat.mod_add_mod, List.length_cons]
    congr 1
    omega
  · change r.slots (((r.head + 1) % N + i) % N) = _
    have := h.slot (i + 1) (Nat.succ_lt_succ hi)
    rw [Nat.mod_add_mod, Nat.add_assoc, Nat.add_comm 1 i, this, List.getElem_cons_succ]

end RingFifo

end Plexdb
