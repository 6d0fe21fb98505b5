import Mathlib

/-! Comparisons that answer with a sign: of the elements of a linear order, and of lists of them component by
component, where some components are reversed. -/

namespace Plexdb

/-- `-1`, `0` or `1`. -/
def compareScalar {α : Type _} [LinearOrder α] (a b : α) : Int := if a < b then -1 else if b < a then 1 else 0

section

variable {α β : Type _} [LinearOrder α] [LinearOrder β] {a b c : α}

theorem compareScalar_of_lt (h : a < b) : compareScalar a b = -1 := if_pos h

theorem compareScalar_of_gt (h : b < a) : compareScalar a b = 1 := by
  rw [compareScalar, if_neg h.not_gt, if_pos h]

@[simp]
theorem compareScalar_self (a : α) : compareScalar a a = 0 := by
  rw [compareScalar, if_neg (lt_irrefl a), if_neg (lt_irrefl a)]

theorem compareScalar_swap (a b : α) : compareScalar b a = -compareScalar a b := by
  rcases lt_trichotomy a b with h | rfl | h
  · rw [compareScalar_of_lt h, compareScalar_of_gt h, neg_neg]
  · rw [compareScalar_self, neg_zero]
  · rw [compareScalar_of_lt h, compareScalar_of_gt h]

theorem compareScalar_eq_zero_iff : compareScalar a b = 0 ↔ a = b := by
  rcases lt_trichotomy a b with h | rfl | h
  · rw [compareScalar_of_lt h]
    exact iff_of_false (by decide) h.ne
  · exact iff_of_true (compareScalar_self a) rfl
  · rw [compareScalar_of_gt h]
    exact iff_of_false (by decide) h.ne'

theorem compareScalar_neg_iff : compareScalar a b < 0 ↔ a < b := by
  rcases lt_trichotomy a b with h | rfl | h
  · rw [compareScalar_of_lt h]
    exact iff_of_true (by decide) h
  · rw [compareScalar_self]
    exact iff_of_false (lt_irrefl 0) (lt_irrefl a)
  · rw [compareScalar_of_gt h]
    exact iff_of_false (by decide) h.not_gt

theorem compareScalar_map {f : α → β} (hf : StrictMono f) (a b : α) : compareScalar (f a) (f b) = compareScalar a b := by
  rw [compareScalar, compareScalar, if_congr hf.lt_iff_lt rfl (if_congr hf.lt_iff_lt rfl rfl)]

theorem compareScalar_anti {f : α → β} (hf : StrictAnti f) (a b : α) :
    compareScalar (f a) (f b) = -compareScalar a b := by
  rw [← compareScalar_swap, compareScalar, compareScalar, if_congr hf.lt_iff_gt rfl (if_congr hf.lt_iff_gt rfl rfl)]

/-- The first components decide unless they are equal. -/
theorem compareScalar_cons (a b : α) (as bs : List α) :
    compareScalar (a :: as) (b :: bs) = if compareScalar a b ≠ 0 then compareScalar a b else compareScalar as bs := by
  rcases lt_trichotomy a b with h | rfl | h
  · rw [compareScalar_of_lt h, if_pos (by decide)]
    exact compareScalar_of_lt (List.cons_lt_cons_iff.mpr (Or.inl h))
  · rw [compareScalar_self, if_neg (by simp)]
    have hcons : StrictMono (List.cons a) := fun _ _ h => List.cons_lt_cons_iff.mpr (Or.inr ⟨rfl, h⟩)
    exact compareScalar_map hcons as bs
  · rw [compareScalar_of_gt h, if_pos (by decide)]
    exact compareScalar_of_gt (List.cons_lt_cons_iff.mpr (Or.inl h))

theorem compareScalar_singleton (a b : α) : compareScalar [a] [b] = compareScalar a b := by
  rw [compareScalar_cons, compareScalar_self ([] : List α)]
  exact ite_eq_left_iff.mpr fun h => (not_not.mp h).symm

/-! ### Components -/

/-- The sign for a component, reversed or not. -/
def directed (reversed : Bool) (c : Int) : Int := if reversed then -c else c

/-- The first component that is not equal decides. -/
def compareLex : List Bool → List α → List α → Int
  | reversed :: rs, a :: as, b :: bs =>
      if directed reversed (compareScalar a b) ≠ 0 then directed reversed (compareScalar a b) else compareLex rs as bs
  | _, _, _ => 0

theorem directed_eq_zero_iff {reversed : Bool} {c : Int} : directed reversed c = 0 ↔ c = 0 := by
  cases reversed with
  | false => exact Iff.rfl
  | true => exact neg_eq_zero

theorem directed_neg (reversed : Bool) (c : Int) : directed reversed (-c) = -directed reversed c := by
  cases reversed <;> rfl

/-- A component as a comparison of the order or of its dual. -/
theorem directed_neg_iff {reversed : Bool} :
    directed reversed (compareScalar a b) < 0 ↔ if reversed then b < a else a < b := by
  cases reversed with
  | false => exact compareScalar_neg_iff
  | true =>
      rw [directed, if_pos rfl, if_pos rfl, ← compareScalar_swap]
      exact compareScalar_neg_iff

/-- Equal components leave the comparison to those behind them. -/
theorem compareLex_append {rs ss : List Bool} {xs as bs : List α} (h : xs.length = rs.length) :
    compareLex (rs ++ ss) (xs ++ as) (xs ++ bs) = compareLex ss as bs := by
  induction rs generalizing xs with
  | nil =>
      rw [List.length_nil, List.length_eq_zero_iff] at h
      rw [h]
      rfl
  | cons reversed rs ih =>
      obtain ⟨x, xs, rfl⟩ := List.exists_cons_of_length_eq_add_one h
      rw [List.cons_append, List.cons_append, List.cons_append, compareLex, ih (Nat.succ.inj h)]
      exact if_neg (not_not.mpr (directed_eq_zero_iff.mpr (compareScalar_self x)))

theorem compareLex_swap (rs : List Bool) (as bs : List α) : compareLex rs bs as = -compareLex rs as bs := by
  induction rs generalizing as bs with
  | nil => simp [compareLex]
  | cons reversed rs ih =>
      cases as with
      | nil => cases bs <;> simp [compareLex]
      | cons a as =>
          cases bs with
          | nil => simp [compareLex]
          | cons b bs =>
              simp only [compareLex, compareScalar_swap a b, directed_neg, neg_ne_zero, ih as bs]
              split_ifs <;> rfl

theorem compareLex_eq_zero_iff {rs : List Bool} {as bs : List α} (ha : as.length = rs.length)
    (hb : bs.length = rs.length) : compareLex rs as bs = 0 ↔ as = bs := by
  induction rs generalizing as bs with
  | nil =>
      rw [List.length_nil, List.length_eq_zero_iff] at ha hb
      rw [ha, hb]
      exact iff_of_true rfl rfl
  | cons reversed rs ih =>
      obtain ⟨a, as, rfl⟩ := List.exists_cons_of_length_eq_add_one ha
      obtain ⟨b, bs, rfl⟩ := List.exists_cons_of_length_eq_add_one hb
      have ih := ih (Nat.succ.inj ha) (Nat.succ.inj hb)
      rw [compareLex, List.cons.injEq, ← ih]
      split_ifs with hne
      · exact iff_of_false hne fun h => hne (directed_eq_zero_iff.mpr (compareScalar_eq_zero_iff.mpr h.1))
      · have heq := compareScalar_eq_zero_iff.mp (directed_eq_zero_iff.mp (not_not.mp hne))
        exact (and_iff_right heq).symm

theorem compareLex_trans {rs : List Bool} {as bs cs : List α} (ha : as.length = rs.length) (hb : bs.length = rs.length)
    (hc : cs.length = rs.length) (hab : compareLex rs as bs ≤ 0) (hbc : compareLex rs bs cs ≤ 0) :
    compareLex rs as cs ≤ 0 := by
  induction rs generalizing as bs cs with
  | nil => simp [compareLex]
  | cons reversed rs ih =>
      obtain ⟨a, as, rfl⟩ := List.exists_cons_of_length_eq_add_one ha
      obtain ⟨b, bs, rfl⟩ := List.exists_cons_of_length_eq_add_one hb
      obtain ⟨c, cs, rfl⟩ := List.exists_cons_of_length_eq_add_one hc
      have ih := @ih as bs cs (Nat.succ.inj ha) (Nat.succ.inj hb) (Nat.succ.inj hc)
      -- a component is less, or equal and the rest decides
      have hle : ∀ (x y : α) (xs ys : List α), compareLex (reversed :: rs) (x :: xs) (y :: ys) ≤ 0 ↔
          (if reversed then y < x else x < y) ∨ x = y ∧ compareLex rs xs ys ≤ 0 := by
        intro x y xs ys
        rw [compareLex, ← directed_neg_iff]
        split_ifs with hne
        · have hxy : x ≠ y := fun heq => hne (directed_eq_zero_iff.mpr (compareScalar_eq_zero_iff.mpr heq))
          constructor
          · exact fun h => Or.inl (lt_of_le_of_ne h hne)
          · exact fun h => h.elim le_of_lt fun hand => absurd hand.1 hxy
        · have hxy := compareScalar_eq_zero_iff.mp (directed_eq_zero_iff.mp (not_not.mp hne))
          rw [not_not.mp hne]
          constructor
          · exact fun h => Or.inr ⟨hxy, h⟩
          · exact fun h => h.elim (fun h => absurd h (lt_irrefl 0)) And.right
      rw [hle] at hab hbc ⊢
      rcases hab with hab | ⟨rfl, hab⟩
      · rcases hbc with hbc | ⟨rfl, -⟩
        · refine Or.inl ?_
          split_ifs at hab hbc ⊢
          · exact hbc.trans hab
          · exact hab.trans hbc
        · exact Or.inl hab
      · rcases hbc with hbc | ⟨rfl, hbc⟩
        · exact Or.inl hbc
        · exact Or.inr ⟨rfl, ih hab hbc⟩

end

end Plexdb
