import Mathlib

/-! Acyclic relations, how they grow, and the depth-first search that relies on them: without a
record of what it visited, the search ends only because no path returns to where it was. -/

namespace Plexdb

open Relation

variable {α : Type*}

def Acyclic (R : α → α → Prop) : Prop := ∀ a, ¬ TransGen R a a

theorem Acyclic.mono {R S : α → α → Prop} (h : Acyclic S) (hsub : ∀ a b, R a b → S a b) : Acyclic R :=
  fun a ha => h a (TransGen.mono hsub _ _ ha)

/-- A path over a relation and new edges out of `u` is either old, or reaches `u` and goes on from
the end of a new edge. -/
theorem transGen_or_through {R S : α → α → Prop} {u : α} {New : α → Prop}
    (hS : ∀ a b, S a b → R a b ∨ (a = u ∧ New b)) {a b : α} (h : TransGen S a b) :
    TransGen R a b ∨ (ReflTransGen R a u ∧ ∃ q, New q ∧ ReflTransGen R q b) := by
  induction h with
  | single hab =>
      rcases hS _ _ hab with hab | ⟨rfl, hb⟩
      · exact Or.inl (TransGen.single hab)
      · exact Or.inr ⟨.refl, _, hb, .refl⟩
  | tail _ hbc ih =>
      rcases hS _ _ hbc with hbc | ⟨rfl, hc⟩
      · rcases ih with hold | ⟨hau, q, hq, hqb⟩
        · exact Or.inl (hold.tail hbc)
        · exact Or.inr ⟨hau, q, hq, hqb.tail hbc⟩
      · rcases ih with hold | ⟨hau, -⟩
        · exact Or.inr ⟨hold.to_reflTransGen, _, hc, .refl⟩
        · exact Or.inr ⟨hau, _, hc, .refl⟩

/-- New edges out of `u` close no cycle when none of them ends where `u` can be reached from. -/
theorem Acyclic.extend {R S : α → α → Prop} {u : α} {New : α → Prop} (h : Acyclic R)
    (hS : ∀ a b, S a b → R a b ∨ (a = u ∧ New b)) (hnew : ∀ q, New q → ¬ ReflTransGen R q u) :
    Acyclic S := by
  intro a ha
  rcases transGen_or_through hS ha with hold | ⟨hau, q, hq, hqa⟩
  · exact h a hold
  · exact hnew q hq (hqa.trans hau)

/-- A rank that falls along every edge, below `n` on the first `n` numbers. -/
theorem Acyclic.exists_rank {R : ℕ → ℕ → Prop} {n : ℕ} (h : Acyclic R) (hn : ∀ a b, R a b → b < n) :
    ∃ rank : ℕ → ℕ, (∀ a b, R a b → rank b < rank a) ∧ ∀ a, a < n → rank a < n := by
  classical
  let below (a : ℕ) : Finset ℕ := (Finset.range n).filter (TransGen R a)
  refine ⟨fun a => (below a).card, fun a b hab => ?_, fun a ha => ?_⟩
  · refine Finset.card_lt_card (Finset.ssubset_iff_of_subset ?_ |>.mpr ⟨b, ?_, ?_⟩)
    · intro c hc
      obtain ⟨hcn, hbc⟩ := Finset.mem_filter.mp hc
      exact Finset.mem_filter.mpr ⟨hcn, TransGen.head hab hbc⟩
    · exact Finset.mem_filter.mpr ⟨Finset.mem_range.mpr (hn a b hab), TransGen.single hab⟩
    · exact fun hb => h b (Finset.mem_filter.mp hb).2
  · have hsub : below a ⊂ Finset.range n :=
      (Finset.ssubset_iff_of_subset (Finset.filter_subset _ _)).mpr
        ⟨a, Finset.mem_range.mpr ha, fun hmem => h a (Finset.mem_filter.mp hmem).2⟩
    calc (below a).card < (Finset.range n).card := Finset.card_lt_card hsub
      _ = n := Finset.card_range n

/-! ### Search -/

/-- Tries the elements from left to right and stops at the first that is true. -/
def anyOf (f : α → Option Bool) : List α → Option Bool
  | [] => some false
  | x :: xs => do
      let found ← f x
      if found then some true else anyOf f xs

theorem anyOf_append (f : α → Option Bool) (xs ys : List α) :
    anyOf f (xs ++ ys) = (do
      let found ← anyOf f xs
      if found then some true else anyOf f ys) := by
  induction xs with
  | nil => rfl
  | cons x xs ih =>
      rw [List.cons_append, anyOf, anyOf, ih]
      cases f x with
      | none => rfl
      | some b => cases b <;> rfl

theorem anyOf_isSome {f : α → Option Bool} {xs : List α} (h : ∀ x ∈ xs, (f x).isSome) :
    (anyOf f xs).isSome := by
  induction xs with
  | nil => rfl
  | cons x xs ih =>
      obtain ⟨hx, hxs⟩ := List.forall_mem_cons.mp h
      obtain ⟨b, hb⟩ := Option.isSome_iff_exists.mp hx
      rw [anyOf, hb]
      cases b with
      | false => exact ih hxs
      | true => rfl

/-- What the search answers is right when each trial is. -/
theorem anyOf_eq_some {f : α → Option Bool} {P : α → Prop} {xs : List α} {b : Bool}
    (hf : ∀ x ∈ xs, ∀ b, f x = some b → (b = true ↔ P x)) (h : anyOf f xs = some b) :
    b = true ↔ ∃ x ∈ xs, P x := by
  induction xs with
  | nil => cases h; simp
  | cons x xs ih =>
      obtain ⟨hfx, hfxs⟩ := List.forall_mem_cons.mp hf
      obtain ⟨b', hb', h⟩ := Option.bind_eq_some_iff.mp h
      rw [List.exists_mem_cons_iff]
      have hPx := hfx b' hb'
      cases b' with
      | true =>
          cases h
          exact iff_of_true rfl (Or.inl (hPx.mp rfl))
      | false =>
          rw [ih hfxs h]
          exact ⟨Or.inr, fun hor => hor.resolve_left fun hx => Bool.noConfusion (hPx.mpr hx)⟩

variable [DecidableEq α]

/-- Looks for `target` from `a` along `next`, at most `fuel` edges deep. -/
def search (next : α → List α) (target : α) : ℕ → α → Option Bool
  | 0, a => if a = target then some true else none
  | fuel + 1, a => if a = target then some true else anyOf (search next target fuel) (next a)

theorem search_eq_some {next : α → List α} {target : α} {fuel : ℕ} {a : α} {b : Bool}
    (h : search next target fuel a = some b) :
    b = true ↔ ReflTransGen (fun x y => y ∈ next x) a target := by
  induction fuel generalizing a b with
  | zero =>
      rw [search] at h
      split_ifs at h with heq
      cases h
      exact iff_of_true rfl (heq ▸ .refl)
  | succ fuel ih =>
      rw [search] at h
      split_ifs at h with heq
      · cases h
        exact iff_of_true rfl (heq ▸ .refl)
      · rw [anyOf_eq_some (fun a _ b hb => ih hb) h]
        constructor
        · rintro ⟨c, hc, hpath⟩
          exact .head hc hpath
        · intro hpath
          rcases hpath.cases_head with rfl | ⟨c, hc, hpath⟩
          · exact absurd rfl heq
          · exact ⟨c, hc, hpath⟩

/-- The search ends within the rank of where it starts. -/
theorem search_isSome {next : α → List α} {rank : α → ℕ} (hrank : ∀ a, ∀ b ∈ next a, rank b < rank a)
    (target : α) {fuel : ℕ} {a : α} (h : rank a < fuel) : (search next target fuel a).isSome := by
  induction fuel generalizing a with
  | zero => omega
  | succ fuel ih =>
      rw [search]
      split_ifs
      · rfl
      · exact anyOf_isSome fun b hb => ih (by have := hrank a b hb; omega)

/-! ### Fuel -/

omit [DecidableEq α] in
theorem anyOf_mono {f g : α → Option Bool} {xs : List α} {b : Bool}
    (hfg : ∀ x ∈ xs, ∀ b, f x = some b → g x = some b) (h : anyOf f xs = some b) : anyOf g xs = some b := by
  induction xs with
  | nil => exact h
  | cons x xs ih =>
      obtain ⟨hx, hxs⟩ := List.forall_mem_cons.mp hfg
      obtain ⟨b', hb', h⟩ := Option.bind_eq_some_iff.mp h
      rw [anyOf, hx b' hb']
      cases b' with
      | true => exact h
      | false => exact ih hxs h

omit [DecidableEq α] in
theorem anyOf_congr {f g : α → Option Bool} {xs : List α} (hfg : ∀ x ∈ xs, f x = g x) :
    anyOf f xs = anyOf g xs := by
  induction xs with
  | nil => rfl
  | cons x xs ih =>
      obtain ⟨hx, hxs⟩ := List.forall_mem_cons.mp hfg
      rw [anyOf, anyOf, hx, ih hxs]

/-- More fuel does not change an answer. -/
theorem search_mono {next : α → List α} {target : α} {fuel fuel' : ℕ} (hle : fuel ≤ fuel') {a : α}
    {b : Bool} (h : search next target fuel a = some b) : search next target fuel' a = some b := by
  induction fuel generalizing fuel' a b with
  | zero =>
      rw [search] at h
      split_ifs at h with heq
      cases fuel' with
      | zero => rwa [search, if_pos heq]
      | succ fuel' => rwa [search, if_pos heq]
  | succ fuel ih =>
      obtain ⟨fuel', rfl⟩ : ∃ n, fuel' = n + 1 := ⟨fuel' - 1, by omega⟩
      rw [search] at h ⊢
      split_ifs at h ⊢ with heq
      · exact h
      · exact anyOf_mono (fun x _ b hb => ih (by omega) hb) h

section Stuck

variable {next : ℕ → List ℕ} {target n : ℕ}

/-- The starting points from which the search runs out of fuel. -/
def stuck (next : ℕ → List ℕ) (target n fuel : ℕ) : Finset ℕ :=
  (Finset.range n).filter fun a => search next target fuel a = none

theorem stuck_subset (fuel : ℕ) : stuck next target n (fuel + 1) ⊆ stuck next target n fuel := by
  intro a ha
  obtain ⟨han, hnone⟩ := Finset.mem_filter.mp ha
  refine Finset.mem_filter.mpr ⟨han, ?_⟩
  cases h : search next target fuel a with
  | none => rfl
  | some b =>
      rw [search_mono (Nat.le_succ fuel) h] at hnone
      cases hnone

theorem search_succ_of_stuck_eq {fuel : ℕ} (h : stuck next target n (fuel + 1) = stuck next target n fuel)
    {a : ℕ} (ha : a < n) : search next target (fuel + 1) a = search next target fuel a := by
  cases hs : search next target fuel a with
  | some b => exact search_mono (Nat.le_succ fuel) hs
  | none =>
      have hmem : a ∈ stuck next target n fuel := Finset.mem_filter.mpr ⟨Finset.mem_range.mpr ha, hs⟩
      rw [← h] at hmem
      exact (Finset.mem_filter.mp hmem).2

/-- Once one more step of fuel helps nowhere, no fuel helps. -/
theorem search_eq_of_stuck_eq (hnext : ∀ a, ∀ b ∈ next a, b < n) {fuel : ℕ}
    (h : stuck next target n (fuel + 1) = stuck next target n fuel) (k : ℕ) {a : ℕ} (ha : a < n) :
    search next target (fuel + k) a = search next target fuel a := by
  induction k generalizing a with
  | zero => rfl
  | succ k ih =>
      rw [← search_succ_of_stuck_eq h ha, ← Nat.add_assoc, search, search]
      split_ifs
      · rfl
      · exact anyOf_congr fun b hb => ih (hnext a b hb)

theorem exists_stuck_eq (next : ℕ → List ℕ) (target n : ℕ) :
    ∃ fuel ≤ n, stuck next target n (fuel + 1) = stuck next target n fuel := by
  by_contra hne
  have hshrink : ∀ fuel ≤ n + 1, (stuck next target n fuel).card + fuel ≤ n := by
    intro fuel hfuel
    induction fuel with
    | zero => exact (Finset.card_filter_le _ _).trans (Finset.card_range n).le
    | succ fuel ih =>
        have hlt : (stuck next target n (fuel + 1)).card < (stuck next target n fuel).card :=
          Finset.card_lt_card ((stuck_subset fuel).ssubset_of_ne fun heq => hne ⟨fuel, by omega, heq⟩)
        have := ih (by omega)
        omega
  have := hshrink (n + 1) le_rfl
  omega

/-- A search that ends with any fuel ends within as many steps as there are nodes. -/
theorem search_within (hnext : ∀ a, ∀ b ∈ next a, b < n) {fuel a : ℕ} {b : Bool} (ha : a < n)
    (h : search next target fuel a = some b) : search next target n a = some b := by
  obtain ⟨stop, hstop, heq⟩ := exists_stuck_eq next target n
  have hfixed := search_eq_of_stuck_eq hnext heq
  have hmore := search_mono (Nat.le_add_left fuel stop) h
  rw [hfixed fuel ha, ← hfixed (n - stop) ha, Nat.add_sub_cancel' hstop] at hmore
  exact hmore

end Stuck

end Plexdb
