import Plexdb.BTreeShape
import Plexdb.SortedEntries

/-! The order of the keys in a B+tree, and what the search within a node finds. -/

namespace Plexdb.BTree

variable {κ ν : Type}

/-! ### Lists at the position behind a part -/

section

variable {α : Type} {l r : List α} {a b : α}

theorem getElem?_length : (l ++ a :: r)[l.length]? = some a := by
  rw [List.getElem?_append_right le_rfl, Nat.sub_self]
  rfl

theorem getElem?_length_succ : (l ++ a :: b :: r)[l.length + 1]? = some b := by
  rw [List.getElem?_append_right (Nat.le_succ _), show l.length + 1 - l.length = 1 by omega]
  rfl

theorem getElem?_map_length {β : Type} (f : α → β) : ((l ++ a :: r).map f)[l.length]? = some (f a) := by
  rw [List.getElem?_map, getElem?_length]
  rfl

theorem insertIdx_length : (l ++ r).insertIdx l.length a = l ++ a :: r := by
  induction l with
  | nil => exact List.insertIdx_zero
  | cons x l ih => exact congrArg (x :: ·) ih

theorem insertIdx_length_succ : (l ++ a :: r).insertIdx (l.length + 1) b = l ++ a :: b :: r := by
  induction l with
  | nil => exact congrArg (a :: ·) List.insertIdx_zero
  | cons x l ih => exact congrArg (x :: ·) ih

theorem set_length : (l ++ a :: r).set l.length b = l ++ b :: r := by
  induction l with
  | nil => rfl
  | cons x l ih => exact congrArg (x :: ·) ih

theorem eraseIdx_length : (l ++ a :: r).eraseIdx l.length = l ++ r := by
  induction l with
  | nil => rfl
  | cons x l ih => exact congrArg (x :: ·) ih

theorem eraseIdx_length_succ : (l ++ a :: b :: r).eraseIdx (l.length + 1) = l ++ a :: r := by
  induction l with
  | nil => rfl
  | cons x l ih => exact congrArg (x :: ·) ih

end

/-! ### Marks -/

def Mark.key? : Mark κ → Option κ
  | .sep _ => none
  | .key k => some k

/-- The marks behind the first child of a node. -/
def trail : List κ → List (List (Mark κ)) → List (Mark κ)
  | k :: ks, ms => .sep k :: interleave ks ms
  | [], ms => ms.flatten

theorem interleave_cons (ks : List κ) (m : List (Mark κ)) (ms : List (List (Mark κ))) :
    interleave ks (m :: ms) = m ++ trail ks ms := by
  cases ks <;> rfl

theorem interleave_append {kl kr : List κ} {ml mr : List (List (Mark κ))} (hlen : kl.length = ml.length) :
    interleave (kl ++ kr) (ml ++ mr) = interleave kl ml ++ interleave kr mr := by
  induction kl generalizing ml with
  | nil =>
      obtain rfl := List.eq_nil_of_length_eq_zero hlen.symm
      rfl
  | cons k kl ih =>
      cases ml with
      | nil => cases hlen
      | cons m ml =>
          rw [List.cons_append, List.cons_append, interleave, interleave, ih (Nat.succ.inj hlen), List.append_assoc]
          rfl

theorem interleave_snoc {kl : List κ} {ml : List (List (Mark κ))} {k : κ} {m : List (Mark κ)}
    (hlen : kl.length = ml.length) : interleave (kl ++ [k]) (ml ++ [m]) = interleave kl ml ++ (m ++ [.sep k]) := by
  rw [interleave_append hlen]
  rfl

theorem filterMap_interleave (ks : List κ) (ms : List (List (Mark κ))) :
    (interleave ks ms).filterMap Mark.key? = ms.flatMap fun m => m.filterMap Mark.key? := by
  induction ms generalizing ks with
  | nil => cases ks <;> rfl
  | cons m ms ih =>
      cases ks with
      | nil =>
          change ((m :: ms).flatten).filterMap Mark.key? = _
          rw [List.flatten_cons, List.filterMap_append, List.flatMap_cons, ← ih []]
          cases ms <;> rfl
      | cons k ks =>
          rw [interleave, List.filterMap_append, List.flatMap_cons, ← ih ks]
          rfl

theorem sep_mem_interleave {ks : List κ} {ms : List (List (Mark κ))} (hlen : ks.length ≤ ms.length) :
    (ks.map Mark.sep).Sublist (interleave ks ms) := by
  induction ms generalizing ks with
  | nil =>
      obtain rfl := List.eq_nil_of_length_eq_zero (Nat.le_zero.mp hlen)
      exact List.nil_sublist _
  | cons m ms ih =>
      cases ks with
      | nil => exact List.nil_sublist _
      | cons k ks =>
          exact ((ih (Nat.le_of_succ_le_succ hlen)).cons_cons _).trans (List.sublist_append_right m _)

namespace Tree

variable {n : Nat} {t : Tree κ ν n}

theorem keys_of_marks (t : Tree κ ν n) : t.marks.filterMap Mark.key? = t.entries.map (·.1) := by
  induction n with
  | zero =>
      change ((leaf t).keys.map Mark.key).filterMap Mark.key? = (leaf t).entries.map (·.1)
      rw [List.filterMap_map]
      exact List.filterMap_some
  | succ n ih =>
      change (interleave _ ((internal t).children.map marks)).filterMap Mark.key? =
        ((internal t).children.flatMap entries).map (·.1)
      rw [filterMap_interleave, List.map_flatMap, List.flatMap_map]
      exact List.flatMap_congr fun c _ => ih c

theorem key_mem_marks {e : κ × ν} (he : e ∈ t.entries) : Mark.key e.1 ∈ t.marks := by
  have hmem : e.1 ∈ t.marks.filterMap Mark.key? := by
    rw [keys_of_marks]
    exact List.mem_map_of_mem he
  obtain ⟨m, hm, hkey⟩ := List.mem_filterMap.mp hmem
  cases m with
  | sep k => cases hkey
  | key k =>
      cases hkey
      exact hm

end Tree

/-! ### Binary search -/

theorem searchLoop_eq {below : κ → Bool} {front back : List κ} (hfront : ∀ k ∈ front, below k = true)
    (hback : ∀ k ∈ back, below k = false) {fuel lo hi : Nat} (hlo : lo ≤ front.length) (hhi : front.length ≤ hi)
    (hlen : hi ≤ (front ++ back).length) (hfuel : hi - lo ≤ fuel) :
    searchLoop below (front ++ back) fuel lo hi = front.length := by
  induction fuel generalizing lo hi with
  | zero =>
      rw [searchLoop]
      omega
  | succ fuel ih =>
      rw [searchLoop]
      split_ifs with hlt
      · dsimp only
        have hmid : lo + (hi - lo) / 2 < (front ++ back).length := by omega
        rw [List.getElem?_eq_getElem hmid]
        dsimp only
        rcases lt_or_ge (lo + (hi - lo) / 2) front.length with hleft | hright
        · have hbelow : below (front ++ back)[lo + (hi - lo) / 2] = true := by
            rw [List.getElem_append_left hleft]
            exact hfront _ (List.getElem_mem hleft)
          rw [if_pos hbelow]
          exact ih (by omega) hhi hlen (by omega)
        · have hbelow : below (front ++ back)[lo + (hi - lo) / 2] = false := by
            rw [List.getElem_append_right hright]
            exact hback _ (List.getElem_mem _)
          rw [if_neg (by rw [hbelow]; exact Bool.false_ne_true)]
          exact ih hlo hright (by omega) (by omega)
      · omega

theorem binarySearch_eq {below : κ → Bool} {front back : List κ} (hfront : ∀ k ∈ front, below k = true)
    (hback : ∀ k ∈ back, below k = false) : binarySearch below (front ++ back) = front.length :=
  searchLoop_eq hfront hback (Nat.zero_le _) (by simp) le_rfl le_rfl

variable [LinearOrder κ]

theorem bsearchGeq_eq {front back : List κ} {key : κ} (hfront : ∀ k ∈ front, k < key) (hback : ∀ k ∈ back, key ≤ k) :
    bsearchGeq (front ++ back) key = front.length :=
  binarySearch_eq (fun k hk => decide_eq_true (hfront k hk)) fun k hk => decide_eq_false (hback k hk).not_gt

theorem bsearchGt_eq {front back : List κ} {key : κ} (hfront : ∀ k ∈ front, k ≤ key) (hback : ∀ k ∈ back, key < k) :
    bsearchGt (front ++ back) key = front.length :=
  binarySearch_eq (fun k hk => decide_eq_true (hfront k hk)) fun k hk => decide_eq_false (hback k hk).not_ge

/-- Sorted keys are cut in two by any key. -/
theorem exists_cut {keys : List κ} (hsorted : keys.Pairwise (· < ·)) (key : κ) :
    ∃ front back, keys = front ++ back ∧ (∀ k ∈ front, k ≤ key) ∧ ∀ k ∈ back, key < k := by
  induction keys with
  | nil => exact ⟨[], [], rfl, fun _ h => absurd h List.not_mem_nil, fun _ h => absurd h List.not_mem_nil⟩
  | cons k keys ih =>
      obtain ⟨hk, hrest⟩ := List.pairwise_cons.mp hsorted
      rcases le_or_gt k key with hle | hlt
      · obtain ⟨front, back, rfl, hfront, hback⟩ := ih hrest
        exact ⟨k :: front, back, rfl, List.forall_mem_cons.mpr ⟨hle, hfront⟩, hback⟩
      · exact ⟨[], k :: keys, rfl, fun _ h => absurd h List.not_mem_nil,
          List.forall_mem_cons.mpr ⟨hlt, fun k' hk' => hlt.trans (hk k' hk')⟩⟩

/-- The child a search goes on to, between the separators on its left and on its right. -/
theorem exists_route {τ : Type} {keys : List κ} {children : List τ} (hsorted : keys.Pairwise (· < ·))
    (hlen : children.length = keys.length + 1) (key : κ) :
    ∃ kl kr cl c cr, keys = kl ++ kr ∧ children = cl ++ c :: cr ∧ kl.length = cl.length ∧ kr.length = cr.length ∧
      bsearchGt keys key = cl.length ∧ (∀ k ∈ kl, k ≤ key) ∧ ∀ k ∈ kr, key < k := by
  obtain ⟨kl, kr, rfl, hkl, hkr⟩ := exists_cut hsorted key
  rw [List.length_append] at hlen
  obtain ⟨c, cr, hdrop⟩ := List.exists_cons_of_length_pos (l := children.drop kl.length)
    (by rw [List.length_drop]; omega)
  have hchildren : children = children.take kl.length ++ c :: cr := by rw [← hdrop, List.take_append_drop]
  have hcl : (children.take kl.length).length = kl.length := by
    rw [List.length_take]
    omega
  have hcr := congrArg List.length hchildren
  rw [List.length_append, List.length_cons, hcl] at hcr
  exact ⟨kl, kr, _, c, cr, rfl, hchildren, hcl.symm, by omega, by rw [hcl, bsearchGt_eq hkl hkr], hkl, hkr⟩

/-! ### The order of the marks -/

theorem Mark.Before.trans {a b c : Mark κ} (hab : a.Before b) (hbc : b.Before c) : a.Before c := by
  cases a with
  | sep a =>
      cases b with
      | sep b =>
          cases c with
          | sep c => exact lt_trans (α := κ) hab hbc
          | key c => exact (lt_of_lt_of_le (α := κ) hab hbc).le
      | key b =>
          cases c with
          | sep c => exact lt_of_le_of_lt (α := κ) hab hbc
          | key c => exact (lt_of_le_of_lt (α := κ) hab hbc).le
  | key a =>
      cases b with
      | sep b =>
          cases c with
          | sep c => exact lt_trans (α := κ) hab hbc
          | key c => exact lt_of_lt_of_le (α := κ) hab hbc
      | key b =>
          cases c with
          | sep c => exact lt_trans (α := κ) hab hbc
          | key c => exact lt_trans (α := κ) hab hbc

/-- The keys of a tree in order are sorted. -/
theorem Tree.Ordered.keys {n : Nat} {t : Tree κ ν n} (ht : t.Ordered) : (t.entries.map (·.1)).Pairwise (· < ·) := by
  rw [← Tree.keys_of_marks]
  refine List.Pairwise.filterMap _ (fun a b hab x hx y hy => ?_) ht
  cases a with
  | sep a => cases hx
  | key a =>
      cases b with
      | sep b => cases hy
      | key b =>
          cases hx
          cases hy
          exact hab

end Plexdb.BTree
