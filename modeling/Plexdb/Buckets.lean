import Plexdb.KeyedLists

/-! Hash tables of buckets (`DynamicMap` and `DynamicSet` of `core/dynamic/containers.cppm`). A table is the list of
its slots, and a slot the list of its entries. An entry carries its key; keys are compared by an equality of
their own. -/

namespace Plexdb.Buckets

variable {κ γ : Type} (hash : κ → UInt64) (eq : κ → κ → Bool) (keyOf : γ → κ)

/-! ### The operations -/

def slotOf (count : Nat) (key : κ) : Nat := (hash key).toNat % count

/-- `find_slot_and_pair` and `find_slot`. A table without slots holds no key. -/
def find (slots : List (List γ)) (key : κ) : Option γ :=
  (slots.getD (slotOf hash slots.length key) []).find? fun e => eq (keyOf e) key

/-- `push_back` on the bucket of the key. -/
def place (slots : List (List γ)) (e : γ) : List (List γ) :=
  slots.modify (slotOf hash slots.length (keyOf e)) (· ++ [e])

def rehash (slots : List (List γ)) (newSlotCount : Nat) : List (List γ) :=
  slots.flatten.foldl (place hash keyOf) (List.replicate newSlotCount [])

/-- `reserve_for_push`: the first four slots, or twice as many and one more when a bucket has over four entries. -/
def reserveForPush (slots : List (List γ)) : List (List γ) :=
  if slots.length = 0 then List.replicate 4 []
  else if slots.any fun bucket => 4 < bucket.length then rehash hash keyOf slots (slots.length * 2 + 1)
  else slots

def push (slots : List (List γ)) (e : γ) : List (List γ) :=
  place hash keyOf (reserveForPush hash keyOf slots) e

/-- `insert` into a set, and `emplace` into a map: an entry with the key stays as it is. -/
def emplace (slots : List (List γ)) (e : γ) : List (List γ) :=
  if (find hash eq keyOf slots (keyOf e)).isSome then slots else push hash keyOf slots e

/-- The bucket of a key with its first entry under the key changed. -/
def updateFirst (p : γ → Bool) (f : γ → γ) : List γ → List γ
  | [] => []
  | e :: bucket => if p e then f e :: bucket else e :: updateFirst p f bucket

/-- `insert` into a map: the value of an entry with the key is replaced. -/
def insert {α : Type} (slots : List (List (κ × α))) (key : κ) (value : α) : List (List (κ × α)) :=
  if (find hash eq Prod.fst slots key).isSome then
    slots.modify (slotOf hash slots.length key) (updateFirst (fun e => eq e.1 key) fun e => (e.1, value))
  else push hash Prod.fst slots (key, value)

/-- The last entry of a bucket moves to the place of the removed one. -/
def removeFirst (p : γ → Bool) (bucket : List γ) : List γ :=
  match bucket.findIdx? p, bucket.getLast? with
  | some i, some last => (bucket.set i last).dropLast
  | _, _ => bucket

/-- `remove` from a map. -/
def remove (slots : List (List γ)) (key : κ) : List (List γ) :=
  if (find hash eq keyOf slots key).isSome then
    slots.modify (slotOf hash slots.length key) (removeFirst fun e => eq (keyOf e) key)
  else slots

def clear (slots : List (List γ)) : List (List γ) := slots.map fun _ => []

/-! ### The slots of the entries -/

/-- Each entry stands in the slot of its key. -/
def Located (slots : List (List γ)) : Prop :=
  ∀ i bucket, slots[i]? = some bucket → ∀ e ∈ bucket, slotOf hash slots.length (keyOf e) = i

section
variable {hash eq keyOf} {slots : List (List γ)}

theorem located_nil : Located hash keyOf ([] : List (List γ)) := by
  intro i bucket h
  simp at h

theorem located_replicate (n : Nat) : Located hash keyOf (List.replicate n ([] : List γ)) := by
  intro i bucket h e he
  rw [List.getElem?_replicate] at h
  split_ifs at h
  cases h
  cases he

/-- A bucket that only loses entries, or whose entries keep their slot, stays in its slot. -/
theorem Located.modify (h : Located hash keyOf slots) {i : Nat} {f : List γ → List γ}
    (hf : ∀ bucket, slots[i]? = some bucket → ∀ e ∈ f bucket, slotOf hash slots.length (keyOf e) = i) :
    Located hash keyOf (slots.modify i f) := by
  intro j bucket hj e he
  rw [List.length_modify]
  rw [List.getElem?_modify] at hj
  by_cases hij : i = j
  · subst hij
    obtain ⟨old, hold, rfl⟩ := Option.map_eq_some_iff.mp hj
    rw [if_pos rfl] at he
    exact hf old hold e he
  · obtain ⟨old, hold, rfl⟩ := Option.map_eq_some_iff.mp hj
    rw [if_neg hij] at he
    exact h j old hold e he

theorem Located.place (h : Located hash keyOf slots) (e : γ) : Located hash keyOf (place hash keyOf slots e) := by
  refine h.modify fun bucket hbucket e' he' => ?_
  rcases List.mem_append.mp he' with he' | he'
  · exact h _ bucket hbucket e' he'
  · rw [List.mem_singleton.mp he']

theorem length_place (e : γ) : (place hash keyOf slots e).length = slots.length := List.length_modify ..

theorem slotOf_lt {count : Nat} (h : 0 < count) (key : κ) : slotOf hash count key < count := Nat.mod_lt _ h

/-- The entries of one slot between those of the slots before and behind it. -/
theorem flatten_modify {i : Nat} (hi : i < slots.length) (f : List γ → List γ) :
    (slots.modify i f).flatten = (slots.take i).flatten ++ (f slots[i] ++ (slots.drop (i + 1)).flatten) := by
  rw [List.modify_eq_take_cons_drop hi, List.flatten_append, List.flatten_cons]

theorem flatten_eq {i : Nat} (hi : i < slots.length) :
    slots.flatten = (slots.take i).flatten ++ (slots[i] ++ (slots.drop (i + 1)).flatten) := by
  conv_lhs => rw [← List.take_append_drop i slots, List.drop_eq_getElem_cons hi]
  rw [List.flatten_append, List.flatten_cons]

theorem place_perm (h : 0 < slots.length) (e : γ) : (place hash keyOf slots e).flatten.Perm (e :: slots.flatten) := by
  have hi : slotOf hash slots.length (keyOf e) < slots.length := slotOf_lt h _
  unfold Buckets.place
  rw [flatten_modify hi, flatten_eq hi, List.append_assoc, List.singleton_append]
  exact (List.Perm.append_left _ List.perm_middle).trans List.perm_middle

theorem foldl_place {es : List γ} (h : Located hash keyOf slots) (hcount : 0 < slots.length) :
    Located hash keyOf (es.foldl (place hash keyOf) slots) ∧
      0 < (es.foldl (place hash keyOf) slots).length ∧
      (es.foldl (place hash keyOf) slots).flatten.Perm (es ++ slots.flatten) := by
  induction es generalizing slots with
  | nil => exact ⟨h, hcount, List.Perm.refl _⟩
  | cons e es ih =>
      have hcount' : 0 < (place hash keyOf slots e).length := by rwa [length_place]
      obtain ⟨hlocated, hpos, hperm⟩ := ih (h.place e) hcount'
      refine ⟨hlocated, hpos, hperm.trans ?_⟩
      exact (List.Perm.append_left es (place_perm hcount e)).trans List.perm_middle

theorem flatten_replicate_nil (n : Nat) : (List.replicate n ([] : List γ)).flatten = [] := by
  simp

/-- A table with room for one more entry. -/
theorem reserveForPush_spec (h : Located hash keyOf slots) :
    Located hash keyOf (reserveForPush hash keyOf slots) ∧ 0 < (reserveForPush hash keyOf slots).length ∧
      (reserveForPush hash keyOf slots).flatten.Perm slots.flatten := by
  unfold reserveForPush
  split_ifs with hempty hlong
  · refine ⟨located_replicate 4, by simp, ?_⟩
    rw [List.eq_nil_of_length_eq_zero hempty, flatten_replicate_nil]
    exact List.Perm.refl _
  · have hcount : 0 < (List.replicate (slots.length * 2 + 1) ([] : List γ)).length := by
      rw [List.length_replicate]
      omega
    have hlocated : Located hash keyOf (List.replicate (slots.length * 2 + 1) ([] : List γ)) := located_replicate _
    have hfold : _ ∧ _ ∧ (rehash hash keyOf slots (slots.length * 2 + 1)).flatten.Perm _ :=
      foldl_place hlocated hcount
    rw [flatten_replicate_nil, List.append_nil] at hfold
    exact hfold
  · exact ⟨h, by omega, List.Perm.refl _⟩

theorem push_spec (h : Located hash keyOf slots) (e : γ) :
    Located hash keyOf (push hash keyOf slots e) ∧ (push hash keyOf slots e).flatten.Perm (e :: slots.flatten) := by
  obtain ⟨hlocated, hcount, hperm⟩ := reserveForPush_spec h
  exact ⟨hlocated.place e, (place_perm hcount e).trans (hperm.cons e)⟩

/-! ### What is found -/

/-- When equal keys have equal hashes, no entry under a key stands outside the bucket of the key. -/
theorem Located.outside (h : Located hash keyOf slots) {key : κ}
    (hhash : ∀ e ∈ slots.flatten, eq (keyOf e) key = true → hash (keyOf e) = hash key) :
    (∀ e ∈ (slots.take (slotOf hash slots.length key)).flatten, eq (keyOf e) key = false) ∧
      ∀ e ∈ (slots.drop (slotOf hash slots.length key + 1)).flatten, eq (keyOf e) key = false := by
  have hother : ∀ j bucket, slots[j]? = some bucket → j ≠ slotOf hash slots.length key →
      ∀ e ∈ bucket, eq (keyOf e) key = false := by
    intro j bucket hj hne e he
    by_contra hnot
    have hkey := hhash e (List.mem_flatten.mpr ⟨bucket, List.mem_of_getElem? hj, he⟩) (Bool.not_eq_false _ ▸ hnot)
    exact hne (by rw [← h j bucket hj e he, slotOf, slotOf, hkey])
  constructor
  · intro e he
    obtain ⟨bucket, hbucket, he⟩ := List.mem_flatten.mp he
    obtain ⟨j, hj, rfl⟩ := List.mem_iff_getElem.mp hbucket
    rw [List.length_take] at hj
    rw [List.getElem_take] at he
    exact hother j _ (List.getElem?_eq_getElem (by omega)) (by omega) e he
  · intro e he
    obtain ⟨bucket, hbucket, he⟩ := List.mem_flatten.mp he
    obtain ⟨j, hj, rfl⟩ := List.mem_iff_getElem.mp hbucket
    rw [List.length_drop] at hj
    rw [List.getElem_drop] at he
    exact hother _ _ (List.getElem?_eq_getElem (by omega)) (by omega) e he

/-- When equal keys have equal hashes, the bucket of a key holds every entry under it. -/
theorem Located.find_eq (h : Located hash keyOf slots) {key : κ}
    (hhash : ∀ e ∈ slots.flatten, eq (keyOf e) key = true → hash (keyOf e) = hash key) :
    find hash eq keyOf slots key = slots.flatten.find? fun e => eq (keyOf e) key := by
  rcases Nat.eq_zero_or_pos slots.length with hzero | hpos
  · rw [List.eq_nil_of_length_eq_zero hzero]
    rfl
  have hi : slotOf hash slots.length key < slots.length := slotOf_lt hpos key
  obtain ⟨hbefore, hbehind⟩ := h.outside hhash
  have hfront : ((slots.take (slotOf hash slots.length key)).flatten.find? fun e => eq (keyOf e) key) = none := by
    rw [List.find?_eq_none]
    intro e he
    rw [hbefore e he]
    exact Bool.false_ne_true
  have hback : ((slots.drop (slotOf hash slots.length key + 1)).flatten.find? fun e => eq (keyOf e) key) = none := by
    rw [List.find?_eq_none]
    intro e he
    rw [hbehind e he]
    exact Bool.false_ne_true
  have hbucket : slots.getD (slotOf hash slots.length key) [] = slots[slotOf hash slots.length key] := by
    rw [List.getD_eq_getElem?_getD, List.getElem?_eq_getElem hi, Option.getD_some]
  rw [find, hbucket, flatten_eq hi, List.find?_append, List.find?_append, hfront, hback]
  simp

/-! ### Tables without equal keys -/

/-- Two keys that are equal in neither order. -/
def Apart (eq : κ → κ → Bool) (a b : κ) : Prop := eq a b = false ∧ eq b a = false

theorem Apart.symm {a b : κ} (h : Apart eq a b) : Apart eq b a := ⟨h.2, h.1⟩

/-- The entries stand in their slots, and no two keys are equal. -/
structure Placed (hash : κ → UInt64) (eq : κ → κ → Bool) (keyOf : γ → κ) (slots : List (List γ)) : Prop where
  located : Located hash keyOf slots
  distinct : (slots.flatten.map keyOf).Pairwise (Apart eq)

theorem placed_nil : Placed hash eq keyOf ([] : List (List γ)) := ⟨located_nil, List.Pairwise.nil⟩

theorem Placed.push (h : Placed hash eq keyOf slots) {e : γ} (hnew : ∀ e' ∈ slots.flatten, Apart eq (keyOf e) (keyOf e')) :
    Placed hash eq keyOf (push hash keyOf slots e) := by
  obtain ⟨hlocated, hperm⟩ := push_spec h.located e
  refine ⟨hlocated, ((hperm.map keyOf).pairwise_iff fun h => h.symm).mpr ?_⟩
  rw [List.map_cons, List.pairwise_cons]
  refine ⟨fun k hk => ?_, h.distinct⟩
  obtain ⟨e', he', rfl⟩ := List.mem_map.mp hk
  exact hnew e' he'

theorem Placed.modify (h : Placed hash eq keyOf slots) {i : Nat} {f : List γ → List γ}
    (hf : ∀ bucket, ((f bucket).map keyOf).Subperm (bucket.map keyOf)) : Placed hash eq keyOf (slots.modify i f) := by
  by_cases hi : i < slots.length
  · refine ⟨h.located.modify fun bucket hbucket e he => ?_, ?_⟩
    · obtain ⟨e', he', hkey⟩ := List.mem_map.mp ((hf bucket).subset (List.mem_map_of_mem he))
      rw [← hkey]
      exact h.located i bucket hbucket e' he'
    · have hdistinct := h.distinct
      rw [flatten_eq hi] at hdistinct
      rw [flatten_modify hi]
      simp only [List.map_append] at hdistinct ⊢
      have hsub := (List.subperm_append_left ((slots.take i).flatten.map keyOf)).mpr
        ((List.subperm_append_right ((slots.drop (i + 1)).flatten.map keyOf)).mpr (hf slots[i]))
      obtain ⟨keys, hperm, hsublist⟩ := hsub
      exact (hperm.pairwise_iff fun h => h.symm).mp (hdistinct.sublist hsublist)
  · rwa [List.modify_eq_self (by omega)]

theorem placed_clear (slots : List (List γ)) : Placed hash eq keyOf (clear slots) := by
  have hflatten : (clear slots).flatten = [] := by
    simp [clear]
  refine ⟨fun i bucket hi e he => ?_, ?_⟩
  · obtain ⟨old, -, rfl⟩ := List.mem_map.mp (List.mem_of_getElem? hi)
    cases he
  · rw [hflatten]
    exact List.Pairwise.nil

theorem mem_modify {i : Nat} {f : List γ → List γ} {e : γ} (h : e ∈ (slots.modify i f).flatten) :
    e ∈ slots.flatten ∨ ∃ bucket ∈ slots, e ∈ f bucket := by
  by_cases hi : i < slots.length
  · rw [flatten_modify hi] at h
    rw [flatten_eq hi]
    rcases List.mem_append.mp h with h | h
    · exact Or.inl (List.mem_append_left _ h)
    · rcases List.mem_append.mp h with h | h
      · exact Or.inr ⟨_, List.getElem_mem hi, h⟩
      · exact Or.inl (List.mem_append_right _ (List.mem_append_right _ h))
  · rw [List.modify_eq_self (by omega)] at h
    exact Or.inl h

/-! ### Operations on one bucket -/

theorem map_updateFirst {f : γ → γ} (hf : ∀ e, keyOf (f e) = keyOf e) (p : γ → Bool) (bucket : List γ) :
    (updateFirst p f bucket).map keyOf = bucket.map keyOf := by
  induction bucket with
  | nil => rfl
  | cons e bucket ih =>
      rw [updateFirst]
      split_ifs
      · rw [List.map_cons, hf, List.map_cons]
      · rw [List.map_cons, ih, List.map_cons]

theorem mem_updateFirst {p : γ → Bool} {f : γ → γ} {bucket : List γ} {e : γ} (h : e ∈ updateFirst p f bucket) :
    e ∈ bucket ∨ ∃ e' ∈ bucket, e = f e' := by
  induction bucket with
  | nil => cases h
  | cons e' bucket ih =>
      rw [updateFirst] at h
      split_ifs at h
      · rcases List.mem_cons.mp h with rfl | h
        · exact Or.inr ⟨e', List.mem_cons_self, rfl⟩
        · exact Or.inl (List.mem_cons_of_mem _ h)
      · rcases List.mem_cons.mp h with rfl | h
        · exact Or.inl List.mem_cons_self
        · rcases ih h with h | ⟨e'', he'', rfl⟩
          · exact Or.inl (List.mem_cons_of_mem _ h)
          · exact Or.inr ⟨e'', List.mem_cons_of_mem _ he'', rfl⟩

theorem removeFirst_subperm (p : γ → Bool) (bucket : List γ) : (removeFirst p bucket).Subperm bucket := by
  unfold removeFirst
  cases hfind : bucket.findIdx? p with
  | none => exact List.Subperm.refl _
  | some i =>
      cases hlast : bucket.getLast? with
      | none => exact List.Subperm.refl _
      | some last =>
          obtain ⟨front, rfl⟩ := List.getLast?_eq_some_iff.mp hlast
          dsimp only
          by_cases hi : i < front.length
          · rw [List.set_append_left _ _ hi, List.dropLast_concat]
            have hset : (front.set i last).Subperm (last :: front.eraseIdx i) :=
              (List.set_perm_cons_eraseIdx hi last).subperm
            have herase : (last :: front.eraseIdx i).Subperm (last :: front) :=
              ((List.eraseIdx_sublist front i).cons_cons last).subperm
            exact (hset.trans herase).trans (List.perm_append_singleton last front).symm.subperm
          · have hself : [last].set (i - front.length) last = [last] := by
              cases i - front.length <;> rfl
            rw [List.set_append_right _ _ (by omega), hself, List.dropLast_concat]
            exact (List.sublist_append_left front [last]).subperm

/-! ### Keys with a hash -/

/-- An equality that is a partial equivalence on the keys with a property, and a hash that respects it. -/
structure Hashes (hash : κ → UInt64) (eq : κ → κ → Bool) (P : κ → Prop) : Prop where
  equates : Keyed.Equates eq P
  congr : ∀ {a b}, P a → P b → eq a b = true → hash a = hash b

variable {P : κ → Prop}

theorem Placed.find_eq (h : Placed hash eq keyOf slots) (hkeys : Hashes hash eq P)
    (hP : ∀ e ∈ slots.flatten, P (keyOf e)) {key : κ} (hkey : P key) :
    find hash eq keyOf slots key = slots.flatten.find? fun e => eq (keyOf e) key :=
  h.located.find_eq fun e he heq => hkeys.congr (hP e he) hkey heq

/-- A key that is not found is apart from all keys of the table. -/
theorem Placed.apart_of_find (h : Placed hash eq keyOf slots) (hkeys : Hashes hash eq P)
    (hP : ∀ e ∈ slots.flatten, P (keyOf e)) {key : κ} (hkey : P key)
    (hfind : ¬ (find hash eq keyOf slots key).isSome = true) : ∀ e ∈ slots.flatten, Apart eq key (keyOf e) := by
  intro e he
  rw [h.find_eq hkeys hP hkey, List.find?_isSome] at hfind
  have hfalse : eq (keyOf e) key = false := by
    by_contra hnot
    exact hfind ⟨e, he, Bool.not_eq_false _ ▸ hnot⟩
  exact ⟨by rwa [hkeys.equates.comm hkey (hP e he)], hfalse⟩

theorem Placed.emplace (h : Placed hash eq keyOf slots) (hkeys : Hashes hash eq P)
    (hP : ∀ e ∈ slots.flatten, P (keyOf e)) {e : γ} (he : P (keyOf e)) :
    Placed hash eq keyOf (emplace hash eq keyOf slots e) := by
  unfold Buckets.emplace
  split_ifs with hfind
  · exact h
  · exact h.push (h.apart_of_find hkeys hP he hfind)

theorem Placed.remove (h : Placed hash eq keyOf slots) (key : κ) :
    Placed hash eq keyOf (remove hash eq keyOf slots key) := by
  unfold Buckets.remove
  split_ifs
  · refine h.modify fun bucket => ?_
    obtain ⟨kept, hperm, hsublist⟩ := removeFirst_subperm (fun e => eq (keyOf e) key) bucket
    exact ⟨kept.map keyOf, hperm.map keyOf, hsublist.map keyOf⟩
  · exact h

theorem mem_clear {e : γ} (h : e ∈ (clear slots).flatten) : False := by
  simp [Buckets.clear] at h

end

section
variable {α : Type} {hash eq} {P : κ → Prop} {slots : List (List (κ × α))} {key : κ} {value : α}

theorem Placed.insert (h : Placed hash eq Prod.fst slots) (hkeys : Hashes hash eq P)
    (hP : ∀ e ∈ slots.flatten, P e.1) (hkey : P key) : Placed hash eq Prod.fst (insert hash eq slots key value) := by
  unfold Buckets.insert
  split_ifs with hfind
  · refine h.modify fun bucket => ?_
    have hkey : ∀ e : κ × α, Prod.fst (e.1, value) = Prod.fst e := fun _ => rfl
    rw [map_updateFirst hkey]
  · exact h.push (h.apart_of_find hkeys hP hkey hfind)

theorem mem_insert (h : Located hash Prod.fst slots) {e : κ × α}
    (hmem : e ∈ (insert hash eq slots key value).flatten) :
    (e.1 = key ∨ ∃ e' ∈ slots.flatten, e.1 = e'.1) ∧ (e.2 = value ∨ ∃ e' ∈ slots.flatten, e.2 = e'.2) := by
  unfold Buckets.insert at hmem
  split_ifs at hmem
  · rcases mem_modify hmem with hmem | ⟨bucket, hbucket, hmem⟩
    · exact ⟨Or.inr ⟨e, hmem, rfl⟩, Or.inr ⟨e, hmem, rfl⟩⟩
    · rcases mem_updateFirst hmem with hmem | ⟨e', he', rfl⟩
      · have hflat := List.mem_flatten.mpr ⟨bucket, hbucket, hmem⟩
        exact ⟨Or.inr ⟨e, hflat, rfl⟩, Or.inr ⟨e, hflat, rfl⟩⟩
      · exact ⟨Or.inr ⟨e', List.mem_flatten.mpr ⟨bucket, hbucket, he'⟩, rfl⟩, Or.inl rfl⟩
  · rcases List.mem_cons.mp ((push_spec h (key, value)).2.mem_iff.mp hmem) with rfl | hmem
    · exact ⟨Or.inl rfl, Or.inl rfl⟩
    · exact ⟨Or.inr ⟨e, hmem, rfl⟩, Or.inr ⟨e, hmem, rfl⟩⟩

end

end Plexdb.Buckets
