import Mathlib
import Plexdb.Buckets

/-! `DynamicMap` and `DynamicSet` (`core/dynamic/containers.cppm`) are finite maps and sets: what is found after any
operations, the length, and what an iteration visits. -/

namespace Plexdb.Buckets

variable {κ γ α : Type}

/-! ### Iteration -/

/-- Without a table it is the end of every iteration. -/
structure Iterator where
  onTable : Bool
  slotIdx : Nat
  entryIdx : Nat
deriving DecidableEq

def Iterator.past : Iterator := ⟨false, 0, 0⟩

/-- The loop of `begin`. -/
def firstSlot (slots : List (List γ)) (s : Nat) : Nat :=
  if s < slots.length ∧ (slots.getD s []).length = 0 then firstSlot slots (s + 1) else s
termination_by slots.length - s

def begin (slots : List (List γ)) : Iterator :=
  let s := firstSlot slots 0
  if s ≥ slots.length then .past else ⟨true, s, 0⟩

/-- The loop of `++`. -/
def settle (slots : List (List γ)) (slotIdx entryIdx : Nat) : Nat × Nat :=
  if slotIdx < slots.length ∧ (slots.getD slotIdx []).length ≤ entryIdx then settle slots (slotIdx + 1) 0
  else (slotIdx, entryIdx)
termination_by slots.length - slotIdx

def next (slots : List (List γ)) (it : Iterator) : Iterator :=
  if it.onTable = false then it
  else
    let place := settle slots it.slotIdx (it.entryIdx + 1)
    if place.1 ≥ slots.length then ⟨false, 0, place.2⟩ else ⟨true, place.1, place.2⟩

def entryAt (slots : List (List γ)) (it : Iterator) : Option γ :=
  if it.onTable then (slots.getD it.slotIdx [])[it.entryIdx]? else none

/-- The entries that a loop from the iterator to the end visits. -/
def visit (slots : List (List γ)) : (fuel : Nat) → Iterator → Option (List γ)
  | 0, it => if it = .past then some [] else none
  | fuel + 1, it =>
      if it = .past then some []
      else (entryAt slots it).bind fun e => (visit slots fuel (next slots it)).map (e :: ·)

/-- `length`: the sum of the buckets' lengths. -/
def length (slots : List (List γ)) : Nat := (slots.map List.length).sum

section

variable (slots : List (List γ))

/-- The entries from a place on. -/
def remaining (s p : Nat) : List γ := (slots.getD s []).drop p ++ (slots.drop (s + 1)).flatten

variable {slots}

theorem remaining_next {s p : Nat} (hs : s < slots.length) (hp : (slots.getD s []).length ≤ p) :
    remaining slots s p = remaining slots (s + 1) 0 := by
  rw [remaining, List.drop_eq_nil_of_le hp, List.nil_append, remaining, List.drop_zero]
  by_cases hlast : s + 1 < slots.length
  · rw [List.drop_eq_getElem_cons hlast, List.flatten_cons, List.getD_eq_getElem?_getD,
      List.getElem?_eq_getElem hlast, Option.getD_some]
  · rw [List.drop_eq_nil_of_le (by omega), List.drop_eq_nil_of_le (by omega), List.getD_eq_default _ _ (by omega)]
    rfl

/-- The loop stops at an entry, or behind the last slot when no entry is left. -/
theorem settle_spec (slots : List (List γ)) (s p : Nat) (hstart : s < slots.length ∨ p = 0) :
    ((settle slots s p).1 < slots.length ∧
      (settle slots s p).2 < (slots.getD (settle slots s p).1 []).length ∧
      remaining slots (settle slots s p).1 (settle slots s p).2 = remaining slots s p) ∨
    (slots.length ≤ (settle slots s p).1 ∧ (settle slots s p).2 = 0 ∧ remaining slots s p = []) := by
  fun_induction settle slots s p with
  | case1 s p hlong ih =>
      rw [remaining_next hlong.1 hlong.2]
      exact ih (.inr rfl)
  | case2 s p hshort =>
      by_cases hs : s < slots.length
      · left
        refine ⟨hs, ?_, rfl⟩
        by_contra hp
        exact hshort ⟨hs, Nat.not_lt.mp hp⟩
      · right
        have hbehind : slots.length ≤ s := Nat.not_lt.mp hs
        refine ⟨hbehind, hstart.resolve_left hs, ?_⟩
        rw [remaining, List.getD_eq_default _ _ hbehind, List.drop_nil,
          List.drop_eq_nil_of_le (hbehind.trans (Nat.le_succ s))]
        rfl

theorem settle_zero (s : Nat) : settle slots s 0 = (firstSlot slots s, 0) := by
  fun_induction firstSlot slots s with
  | case1 s hempty ih =>
      rw [settle, if_pos ⟨hempty.1, hempty.2.le⟩]
      exact ih
  | case2 s hstop =>
      rw [settle, if_neg]
      rintro ⟨hs, hlen⟩
      exact hstop ⟨hs, Nat.le_zero.mp hlen⟩

theorem remaining_cons {s p : Nat} (hp : p < (slots.getD s []).length) :
    remaining slots s p = (slots.getD s [])[p] :: remaining slots s (p + 1) := by
  rw [remaining, List.drop_eq_getElem_cons hp, List.cons_append, remaining]

theorem visit_at {fuel s p : Nat} (hp : p < (slots.getD s []).length)
    (hfuel : (remaining slots s p).length ≤ fuel) :
    visit slots fuel ⟨true, s, p⟩ = some (remaining slots s p) := by
  induction fuel generalizing s p with
  | zero =>
      rw [remaining_cons hp] at hfuel
      exact absurd hfuel (Nat.not_succ_le_zero _)
  | succ fuel ih =>
      have hs : s < slots.length := by
        by_contra hs
        rw [List.getD_eq_default _ _ (by omega)] at hp
        exact absurd hp (Nat.not_lt_zero p)
      have hne : (⟨true, s, p⟩ : Iterator) ≠ .past := fun heq => Bool.noConfusion (congrArg Iterator.onTable heq)
      have hentry : entryAt slots ⟨true, s, p⟩ = some (slots.getD s [])[p] := by
        rw [entryAt, if_pos rfl, List.getElem?_eq_getElem hp]
      rw [remaining_cons hp, List.length_cons] at hfuel
      rw [visit, if_neg hne, hentry, Option.bind_some, next, if_neg Bool.true_eq_false.mp,
        remaining_cons hp]
      rcases settle_spec slots s (p + 1) (.inl hs) with ⟨hlt, hin, hrest⟩ | ⟨hge, hzero, hrest⟩
      · dsimp only
        rw [if_neg (Nat.not_le.mpr hlt), ih hin (by rw [hrest]; omega), hrest]
        rfl
      · dsimp only
        rw [if_pos hge, hzero, hrest]
        cases fuel <;> simp [visit, Iterator.past]

/-- An iteration visits the entries of the table, each once. -/
theorem visit_begin {fuel : Nat} (hfuel : slots.flatten.length ≤ fuel) :
    visit slots fuel (begin slots) = some slots.flatten := by
  have hall : remaining slots 0 0 = slots.flatten := by
    cases slots <;> simp [remaining]
  rw [begin]
  rcases settle_spec slots 0 0 (.inr rfl) with ⟨hlt, hin, hrest⟩ | ⟨hge, -, hrest⟩
  · rw [settle_zero] at hlt hin hrest
    rw [if_neg (Nat.not_le.mpr hlt), visit_at hin (by rw [hrest, hall]; exact hfuel), hrest, hall]
  · rw [settle_zero] at hge
    rw [if_pos hge, ← hall, hrest]
    cases fuel <;> simp [visit]

theorem length_eq : length slots = slots.flatten.length := by
  rw [length, List.length_flatten]

end

/-! ### What the operations do to the entries -/

section

variable {hash : κ → UInt64} {eq : κ → κ → Bool} {slots : List (List (κ × α))} {key : κ} {value : α}

theorem Placed.pairwise {keyOf : γ → κ} {slots : List (List γ)} (h : Placed hash eq keyOf slots) :
    slots.flatten.Pairwise fun a b => eq (keyOf a) (keyOf b) = false :=
  (List.pairwise_map.mp h.distinct).imp fun hab => hab.1

theorem updateFirst_eq_insert {bucket : List (κ × α)} (hmem : ∃ e ∈ bucket, eq e.1 key = true) :
    updateFirst (fun e => eq e.1 key) (fun e => (e.1, value)) bucket = Keyed.insert eq bucket key value := by
  induction bucket with
  | nil =>
      obtain ⟨e, he, -⟩ := hmem
      exact absurd he List.not_mem_nil
  | cons e bucket ih =>
      rw [updateFirst, Keyed.insert]
      by_cases hek : eq e.1 key = true
      · rw [if_pos hek, if_pos hek]
      · rw [if_neg hek, if_neg hek, ih]
        obtain ⟨a, ha, hak⟩ := hmem
        rcases List.mem_cons.mp ha with rfl | ha
        · exact absurd hak hek
        · exact ⟨a, ha, hak⟩

/-- The removed entry goes, whatever takes its place in the bucket. -/
theorem removeFirst_perm (p : γ → Bool) (bucket : List γ) : (removeFirst p bucket).Perm (bucket.eraseP p) := by
  rw [removeFirst, List.eraseP_eq_eraseIdx]
  cases hfind : bucket.findIdx? p with
  | none => exact List.Perm.refl _
  | some i =>
      obtain ⟨hi, -, -⟩ := List.findIdx?_eq_some_iff_getElem.mp hfind
      rcases List.eq_nil_or_concat bucket with rfl | ⟨front, last, rfl⟩
      · exact List.Perm.refl _
      · rw [List.concat_eq_append, List.getLast?_concat]
        rw [List.concat_eq_append, List.length_append, List.length_singleton] at hi
        dsimp only
        by_cases hfront : i < front.length
        · rw [List.set_append_left _ _ hfront, List.dropLast_concat, List.eraseIdx_append_of_lt_length hfront]
          exact (List.set_perm_cons_eraseIdx hfront last).trans (List.perm_append_singleton last _).symm
        · obtain rfl : i = front.length := by omega
          rw [List.set_append_right _ _ le_rfl, List.eraseIdx_append_of_length_le le_rfl, Nat.sub_self]
          simp

theorem exists_of_find {keyOf : γ → κ} {slots : List (List γ)} (hfind : (find hash eq keyOf slots key).isSome = true) :
    ∃ hi : slotOf hash slots.length key < slots.length,
      ∃ e ∈ slots[slotOf hash slots.length key], eq (keyOf e) key = true := by
  rw [find, List.find?_isSome] at hfind
  obtain ⟨e, he, hek⟩ := hfind
  by_cases hi : slotOf hash slots.length key < slots.length
  · rw [List.getD_eq_getElem _ _ hi] at he
    exact ⟨hi, e, he, hek⟩
  · rw [List.getD_eq_default _ _ (Nat.not_lt.mp hi)] at he
    exact absurd he List.not_mem_nil

variable (hkeys : Hashes hash eq fun _ => True)

include hkeys

theorem Placed.insert_found (h : Placed hash eq Prod.fst slots)
    (hfind : (find hash eq Prod.fst slots key).isSome = true) :
    (Buckets.insert hash eq slots key value).flatten
      = slots.flatten.map fun e => if eq e.1 key then (e.1, value) else e := by
  obtain ⟨hi, hmem⟩ := exists_of_find hfind
  obtain ⟨hbefore, hbehind⟩ := h.located.outside fun e _ hek => hkeys.congr trivial trivial hek
  have hsame : ∀ l : List (κ × α), (∀ e ∈ l, eq e.1 key = false) →
      l.map (fun e => if eq e.1 key then (e.1, value) else e) = l := by
    intro l hl
    calc l.map (fun e => if eq e.1 key then (e.1, value) else e)
        = l.map id := List.map_congr_left fun e he => by rw [hl e he]; rfl
      _ = l := List.map_id l
  have hdistinct := h.pairwise
  rw [flatten_eq hi, List.pairwise_append, List.pairwise_append] at hdistinct
  rw [Buckets.insert, if_pos hfind, flatten_modify hi, updateFirst_eq_insert hmem,
    Keyed.insert_of_mem hkeys.equates (fun _ _ => trivial) hdistinct.2.1.1 trivial hmem, flatten_eq hi,
    List.map_append, List.map_append, hsame _ hbefore, hsame _ hbehind]

theorem Placed.remove_perm (h : Placed hash eq Prod.fst slots) :
    (Buckets.remove hash eq Prod.fst slots key).flatten.Perm (slots.flatten.filter fun e => !eq e.1 key) := by
  rw [Buckets.remove]
  split_ifs with hfind
  · obtain ⟨hi, -⟩ := exists_of_find hfind
    obtain ⟨hbefore, hbehind⟩ := h.located.outside fun e _ hek => hkeys.congr trivial trivial hek
    have hsame : ∀ l : List (κ × α), (∀ e ∈ l, eq e.1 key = false) → (l.filter fun e => !eq e.1 key) = l := by
      intro l hl
      exact List.filter_eq_self.mpr fun e he => by rw [hl e he]; rfl
    have hdistinct := h.pairwise
    rw [flatten_eq hi, List.pairwise_append, List.pairwise_append] at hdistinct
    rw [flatten_modify hi, flatten_eq hi, List.filter_append, List.filter_append, hsame _ hbefore, hsame _ hbehind]
    refine List.Perm.append_left _ (List.Perm.append_right _ ?_)
    rw [← Keyed.eraseP_eq hkeys.equates (fun _ _ => trivial) hdistinct.2.1.1 trivial]
    exact removeFirst_perm _ _
  · rw [h.find_eq hkeys (fun _ _ => trivial) trivial, List.find?_isSome] at hfind
    have hall : (slots.flatten.filter fun e => !eq e.1 key) = slots.flatten := by
      refine List.filter_eq_self.mpr fun e he => ?_
      rw [Bool.not_eq_true', Bool.eq_false_iff]
      exact fun hek => hfind ⟨e, he, hek⟩
    rw [hall]

end

/-! ### Lookups in lists of entries -/

section

variable {eq : κ → κ → Bool} {l : List (κ × α)} {k key : κ} {value : α}

variable (h : Keyed.Equates eq fun _ => True)

include h

theorem lookup_perm {l' : List (κ × α)} (hperm : l.Perm l') (hdistinct : l.Pairwise fun a b => eq a.1 b.1 = false)
    (hdistinct' : l'.Pairwise fun a b => eq a.1 b.1 = false) : Keyed.lookup eq l key = Keyed.lookup eq l' key := by
  rw [Keyed.lookup, Keyed.lookup]
  congr 1
  ext e
  rw [h.find?_eq_some_iff (fun _ _ => trivial) hdistinct trivial,
    h.find?_eq_some_iff (fun _ _ => trivial) hdistinct' trivial, hperm.mem_iff]

theorem lookup_replaced (hmem : ∃ e ∈ l, eq e.1 k = true) :
    Keyed.lookup eq (l.map fun e => if eq e.1 k then (e.1, value) else e) key
      = if eq k key then some value else Keyed.lookup eq l key := by
  have hkey : ∀ e : κ × α, (if eq e.1 k then (e.1, value) else e).1 = e.1 := by
    intro e
    split_ifs <;> rfl
  by_cases hk : eq k key = true
  · rw [if_pos hk]
    induction l with
    | nil =>
        obtain ⟨e, he, -⟩ := hmem
        exact absurd he List.not_mem_nil
    | cons e l ih =>
        rw [List.map_cons, Keyed.lookup_cons, hkey, h.comm trivial trivial,
          h.congr_left (a := key) (b := k) trivial trivial trivial (h.symm trivial trivial hk),
          h.comm trivial trivial]
        by_cases hek : eq e.1 k = true
        · rw [if_pos hek, if_pos hek]
        · rw [if_neg hek]
          obtain ⟨a, ha, hak⟩ := hmem
          rcases List.mem_cons.mp ha with rfl | ha
          · exact absurd hak hek
          · exact ih ⟨a, ha, hak⟩
  · rw [if_neg hk]
    clear hmem
    induction l with
    | nil => rfl
    | cons e l ih =>
        rw [List.map_cons, Keyed.lookup_cons, hkey, Keyed.lookup_cons, ih]
        by_cases hek : eq e.1 key = true
        · have hne : ¬ eq e.1 k = true := fun hsame =>
            hk (h.trans trivial trivial trivial (h.symm trivial trivial hsame) hek)
          rw [if_pos hek, if_pos hek, if_neg hne]
        · rw [if_neg hek, if_neg hek]

theorem lookup_erased :
    Keyed.lookup eq (l.filter fun e => !eq e.1 k) key = if eq k key then none else Keyed.lookup eq l key := by
  by_cases hk : eq k key = true
  · rw [if_pos hk]
    refine Keyed.lookup_eq_none fun e he => ?_
    have hne := List.of_mem_filter he
    rw [Bool.not_eq_true', Bool.eq_false_iff] at hne
    rw [Bool.eq_false_iff]
    exact fun hek => hne (h.trans trivial trivial trivial hek (h.symm trivial trivial hk))
  · rw [if_neg hk]
    induction l with
    | nil => rfl
    | cons e l ih =>
        rw [List.filter_cons, Keyed.lookup_cons]
        by_cases hek : eq e.1 k = true
        · have hne : ¬ eq e.1 key = true := fun hsame =>
            hk (h.trans trivial trivial trivial (h.symm trivial trivial hek) hsame)
          rw [hek, if_neg (by simp), if_neg hne, ih]
        · rw [if_pos (by simp [hek]), Keyed.lookup_cons, ih]

end

/-! ### The map -/

inductive MapOp (κ α : Type) where
  | insert (key : κ) (value : α)
  | remove (key : κ)
  | clear

def MapOp.apply (hash : κ → UInt64) (eq : κ → κ → Bool) (slots : List (List (κ × α))) :
    MapOp κ α → List (List (κ × α))
  | .insert key value => Buckets.insert hash eq slots key value
  | .remove key => Buckets.remove hash eq Prod.fst slots key
  | .clear => Buckets.clear slots

/-- What an operation makes of a finite map, seen as a function of the keys. -/
def MapOp.effect (eq : κ → κ → Bool) (m : κ → Option α) : MapOp κ α → κ → Option α
  | .insert k value, key => if eq k key then some value else m key
  | .remove k, key => if eq k key then none else m key
  | .clear, _ => none

/-- The map that the operations lead to, from an empty one. -/
def mapAfter (hash : κ → UInt64) (eq : κ → κ → Bool) (ops : List (MapOp κ α)) : List (List (κ × α)) :=
  ops.foldl (MapOp.apply hash eq) []

/-- The value inserted last under an equal key, unless it was removed since. -/
def lastInserted (eq : κ → κ → Bool) (ops : List (MapOp κ α)) : κ → Option α :=
  ops.foldl (MapOp.effect eq) fun _ => none

/-- The keys equal to a key. -/
def classOf (eq : κ → κ → Bool) (key : κ) : Set κ := {k | eq key k = true}

section

variable {hash : κ → UInt64} {eq : κ → κ → Bool} {slots : List (List (κ × α))} {m : κ → Option α}

/-- The table's entries are those of a finite map. -/
structure Tells (hash : κ → UInt64) (eq : κ → κ → Bool) (slots : List (List (κ × α))) (m : κ → Option α) : Prop where
  placed : Placed hash eq Prod.fst slots
  lookup : ∀ key, Keyed.lookup eq slots.flatten key = m key

theorem tells_nil : Tells hash eq ([] : List (List (κ × α))) fun _ => none := ⟨placed_nil, fun _ => rfl⟩

theorem Tells.find (h : Tells hash eq slots m) (hkeys : Hashes hash eq fun _ => True) (key : κ) :
    (Buckets.find hash eq Prod.fst slots key).map Prod.snd = m key := by
  rw [h.placed.find_eq hkeys (fun _ _ => trivial) trivial]
  exact h.lookup key

theorem Tells.apply (h : Tells hash eq slots m) (hkeys : Hashes hash eq fun _ => True) (op : MapOp κ α) :
    Tells hash eq (op.apply hash eq slots) (op.effect eq m) := by
  cases op with
  | insert k value =>
      have hplaced : Placed hash eq Prod.fst (Buckets.insert hash eq slots k value) :=
        h.placed.insert hkeys (fun _ _ => trivial) trivial
      refine ⟨hplaced, fun key => ?_⟩
      rw [MapOp.apply, MapOp.effect, ← h.lookup key]
      by_cases hfind : (Buckets.find hash eq Prod.fst slots k).isSome = true
      · obtain ⟨e, he⟩ := Option.isSome_iff_exists.mp hfind
        rw [h.placed.find_eq hkeys (fun _ _ => trivial) trivial] at he
        rw [h.placed.insert_found hkeys hfind, lookup_replaced hkeys.equates ⟨e, Keyed.mem_of_find? he⟩]
      · have hpush : Buckets.insert hash eq slots k value = push hash Prod.fst slots (k, value) := if_neg hfind
        have hperm := (push_spec h.placed.located (k, value)).2
        rw [hpush] at hplaced ⊢
        have hapart := List.pairwise_map.mp hplaced.distinct
        have hapart' := (hperm.pairwise_iff fun hab => Apart.symm hab).mp hapart
        rw [lookup_perm hkeys.equates hperm hplaced.pairwise (hapart'.imp fun hab => hab.1), Keyed.lookup_cons]
  | remove k =>
      refine ⟨h.placed.remove k, fun key => ?_⟩
      rw [MapOp.apply, MapOp.effect, ← h.lookup key, ← lookup_erased hkeys.equates]
      exact lookup_perm hkeys.equates (h.placed.remove_perm hkeys) (h.placed.remove k).pairwise
        (h.placed.pairwise.filter _)
  | clear =>
      refine ⟨placed_clear slots, fun key => Keyed.lookup_eq_none fun e he => ?_⟩
      exact (mem_clear he).elim

theorem tells_mapAfter (hkeys : Hashes hash eq fun _ => True) (ops : List (MapOp κ α)) :
    Tells hash eq (mapAfter hash eq ops) (lastInserted eq ops) := by
  have hrun : ∀ (slots : List (List (κ × α))) (m : κ → Option α), Tells hash eq slots m →
      Tells hash eq (ops.foldl (MapOp.apply hash eq) slots) (ops.foldl (MapOp.effect eq) m) := by
    induction ops with
    | nil =>
        intro slots m h
        exact h
    | cons op ops ih =>
        intro slots m h
        exact ih _ _ (h.apply hkeys op)
  exact hrun [] (fun _ => none) tells_nil

/-- Keys that are equal to themselves and apart from each other are as many as their classes. -/
theorem ncard_classes {keys : List κ} (hrefl : ∀ key, eq key key = true) (hapart : keys.Pairwise (Apart eq)) :
    {c : Set κ | ∃ key ∈ keys, c = classOf eq key}.ncard = keys.length := by
  classical
  have hnodup : (keys.map (classOf eq)).Nodup := by
    rw [List.Nodup, List.pairwise_map]
    refine hapart.imp fun {a b} hab hclass => ?_
    have hmem : b ∈ classOf eq b := hrefl b
    rw [← hclass] at hmem
    exact Bool.noConfusion (hab.1.symm.trans hmem)
  have hset : {c : Set κ | ∃ key ∈ keys, c = classOf eq key} = ↑(keys.map (classOf eq)).toFinset := by
    ext c
    rw [List.coe_toFinset, Set.mem_ofPred_eq, Set.mem_ofPred_eq, List.mem_map]
    simp only [eq_comm]
  rw [hset, Set.ncard_coe_finset, List.toFinset_card_of_nodup hnodup, List.length_map]

/-- The classes of the visited keys are those of the keys with a value. -/
theorem ncard_visited {found : κ → Prop} {keys : List κ} (hequates : Keyed.Equates eq fun _ => True)
    (hrefl : ∀ key, eq key key = true) (hapart : keys.Pairwise (Apart eq))
    (hfound : ∀ key, found key ↔ ∃ k ∈ keys, eq k key = true) :
    {c : Set κ | ∃ key, found key ∧ c = classOf eq key}.ncard = keys.length := by
  rw [← ncard_classes hrefl hapart]
  congr 1
  ext c
  constructor
  · rintro ⟨key, hkey, rfl⟩
    obtain ⟨k, hk, hek⟩ := (hfound key).mp hkey
    refine ⟨k, hk, ?_⟩
    ext k'
    rw [classOf, classOf, Set.mem_ofPred_eq, Set.mem_ofPred_eq, hequates.congr_left trivial trivial trivial hek]
  · rintro ⟨k, hk, rfl⟩
    exact ⟨k, (hfound k).mpr ⟨k, hk, hrefl k⟩, rfl⟩

/-- Under any operations a map finds the value inserted last, its iteration visits every key that has a value once,
and its length counts these keys. -/
theorem Tells.finite_map (h : Tells hash eq slots m) (hkeys : Hashes hash eq fun _ => True) :
    (∀ key, (Buckets.find hash eq Prod.fst slots key).map Prod.snd = m key) ∧
    ∃ visited, (∀ fuel, visited.length ≤ fuel → visit slots fuel (begin slots) = some visited) ∧
      (visited.map Prod.fst).Pairwise (Apart eq) ∧
      (∀ key value, m key = some value ↔ ∃ e ∈ visited, eq e.1 key = true ∧ e.2 = value) ∧
      length slots = visited.length ∧
      ((∀ key, eq key key = true) →
        length slots = {c : Set κ | ∃ key, (m key).isSome ∧ c = classOf eq key}.ncard) := by
  have hvalue : ∀ key value, m key = some value ↔ ∃ e ∈ slots.flatten, eq e.1 key = true ∧ e.2 = value := by
    intro key value
    rw [← h.lookup key, Keyed.lookup, Option.map_eq_some_iff]
    simp only [hkeys.equates.find?_eq_some_iff (fun _ _ => trivial) h.placed.pairwise trivial, and_assoc]
  refine ⟨h.find hkeys, slots.flatten, fun fuel => visit_begin, h.placed.distinct, hvalue, length_eq,
    fun hrefl => ?_⟩
  rw [length_eq, ← List.length_map Prod.fst, ncard_visited hkeys.equates hrefl h.placed.distinct]
  intro key
  rw [Option.isSome_iff_exists]
  constructor
  · rintro ⟨value, hsome⟩
    obtain ⟨e, he, hek, -⟩ := (hvalue key value).mp hsome
    exact ⟨e.1, List.mem_map_of_mem he, hek⟩
  · rintro ⟨k, hk, hek⟩
    obtain ⟨e, he, rfl⟩ := List.mem_map.mp hk
    exact ⟨e.2, (hvalue key e.2).mpr ⟨e, he, hek, rfl⟩⟩

end

/-! ### The set -/

inductive SetOp (κ : Type) where
  | insert (key : κ)
  | clear

def SetOp.apply (hash : κ → UInt64) (eq : κ → κ → Bool) (slots : List (List κ)) : SetOp κ → List (List κ)
  | .insert key => Buckets.emplace hash eq id slots key
  | .clear => Buckets.clear slots

/-- `contains`. -/
def contains (hash : κ → UInt64) (eq : κ → κ → Bool) (slots : List (List κ)) (key : κ) : Bool :=
  (find hash eq id slots key).isSome

def SetOp.effect (eq : κ → κ → Bool) (m : κ → Bool) : SetOp κ → κ → Bool
  | .insert k, key => eq k key || m key
  | .clear, _ => false

def setAfter (hash : κ → UInt64) (eq : κ → κ → Bool) (ops : List (SetOp κ)) : List (List κ) :=
  ops.foldl (SetOp.apply hash eq) []

/-- Whether an equal key was inserted since the last clear. -/
def everInserted (eq : κ → κ → Bool) (ops : List (SetOp κ)) : κ → Bool := ops.foldl (SetOp.effect eq) fun _ => false

section

variable {hash : κ → UInt64} {eq : κ → κ → Bool} {slots : List (List κ)} {m : κ → Bool}

/-- The table's keys are those of a finite set. -/
structure Counts (hash : κ → UInt64) (eq : κ → κ → Bool) (slots : List (List κ)) (m : κ → Bool) : Prop where
  placed : Placed hash eq id slots
  any : ∀ key, (slots.flatten.any fun k => eq k key) = m key

theorem Counts.contains (h : Counts hash eq slots m) (hkeys : Hashes hash eq fun _ => True) (key : κ) :
    contains hash eq slots key = m key := by
  rw [Buckets.contains, h.placed.find_eq hkeys (fun _ _ => trivial) trivial, ← h.any key, Bool.eq_iff_iff,
    List.find?_isSome, List.any_eq_true]
  rfl

theorem Counts.apply (h : Counts hash eq slots m) (hkeys : Hashes hash eq fun _ => True) (op : SetOp κ) :
    Counts hash eq (op.apply hash eq slots) (op.effect eq m) := by
  cases op with
  | insert k =>
      refine ⟨h.placed.emplace hkeys (fun _ _ => trivial) trivial, fun key => ?_⟩
      rw [SetOp.apply, SetOp.effect, emplace, ← h.any key]
      split_ifs with hfind
      · rw [h.placed.find_eq hkeys (fun _ _ => trivial) trivial, List.find?_isSome] at hfind
        obtain ⟨k', hk', heq⟩ := hfind
        by_cases hk : eq k key = true
        · rw [hk, Bool.true_or, List.any_eq_true]
          exact ⟨k', hk', hkeys.equates.trans trivial trivial trivial heq hk⟩
        · rw [Bool.eq_false_iff.mpr hk, Bool.false_or]
      · rw [(push_spec h.placed.located k).2.any_eq, List.any_cons]
  | clear =>
      refine ⟨placed_clear slots, fun key => ?_⟩
      rw [SetOp.effect, Bool.eq_false_iff]
      intro hany
      obtain ⟨k, hk, -⟩ := List.any_eq_true.mp hany
      exact mem_clear hk

theorem counts_setAfter (hkeys : Hashes hash eq fun _ => True) (ops : List (SetOp κ)) :
    Counts hash eq (setAfter hash eq ops) (everInserted eq ops) := by
  have hrun : ∀ (slots : List (List κ)) (m : κ → Bool), Counts hash eq slots m →
      Counts hash eq (ops.foldl (SetOp.apply hash eq) slots) (ops.foldl (SetOp.effect eq) m) := by
    induction ops with
    | nil =>
        intro slots m h
        exact h
    | cons op ops ih =>
        intro slots m h
        exact ih _ _ (h.apply hkeys op)
  exact hrun [] (fun _ => false) ⟨placed_nil, fun _ => rfl⟩

theorem Counts.finite_set (h : Counts hash eq slots m) (hkeys : Hashes hash eq fun _ => True) :
    (∀ key, Buckets.contains hash eq slots key = m key) ∧
    ∃ visited, (∀ fuel, visited.length ≤ fuel → visit slots fuel (begin slots) = some visited) ∧
      visited.Pairwise (Apart eq) ∧
      (∀ key, m key = true ↔ ∃ k ∈ visited, eq k key = true) ∧
      length slots = visited.length ∧
      ((∀ key, eq key key = true) →
        length slots = {c : Set κ | ∃ key, m key = true ∧ c = classOf eq key}.ncard) := by
  have hdistinct := h.placed.distinct
  rw [List.map_id] at hdistinct
  have hmem : ∀ key, m key = true ↔ ∃ k ∈ slots.flatten, eq k key = true := by
    intro key
    rw [← h.any key, List.any_eq_true]
  refine ⟨h.contains hkeys, slots.flatten, fun fuel => visit_begin, hdistinct, hmem, length_eq, fun hrefl => ?_⟩
  rw [length_eq, ncard_visited hkeys.equates hrefl hdistinct hmem]

end

/-- Maps and sets of any keys, under any equality of them and any hash that respects it, are finite maps and finite
sets after any operations: what is found, what an iteration visits and what the length counts. -/
theorem dynamic_containers (hash : κ → UInt64) (eq : κ → κ → Bool) (hkeys : Hashes hash eq fun _ => True)
    (mapOps : List (MapOp κ α)) (setOps : List (SetOp κ)) :
    ((∀ key, (find hash eq Prod.fst (mapAfter hash eq mapOps) key).map Prod.snd = lastInserted eq mapOps key) ∧
      ∃ visited, (∀ fuel, visited.length ≤ fuel →
          visit (mapAfter hash eq mapOps) fuel (begin (mapAfter hash eq mapOps)) = some visited) ∧
        (visited.map Prod.fst).Pairwise (Apart eq) ∧
        (∀ key value, lastInserted eq mapOps key = some value ↔ ∃ e ∈ visited, eq e.1 key = true ∧ e.2 = value) ∧
        length (mapAfter hash eq mapOps) = visited.length ∧
        ((∀ key, eq key key = true) → length (mapAfter hash eq mapOps)
          = {c : Set κ | ∃ key, (lastInserted eq mapOps key).isSome ∧ c = classOf eq key}.ncard)) ∧
    ((∀ key, contains hash eq (setAfter hash eq setOps) key = everInserted eq setOps key) ∧
      ∃ visited, (∀ fuel, visited.length ≤ fuel →
          visit (setAfter hash eq setOps) fuel (begin (setAfter hash eq setOps)) = some visited) ∧
        visited.Pairwise (Apart eq) ∧
        (∀ key, everInserted eq setOps key = true ↔ ∃ k ∈ visited, eq k key = true) ∧
        length (setAfter hash eq setOps) = visited.length ∧
        ((∀ key, eq key key = true) → length (setAfter hash eq setOps)
          = {c : Set κ | ∃ key, everInserted eq setOps key = true ∧ c = classOf eq key}.ncard)) :=
  ⟨(tells_mapAfter hkeys mapOps).finite_map hkeys, (counts_setAfter hkeys setOps).finite_set hkeys⟩

/-- Keys that share one hash: one of them is inserted twice, and another removed. -/
theorem dynamic_containers_collide :
    (find (fun _ : ℕ => 5) (· == ·) Prod.fst
      (mapAfter (fun _ : ℕ => 5) (· == ·) [.insert 1 10, .insert 2 20, .insert 1 30, .remove 2]) 1).map Prod.snd
      = some 30 := by
  have hkeys : Hashes (fun _ : ℕ => 5) (· == ·) fun _ => True :=
    ⟨⟨fun _ _ hab => (beq_iff_eq.mp hab) ▸ beq_self_eq_true _,
      fun _ _ _ hab hbc => (beq_iff_eq.mp hab) ▸ hbc⟩, fun _ _ _ => rfl⟩
  exact (dynamic_containers (fun _ : ℕ => 5) (· == ·) hkeys
    [.insert 1 10, .insert 2 20, .insert 1 30, .remove 2] []).1.1 1

end Plexdb.Buckets
