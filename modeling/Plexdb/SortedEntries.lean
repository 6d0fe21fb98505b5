import Mathlib

/-! Dictionaries as sorted lists of entries. -/

namespace Plexdb

namespace SortedEntries

variable {κ ν : Type} [LinearOrder κ]

/-- Sorted entries: those below a key, the one of the key if there is one, and those above it. -/
theorem exists_parts {es : List (κ × ν)} (hsorted : (es.map (·.1)).Pairwise (· < ·)) (key : κ) :
    ∃ front mid rest, es = front ++ (mid ++ rest) ∧ (∀ e ∈ front, e.1 < key) ∧ (∀ e ∈ rest, key < e.1) ∧
      (mid = [] ∨ ∃ v, mid = [(key, v)]) := by
  induction es with
  | nil => exact ⟨[], [], [], rfl, fun _ h => absurd h List.not_mem_nil, fun _ h => absurd h List.not_mem_nil, .inl rfl⟩
  | cons e es ih =>
      rw [List.map_cons, List.pairwise_cons] at hsorted
      have hrest : ∀ e' ∈ es, e.1 < e'.1 := fun e' he' => hsorted.1 _ (List.mem_map_of_mem he')
      rcases lt_trichotomy e.1 key with hlt | heq | hgt
      · obtain ⟨front, mid, rest, rfl, hfront, hback, hmid⟩ := ih hsorted.2
        exact ⟨e :: front, mid, rest, rfl, List.forall_mem_cons.mpr ⟨hlt, hfront⟩, hback, hmid⟩
      · refine ⟨[], [e], es, rfl, fun _ h => absurd h List.not_mem_nil, fun e' he' =>
        heq ▸ hrest e' he', .inr ⟨e.2, ?_⟩⟩
        rw [← heq]
      · exact ⟨[], [], e :: es, rfl, fun _ h => absurd h List.not_mem_nil,
          List.forall_mem_cons.mpr ⟨hgt, fun e' he' => hgt.trans (hrest e' he')⟩, .inl rfl⟩

/-- Sorted entries with one more, or with another value. -/
def upsert (key : κ) (value : ν) (es : List (κ × ν)) : List (κ × ν) :=
  es.filter (·.1 < key) ++ (key, value) :: es.filter (key < ·.1)

theorem upsert_parts {key : κ} {value : ν} {front mid rest : List (κ × ν)} (hfront : ∀ e ∈ front, e.1 < key)
    (hrest : ∀ e ∈ rest, key < e.1) (hmid : mid = [] ∨ ∃ v, mid = [(key, v)]) :
    upsert key value (front ++ (mid ++ rest)) = front ++ (key, value) :: rest := by
  have h₁ : front.filter (·.1 < key) = front := List.filter_eq_self.mpr fun e he => decide_eq_true (hfront e he)
  have h₂ : front.filter (key < ·.1) = [] := List.filter_eq_nil_iff.mpr fun e he => by simp [(hfront e he).le]
  have h₃ : rest.filter (·.1 < key) = [] := List.filter_eq_nil_iff.mpr fun e he => by simp [(hrest e he).le]
  have h₄ : rest.filter (key < ·.1) = rest := List.filter_eq_self.mpr fun e he => decide_eq_true (hrest e he)
  rcases hmid with rfl | ⟨v, rfl⟩ <;> simp [upsert, List.filter_append, h₁, h₂, h₃, h₄]

theorem upsert_append {key : κ} {value : ν} {as es bs : List (κ × ν)} (has : ∀ e ∈ as, e.1 < key)
    (hbs : ∀ e ∈ bs, key < e.1) : upsert key value (as ++ (es ++ bs)) = as ++ (upsert key value es ++ bs) := by
  have h₁ : as.filter (·.1 < key) = as := List.filter_eq_self.mpr fun e he => decide_eq_true (has e he)
  have h₂ : as.filter (key < ·.1) = [] := List.filter_eq_nil_iff.mpr fun e he => by simp [(has e he).le]
  have h₃ : bs.filter (·.1 < key) = [] := List.filter_eq_nil_iff.mpr fun e he => by simp [(hbs e he).le]
  have h₄ : bs.filter (key < ·.1) = bs := List.filter_eq_self.mpr fun e he => decide_eq_true (hbs e he)
  simp [upsert, List.filter_append, h₁, h₂, h₃, h₄]

theorem length_upsert_le {key : κ} {value : ν} {es : List (κ × ν)} (hsorted : (es.map (·.1)).Pairwise (· < ·)) :
    1 ≤ (upsert key value es).length ∧ (upsert key value es).length ≤ es.length + 1 := by
  obtain ⟨front, mid, rest, rfl, hfront, hrest, hmid⟩ := exists_parts hsorted key
  rw [upsert_parts hfront hrest hmid]
  simp only [List.length_append, List.length_cons]
  omega

theorem length_upsert {key : κ} {value : ν} {es : List (κ × ν)} (hsorted : (es.map (·.1)).Pairwise (· < ·)) :
    (upsert key value es).length = if key ∈ es.map (·.1) then es.length else es.length + 1 := by
  obtain ⟨front, mid, rest, rfl, hfront, hrest, hmid⟩ := exists_parts hsorted key
  rw [upsert_parts hfront hrest hmid]
  rcases hmid with rfl | ⟨v, rfl⟩
  · have hnew : key ∉ (front ++ ([] ++ rest)).map (fun e : κ × ν => e.1) := fun hmem => by
      obtain ⟨e, he, rfl⟩ := List.mem_map.mp hmem
      rcases List.mem_append.mp he with he | he
      · exact lt_irrefl _ (hfront e he)
      · exact lt_irrefl _ (hrest e he)
    rw [if_neg hnew]
    simp [Nat.add_assoc]
  · rw [if_pos (by simp)]
    simp

/-- The value of a key. -/
def lookup (key : κ) (es : List (κ × ν)) : Option ν := (es.find? fun e => e.1 = key).map (·.2)

theorem lookup_parts {key : κ} {front mid rest : List (κ × ν)} (hfront : ∀ e ∈ front, e.1 < key)
    (hrest : ∀ e ∈ rest, key < e.1) : lookup key (front ++ (mid ++ rest)) = lookup key mid := by
  have h₁ : front.find? (fun e => e.1 = key) = none := List.find?_eq_none.mpr fun e he =>
    by simpa using (hfront e he).ne
  have h₂ : rest.find? (fun e => e.1 = key) = none := List.find?_eq_none.mpr fun e he => by simpa using (hrest e he).ne'
  rw [lookup, List.find?_append, h₁, Option.none_or, List.find?_append, h₂, Option.or_none]
  rfl

/-- The entries without that of a key. -/
def erase (key : κ) (es : List (κ × ν)) : List (κ × ν) := es.filter fun e => e.1 ≠ key

theorem erase_parts {key : κ} {front mid rest : List (κ × ν)} (hfront : ∀ e ∈ front, e.1 < key)
    (hrest : ∀ e ∈ rest, key < e.1) (hmid : mid = [] ∨ ∃ v, mid = [(key, v)]) :
    erase key (front ++ (mid ++ rest)) = front ++ rest ∧
      decide (key ∈ (front ++ (mid ++ rest)).map (·.1)) = !mid.isEmpty := by
  have h₁ : erase key front = front := List.filter_eq_self.mpr fun e he => decide_eq_true (hfront e he).ne
  have h₂ : erase key rest = rest := List.filter_eq_self.mpr fun e he => decide_eq_true (hrest e he).ne'
  have h₃ : key ∉ front.map (·.1) := fun hmem => by
    obtain ⟨e, he, hkey⟩ := List.mem_map.mp hmem
    exact (hfront e he).ne hkey
  have h₄ : key ∉ rest.map (·.1) := fun hmem => by
    obtain ⟨e, he, hkey⟩ := List.mem_map.mp hmem
    exact (hrest e he).ne' hkey
  constructor
  · have h₅ : erase key mid = [] := by
      rcases hmid with rfl | ⟨v, rfl⟩
      · rfl
      · simp [erase]
    unfold erase at h₁ h₂ h₅ ⊢
    rw [List.filter_append, List.filter_append, h₁, h₂, h₅, List.nil_append]
  · rcases hmid with rfl | ⟨v, rfl⟩
    · refine decide_eq_false ?_
      rw [List.nil_append, List.map_append, List.mem_append]
      exact not_or.mpr ⟨h₃, h₄⟩
    · exact decide_eq_true (by simp)

theorem upsert_sorted {key : κ} {value : ν} {es : List (κ × ν)} (hsorted : (es.map (·.1)).Pairwise (· < ·)) :
    ((upsert key value es).map (·.1)).Pairwise (· < ·) := by
  obtain ⟨front, mid, rest, rfl, hfront, hrest, hmid⟩ := exists_parts hsorted key
  rw [upsert_parts hfront hrest hmid]
  rw [List.map_append, List.map_append, List.pairwise_append, List.pairwise_append] at hsorted
  obtain ⟨h₁, ⟨-, h₂, -⟩, h₃⟩ := hsorted
  rw [List.map_append, List.map_cons, List.pairwise_append, List.pairwise_cons]
  refine ⟨h₁, ⟨List.forall_mem_map.mpr hrest, h₂⟩, fun a ha b hb => ?_⟩
  rcases List.mem_cons.mp hb with rfl | hb
  · obtain ⟨e, he, rfl⟩ := List.mem_map.mp ha
    exact hfront e he
  · exact h₃ a ha b (List.mem_append_right _ hb)

theorem erase_sorted {key : κ} {es : List (κ × ν)} (hsorted : (es.map (·.1)).Pairwise (· < ·)) :
    ((erase key es).map (·.1)).Pairwise (· < ·) :=
  hsorted.sublist (List.filter_sublist.map _)

theorem lookup_eq_some {key : κ} {value : ν} {es : List (κ × ν)} (hsorted : (es.map (·.1)).Pairwise (· < ·)) :
    lookup key es = some value ↔ (key, value) ∈ es := by
  obtain ⟨front, mid, rest, rfl, hfront, hrest, hmid⟩ := exists_parts hsorted key
  have h₁ : (key, value) ∉ front := fun hmem => lt_irrefl key (hfront _ hmem)
  have h₂ : (key, value) ∉ rest := fun hmem => lt_irrefl key (hrest _ hmem)
  rw [lookup_parts hfront hrest, List.mem_append, List.mem_append]
  rcases hmid with rfl | ⟨v, rfl⟩
  · simp [lookup, h₁, h₂]
  · simp [lookup, h₁, h₂, eq_comm]

end SortedEntries

/-- A dictionary: its entries in the order of their keys, no key twice. -/
structure Dict (κ ν : Type) [LinearOrder κ] where
  entries : List (κ × ν)
  sorted : (entries.map (·.1)).Pairwise (· < ·)

namespace Dict

open SortedEntries

variable {κ ν : Type} [LinearOrder κ] {d d' : Dict κ ν} {k k' : κ} {v : ν}

def empty : Dict κ ν := ⟨[], List.Pairwise.nil⟩

def get (d : Dict κ ν) (k : κ) : Option ν := lookup k d.entries

def set (d : Dict κ ν) (k : κ) (v : ν) : Dict κ ν := ⟨upsert k v d.entries, upsert_sorted d.sorted⟩

def erase (d : Dict κ ν) (k : κ) : Dict κ ν := ⟨SortedEntries.erase k d.entries, erase_sorted d.sorted⟩

def size (d : Dict κ ν) : Nat := d.entries.length

@[simp] theorem get_empty : (empty : Dict κ ν).get k = none := rfl

theorem get_eq_some : d.get k = some v ↔ (k, v) ∈ d.entries := lookup_eq_some d.sorted

theorem mem_keys : k ∈ d.entries.map (·.1) ↔ (d.get k).isSome = true := by
  rw [Option.isSome_iff_exists, List.mem_map]
  constructor
  · rintro ⟨e, he, rfl⟩
    exact ⟨e.2, get_eq_some.mpr he⟩
  · rintro ⟨v, hv⟩
    exact ⟨(k, v), get_eq_some.mp hv, rfl⟩

theorem decide_mem_keys : decide (k ∈ d.entries.map (·.1)) = (d.get k).isSome := by
  cases hget : (d.get k).isSome with
  | true => exact decide_eq_true (mem_keys.mpr hget)
  | false => exact decide_eq_false fun hmem => Bool.false_ne_true (hget.symm.trans (mem_keys.mp hmem))

theorem get_set : (d.set k v).get k' = if k' = k then some v else d.get k' := by
  refine Option.ext fun w => ?_
  rw [get_eq_some]
  change (k', w) ∈ d.entries.filter (·.1 < k) ++ (k, v) :: d.entries.filter (k < ·.1) ↔ _
  rw [List.mem_append, List.mem_cons, List.mem_filter, List.mem_filter, decide_eq_true_iff,
    decide_eq_true_iff, Prod.mk.injEq]
  split_ifs with hk
  · subst hk
    simp [eq_comm]
  · rw [get_eq_some]
    have := lt_or_gt_of_ne hk
    tauto

theorem get_erase : (d.erase k).get k' = if k' = k then none else d.get k' := by
  refine Option.ext fun w => ?_
  rw [get_eq_some]
  change (k', w) ∈ d.entries.filter (fun e => e.1 ≠ k) ↔ _
  rw [List.mem_filter, decide_eq_true_iff]
  split_ifs with hk
  · simp [hk]
  · rw [get_eq_some]
    exact and_iff_left hk

/-- Dictionaries are the finite maps they stand for. -/
theorem ext_get (h : ∀ k, d.get k = d'.get k) : d = d' := by
  have hmem : ∀ e, e ∈ d.entries ↔ e ∈ d'.entries := fun e => by
    rw [← get_eq_some (k := e.1) (v := e.2), h, get_eq_some]
  obtain ⟨es, hes⟩ := d
  obtain ⟨fs, hfs⟩ := d'
  rw [List.pairwise_map] at hes hfs
  have hperm : es.Perm fs := (List.perm_ext_iff_of_nodup (hes.imp fun h => ne_of_apply_ne Prod.fst h.ne)
    (hfs.imp fun h => ne_of_apply_ne Prod.fst h.ne)).mpr hmem
  have heq : es = fs := hperm.eq_of_pairwise (fun a b _ _ hab hba => absurd hab hba.not_gt) hes hfs
  subst heq
  rfl

theorem erase_of_get_eq_none (h : d.get k = none) : d.erase k = d := by
  refine ext_get fun k' => ?_
  rw [get_erase]
  split_ifs with hk
  · rw [hk, h]
  · rfl

theorem size_set_le : (d.set k v).size ≤ d.size + 1 := (length_upsert_le d.sorted).2

/-! ### Other values -/

variable {μ : Type}

/-- The same keys with other values. -/
def map (f : ν → μ) (d : Dict κ ν) : Dict κ μ := ⟨d.entries.map fun e => (e.1, f e.2), by
  rw [List.map_map]
  exact d.sorted⟩

variable {f : ν → μ}

@[simp] theorem size_map : (d.map f).size = d.size := List.length_map _

@[simp] theorem get_map : (d.map f).get k = (d.get k).map f := by
  change (((d.entries.map fun e => (e.1, f e.2)).find? fun e => e.1 = k).map (·.2)) = _
  rw [List.find?_map, Option.map_map, get, lookup, Option.map_map]
  rfl

theorem map_set : (d.set k v).map f = (d.map f).set k (f v) := by
  refine ext_get fun k' => ?_
  rw [get_map, get_set, get_set, get_map]
  split_ifs <;> rfl

theorem map_erase : (d.erase k).map f = (d.map f).erase k := by
  refine ext_get fun k' => ?_
  rw [get_map, get_erase, get_erase, get_map]
  split_ifs <;> rfl

/-- The entries around a key. -/
theorem entries_of_get (h : d.get k = some v) : ∃ front rest, d.entries = front ++ (k, v) :: rest ∧
    (∀ w, (d.set k w).entries = front ++ (k, w) :: rest) ∧ (d.erase k).entries = front ++ rest := by
  obtain ⟨front, mid, rest, hes, hfront, hrest, hmid⟩ := exists_parts d.sorted k
  rw [get, hes, lookup_parts hfront hrest] at h
  obtain rfl : mid = [(k, v)] := by
    rcases hmid with rfl | ⟨w, rfl⟩
    · cases h
    · simpa [lookup] using h
  refine ⟨front, rest, hes, fun w => ?_, ?_⟩
  · exact (congrArg (upsert k w) hes).trans (upsert_parts hfront hrest hmid)
  · exact (congrArg (SortedEntries.erase k) hes).trans (erase_parts hfront hrest hmid).1

theorem entries_of_get_eq_none (h : d.get k = none) : ∃ front rest, d.entries = front ++ rest ∧
    ∀ w, (d.set k w).entries = front ++ (k, w) :: rest := by
  obtain ⟨front, mid, rest, hes, hfront, hrest, hmid⟩ := exists_parts d.sorted k
  rw [get, hes, lookup_parts hfront hrest] at h
  obtain rfl : mid = [] := by
    rcases hmid with rfl | ⟨w, rfl⟩
    · rfl
    · simp [lookup] at h
  exact ⟨front, rest, hes, fun w => (congrArg (upsert k w) hes).trans (upsert_parts hfront hrest hmid)⟩

end Dict

end Plexdb
