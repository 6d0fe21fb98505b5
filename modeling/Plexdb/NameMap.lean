import Mathlib

/-! A finite map as the list of its entries, each key once. -/

namespace Plexdb

abbrev NameMap (κ α : Type) := List (κ × α)

namespace NameMap

variable {κ α : Type} [DecidableEq κ]

def find (m : NameMap κ α) (k : κ) : Option α := List.lookup k m

def remove (m : NameMap κ α) (k : κ) : NameMap κ α := m.filter fun e => e.1 ≠ k

/-- The entry of the key is replaced. -/
def insert (m : NameMap κ α) (k : κ) (a : α) : NameMap κ α := (k, a) :: m.remove k

@[simp] theorem find_nil (k : κ) : find ([] : NameMap κ α) k = none := rfl

theorem find_cons (e : κ × α) (m : NameMap κ α) (k : κ) :
    find (e :: m) k = if k = e.1 then some e.2 else m.find k := by
  rw [find, List.lookup_cons, ← find]
  by_cases h : k = e.1
  · rw [if_pos h, beq_iff_eq.mpr h]
  · rw [if_neg h, beq_eq_false_iff_ne.mpr h]

theorem find_remove (m : NameMap κ α) (k k' : κ) :
    (m.remove k).find k' = if k' = k then none else m.find k' := by
  induction m with
  | nil => simp [remove]
  | cons e m ih =>
      rw [remove] at ih ⊢
      rw [List.filter_cons]
      by_cases he : e.1 = k
      · rw [if_neg (by simpa using he), ih, find_cons]
        split_ifs with hk hke
        · rfl
        · exact absurd (hke.trans he) hk
        · rfl
      · rw [if_pos (by simpa using he), find_cons, ih, find_cons]
        split_ifs with hke hk
        · exact absurd (hke.symm.trans hk) he
        · rfl
        · rfl
        · rfl

theorem find_insert (m : NameMap κ α) (k k' : κ) (a : α) :
    (m.insert k a).find k' = if k' = k then some a else m.find k' := by
  rw [insert, find_cons, find_remove]
  split_ifs <;> rfl

/-! ### Indexes of lists -/

variable {β γ : Type} {live : β → Bool} {name : β → κ} {m m' : NameMap κ ℕ} {l : List β}

/-- The map sends each name to the position of the live element that carries it. -/
def Indexes (m : NameMap κ ℕ) (live : β → Bool) (name : β → κ) (l : List β) : Prop :=
  ∀ n i, m.find n = some i ↔ ∃ b, l[i]? = some b ∧ live b = true ∧ name b = n

/-- No two live elements carry one name. -/
def Unique (live : β → Bool) (name : β → κ) (l : List β) : Prop :=
  ∀ (i j : ℕ) (a b : β), l[i]? = some a → l[j]? = some b → live a = true → live b = true → name a = name b → i = j

/-- The index that a pass over the list builds. -/
def indexBy (live : β → Bool) (name : β → κ) (l : List β) : NameMap κ ℕ :=
  l.zipIdx.foldl (fun m e => if live e.1 then m.insert (name e.1) e.2 else m) []

omit [DecidableEq κ] in
theorem Unique.of_append {l' : List β} (h : Unique live name (l ++ l')) : Unique live name l :=
  fun i j a b hi hj => h i j a b
    (by rw [List.getElem?_append_left (List.getElem?_eq_some_iff.mp hi).1, hi])
    (by rw [List.getElem?_append_left (List.getElem?_eq_some_iff.mp hj).1, hj])

namespace Indexes

theorem nil : Indexes ([] : NameMap κ ℕ) live name [] := by
  intro n i
  simp

theorem unique (h : Indexes m live name l) : Unique live name l := by
  intro i j a b hi hj ha hb hab
  have hfind := (h (name b) i).mpr ⟨a, hi, ha, hab⟩
  rw [(h (name b) j).mpr ⟨b, hj, hb, rfl⟩] at hfind
  exact (Option.some.inj hfind).symm

theorem find_eq (h : Indexes m live name l) (h' : Indexes m' live name l) (n : κ) : m.find n = m'.find n :=
  Option.ext fun i => (h n i).trans (h' n i).symm

theorem find_eq_none (h : Indexes m live name l) {n : κ} :
    m.find n = none ↔ ∀ b ∈ l, live b = true → name b ≠ n := by
  rw [Option.eq_none_iff_forall_ne_some]
  constructor
  · intro hnone b hb hlive hname
    obtain ⟨i, hi⟩ := List.mem_iff_getElem?.mp hb
    exact hnone i ((h n i).mpr ⟨b, hi, hlive, hname⟩)
  · intro hall i hi
    obtain ⟨b, hb, hlive, hname⟩ := (h n i).mp hi
    exact hall b (List.mem_of_getElem? hb) hlive hname

theorem push (h : Indexes m live name l) {b : β} (hlive : live b = true) (hfree : m.find (name b) = none) :
    Indexes (m.insert (name b) l.length) live name (l ++ [b]) := by
  intro n i
  rw [find_insert]
  rcases Nat.lt_trichotomy i l.length with hi | rfl | hi
  · rw [List.getElem?_append_left hi, ← h n i]
    split_ifs with hn
    · subst hn
      rw [hfree, Option.some.injEq]
      exact iff_of_false (by omega) (by simp)
    · rfl
  · rw [List.getElem?_concat_length]
    split_ifs with hn
    · exact iff_of_true rfl ⟨b, rfl, hlive, hn.symm⟩
    · refine iff_of_false (fun hfind => ?_) ?_
      · obtain ⟨a, ha, -⟩ := (h n _).mp hfind
        simp at ha
      · rintro ⟨a, ha, -, hname⟩
        obtain rfl := Option.some.inj ha
        exact hn hname.symm
  · have hnone : (l ++ [b])[i]? = none := List.getElem?_eq_none (by simp; omega)
    rw [hnone]
    refine iff_of_false (fun hfind => ?_) (by simp)
    split_ifs at hfind
    · have := Option.some.inj hfind
      omega
    · obtain ⟨a, ha, -⟩ := (h n i).mp hfind
      have := (List.getElem?_eq_some_iff.mp ha).1
      omega

theorem push_dead (h : Indexes m live name l) {b : β} (hdead : live b = false) :
    Indexes m live name (l ++ [b]) := by
  intro n i
  rw [h n i]
  refine exists_congr fun a => and_congr_left fun ha => ?_
  rw [List.getElem?_append]
  split_ifs with hi
  · rfl
  · rw [List.getElem?_eq_none (by omega : l.length ≤ i), List.getElem?_singleton]
    split_ifs
    · refine iff_of_false (by simp) fun hba => ?_
      rw [← Option.some.inj hba, hdead] at ha
      exact Bool.noConfusion ha.1
    · rfl

theorem of_dead (h : ∀ b ∈ l, live b = false) : Indexes ([] : NameMap κ ℕ) live name l := by
  intro n i
  refine iff_of_false (by simp) ?_
  rintro ⟨b, hb, hlive, -⟩
  rw [h b (List.mem_of_getElem? hb)] at hlive
  exact Bool.noConfusion hlive

theorem modify (h : Indexes m live name l) {i : ℕ} {f : β → β}
    (hf : ∀ b, l[i]? = some b → live (f b) = live b ∧ name (f b) = name b) :
    Indexes m live name (l.modify i f) := by
  intro n j
  rw [h n j, List.getElem?_modify]
  cases hl : l[j]? with
  | none => simp
  | some a =>
      by_cases hij : i = j
      · simp [hij, hf a (hij ▸ hl)]
      · simp [hij]

theorem remove (h : Indexes m live name l) {n : κ} {i : ℕ} (hfind : m.find n = some i) {f : β → β}
    (hf : ∀ b, live (f b) = false) : Indexes (m.remove n) live name (l.modify i f) := by
  obtain ⟨a, ha, hlive, hname⟩ := (h n i).mp hfind
  intro n' j
  rw [find_remove, List.getElem?_modify]
  by_cases hij : i = j
  · subst hij
    rw [ha]
    refine iff_of_false (fun hfind' => ?_) (by simp [hf])
    split_ifs at hfind' with hn
    obtain ⟨b, hb, -, hname'⟩ := (h n' i).mp hfind'
    rw [ha] at hb
    obtain rfl := Option.some.inj hb
    exact hn (hname'.symm.trans hname)
  · simp only [hij, if_false, Option.map_eq_map, Option.map_id']
    rw [← h n' j]
    split_ifs with hn
    · subst hn
      rw [hfind, Option.some.injEq]
      exact iff_of_false (by simp) hij
    · rfl

theorem map {live : γ → Bool} {name : γ → κ} {g : β → γ} :
    Indexes m live name (l.map g) ↔ Indexes m (live ∘ g) (name ∘ g) l := by
  refine forall₂_congr fun n i => ?_
  rw [List.getElem?_map]
  cases l[i]? <;> simp

end Indexes

theorem indexBy_append (b : β) :
    indexBy live name (l ++ [b]) =
      if live b then (indexBy live name l).insert (name b) l.length else indexBy live name l := by
  rw [indexBy, List.zipIdx_append, List.foldl_append, ← indexBy]
  simp

/-- The pass finds the index, if there is one. -/
theorem indexBy_indexes (h : Unique live name l) : Indexes (indexBy live name l) live name l := by
  induction l using List.reverseRecOn with
  | nil => exact .nil
  | append_singleton l b ih =>
      rw [indexBy_append]
      have hl := ih h.of_append
      split_ifs with hlive
      · refine hl.push hlive (hl.find_eq_none.mpr fun a ha halive hname => ?_)
        obtain ⟨i, hi⟩ := List.mem_iff_getElem?.mp ha
        have hlt := (List.getElem?_eq_some_iff.mp hi).1
        have := h i l.length a b (by rw [List.getElem?_append_left hlt, hi]) (by simp) halive hlive hname
        omega
      · exact hl.push_dead (Bool.eq_false_iff.mpr hlive)

end NameMap

end Plexdb
