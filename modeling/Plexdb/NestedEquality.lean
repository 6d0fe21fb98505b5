import Plexdb.NestedValues

/-! Equality and hash of nested column values. On values whose tables are placed, the equality is that of the erased
values, so it does not depend on the slots; it is symmetric and transitive, and equal values have equal hashes. A
value is equal to itself unless it holds a NaN. -/

namespace Plexdb.Cql

open Buckets Keyed

namespace NestedColumnValue

/-! ### Values whose tables are placed -/

/-- Every table in the value has its entries in their slots and no two equal keys. -/
inductive Sound : NestedColumnValue → Prop where
  | null : Sound .null
  | basic (value : BasicValue) : Sound (.basic value)
  | array {elements : List NestedColumnValue} (h : ∀ el ∈ elements, Sound el) : Sound (.array elements)
  | set {slots : List (List NestedColumnValue)} (hplaced : Placed hash eq id slots)
      (h : ∀ key ∈ slots.flatten, Sound key) : Sound (.set slots)
  | map {slots : List (List (NestedColumnValue × NestedColumnValue))} (hplaced : Placed hash eq Prod.fst slots)
      (hkeys : ∀ entry ∈ slots.flatten, Sound entry.1) (hvalues : ∀ entry ∈ slots.flatten, Sound entry.2) :
      Sound (.map slots)

/-- Sound values below a size. -/
def Small (n : Nat) (v : NestedColumnValue) : Prop := Sound v ∧ sizeOf v < n

section
variable {n : Nat}

theorem Small.array {elements : List NestedColumnValue} (h : Small (n + 1) (.array elements)) :
    ∀ el ∈ elements, Small n el := by
  obtain ⟨hsound, hsize⟩ := h
  cases hsound with
  | array hels =>
      intro el hel
      have := List.sizeOf_lt_of_mem hel
      rw [NestedColumnValue.array.sizeOf_spec] at hsize
      exact ⟨hels el hel, by omega⟩

theorem Small.set {slots : List (List NestedColumnValue)} (h : Small (n + 1) (.set slots)) :
    Placed hash eq id slots ∧ ∀ key ∈ slots.flatten, Small n key := by
  obtain ⟨hsound, hsize⟩ := h
  cases hsound with
  | set hplaced hkeys =>
      refine ⟨hplaced, fun key hkey => ?_⟩
      have := sizeOf_lt_of_mem_flatten hkey
      rw [NestedColumnValue.set.sizeOf_spec] at hsize
      exact ⟨hkeys key hkey, by omega⟩

theorem Small.map {slots : List (List (NestedColumnValue × NestedColumnValue))} (h : Small (n + 1) (.map slots)) :
    Placed hash eq Prod.fst slots ∧ ∀ entry ∈ slots.flatten, Small n entry.1 ∧ Small n entry.2 := by
  obtain ⟨hsound, hsize⟩ := h
  cases hsound with
  | map hplaced hkeys hvalues =>
      refine ⟨hplaced, fun entry hentry => ?_⟩
      have := sizeOf_lt_of_mem_flatten hentry
      have := sizeOf_nested_entry entry
      rw [NestedColumnValue.map.sizeOf_spec] at hsize
      exact ⟨⟨hkeys entry hentry, by omega⟩, hvalues entry hentry, by omega⟩

end

/-! ### Equality kind by kind -/

inductive Kind where
  | null | native | array | set | map

/-- The kind of a value, which equal values share. -/
def kind : ColumnValue → Kind
  | .null => .null
  | .array _ => .array
  | .set _ => .set
  | .map _ => .map
  | _ => .native

theorem kind_of_native {v : ColumnValue} (h : isNative v = true) : kind v = .native := by
  cases v <;> first | rfl | cases h

theorem kind_of_beq {a b : ColumnValue} (h : ColumnValue.beq a b = true) : kind a = kind b := by
  fun_cases ColumnValue.beq a b with
  | case18 => simp_all [ColumnValue.beq]
  | _ => rfl

theorem equates_of_kind {P : ColumnValue → Prop} (h : ∀ k, Equates ColumnValue.beq fun v => P v ∧ kind v = k) :
    Equates ColumnValue.beq P where
  symm ha hb hab := (h _).symm ⟨ha, rfl⟩ ⟨hb, (kind_of_beq hab).symm⟩ hab
  trans ha hb hc hab hbc :=
    (h _).trans ⟨ha, rfl⟩ ⟨hb, (kind_of_beq hab).symm⟩
      ⟨hc, ((kind_of_beq hab).trans (kind_of_beq hbc)).symm⟩ hab hbc

/-! ### The equality of the erased values -/

/-- On values below a size, the equality is that of the erased values, and the hash respects it. -/
structure Consistent (n : Nat) : Prop where
  refines : ∀ {a b}, Small n a → Small n b → eq a b = ColumnValue.beq (erase a) (erase b)
  hashes : Hashes hash eq (Small n)

section
variable {n : Nat}

/-- The erased values below a size. -/
def Erased (n : Nat) (v : ColumnValue) : Prop := ∃ a, Small n a ∧ erase a = v

theorem Consistent.erased (h : Consistent n) : Equates ColumnValue.beq (Erased n) where
  symm := by
    rintro _ _ ⟨a, ha, rfl⟩ ⟨b, hb, rfl⟩ hab
    rw [← h.refines ha hb] at hab
    rw [← h.refines hb ha]
    exact h.hashes.equates.symm ha hb hab
  trans := by
    rintro _ _ _ ⟨a, ha, rfl⟩ ⟨b, hb, rfl⟩ ⟨c, hc, rfl⟩ hab hbc
    rw [← h.refines ha hb] at hab
    rw [← h.refines hb hc] at hbc
    rw [← h.refines ha hc]
    exact h.hashes.equates.trans ha hb hc hab hbc

theorem all_congr_mem {α : Type} {p q : α → Bool} {l : List α} (h : ∀ x ∈ l, p x = q x) : l.all p = l.all q := by
  rw [Bool.eq_iff_iff, List.all_eq_true, List.all_eq_true]
  exact forall₂_congr fun x hx => by rw [h x hx]

theorem Consistent.array (h : Consistent n) {as bs : List NestedColumnValue} (ha : ∀ a ∈ as, Small n a)
    (hb : ∀ b ∈ bs, Small n b) :
    eq (.array as) (.array bs) = ColumnValue.beq (erase (.array as)) (erase (.array bs)) := by
  rw [eq_array, erase_array, erase_array, beq_array, List.length_map, List.length_map, List.zip_map, List.all_map]
  refine congrArg (_ && ·) (all_congr_mem fun p hp => ?_)
  exact h.refines (ha _ (List.of_mem_zip hp).1) (hb _ (List.of_mem_zip hp).2)

theorem Consistent.set (h : Consistent n) {as bs : List (List NestedColumnValue)} (hplaced : Placed hash eq id bs)
    (ha : ∀ a ∈ as.flatten, Small n a) (hb : ∀ b ∈ bs.flatten, Small n b) :
    eq (.set as) (.set bs) = ColumnValue.beq (erase (.set as)) (erase (.set bs)) := by
  rw [eq_set, erase_set, erase_set, beq_set, List.length_map, List.length_map, List.all_map]
  refine congrArg (_ && ·) (all_congr_mem fun a haa => ?_)
  rw [hplaced.find_eq h.hashes hb (ha a haa), Function.comp_apply, List.any_map, List.isSome_find?]
  rw [Bool.eq_iff_iff, List.any_eq_true, List.any_eq_true]
  refine exists_congr fun b => and_congr_right fun hbb => ?_
  rw [Function.comp_apply, ← h.refines (hb b hbb) (ha a haa)]
  rfl

theorem Consistent.map (h : Consistent n) {as bs : List (List (NestedColumnValue × NestedColumnValue))}
    (hplaced : Placed hash eq Prod.fst bs) (ha : ∀ a ∈ as.flatten, Small n a.1 ∧ Small n a.2)
    (hb : ∀ b ∈ bs.flatten, Small n b.1 ∧ Small n b.2) :
    eq (.map as) (.map bs) = ColumnValue.beq (erase (.map as)) (erase (.map bs)) := by
  rw [eq_map, erase_map, erase_map, beq_map, List.length_map, List.length_map, List.all_map]
  refine congrArg (_ && ·) (all_congr_mem fun a haa => ?_)
  have hkeys : ∀ b ∈ bs.flatten, eq b.1 a.1 = ColumnValue.beq (erase b.1) (erase a.1) := fun b hbb =>
    h.refines (hb b hbb).1 (ha a haa).1
  rw [hplaced.find_eq h.hashes (fun b hbb => (hb b hbb).1) (ha a haa).1, Function.comp_apply, List.find?_map,
    List.find?_congr hkeys, Option.any_map]
  cases hfind : bs.flatten.find? fun b => ColumnValue.beq (erase b.1) (erase a.1) with
  | none =>
      simp only [Function.comp_def, hfind, Option.any_none]
  | some b =>
      simp only [Function.comp_def, hfind, Option.any_some]
      exact h.refines (hb b (List.mem_of_find?_eq_some hfind)).2 (ha a haa).2

/-- The erased keys of a table are different. -/
theorem Consistent.pairwise (h : Consistent n) {γ : Type} {keyOf : γ → NestedColumnValue} {slots : List (List γ)}
    (hplaced : Placed hash eq keyOf slots) (hP : ∀ e ∈ slots.flatten, Small n (keyOf e)) :
    slots.flatten.Pairwise fun a b => ColumnValue.beq (erase (keyOf a)) (erase (keyOf b)) = false := by
  have hdistinct := List.pairwise_map.mp hplaced.distinct
  refine hdistinct.imp_of_mem fun {a b} ha hb hab => ?_
  rw [← h.refines (hP a ha) (hP b hb)]
  exact hab.1

/-- What the erased values of one kind are made of. -/
def Shape (n : Nat) (v : ColumnValue) : Kind → Prop
  | .null => v = .null
  | .native => isNative v = true
  | .array => ∃ vs, v = .array vs ∧ ∀ x ∈ vs, Erased n x
  | .set => ∃ vs, v = .set vs ∧ (∀ x ∈ vs, Erased n x) ∧ vs.Pairwise fun a b => ColumnValue.beq a b = false
  | .map => ∃ es, v = .map es ∧ (∀ e ∈ es, Erased n e.1 ∧ Erased n e.2) ∧
      es.Pairwise fun a b => ColumnValue.beq a.1 b.1 = false

theorem Consistent.shape (h : Consistent n) {a : NestedColumnValue} (ha : Small (n + 1) a) :
    Shape n (erase a) (kind (erase a)) := by
  cases a with
  | null =>
      rw [erase]
      rfl
  | basic v =>
      rw [erase, kind_of_native v.2]
      exact v.2
  | array elements =>
      rw [erase_array]
      refine ⟨_, rfl, fun x hx => ?_⟩
      obtain ⟨el, hel, rfl⟩ := List.mem_map.mp hx
      exact ⟨el, ha.array el hel, rfl⟩
  | set slots =>
      obtain ⟨hplaced, hkeys⟩ := ha.set
      rw [erase_set]
      refine ⟨_, rfl, fun x hx => ?_, List.pairwise_map.mpr (h.pairwise hplaced hkeys)⟩
      obtain ⟨key, hkey, rfl⟩ := List.mem_map.mp hx
      exact ⟨key, hkeys key hkey, rfl⟩
  | map slots =>
      obtain ⟨hplaced, hentries⟩ := ha.map
      rw [erase_map]
      refine ⟨_, rfl, fun x hx => ?_, List.pairwise_map.mpr (h.pairwise hplaced fun e he => (hentries e he).1)⟩
      obtain ⟨entry, hentry, rfl⟩ := List.mem_map.mp hx
      exact ⟨⟨entry.1, (hentries entry hentry).1, rfl⟩, entry.2, (hentries entry hentry).2, rfl⟩

theorem Consistent.erased_succ (h : Consistent n) : Equates ColumnValue.beq (Erased (n + 1)) := by
  refine equates_of_kind fun k => ?_
  have hshape : ∀ v, Erased (n + 1) v ∧ kind v = k → Shape n v k := by
    rintro _ ⟨⟨a, ha, rfl⟩, rfl⟩
    exact h.shape ha
  cases k with
  | null =>
      refine Equates.mono ⟨?_, ?_⟩ hshape
      · rintro _ _ rfl rfl hab
        exact hab
      · rintro _ _ _ rfl rfl rfl hab -
        exact hab
  | native => exact equates_native.mono hshape
  | array => exact (equates_array h.erased).mono hshape
  | set => exact (equates_set h.erased).mono hshape
  | map => exact (equates_map h.erased h.erased).mono hshape

/-- The kind of a nested value. -/
def nestedKind : NestedColumnValue → Kind
  | .null => .null
  | .basic _ => .native
  | .array _ => .array
  | .set _ => .set
  | .map _ => .map

theorem kind_erase (a : NestedColumnValue) : kind (erase a) = nestedKind a := by
  cases a with
  | null => rw [erase]; rfl
  | basic v => rw [erase, kind_of_native v.2]; rfl
  | array elements => rw [erase_array]; rfl
  | set slots => rw [erase_set]; rfl
  | map slots => rw [erase_map]; rfl

theorem eq_of_kind_ne {a b : NestedColumnValue} (h : nestedKind a ≠ nestedKind b) : eq a b = false := by
  fun_cases eq a b with
  | case6 => rfl
  | _ => exact absurd rfl h

theorem Consistent.refines_succ (h : Consistent n) {a b : NestedColumnValue} (ha : Small (n + 1) a)
    (hb : Small (n + 1) b) : eq a b = ColumnValue.beq (erase a) (erase b) := by
  by_cases hkind : nestedKind a = nestedKind b
  · cases a with
    | null =>
        cases b with
        | null => rw [eq, erase, ColumnValue.beq]
        | _ => cases hkind
    | basic v =>
        cases b with
        | basic w => rw [eq, erase, erase]
        | _ => cases hkind
    | array as =>
        cases b with
        | array bs => exact h.array ha.array hb.array
        | _ => cases hkind
    | set as =>
        cases b with
        | set bs => exact h.set hb.set.1 ha.set.2 hb.set.2
        | _ => cases hkind
    | map as =>
        cases b with
        | map bs => exact h.map hb.map.1 ha.map.2 hb.map.2
        | _ => cases hkind
  · rw [eq_of_kind_ne hkind]
    refine (Bool.eq_false_iff.mpr fun heq => hkind ?_).symm
    rw [← kind_erase, ← kind_erase]
    exact kind_of_beq heq

/-! ### Equal values have equal hashes -/

theorem normalizedBytes_congr {k exp man : Nat} {a b : BitVec (1 + exp + man)} (h : floatEq exp man a b = true) :
    normalizedBytes k exp man a = normalizedBytes k exp man b := by
  simp only [floatEq, Bool.and_eq_true, Bool.or_eq_true, beq_iff_eq] at h
  unfold normalizedBytes
  rcases h.2 with rfl | ⟨ha, hb⟩
  · rfl
  · rw [if_pos ha, if_pos hb]

theorem hashBasic_congr {a b : ColumnValue} (ha : isNative a = true) (h : ColumnValue.beq a b = true) :
    hashBasic a = hashBasic b := by
  rcases beq_native ha h with rfl | ⟨x, y, rfl, rfl, hxy⟩ | ⟨x, y, rfl, rfl, hxy⟩
  · rfl
  · rw [hashBasic, hashBasic, normalizedBytes_congr hxy]
  · rw [hashBasic, hashBasic, normalizedBytes_congr hxy]

/-- A fold over two lists whose elements do the same one by one. -/
theorem foldl_forall₂ {α β : Type} {R : α → α → Prop} {f : β → α → β} {as bs : List α}
    (hf : ∀ a ∈ as, ∀ b ∈ bs, R a b → ∀ z, f z a = f z b) (h : List.Forall₂ R as bs) (z : β) :
    as.foldl f z = bs.foldl f z := by
  induction h generalizing z with
  | nil => rfl
  | cons hab _ ih =>
      rw [List.foldl_cons, List.foldl_cons, hf _ List.mem_cons_self _ List.mem_cons_self hab]
      exact ih (fun a ha b hb => hf a (List.mem_cons_of_mem _ ha) b (List.mem_cons_of_mem _ hb)) _

/-- A sum over the entries of two tables with equal entries. -/
theorem foldl_add_congr {γ : Type} {r : γ → γ → Bool} {f : γ → UInt64} {as bs : List γ} {P : γ → Prop}
    (hr : Equates r P) (ha : ∀ a ∈ as, P a) (hb : ∀ b ∈ bs, P b) (hlen : as.length = bs.length)
    (hdistinct : as.Pairwise fun a a' => r a a' = false) (h : ∀ a ∈ as, ∃ b ∈ bs, r b a = true)
    (hf : ∀ a ∈ as, ∀ b ∈ bs, r b a = true → f a = f b) (z : UInt64) :
    as.foldl (fun h a => h + f a) z = bs.foldl (fun h a => h + f a) z := by
  obtain ⟨cs, hperm, hpairs⟩ := exists_perm hlen
    (fun a haa b hbb a' haa' hba hba' =>
      hr.trans (ha a haa) (hb b hbb) (ha a' haa') (hr.symm (hb b hbb) (ha a haa) hba) hba') hdistinct h
  have hsame : as.foldl (fun h a => h + f a) z = cs.foldl (fun h a => h + f a) z :=
    foldl_forall₂ (fun a haa b hbb hba w => by rw [hf a haa b (hperm.subset hbb) hba]) hpairs z
  have hcomm : RightCommutative fun (h : UInt64) (a : γ) => h + f a := ⟨fun h a b => by
    rw [UInt64.add_assoc, UInt64.add_comm (f a), ← UInt64.add_assoc]⟩
  rw [hsame]
  exact hperm.foldl_eq z

theorem eq_array_iff {as bs : List NestedColumnValue} : eq (.array as) (.array bs) = true ↔
    List.Forall₂ (fun a b => eq a b = true) as bs := by
  rw [eq_array, Bool.and_eq_true, beq_iff_eq, List.all_eq_true, List.forall₂_iff_zip]
  exact and_congr_right fun _ => ⟨fun h _ _ hab => h _ hab, fun h p hp => h hp⟩

/-- Two sets are equal when they are as long and each key of the first has an equal one in the second. -/
theorem eq_set_iff {P : NestedColumnValue → Prop} (hkeys : Hashes hash eq P) {as bs : List (List NestedColumnValue)}
    (hplaced : Placed hash eq id bs) (ha : ∀ a ∈ as.flatten, P a) (hb : ∀ b ∈ bs.flatten, P b) :
    eq (.set as) (.set bs) = true ↔
      as.flatten.length = bs.flatten.length ∧ ∀ a ∈ as.flatten, ∃ b ∈ bs.flatten, eq b a = true := by
  rw [eq_set, Bool.and_eq_true, beq_iff_eq, List.all_eq_true]
  refine and_congr_right fun _ => forall₂_congr fun a haa => ?_
  rw [hplaced.find_eq hkeys hb (ha a haa), List.find?_isSome]
  rfl

theorem eq_map_iff {P : NestedColumnValue → Prop} (hkeys : Hashes hash eq P)
    {as bs : List (List (NestedColumnValue × NestedColumnValue))} (hplaced : Placed hash eq Prod.fst bs)
    (ha : ∀ a ∈ as.flatten, P a.1) (hb : ∀ b ∈ bs.flatten, P b.1) :
    eq (.map as) (.map bs) = true ↔ as.flatten.length = bs.flatten.length ∧
      ∀ a ∈ as.flatten, ∃ b ∈ bs.flatten, (eq b.1 a.1 && eq b.2 a.2) = true := by
  have hdistinct : bs.flatten.Pairwise fun a b => eq a.1 b.1 = false :=
    (List.pairwise_map.mp hplaced.distinct).imp fun h => h.1
  rw [eq_map, Bool.and_eq_true, beq_iff_eq, List.all_eq_true]
  refine and_congr_right fun _ => forall₂_congr fun a haa => ?_
  rw [hplaced.find_eq hkeys hb (ha a haa), Option.any_eq_true]
  constructor
  · rintro ⟨b, hfind, hvalue⟩
    obtain ⟨hbb, hkey⟩ := mem_of_find? hfind
    exact ⟨b, hbb, Bool.and_eq_true_iff.mpr ⟨hkey, hvalue⟩⟩
  · rintro ⟨b, hbb, hboth⟩
    obtain ⟨hkey, hvalue⟩ := Bool.and_eq_true_iff.mp hboth
    exact ⟨b, (hkeys.equates.find?_eq_some_iff hb hdistinct (ha a haa)).mpr ⟨hbb, hkey⟩, hvalue⟩

/-- Entries are equal in their keys and their values. -/
theorem equates_entry {P : NestedColumnValue → Prop} (h : Equates eq P) :
    Equates (fun a b : NestedColumnValue × NestedColumnValue => eq a.1 b.1 && eq a.2 b.2) fun e => P e.1 ∧ P e.2 where
  symm ha hb hab := by
    rw [Bool.and_eq_true] at *
    exact ⟨h.symm ha.1 hb.1 hab.1, h.symm ha.2 hb.2 hab.2⟩
  trans ha hb hc hab hbc := by
    rw [Bool.and_eq_true] at *
    exact ⟨h.trans ha.1 hb.1 hc.1 hab.1 hbc.1, h.trans ha.2 hb.2 hc.2 hab.2 hbc.2⟩

theorem Consistent.hash_succ (h : Consistent n) {a b : NestedColumnValue} (ha : Small (n + 1) a)
    (hb : Small (n + 1) b) (hab : eq a b = true) : hash a = hash b := by
  fun_cases eq a b with
  | case1 => rfl
  | case2 v w =>
      rw [eq] at hab
      rw [hash, hash]
      exact hashBasic_congr v.2 hab
  | case3 as bs =>
      rw [hash_array, hash_array]
      refine foldl_forall₂ (fun x hx y hy hxy z => ?_) (eq_array_iff.mp hab) 1
      rw [h.hashes.congr (ha.array x hx) (hb.array y hy) hxy]
  | case4 as bs =>
      obtain ⟨haplaced, hakeys⟩ := ha.set
      obtain ⟨hbplaced, hbkeys⟩ := hb.set
      obtain ⟨hlen, hpartner⟩ := (eq_set_iff h.hashes hbplaced hakeys hbkeys).mp hab
      rw [hash_set, hash_set]
      refine foldl_add_congr h.hashes.equates hakeys hbkeys hlen ?_ hpartner (fun x hx y hy hyx => ?_) 2
      · exact (List.pairwise_map.mp haplaced.distinct).imp fun h => h.1
      · rw [h.hashes.congr (hbkeys y hy) (hakeys x hx) hyx]
  | case5 as bs =>
      obtain ⟨haplaced, haentries⟩ := ha.map
      obtain ⟨hbplaced, hbentries⟩ := hb.map
      obtain ⟨hlen, hpartner⟩ := (eq_map_iff h.hashes hbplaced (fun e he => (haentries e he).1)
        fun e he => (hbentries e he).1).mp hab
      rw [hash_map, hash_map]
      refine foldl_add_congr (equates_entry h.hashes.equates) haentries hbentries hlen ?_ hpartner
        (fun x hx y hy hyx => ?_) 3
      · exact (List.pairwise_map.mp haplaced.distinct).imp fun h => by rw [h.1, Bool.false_and]
      · obtain ⟨hkey, hvalue⟩ := Bool.and_eq_true_iff.mp hyx
        rw [h.hashes.congr (hbentries y hy).1 (haentries x hx).1 hkey,
          h.hashes.congr (hbentries y hy).2 (haentries x hx).2 hvalue]
  | case6 => simp_all [eq]

theorem consistent (n : Nat) : Consistent n := by
  induction n with
  | zero =>
      have hnone : ∀ {v}, ¬ Small 0 v := fun h => Nat.not_lt_zero _ h.2
      refine ⟨fun ha => absurd ha hnone, ⟨⟨fun ha => absurd ha hnone, fun ha => absurd ha hnone⟩, fun ha => ?_⟩⟩
      exact absurd ha hnone
  | succ n ih =>
      refine ⟨ih.refines_succ, ⟨⟨fun ha hb hab => ?_, fun ha hb hc hab hbc => ?_⟩, ih.hash_succ⟩⟩
      · rw [ih.refines_succ ha hb] at hab
        rw [ih.refines_succ hb ha]
        exact ih.erased_succ.symm ⟨_, ha, rfl⟩ ⟨_, hb, rfl⟩ hab
      · rw [ih.refines_succ ha hb] at hab
        rw [ih.refines_succ hb hc] at hbc
        rw [ih.refines_succ ha hc]
        exact ih.erased_succ.trans ⟨_, ha, rfl⟩ ⟨_, hb, rfl⟩ ⟨_, hc, rfl⟩ hab hbc

end

/-! ### Values of every size -/

/-- The equality of nested values is the equality of the values in the order of an iteration. -/
theorem eq_eq_beq_erase {a b : NestedColumnValue} (ha : Sound a) (hb : Sound b) :
    eq a b = ColumnValue.beq (erase a) (erase b) :=
  (consistent (sizeOf a + sizeOf b + 1)).refines ⟨ha, by omega⟩ ⟨hb, by omega⟩

end NestedColumnValue

end Plexdb.Cql
