import Plexdb.ColumnRoundTrip
import Plexdb.KeyedLists

/-! Equality of column values on the values of one type: it is symmetric and transitive, so the keys of sets and maps
can be told apart by it. It is not reflexive, as a float can be a NaN. -/

namespace Plexdb.Cql

/-! ### Values of a type -/

mutual

/-- The right variant at every level, nulls only for the fields of tuples and user types, no two equal keys, and a
vector of its count. -/
def OfType : Ty → ColumnValue → Prop
  | .basic b, v => storedVariant b v = true
  | .list element _, .array vs => ∀ v ∈ vs, OfType element v
  | .set key _, .set vs => (∀ v ∈ vs, OfType key v) ∧ vs.Pairwise fun a b => ColumnValue.beq a b = false
  | .map key value _, .map es =>
      (∀ e ∈ es, OfType key e.1 ∧ OfType value e.2) ∧ es.Pairwise fun a b => ColumnValue.beq a.1 b.1 = false
  | .vector element count _, .array vs => vs.length = count.toNat ∧ ∀ v ∈ vs, OfType element v
  | .tuple elements _, .array vs => FieldsOfType elements vs
  | .udt _ _ _ fieldTypes, .array vs => FieldsOfType fieldTypes vs
  | _, _ => False

def FieldsOfType : List Ty → List ColumnValue → Prop
  | [], [] => True
  | t :: ts, v :: vs => (v = .null ∨ OfType t v) ∧ FieldsOfType ts vs
  | _, _ => False

end

theorem ne_null_of_ofType {t : Ty} {v : ColumnValue} (h : OfType t v) : v ≠ .null := by
  rintro rfl
  cases t with
  | basic b => cases b <;> cases h
  | list e frozen => exact h
  | set k frozen => exact h
  | map k v frozen => exact h
  | vector e n frozen => exact h
  | tuple es frozen => exact h
  | udt ks name names ts => exact h

/-! ### Equality of containers -/

theorem isNull_iff {v : ColumnValue} : v.isNull = true ↔ v = .null := by
  cases v <;> simp [ColumnValue.isNull]

theorem beq_array (as bs : List ColumnValue) :
    ColumnValue.beq (.array as) (.array bs) =
      (as.length == bs.length && (as.zip bs).all fun p => ColumnValue.beq p.1 p.2) := by
  rw [ColumnValue.beq]
  congr 1
  conv_rhs => rw [← List.attach_map_subtype_val (as.zip bs), List.all_map]
  rfl

theorem beq_set (as bs : List ColumnValue) :
    ColumnValue.beq (.set as) (.set bs) =
      (as.length == bs.length && as.all fun a => bs.any fun b => ColumnValue.beq b a) := by
  rw [ColumnValue.beq]
  congr 1
  simp

theorem find?_attach {α : Type} (p : α → Bool) (l : List α) :
    (l.attach.find? fun x => p x.1).map (·.1) = l.find? p := by
  conv_rhs => rw [← List.attach_map_subtype_val l, List.find?_map]
  rfl

theorem beq_map (as bs : List (ColumnValue × ColumnValue)) :
    ColumnValue.beq (.map as) (.map bs) =
      (as.length == bs.length && as.all fun a =>
        (bs.find? fun b => ColumnValue.beq b.1 a.1).any fun b => ColumnValue.beq b.2 a.2) := by
  rw [ColumnValue.beq]
  congr 1
  conv_rhs => rw [← List.attach_map_subtype_val as, List.all_map]
  refine congrArg (List.all _) (funext fun x => ?_)
  rw [Function.comp_apply, ← find?_attach (fun b => ColumnValue.beq b.1 x.1.1) bs]
  obtain ⟨a, ha⟩ := x
  dsimp only
  split
  · rename_i hfind
    exact congrArg (fun o => Option.any _ (Option.map _ o)) hfind.symm
  · rename_i b hb hfind
    exact congrArg (fun o => Option.any (fun b => ColumnValue.beq b.2 a.2) (Option.map (·.1) o)) hfind.symm

theorem beq_null_left (b : ColumnValue) : ColumnValue.beq .null b = b.isNull := by
  cases b <;> simp [ColumnValue.beq, ColumnValue.isNull]

theorem beq_null_right (a : ColumnValue) : ColumnValue.beq a .null = a.isNull := by
  cases a <;> simp [ColumnValue.beq, ColumnValue.isNull]

/-! ### Symmetric and transitive -/

open Keyed

theorem floatEq_symm {exp man : Nat} {a b : BitVec (1 + exp + man)} (h : floatEq exp man a b = true) :
    floatEq exp man b a = true := by
  unfold floatEq at *
  grind

theorem floatEq_trans {exp man : Nat} {a b c : BitVec (1 + exp + man)} (hab : floatEq exp man a b = true)
    (hbc : floatEq exp man b c = true) : floatEq exp man a c = true := by
  unfold floatEq at *
  grind

def isNative : ColumnValue → Bool
  | .array _ | .set _ | .map _ | .null => false
  | _ => true

theorem isNative_of_stored {b : Basic} {v : ColumnValue} (h : storedVariant b v = true) : isNative v = true := by
  cases v with
  | array vs => cases b <;> cases h
  | set vs => cases b <;> cases h
  | map es => cases b <;> cases h
  | null => cases b <;> cases h
  | _ => rfl

/-- Native values are equal as they are, or are equal floats. -/
theorem beq_native {x y : ColumnValue} (hx : isNative x = true) (h : ColumnValue.beq x y = true) :
    x = y ∨ (∃ a b, x = .f64 a ∧ y = .f64 b ∧ floatEq 11 52 a b = true) ∨
      ∃ a b, x = .f32 a ∧ y = .f32 b ∧ floatEq 8 23 a b = true := by
  fun_cases ColumnValue.beq x y with
  | case7 a b => exact Or.inr (Or.inl ⟨a, b, rfl, rfl, by rwa [ColumnValue.beq] at h⟩)
  | case8 a b => exact Or.inr (Or.inr ⟨a, b, rfl, rfl, by rwa [ColumnValue.beq] at h⟩)
  | case1 => cases hx
  | case15 => cases hx
  | case16 => cases hx
  | case17 => cases hx
  | case18 => simp_all [ColumnValue.beq]
  | _ a b =>
      simp only [ColumnValue.beq, beq_iff_eq] at h
      exact Or.inl (congrArg _ h)

theorem equates_native : Equates ColumnValue.beq fun v => isNative v = true where
  symm {x y} hx _ h := by
    rcases beq_native hx h with rfl | ⟨a, b, rfl, rfl, hab⟩ | ⟨a, b, rfl, rfl, hab⟩
    · exact h
    · rw [ColumnValue.beq]
      exact floatEq_symm hab
    · rw [ColumnValue.beq]
      exact floatEq_symm hab
  trans {x y z} hx hy _ hxy hyz := by
    rcases beq_native hy hyz with rfl | ⟨b, c, rfl, rfl, hbc⟩ | ⟨b, c, rfl, rfl, hbc⟩
    · exact hxy
    · rcases beq_native hx hxy with rfl | ⟨a, b', rfl, hb, hab⟩ | ⟨a, b', rfl, hb, hab⟩
      · exact hyz
      · obtain rfl := ColumnValue.f64.inj hb
        rw [ColumnValue.beq]
        exact floatEq_trans hab hbc
      · cases hb
    · rcases beq_native hx hxy with rfl | ⟨a, b', rfl, hb, hab⟩ | ⟨a, b', rfl, hb, hab⟩
      · exact hyz
      · cases hb
      · obtain rfl := ColumnValue.f32.inj hb
        rw [ColumnValue.beq]
        exact floatEq_trans hab hbc

theorem beq_array_iff {as bs : List ColumnValue} : ColumnValue.beq (.array as) (.array bs) = true ↔
    List.Forall₂ (fun a b => ColumnValue.beq a b = true) as bs := by
  rw [beq_array, Bool.and_eq_true, beq_iff_eq, List.all_eq_true, List.forall₂_iff_zip]
  exact and_congr_right fun _ => ⟨fun h _ _ hab => h _ hab, fun h p hp => h hp⟩

theorem beq_set_iff {as bs : List ColumnValue} : ColumnValue.beq (.set as) (.set bs) = true ↔
    as.length = bs.length ∧ ∀ a ∈ as, ∃ b ∈ bs, ColumnValue.beq b a = true := by
  rw [beq_set, Bool.and_eq_true, beq_iff_eq, List.all_eq_true]
  exact and_congr_right fun _ => forall₂_congr fun a _ => List.any_eq_true

theorem equates_array {P : ColumnValue → Prop} (h : Equates ColumnValue.beq P) :
    Equates ColumnValue.beq fun v => ∃ vs, v = .array vs ∧ ∀ x ∈ vs, P x where
  symm := by
    rintro _ _ ⟨as, rfl, ha⟩ ⟨bs, rfl, hb⟩ hab
    rw [beq_array_iff] at *
    induction hab with
    | nil => exact .nil
    | cons hab _ ih =>
        obtain ⟨ha, has⟩ := List.forall_mem_cons.mp ha
        obtain ⟨hb, hbs⟩ := List.forall_mem_cons.mp hb
        exact .cons (h.symm ha hb hab) (ih has hbs)
  trans := by
    rintro _ _ _ ⟨as, rfl, ha⟩ ⟨bs, rfl, hb⟩ ⟨cs, rfl, hc⟩ hab hbc
    rw [beq_array_iff] at *
    induction hab generalizing cs with
    | nil =>
        cases hbc
        exact .nil
    | cons hab _ ih =>
        obtain ⟨ha, has⟩ := List.forall_mem_cons.mp ha
        obtain ⟨hb, hbs⟩ := List.forall_mem_cons.mp hb
        cases hbc with
        | cons hbc hrest =>
            obtain ⟨hc, hcs⟩ := List.forall_mem_cons.mp hc
            exact .cons (h.trans ha hb hc hab hbc) (ih has hbs _ hcs hrest)

theorem equates_set {P : ColumnValue → Prop} (h : Equates ColumnValue.beq P) :
    Equates ColumnValue.beq fun v =>
      ∃ vs, v = .set vs ∧ (∀ x ∈ vs, P x) ∧ vs.Pairwise fun a b => ColumnValue.beq a b = false where
  symm := by
    rintro _ _ ⟨as, rfl, ha, hdistinct⟩ ⟨bs, rfl, hb, -⟩ hab
    rw [beq_set_iff] at *
    refine ⟨hab.1.symm, exists_partner hab.1 (fun x hx y hy => h.symm (hb y hy) (ha x hx)) ?_ hdistinct hab.2⟩
    exact fun x hx y hy z hz => h.trans (ha x hx) (hb y hy) (ha z hz)
  trans := by
    rintro _ _ _ ⟨as, rfl, ha, -⟩ ⟨bs, rfl, hb, -⟩ ⟨cs, rfl, hc, -⟩ hab hbc
    rw [beq_set_iff] at *
    refine ⟨hab.1.trans hbc.1, fun a haa => ?_⟩
    obtain ⟨b, hbb, hba⟩ := hab.2 a haa
    obtain ⟨c, hcc, hcb⟩ := hbc.2 b hbb
    exact ⟨c, hcc, h.trans (hc c hcc) (hb b hbb) (ha a haa) hcb hba⟩

theorem beq_map_iff {P : ColumnValue → Prop} (h : Equates ColumnValue.beq P) {as bs : List (ColumnValue × ColumnValue)}
    (ha : ∀ a ∈ as, P a.1) (hb : ∀ b ∈ bs, P b.1) (hdistinct : bs.Pairwise fun a b => ColumnValue.beq a.1 b.1 = false) :
    ColumnValue.beq (.map as) (.map bs) = true ↔
      as.length = bs.length ∧ ∀ a ∈ as, ∃ b ∈ bs, (ColumnValue.beq b.1 a.1 && ColumnValue.beq b.2 a.2) = true := by
  rw [beq_map, Bool.and_eq_true, beq_iff_eq, List.all_eq_true]
  refine and_congr_right fun _ => forall₂_congr fun a haa => ?_
  rw [Option.any_eq_true]
  constructor
  · rintro ⟨b, hfind, hvalue⟩
    obtain ⟨hbb, hkey⟩ := mem_of_find? hfind
    exact ⟨b, hbb, Bool.and_eq_true_iff.mpr ⟨hkey, hvalue⟩⟩
  · rintro ⟨b, hbb, hboth⟩
    obtain ⟨hkey, hvalue⟩ := Bool.and_eq_true_iff.mp hboth
    exact ⟨b, (h.find?_eq_some_iff hb hdistinct (ha a haa)).mpr ⟨hbb, hkey⟩, hvalue⟩

theorem equates_map {P Q : ColumnValue → Prop} (hk : Equates ColumnValue.beq P) (hv : Equates ColumnValue.beq Q) :
    Equates ColumnValue.beq fun v =>
      ∃ es, v = .map es ∧ (∀ e ∈ es, P e.1 ∧ Q e.2) ∧ es.Pairwise fun a b => ColumnValue.beq a.1 b.1 = false where
  symm := by
    rintro _ _ ⟨as, rfl, ha, hdistinct⟩ ⟨bs, rfl, hb, hdistinct'⟩ hab
    rw [beq_map_iff hk (fun e he => (ha e he).1) (fun e he => (hb e he).1) hdistinct'] at hab
    rw [beq_map_iff hk (fun e he => (hb e he).1) (fun e he => (ha e he).1) hdistinct]
    refine ⟨hab.1.symm, exists_partner (r := fun x y => ColumnValue.beq x.1 y.1 && ColumnValue.beq x.2 y.2) hab.1
      ?_ ?_ ?_ hab.2⟩
    · intro x hx y hy h
      rw [Bool.and_eq_true] at *
      exact ⟨hk.symm (hb y hy).1 (ha x hx).1 h.1, hv.symm (hb y hy).2 (ha x hx).2 h.2⟩
    · intro x hx y hy z hz hxy hyz
      rw [Bool.and_eq_true] at *
      exact ⟨hk.trans (ha x hx).1 (hb y hy).1 (ha z hz).1 hxy.1 hyz.1,
        hv.trans (ha x hx).2 (hb y hy).2 (ha z hz).2 hxy.2 hyz.2⟩
    · exact hdistinct.imp fun h => by rw [h, Bool.false_and]
  trans := by
    rintro _ _ _ ⟨as, rfl, ha, -⟩ ⟨bs, rfl, hb, hdistinct⟩ ⟨cs, rfl, hc, hdistinct'⟩ hab hbc
    rw [beq_map_iff hk (fun e he => (ha e he).1) (fun e he => (hb e he).1) hdistinct] at hab
    rw [beq_map_iff hk (fun e he => (hb e he).1) (fun e he => (hc e he).1) hdistinct'] at hbc
    rw [beq_map_iff hk (fun e he => (ha e he).1) (fun e he => (hc e he).1) hdistinct']
    refine ⟨hab.1.trans hbc.1, fun a haa => ?_⟩
    obtain ⟨b, hbb, hba⟩ := hab.2 a haa
    obtain ⟨c, hcc, hcb⟩ := hbc.2 b hbb
    rw [Bool.and_eq_true] at hba hcb
    refine ⟨c, hcc, Bool.and_eq_true_iff.mpr ⟨?_, ?_⟩⟩
    · exact hk.trans (hc c hcc).1 (hb b hbb).1 (ha a haa).1 hcb.1 hba.1
    · exact hv.trans (hc c hcc).2 (hb b hbb).2 (ha a haa).2 hcb.2 hba.2

theorem equates_or_null {P : ColumnValue → Prop} (h : Equates ColumnValue.beq P) :
    Equates ColumnValue.beq fun v => v = .null ∨ P v := by
  have hleft : ∀ {x y}, ColumnValue.beq x y = true → (x = .null ↔ y = .null) := fun {x y} hxy => by
    constructor
    · rintro rfl
      rwa [beq_null_left, isNull_iff] at hxy
    · rintro rfl
      rwa [beq_null_right, isNull_iff] at hxy
  constructor
  · rintro x y hx hy hxy
    by_cases hnull : x = .null
    · rw [(hleft hxy).mp hnull, beq_null_left, hnull]
      rfl
    · exact h.symm (hx.resolve_left hnull) (hy.resolve_left (mt (hleft hxy).mpr hnull)) hxy
  · rintro x y z hx hy hz hxy hyz
    by_cases hnull : x = .null
    · rw [hnull, beq_null_left, (hleft hyz).mp ((hleft hxy).mp hnull)]
      rfl
    · have hy' := mt (hleft hxy).mpr hnull
      exact h.trans (hx.resolve_left hnull) (hy.resolve_left hy') (hz.resolve_left (mt (hleft hyz).mpr hy')) hxy hyz

theorem equates_fields {ts : List Ty} (h : ∀ t ∈ ts, Equates ColumnValue.beq (OfType t)) :
    Equates ColumnValue.beq fun v => ∃ vs, v = .array vs ∧ FieldsOfType ts vs where
  symm := by
    rintro _ _ ⟨as, rfl, ha⟩ ⟨bs, rfl, hb⟩ hab
    rw [beq_array_iff] at *
    induction hab generalizing ts with
    | nil => exact .nil
    | cons hab _ ih =>
        cases ts with
        | nil => simp [FieldsOfType] at ha
        | cons t ts =>
            obtain ⟨ht, hts⟩ := List.forall_mem_cons.mp h
            rw [FieldsOfType] at ha hb
            exact .cons ((equates_or_null ht).symm ha.1 hb.1 hab) (ih hts ha.2 hb.2)
  trans := by
    rintro _ _ _ ⟨as, rfl, ha⟩ ⟨bs, rfl, hb⟩ ⟨cs, rfl, hc⟩ hab hbc
    rw [beq_array_iff] at *
    induction hab generalizing ts cs with
    | nil =>
        cases hbc
        exact .nil
    | cons hab _ ih =>
        cases hbc with
        | cons hbc hrest =>
            cases ts with
            | nil => simp [FieldsOfType] at ha
            | cons t ts =>
                obtain ⟨ht, hts⟩ := List.forall_mem_cons.mp h
                rw [FieldsOfType] at ha hb hc
                exact .cons ((equates_or_null ht).trans ha.1 hb.1 hc.1 hab hbc) (ih hts ha.2 hb.2 _ hc.2 hrest)

/-- Equality of the values of one type. -/
theorem equates_ofType (t : Ty) : Equates ColumnValue.beq (OfType t) := by
  induction t with
  | basic b =>
      refine equates_native.mono fun v hv => ?_
      rw [OfType] at hv
      exact isNative_of_stored hv
  | list element frozen ih =>
      refine (equates_array ih).mono fun v hv => ?_
      cases v with
      | array vs =>
          rw [OfType] at hv
          exact ⟨vs, rfl, hv⟩
      | _ => exact hv.elim
  | vector element count frozen ih =>
      refine (equates_array ih).mono fun v hv => ?_
      cases v with
      | array vs =>
          rw [OfType] at hv
          exact ⟨vs, rfl, hv.2⟩
      | _ => exact hv.elim
  | set key frozen ih =>
      refine (equates_set ih).mono fun v hv => ?_
      cases v with
      | set vs =>
          rw [OfType] at hv
          exact ⟨vs, rfl, hv⟩
      | _ => exact hv.elim
  | map key value frozen ihk ihv =>
      refine (equates_map ihk ihv).mono fun v hv => ?_
      cases v with
      | map es =>
          rw [OfType] at hv
          exact ⟨es, rfl, hv⟩
      | _ => exact hv.elim
  | tuple elements frozen ih =>
      refine (equates_fields ih).mono fun v hv => ?_
      cases v with
      | array vs =>
          rw [OfType] at hv
          exact ⟨vs, rfl, hv⟩
      | _ => exact hv.elim
  | udt keyspace name names types ih =>
      refine (equates_fields ih).mono fun v hv => ?_
      cases v with
      | array vs =>
          rw [OfType] at hv
          exact ⟨vs, rfl, hv⟩
      | _ => exact hv.elim

end Plexdb.Cql
