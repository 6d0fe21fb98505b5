import Plexdb.Runs
import Plexdb.SchemaEffects

/-! User types stay well-founded: which statements can make a user type contain itself, and that
without them every recursion over the types of the schema ends. -/

namespace Plexdb.Cql.Schema

open Relation

/-! ### Containment -/

/-- A field of the type at `p` mentions the type at `q`. -/
def FieldOf (udts : List Udt) (p q : Nat) : Prop := ∃ t ∈ fieldTypesAt udts p, q ∈ t.refs

/-- Every pointer of the type points to one of the first `n` user types. -/
def Below (n : Nat) (t : Ty) : Prop := ∀ p ∈ t.refs, p < n

theorem typeReferences_eq (visit : Nat → Option Bool) (t : Ty) : typeReferences visit t = anyOf visit t.refs := by
  induction t using TypeTree.induct with
  | basic b => rfl
  | list e frozen ih => rw [typeReferences, TypeTree.refs, ih]
  | set k frozen ih => rw [typeReferences, TypeTree.refs, ih]
  | map k v frozen ihk ihv => rw [typeReferences, TypeTree.refs, anyOf_append, ihk, ihv]
  | vector e count frozen ih => rw [typeReferences, TypeTree.refs, ih]
  | tuple es frozen ih =>
      rw [typeReferences, TypeTree.refs]
      induction es with
      | nil => rfl
      | cons e es ihes =>
          obtain ⟨he, hes⟩ := List.forall_mem_cons.mp ih
          rw [typesReference, TypeTree.refsAll, anyOf_append, he, ihes hes]
  | udt p =>
      rw [typeReferences, TypeTree.refs, anyOf]
      cases visit p with
      | none => rfl
      | some b => cases b <;> rfl

theorem typesReference_eq (visit : Nat → Option Bool) (ts : List Ty) :
    typesReference visit ts = anyOf visit (ts.flatMap TypeTree.refs) := by
  induction ts with
  | nil => rfl
  | cons t ts ih => rw [typesReference, List.flatMap_cons, anyOf_append, typeReferences_eq, ih]

/-- The types that the fields of a user type mention. -/
def fieldRefs (udts : List Udt) (p : Nat) : List Nat := (fieldTypesAt udts p).flatMap TypeTree.refs

theorem mem_fieldRefs {udts : List Udt} {p q : Nat} : q ∈ fieldRefs udts p ↔ FieldOf udts p q :=
  List.mem_flatMap

theorem udtReferences_eq (udts : List Udt) (target fuel : Nat) :
    udtReferences udts target fuel = search (fieldRefs udts) target fuel := by
  induction fuel with
  | zero => rfl
  | succ fuel ih =>
      funext p
      rw [udtReferences, search, typesReference_eq, ih]
      rfl

/-- What `type_references_udt` answers when it returns. -/
theorem typeReferencesUdt_eq_some {udts : List Udt} {t : Ty} {target : Nat} {b : Bool}
    (h : typeReferencesUdt udts t target = some b) :
    b = true ↔ ∃ p ∈ t.refs, ReflTransGen (FieldOf udts) p target := by
  rw [typeReferencesUdt, typeReferences_eq, udtReferences_eq] at h
  have hfield : (fun x y => y ∈ fieldRefs udts x) = FieldOf udts := by
    funext x y
    exact propext mem_fieldRefs
  rw [← hfield]
  exact anyOf_eq_some (fun _ _ _ hb => search_eq_some hb) h

/-! ### Recursions end -/

/-- The user types hold pointers into the deque only, and none contains itself. -/
structure WellFounded (udts : List Udt) : Prop where
  below : ∀ u ∈ udts, ∀ t ∈ u.fieldTypes, Below udts.length t
  acyclic : Acyclic (FieldOf udts)

theorem lt_of_fieldOf {udts : List Udt} (h : ∀ u ∈ udts, ∀ t ∈ u.fieldTypes, Below udts.length t) {p q : Nat}
    (hpq : FieldOf udts p q) : q < udts.length := by
  obtain ⟨t, ht, hq⟩ := hpq
  rw [fieldTypesAt] at ht
  cases hu : udts[p]? with
  | none => rw [hu] at ht; cases ht
  | some u =>
      rw [hu] at ht
      exact h u (List.mem_of_getElem? hu) t ht q hq

theorem WellFounded.lt_of_fieldOf {udts : List Udt} (h : WellFounded udts) {p q : Nat}
    (hpq : FieldOf udts p q) : q < udts.length :=
  Schema.lt_of_fieldOf h.below hpq

theorem typeReferencesUdt_isSome {udts : List Udt} (h : WellFounded udts) {t : Ty}
    (ht : Below udts.length t) (target : Nat) : (typeReferencesUdt udts t target).isSome := by
  obtain ⟨rank, hrank, hlt⟩ := h.acyclic.exists_rank fun _ _ => h.lt_of_fieldOf
  rw [typeReferencesUdt, typeReferences_eq, udtReferences_eq]
  exact anyOf_isSome fun p hp =>
    search_isSome (fun a b hb => hrank a b (mem_fieldRefs.mp hb)) target (hlt p (ht p hp))

/-- Where `type_references_udt` has not returned within the fuel, it does not return. -/
theorem typeReferencesUdt_eq_none {udts : List Udt}
    (hbelow : ∀ u ∈ udts, ∀ t ∈ u.fieldTypes, Below udts.length t) {t : Ty} (ht : Below udts.length t)
    {target : Nat} (h : typeReferencesUdt udts t target = none) (fuel : Nat) :
    typeReferences (udtReferences udts target fuel) t = none := by
  rw [typeReferencesUdt, typeReferences_eq, udtReferences_eq] at h
  rw [typeReferences_eq, udtReferences_eq]
  cases hs : anyOf (search (fieldRefs udts) target fuel) t.refs with
  | none => rfl
  | some b =>
      have hwithin := anyOf_mono (fun p hp b hb =>
        search_within (fun _ _ hc => lt_of_fieldOf hbelow (mem_fieldRefs.mp hc)) (ht p hp) hb) hs
      rw [h] at hwithin
      cases hwithin

theorem expandWith_isSome {definition : Nat → Option Cql.Ty} {t : Ty}
    (h : ∀ p ∈ t.refs, (definition p).isSome) : (expandWith definition t).isSome := by
  induction t using TypeTree.induct with
  | basic b => rfl
  | list e frozen ih =>
      obtain ⟨e', he⟩ := Option.isSome_iff_exists.mp (ih h)
      simp [expandWith, he]
  | set k frozen ih =>
      obtain ⟨k', hk⟩ := Option.isSome_iff_exists.mp (ih h)
      simp [expandWith, hk]
  | map k v frozen ihk ihv =>
      rw [TypeTree.refs] at h
      obtain ⟨k', hk⟩ := Option.isSome_iff_exists.mp (ihk fun p hp => h p (List.mem_append_left _ hp))
      obtain ⟨v', hv⟩ := Option.isSome_iff_exists.mp (ihv fun p hp => h p (List.mem_append_right _ hp))
      simp [expandWith, hk, hv]
  | vector e count frozen ih =>
      obtain ⟨e', he⟩ := Option.isSome_iff_exists.mp (ih h)
      simp [expandWith, he]
  | tuple es frozen ih =>
      have hall : (expandAllWith definition es).isSome := by
        rw [TypeTree.refs] at h
        induction es with
        | nil => rfl
        | cons e es ihes =>
            obtain ⟨he, hes⟩ := List.forall_mem_cons.mp ih
            rw [TypeTree.refsAll] at h
            obtain ⟨e', he⟩ := Option.isSome_iff_exists.mp (he fun p hp => h p (List.mem_append_left _ hp))
            obtain ⟨es', hes⟩ := Option.isSome_iff_exists.mp
              (ihes hes fun p hp => h p (List.mem_append_right _ hp))
            simp [expandAllWith, he, hes]
      obtain ⟨es', hes⟩ := Option.isSome_iff_exists.mp hall
      simp [expandWith, hes]
  | udt p => exact h p (List.mem_singleton.mpr rfl)

theorem expandAllWith_isSome {definition : Nat → Option Cql.Ty} {ts : List Ty}
    (h : ∀ t ∈ ts, ∀ p ∈ t.refs, (definition p).isSome) : (expandAllWith definition ts).isSome := by
  induction ts with
  | nil => rfl
  | cons t ts ih =>
      obtain ⟨ht, hts⟩ := List.forall_mem_cons.mp h
      obtain ⟨t', ht⟩ := Option.isSome_iff_exists.mp (expandWith_isSome ht)
      obtain ⟨ts', hts⟩ := Option.isSome_iff_exists.mp (ih hts)
      simp [expandAllWith, ht, hts]

theorem expandUdt_isSome {udts : List Udt} {rank : Nat → Nat}
    (hrank : ∀ p q, FieldOf udts p q → rank q < rank p ∧ q < udts.length) {fuel p : Nat}
    (hp : p < udts.length) (h : rank p < fuel) : (expandUdt udts fuel p).isSome := by
  induction fuel generalizing p with
  | zero => omega
  | succ fuel ih =>
      have hu : udts[p]? = some udts[p] := List.getElem?_eq_getElem hp
      have hfields : (expandAllWith (expandUdt udts fuel) udts[p].fieldTypes).isSome := by
        refine expandAllWith_isSome fun t ht q hq => ?_
        have hpq : FieldOf udts p q := ⟨t, by simp only [fieldTypesAt, hu]; exact ht, hq⟩
        obtain ⟨hlt, hq⟩ := hrank p q hpq
        exact ih hq (by omega)
      obtain ⟨ts, hts⟩ := Option.isSome_iff_exists.mp hfields
      simp [expandUdt, hu, hts]

theorem expand_isSome {udts : List Udt} (h : WellFounded udts) {t : Ty} (ht : Below udts.length t) :
    (expand udts t).isSome := by
  obtain ⟨rank, hrank, hlt⟩ := h.acyclic.exists_rank fun _ _ => h.lt_of_fieldOf
  exact expandWith_isSome fun p hp =>
    expandUdt_isSome (fun p q hpq => ⟨hrank p q hpq, h.lt_of_fieldOf hpq⟩) (ht p hp) (hlt p (ht p hp))

/-! ### Statements on keyspaces, tables and indexes -/

/-- Every pointer of the type stands under some name in some keyspace. -/
def Named (s : Schema) (t : Ty) : Prop :=
  ∀ p ∈ t.refs, ∃ k ∈ s.keyspaces, ∃ n, k.udtsByName.find n = some p

theorem named_of_resolve {s : Schema} {ksName : String8} {ast : Ast} {t : Ty}
    (h : s.resolveTypeAst ksName ast = .ok t) : Named s t := by
  intro p hp
  obtain ⟨r, -, hr⟩ := TypeTree.found_of_resolve h p hp
  rw [findUdtRef] at hr
  split_ifs at hr with h₁ h₂ h₂
  all_goals
    cases hks : s.readKeyspace (if r.keyspace.val.length > 0 then r.keyspace else ksName) with
    | none => simp_all
    | some ks =>
        cases hudt : s.readUdt ks r.name with
        | none => simp_all
        | some q =>
            have hq : q = p := by simp_all
            subst hq
            obtain ⟨k, hk, hfind⟩ := Option.bind_eq_some_iff.mp hudt
            exact ⟨k, List.mem_of_getElem? hk, r.name, hfind⟩

/-- The user types are the same, and so are the types that keyspaces and columns refer to. -/
structure SameTypes (s s' : Schema) : Prop where
  udts : s'.udts = s.udts
  storage : s'.udtStorage = s.udtStorage
  names : ∀ k' ∈ s'.keyspaces, ∀ n p, k'.udtsByName.find n = some p →
    ∃ k ∈ s.keyspaces, k.udtsByName.find n = some p
  cols : ∀ tbl' ∈ s'.tables, ∀ col' ∈ tbl'.cols,
    (∃ tbl ∈ s.tables, ∃ col ∈ tbl.cols, col'.type = col.type) ∨ Named s col'.type

namespace SameTypes

theorem refl (s : Schema) : SameTypes s s where
  udts := rfl
  storage := rfl
  names k hk _ _ hp := ⟨k, hk, hp⟩
  cols tbl htbl col hcol := Or.inl ⟨tbl, htbl, col, hcol, rfl⟩

theorem bump (s : Schema) : SameTypes s s.bumpVersion := ⟨rfl, rfl, (refl s).names, (refl s).cols⟩

theorem trans {s s' s'' : Schema} (h : SameTypes s s') (h' : SameTypes s' s'') : SameTypes s s'' where
  udts := h'.udts.trans h.udts
  storage := h'.storage.trans h.storage
  names k'' hk'' n p hp := by
    obtain ⟨k', hk', hp⟩ := h'.names k'' hk'' n p hp
    exact h.names k' hk' n p hp
  cols tbl'' htbl'' col'' hcol'' := by
    rcases h'.cols tbl'' htbl'' col'' hcol'' with ⟨tbl', htbl', col', hcol', heq⟩ | hnamed
    · rw [heq]
      exact h.cols tbl' htbl' col' hcol'
    · refine Or.inr fun p hp => ?_
      obtain ⟨k', hk', n, hfind⟩ := hnamed p hp
      obtain ⟨k, hk, hfind⟩ := h.names k' hk' n p hfind
      exact ⟨k, hk, n, hfind⟩

/-- Only the tables change, and only by columns that are old or named. -/
theorem of_tables {s s' : Schema} (hudts : s'.udts = s.udts) (hstorage : s'.udtStorage = s.udtStorage)
    (hks : ∀ k' ∈ s'.keyspaces, ∃ k ∈ s.keyspaces, k'.udtsByName = k.udtsByName)
    (htables : ∀ tbl' ∈ s'.tables, ∀ col' ∈ tbl'.cols,
      (∃ tbl ∈ s.tables, ∃ col ∈ tbl.cols, col'.type = col.type) ∨ Named s col'.type) :
    SameTypes s s' where
  udts := hudts
  storage := hstorage
  names k' hk' n p hp := by
    obtain ⟨k, hk, heq⟩ := hks k' hk'
    exact ⟨k, hk, heq ▸ hp⟩
  cols := htables

end SameTypes

theorem sameTypes_createKeyspace {s s' : Schema} {create : CreateKeyspace} {r : Result Nat}
    (h : s.createKeyspace create = some (r, s')) : SameTypes s s' := by
  rw [createKeyspace] at h
  dsimp only at h
  split_ifs at h
  cases hopts : create.options with
  | error e =>
      rw [hopts] at h
      obtain ⟨-, rfl⟩ := Prod.mk.inj (Option.some.inj h)
      exact .bump s
  | ok popts =>
      rw [hopts] at h
      obtain ⟨-, rfl⟩ := Prod.mk.inj (Option.some.inj h)
      refine ⟨rfl, rfl, ?_, (SameTypes.refl s).cols⟩
      intro k' hk' n p hp
      rcases List.mem_append.mp hk' with hk' | hk'
      · exact ⟨k', hk', hp⟩
      · rw [List.mem_singleton.mp hk'] at hp
        cases hp

theorem sameTypes_deleteKeyspace (s : Schema) (name : String8) : SameTypes s (s.deleteKeyspace name).2 := by
  rw [deleteKeyspace]
  dsimp only
  cases s.bumpVersion.readKeyspace name with
  | none => exact .bump s
  | some ks =>
      refine .of_tables rfl rfl ?_ (SameTypes.refl s).cols
      exact forall_mem_modify (fun k hk => ⟨k, hk, rfl⟩) fun k hk _ => ⟨k, hk, rfl⟩

theorem sameTypes_createColumn {s s' : Schema} {t : Nat} {c : ColumnSpecification}
    (h : s.createColumn t c = some s') (hc : Named s c.type) : SameTypes s s' := by
  obtain ⟨tbl, htbl, h⟩ := Option.bind_eq_some_iff.mp h
  split_ifs at h
  cases h
  refine .of_tables rfl rfl (fun k hk => ⟨k, hk, rfl⟩) ?_
  refine forall_mem_modify (SameTypes.refl s).cols fun tbl htbl _ => ?_
  exact forall_mem_append_singleton (fun col hcol => Or.inl ⟨tbl, htbl, col, hcol, rfl⟩) (Or.inr hc)

theorem sameTypes_deleteColumn {s s' : Schema} {t : Nat} {name : String8} {r : Result Unit}
    (h : s.deleteColumn t name = some (r, s')) : SameTypes s s' := by
  obtain ⟨tbl, -, h⟩ := Option.bind_eq_some_iff.mp h
  cases hfind : findColumn tbl.cols name with
  | none =>
      rw [hfind] at h
      obtain ⟨-, rfl⟩ := Prod.mk.inj (Option.some.inj h)
      exact .bump s
  | some ci =>
      rw [hfind] at h
      obtain ⟨-, rfl⟩ := Prod.mk.inj (Option.some.inj h)
      refine .of_tables rfl rfl (fun k hk => ⟨k, hk, rfl⟩) ?_
      refine forall_mem_modify (SameTypes.refl s).cols fun tbl htbl hcols => ?_
      exact forall_mem_modify hcols fun col _ h => h

theorem sameTypes_deleteTable (s : Schema) (ks : Nat) (name : String8) :
    SameTypes s (s.deleteTable ks name).2 := by
  rw [deleteTable]
  dsimp only
  cases s.bumpVersion.readTable ks name with
  | none => exact .bump s
  | some t =>
      exact .of_tables rfl rfl (forall_mem_modify (fun k hk => ⟨k, hk, rfl⟩) fun k hk _ => ⟨k, hk, rfl⟩)
        (forall_mem_modify (SameTypes.refl s).cols fun _ _ h => h)

theorem sameTypes_setTableOptions (s : Schema) (t : Nat) (options : TableOptions) :
    SameTypes s (s.setTableOptions t options) :=
  .of_tables rfl rfl (fun k hk => ⟨k, hk, rfl⟩) (forall_mem_modify (SameTypes.refl s).cols fun _ _ h => h)

theorem sameTypes_pushTable (s : Schema) (ks : Nat) (name : String8) (options : TableOptions)
    (page : UInt64) : SameTypes s (s.pushTable ks name options page) :=
  .of_tables rfl rfl (forall_mem_modify (fun k hk => ⟨k, hk, rfl⟩) fun k hk _ => ⟨k, hk, rfl⟩)
    (forall_mem_append_singleton (SameTypes.refl s).cols (List.forall_mem_nil _))

theorem sameTypes_createIndex {s s' : Schema} {t colIdx : Nat} {name : String8} {kind : IndexKind}
    {page : UInt64} (h : s.createIndex t colIdx name kind page = some s') : SameTypes s s' := by
  obtain ⟨tbl, -, h⟩ := Option.bind_eq_some_iff.mp h
  obtain ⟨specs, -, h⟩ := Option.bind_eq_some_iff.mp h
  cases h
  exact .of_tables rfl rfl (fun k hk => ⟨k, hk, rfl⟩)
    (forall_mem_modify (SameTypes.refl s).cols fun _ _ h => h)

theorem sameTypes_deleteIndex {s s' : Schema} {t : Nat} {name : String8} {r : Result Unit}
    (h : s.deleteIndex t name = some (r, s')) : SameTypes s s' := by
  obtain ⟨tbl, -, h⟩ := Option.bind_eq_some_iff.mp h
  cases hread : readIndex tbl name with
  | none =>
      rw [hread] at h
      obtain ⟨-, rfl⟩ := Prod.mk.inj (Option.some.inj h)
      exact .bump s
  | some i =>
      rw [hread] at h
      obtain ⟨index, -, h⟩ := Option.bind_eq_some_iff.mp h
      obtain ⟨-, rfl⟩ := Prod.mk.inj (Option.some.inj h)
      exact .of_tables rfl rfl (fun k hk => ⟨k, hk, rfl⟩)
        (forall_mem_modify (SameTypes.refl s).cols fun _ _ h => h)

theorem sameTypes_createColumns {ks t ci : Nat} {ksName tableName : String8} {info : PrimaryKeyInfo}
    {orders : List SortOrder} {ds : List ColumnDefinition} {s s' : Schema} {r : Result Nat}
    (h : createColumns ks t ksName tableName info orders ci ds s = some (r, s')) : SameTypes s s' := by
  induction ds generalizing ci s with
  | nil => cases h; exact .refl _
  | cons d ds ih =>
      obtain ⟨tbl, -, h⟩ := Option.bind_eq_some_iff.mp h
      obtain ⟨c, hc, h⟩ := Option.bind_eq_some_iff.mp h
      cases c with
      | error e =>
          obtain ⟨-, rfl⟩ := Prod.mk.inj (Option.some.inj h)
          exact sameTypes_deleteTable s ks tableName
      | ok c =>
          obtain ⟨s₁, hs₁, h⟩ := Option.bind_eq_some_iff.mp h
          exact (sameTypes_createColumn hs₁ (named_of_resolve (columnOf_eq_ok hc).2.1)).trans (ih h)

theorem sameTypes_createTable {s s' : Schema} {ks : Nat} {create : CreateTable} {page : UInt64}
    {r : Result Nat} (h : s.createTable ks create page = some (r, s')) : SameTypes s s' := by
  obtain ⟨k, -, h⟩ := Option.bind_eq_some_iff.mp h
  split_ifs at h
  cases hcheck : checkCreateTable create with
  | error e =>
      rw [hcheck] at h
      obtain ⟨-, rfl⟩ := Prod.mk.inj (Option.some.inj h)
      exact .bump s
  | ok checked =>
      obtain ⟨info, orders, options⟩ := checked
      rw [hcheck] at h
      exact ((SameTypes.bump s).trans (sameTypes_pushTable _ _ _ _ _)).trans (sameTypes_createColumns h)

theorem sameTypes_addColumns {ksName : String8} {t : Nat} {ifNotExists : Bool}
    {ds : List ColumnDefinition} {s s' : Schema} {r : Option ExecutionResult}
    (h : addColumns ksName t ifNotExists ds s = some (r, s')) : SameTypes s s' := by
  induction ds generalizing s with
  | nil => cases h; exact .refl _
  | cons d ds ih =>
      obtain ⟨tbl, -, h⟩ := Option.bind_eq_some_iff.mp h
      cases hadd : s.addColumnOf ksName tbl.cols ifNotExists d with
      | fail result =>
          rw [hadd] at h
          obtain ⟨-, rfl⟩ := Prod.mk.inj (Option.some.inj h)
          exact .refl s
      | skip => rw [hadd] at h; exact ih h
      | add c =>
          rw [hadd] at h
          obtain ⟨s₁, hs₁, h⟩ := Option.bind_eq_some_iff.mp h
          exact (sameTypes_createColumn hs₁ (named_of_resolve (addColumnOf_eq_add hadd).2.1)).trans (ih h)

theorem sameTypes_dropColumns {t : Nat} {ifExists : Bool} {names : List String8} {s s' : Schema}
    {r : Option ExecutionResult} (h : dropColumns t ifExists names s = some (r, s')) : SameTypes s s' := by
  induction names generalizing s with
  | nil => cases h; exact .refl _
  | cons name names ih =>
      obtain ⟨tbl, -, h⟩ := Option.bind_eq_some_iff.mp h
      split_ifs at h
      · exact ih h
      · obtain ⟨-, rfl⟩ := Prod.mk.inj (Option.some.inj h)
        exact .refl s
      · obtain ⟨⟨r₁, s₁⟩, hs₁, h⟩ := Option.bind_eq_some_iff.mp h
        exact (sameTypes_deleteColumn hs₁).trans (ih h)

/-! ### Statements on user types -/

/-- No user type that the type mentions is or contains the one at `p`. -/
def Avoids (udts : List Udt) (t : Ty) (p : Nat) : Prop := ∀ q ∈ t.refs, ¬ ReflTransGen (FieldOf udts) q p

/-- What the invariant says of a schema: its user types are well-founded, and every pointer that is
stored anywhere points to one of them. -/
structure Grounded (s : Schema) : Prop where
  wellFounded : WellFounded s.udts
  storage : ∀ u ∈ s.udtStorage, ∀ t ∈ u.fieldTypes, Below s.udts.length t
  cols : ∀ tbl ∈ s.tables, ∀ col ∈ tbl.cols, Below s.udts.length col.type
  names : ∀ k ∈ s.keyspaces, ∀ n p, k.udtsByName.find n = some p → p < s.udts.length

namespace Grounded

variable {s : Schema}

theorem below_of_named (h : Grounded s) {t : Ty} (ht : Named s t) : Below s.udts.length t := by
  intro p hp
  obtain ⟨k, hk, n, hfind⟩ := ht p hp
  exact h.names k hk n p hfind

theorem of_sameTypes (h : Grounded s) {s' : Schema} (hsame : SameTypes s s') : Grounded s' where
  wellFounded := hsame.udts ▸ h.wellFounded
  storage := by rw [hsame.storage, hsame.udts]; exact h.storage
  cols tbl' htbl' col' hcol' := by
    rw [hsame.udts]
    rcases hsame.cols tbl' htbl' col' hcol' with ⟨tbl, htbl, col, hcol, heq⟩ | hnamed
    · rw [heq]
      exact h.cols tbl htbl col hcol
    · exact h.below_of_named hnamed
  names k' hk' n p hp := by
    obtain ⟨k, hk, hfind⟩ := hsame.names k' hk' n p hp
    rw [hsame.udts]
    exact h.names k hk n p hfind

theorem avoids (h : Grounded s) {t : Ty} (ht : Below s.udts.length t) {p : Nat}
    (hne : typeReferencesUdt s.udts t p ≠ some true) : Avoids s.udts t p := by
  obtain ⟨b, hb⟩ := Option.isSome_iff_exists.mp (typeReferencesUdt_isSome h.wellFounded ht p)
  intro q hq hpath
  exact hne (hb.trans (congrArg some ((typeReferencesUdt_eq_some hb).mpr ⟨q, hq, hpath⟩)))

end Grounded

theorem fieldTypesAt_modify (udts : List Udt) (p : Nat) (v : Udt) {a : Nat} {t : Ty}
    (h : t ∈ fieldTypesAt (udts.modify p fun _ => v) a) :
    t ∈ fieldTypesAt udts a ∨ (a = p ∧ t ∈ v.fieldTypes) := by
  rw [fieldTypesAt, List.getElem?_modify] at h
  by_cases hap : p = a
  · subst hap
    cases hu : udts[p]? with
    | none => rw [hu] at h; simp at h
    | some u => rw [hu] at h; exact Or.inr ⟨rfl, by simpa using h⟩
  · exact Or.inl (by simpa [fieldTypesAt, hap] using h)

theorem fieldOf_modify {udts : List Udt} {p : Nat} {v : Udt} {a b : Nat}
    (h : FieldOf (udts.modify p fun _ => v) a b) :
    FieldOf udts a b ∨ (a = p ∧ ∃ t ∈ v.fieldTypes, b ∈ t.refs) := by
  obtain ⟨t, ht, hb⟩ := h
  rcases fieldTypesAt_modify udts p v ht with hold | ⟨hap, hnew⟩
  · exact Or.inl ⟨t, hold, hb⟩
  · exact Or.inr ⟨hap, t, hnew, hb⟩

theorem Grounded.withStorage {s : Schema} (h : Grounded s) {i p : Nat} {u : UdtStorage}
    {records : List UdtRecord} (hbelow : ∀ t ∈ u.fieldTypes, Below s.udts.length t)
    (havoids : ∀ t ∈ u.fieldTypes, Avoids s.udts t p) : Grounded (s.withStorage i p u records) := by
  have hlen : (s.withStorage i p u records).udts.length = s.udts.length := List.length_modify _ _ _
  refine ⟨⟨?_, ?_⟩, ?_, ?_, ?_⟩
  · rw [hlen]
    exact forall_mem_modify h.wellFounded.below fun _ _ _ => hbelow
  · exact h.wellFounded.acyclic.extend (fun a b hab => fieldOf_modify hab)
      fun q ⟨t, ht, hq⟩ => havoids t ht q hq
  · rw [hlen]
    intro v hv
    rcases List.mem_or_eq_of_mem_set hv with hv | rfl
    · exact h.storage v hv
    · exact hbelow
  · rw [hlen]
    exact h.cols
  · rw [hlen]
    exact h.names

theorem Grounded.withUdt {s : Schema} (h : Grounded s) (ks : Nat) (ksName name : String8)
    {fields : List (String8 × Ty)} (hbelow : ∀ f ∈ fields, Below s.udts.length f.2) :
    Grounded (s.withUdt ks ksName name fields) := by
  have hlen : (s.withUdt ks ksName name fields).udts.length = s.udts.length + 1 := List.length_append
  have hgrow {t : Ty} (ht : Below s.udts.length t) : Below (s.udts.length + 1) t :=
    fun p hp => Nat.lt_succ_of_lt (ht p hp)
  have htypes : ∀ t ∈ fields.map (·.2), Below (s.udts.length + 1) t :=
    List.forall_mem_map.mpr fun f hf => hgrow (hbelow f hf)
  -- the new type is the only one that mentions anything new, and nothing mentions it
  have hfield {a b : Nat} (hab : FieldOf (s.withUdt ks ksName name fields).udts a b) :
      FieldOf s.udts a b ∨ (a = s.udts.length ∧ b < s.udts.length) := by
    obtain ⟨t, ht, hb⟩ := hab
    rw [fieldTypesAt, show (s.withUdt ks ksName name fields).udts = s.udts ++ [newUdt ksName name fields]
      from rfl] at ht
    rcases Nat.lt_or_ge a s.udts.length with ha | ha
    · rw [List.getElem?_append_left ha] at ht
      exact Or.inl ⟨t, ht, hb⟩
    · rw [List.getElem?_append_right ha] at ht
      obtain ⟨n, rfl⟩ := Nat.exists_eq_add_of_le ha
      rw [Nat.add_sub_cancel_left] at ht
      cases n with
      | zero =>
          obtain ⟨f, hf, rfl⟩ := List.mem_map.mp (show t ∈ fields.map (·.2) from ht)
          exact Or.inr ⟨rfl, hbelow f hf b hb⟩
      | succ n => cases ht
  refine ⟨⟨?_, ?_⟩, ?_, ?_, ?_⟩
  · rw [hlen]
    exact forall_mem_append_singleton (fun u hu t ht => hgrow (h.wellFounded.below u hu t ht)) htypes
  · refine h.wellFounded.acyclic.extend (fun a b hab => hfield hab) fun q hq hpath => ?_
    rcases ReflTransGen.cases_tail hpath with heq | ⟨c, -, hc⟩
    · omega
    · exact absurd (h.wellFounded.lt_of_fieldOf hc) (Nat.lt_irrefl _)
  · rw [hlen]
    exact forall_mem_append_singleton (fun u hu t ht => hgrow (h.storage u hu t ht)) htypes
  · rw [hlen]
    exact fun tbl htbl col hcol => hgrow (h.cols tbl htbl col hcol)
  · rw [hlen]
    refine forall_mem_modify (fun k hk n p hp => Nat.lt_succ_of_lt (h.names k hk n p hp))
      fun k hk hnames n p hp => ?_
    dsimp only at hp
    rw [NameMap.find_insert] at hp
    split_ifs at hp
    · cases hp
      exact Nat.lt_succ_self _
    · exact hnames n p hp

theorem Grounded.withoutUdt {s : Schema} (h : Grounded s) (ks storage : Nat) (name : String8)
    (u : UdtStorage) : Grounded (s.withoutUdt ks storage name u) where
  wellFounded := h.wellFounded
  storage := forall_mem_modify h.storage fun _ _ h => h
  cols := h.cols
  names := by
    refine forall_mem_modify h.names fun k hk hnames n p hp => ?_
    dsimp only at hp
    rw [NameMap.find_remove] at hp
    split_ifs at hp
    exact hnames n p hp

end Plexdb.Cql.Schema
