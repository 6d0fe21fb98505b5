import Plexdb.SchemaEffects

/-! Every statement that changes the schema moves its version: each operation of `schema.cpp` calls
`bump_version` first and nothing else writes the version. -/

namespace Plexdb.Cql.Schema

/-- The version counts the operations on the schema, and without one the schema is what it was. -/
def Bumped (s s' : Schema) : Prop := ∃ n : Nat, s'.version = s.version + UInt64.ofNat n ∧ (n = 0 → s' = s)

theorem Bumped.refl (s : Schema) : Bumped s s := ⟨0, (UInt64.add_zero _).symm, fun _ => rfl⟩

theorem Bumped.trans {s s' s'' : Schema} (h : Bumped s s') (h' : Bumped s' s'') : Bumped s s'' := by
  obtain ⟨n, hversion, hsame⟩ := h
  obtain ⟨n', hversion', hsame'⟩ := h'
  refine ⟨n + n', by rw [hversion', hversion, UInt64.ofNat_add, UInt64.add_assoc], fun hzero => ?_⟩
  rw [hsame' (by omega), hsame (by omega)]

theorem Bumped.once {s s' : Schema} (h : s'.version = s.version + 1) : Bumped s s' :=
  ⟨1, h, fun hzero => absurd hzero Nat.one_ne_zero⟩

variable {s s' : Schema} {ks t : Nat}

/-! ### One operation -/

@[simp]
theorem version_bumpVersion (s : Schema) : s.bumpVersion.version = s.version + 1 := rfl

theorem version_foldl {α : Type} {f : Schema → α → Schema} (hf : ∀ s a, (f s a).version = s.version) (as : List α)
    (s : Schema) : (as.foldl f s).version = s.version := by
  induction as generalizing s with
  | nil => rfl
  | cons a as ih => rw [List.foldl_cons, ih, hf]

theorem version_rebindUdtViews (s : Schema) (storage p : Nat) : (s.rebindUdtViews storage p).version = s.version := by
  rw [rebindUdtViews]
  cases s.udtStorage[storage]? <;> rfl

theorem version_reappendFields (storage : Nat) (fields : List (String8 × Ty)) (s : Schema) :
    (reappendFields storage fields s).version = s.version := by
  induction fields generalizing s with
  | nil => rfl
  | cons field fields ih => exact ih _

theorem bumped_createKeyspace {create : CreateKeyspace} {a : Result Nat} (h : s.createKeyspace create = some (a, s')) :
    Bumped s s' := by
  rw [createKeyspace] at h
  dsimp only at h
  split_ifs at h
  cases hoptions : create.options with
  | error e =>
      rw [hoptions] at h
      obtain ⟨-, rfl⟩ := Prod.mk.inj (Option.some.inj h)
      exact .once rfl
  | ok popts =>
      rw [hoptions] at h
      obtain ⟨-, rfl⟩ := Prod.mk.inj (Option.some.inj h)
      exact .once rfl

theorem bumped_deleteKeyspace (s : Schema) (name : String8) : Bumped s (s.deleteKeyspace name).2 := by
  refine .once ?_
  rw [deleteKeyspace]
  cases s.bumpVersion.readKeyspace name <;> rfl

theorem bumped_createColumn {c : ColumnSpecification} (h : s.createColumn t c = some s') : Bumped s s' := by
  obtain ⟨tbl, -, h⟩ := Option.bind_eq_some_iff.mp h
  split_ifs at h
  exact .once (Option.some.inj h ▸ rfl)

theorem bumped_deleteColumn {name : String8} {a : Result Unit} (h : s.deleteColumn t name = some (a, s')) :
    Bumped s s' := by
  obtain ⟨tbl, -, h⟩ := Option.bind_eq_some_iff.mp h
  refine .once ?_
  cases hci : findColumn tbl.cols name with
  | none =>
      rw [hci] at h
      exact (Prod.mk.inj (Option.some.inj h)).2 ▸ rfl
  | some ci =>
      rw [hci] at h
      exact (Prod.mk.inj (Option.some.inj h)).2 ▸ rfl

theorem bumped_deleteTable (s : Schema) (ks : Nat) (name : String8) : Bumped s (s.deleteTable ks name).2 := by
  refine .once ?_
  rw [deleteTable]
  cases s.bumpVersion.readTable ks name <;> rfl

theorem bumped_createColumns {ksName tableName : String8} {info : PrimaryKeyInfo} {orders : List SortOrder} {ci : Nat}
    {ds : List ColumnDefinition} {a : Result Nat}
    (h : createColumns ks t ksName tableName info orders ci ds s = some (a, s')) : Bumped s s' := by
  induction ds generalizing ci s with
  | nil =>
      obtain ⟨-, rfl⟩ := Prod.mk.inj (Option.some.inj h)
      exact .refl s
  | cons d ds ih =>
      rw [createColumns] at h
      obtain ⟨tbl, -, h⟩ := Option.bind_eq_some_iff.mp h
      obtain ⟨c, -, h⟩ := Option.bind_eq_some_iff.mp h
      cases c with
      | error e =>
          obtain ⟨-, rfl⟩ := Prod.mk.inj (Option.some.inj h)
          exact bumped_deleteTable s ks tableName
      | ok c =>
          obtain ⟨s₁, hcreate, h⟩ := Option.bind_eq_some_iff.mp h
          exact (bumped_createColumn hcreate).trans (ih h)

theorem bumped_createTable {create : CreateTable} {a : Result Nat} {page : UInt64}
    (h : s.createTable ks create page = some (a, s')) : Bumped s s' := by
  obtain ⟨k, -, h⟩ := Option.bind_eq_some_iff.mp h
  split_ifs at h
  have hpush : ∀ options, Bumped s (s.bumpVersion.pushTable ks create.name.tableName options page) :=
    fun options => .once rfl
  cases hcheck : checkCreateTable create with
  | error e =>
      rw [hcheck] at h
      obtain ⟨-, rfl⟩ := Prod.mk.inj (Option.some.inj h)
      exact .once rfl
  | ok checked =>
      rw [hcheck] at h
      exact (hpush checked.2.2).trans (bumped_createColumns h)

theorem bumped_createIndex {colIdx : Nat} {name : String8} {kind : IndexKind} {page : UInt64}
    (h : s.createIndex t colIdx name kind page = some s') : Bumped s s' := by
  obtain ⟨tbl, -, h⟩ := Option.bind_eq_some_iff.mp h
  obtain ⟨specs, -, h⟩ := Option.bind_eq_some_iff.mp h
  exact .once (Option.some.inj h ▸ rfl)

theorem bumped_deleteIndex {name : String8} {a : Result Unit} (h : s.deleteIndex t name = some (a, s')) :
    Bumped s s' := by
  obtain ⟨tbl, -, h⟩ := Option.bind_eq_some_iff.mp h
  refine .once ?_
  cases hi : readIndex tbl name with
  | none =>
      rw [hi] at h
      exact (Prod.mk.inj (Option.some.inj h)).2 ▸ rfl
  | some i =>
      rw [hi] at h
      obtain ⟨index, -, h⟩ := Option.bind_eq_some_iff.mp h
      exact (Prod.mk.inj (Option.some.inj h)).2 ▸ rfl

theorem bumped_createUdt {name : String8} {fields : List (String8 × Ty)} {a : Result Nat}
    (h : s.createUdt ks name fields = some (a, s')) : Bumped s s' := by
  obtain ⟨k, -, h⟩ := Option.bind_eq_some_iff.mp h
  refine .once ?_
  split_ifs at h
  · exact (Prod.mk.inj (Option.some.inj h)).2 ▸ rfl
  · exact (Prod.mk.inj (Option.some.inj h)).2 ▸ rfl
  · rw [← (Prod.mk.inj (Option.some.inj h)).2, version_rebindUdtViews]
    exact version_foldl (f := fun s (field : String8 × Ty) => s.pushUdtField _ field.1 field.2) (fun _ _ => rfl) _ _

theorem bumped_alterUdtAddField {name fieldName : String8} {fieldType : Ty} {a : Result Unit}
    (h : s.alterUdtAddField ks name fieldName fieldType = some (a, s')) : Bumped s s' := by
  obtain ⟨k, -, h⟩ := Option.bind_eq_some_iff.mp h
  refine .once ?_
  cases hp : s.bumpVersion.readUdt ks name with
  | none =>
      rw [hp] at h
      exact (Prod.mk.inj (Option.some.inj h)).2 ▸ rfl
  | some p =>
      rw [hp] at h
      obtain ⟨used, -, h⟩ := Option.bind_eq_some_iff.mp h
      split_ifs at h
      · exact (Prod.mk.inj (Option.some.inj h)).2 ▸ rfl
      · obtain ⟨storage, -, h⟩ := Option.bind_eq_some_iff.mp h
        rw [← (Prod.mk.inj (Option.some.inj h)).2, version_rebindUdtViews]
        rfl

theorem bumped_alterUdtRenameFields {name : String8} {renames : List (String8 × String8)} {a : Result Unit}
    (h : s.alterUdtRenameFields ks name renames = some (a, s')) : Bumped s s' := by
  obtain ⟨k, -, h⟩ := Option.bind_eq_some_iff.mp h
  refine .once ?_
  cases hp : s.bumpVersion.readUdt ks name with
  | none =>
      rw [hp] at h
      exact (Prod.mk.inj (Option.some.inj h)).2 ▸ rfl
  | some p =>
      rw [hp] at h
      obtain ⟨storage, -, h⟩ := Option.bind_eq_some_iff.mp h
      obtain ⟨u, -, h⟩ := Option.bind_eq_some_iff.mp h
      rw [← (Prod.mk.inj (Option.some.inj h)).2, version_rebindUdtViews, version_reappendFields]
      exact version_foldl (f := tombstoneRecord) (fun _ _ => rfl) _ _

theorem bumped_deleteUdt {name : String8} {a : Result Unit} (h : s.deleteUdt ks name = some (a, s')) :
    Bumped s s' := by
  obtain ⟨k, -, h⟩ := Option.bind_eq_some_iff.mp h
  refine .once ?_
  cases hp : s.bumpVersion.readUdt ks name with
  | none =>
      rw [hp] at h
      exact (Prod.mk.inj (Option.some.inj h)).2 ▸ rfl
  | some p =>
      rw [hp] at h
      obtain ⟨used, -, h⟩ := Option.bind_eq_some_iff.mp h
      split_ifs at h
      · exact (Prod.mk.inj (Option.some.inj h)).2 ▸ rfl
      · obtain ⟨storage, -, h⟩ := Option.bind_eq_some_iff.mp h
        obtain ⟨u, -, h⟩ := Option.bind_eq_some_iff.mp h
        rw [← (Prod.mk.inj (Option.some.inj h)).2]
        exact version_foldl (f := tombstoneRecord) (fun _ _ => rfl) _ _

/-! ### Loops and statements -/

theorem bumped_addColumns {ksName : String8} {ifNotExists : Bool} {ds : List ColumnDefinition}
    {a : Option ExecutionResult} (h : addColumns ksName t ifNotExists ds s = some (a, s')) : Bumped s s' := by
  induction ds generalizing s with
  | nil =>
      obtain ⟨-, rfl⟩ := Prod.mk.inj (Option.some.inj h)
      exact .refl s
  | cons d ds ih =>
      rw [addColumns] at h
      obtain ⟨tbl, -, h⟩ := Option.bind_eq_some_iff.mp h
      cases hadd : s.addColumnOf ksName tbl.cols ifNotExists d with
      | fail result =>
          rw [hadd] at h
          obtain ⟨-, rfl⟩ := Prod.mk.inj (Option.some.inj h)
          exact .refl s
      | skip =>
          rw [hadd] at h
          exact ih h
      | add c =>
          rw [hadd] at h
          obtain ⟨s₁, hcreate, h⟩ := Option.bind_eq_some_iff.mp h
          exact (bumped_createColumn hcreate).trans (ih h)

theorem bumped_dropColumns {ifExists : Bool} {names : List String8} {a : Option ExecutionResult}
    (h : dropColumns t ifExists names s = some (a, s')) : Bumped s s' := by
  induction names generalizing s with
  | nil =>
      obtain ⟨-, rfl⟩ := Prod.mk.inj (Option.some.inj h)
      exact .refl s
  | cons name names ih =>
      rw [dropColumns] at h
      obtain ⟨tbl, -, h⟩ := Option.bind_eq_some_iff.mp h
      split_ifs at h
      · exact ih h
      · obtain ⟨-, rfl⟩ := Prod.mk.inj (Option.some.inj h)
        exact .refl s
      · obtain ⟨⟨b, s₁⟩, hdelete, h⟩ := Option.bind_eq_some_iff.mp h
        exact (bumped_deleteColumn hdelete).trans (ih h)

theorem bumped_addFields {ksName name : String8} {ds : List ColumnDefinition} {a : Option ExecutionResult}
    (h : addFields ksName ks name ds s = some (a, s')) : Bumped s s' := by
  induction ds generalizing s with
  | nil =>
      obtain ⟨-, rfl⟩ := Prod.mk.inj (Option.some.inj h)
      exact .refl s
  | cons d ds ih =>
      rw [addFields] at h
      cases htype : s.resolveTypeAst ksName d.type with
      | error e =>
          rw [htype] at h
          obtain ⟨-, rfl⟩ := Prod.mk.inj (Option.some.inj h)
          exact .refl s
      | ok type =>
          rw [htype] at h
          dsimp only at h
          cases hadd : s.alterUdtAddField ks name d.name type with
          | none =>
              rw [hadd] at h
              cases h
          | some added =>
              obtain ⟨b, s₁⟩ := added
              have hbumped := bumped_alterUdtAddField hadd
              rw [hadd] at h
              cases b with
              | error e =>
                  obtain ⟨-, rfl⟩ := Prod.mk.inj (Option.some.inj h)
                  exact hbumped
              | ok _ => exact hbumped.trans (ih h)

theorem Ran.bumped {r : Request} {result : ExecutionResult} (h : Ran s r result s') : Bumped s s' := by
  cases h with
  | unchanged => exact .refl s
  | createKeyspace _ h _ => exact bumped_createKeyspace h
  | dropKeyspace _ _ _ => exact bumped_deleteKeyspace s _
  | createTable _ _ _ h _ => exact bumped_createTable h
  | dropTable _ _ _ => exact bumped_deleteTable s _ _
  | addColumns _ _ _ h _ => exact bumped_addColumns h
  | dropColumns _ _ _ h _ => exact bumped_dropColumns h
  | setTableOptions _ _ _ _ => exact .once rfl
  | createIndex _ _ _ _ _ h _ => exact bumped_createIndex h
  | dropIndex _ _ _ h _ => exact bumped_deleteIndex h
  | createType _ _ _ h _ => exact bumped_createUdt h
  | addFields _ _ h _ => exact bumped_addFields h
  | renameFields _ _ h _ => exact bumped_alterUdtRenameFields h
  | dropType _ _ h _ => exact bumped_deleteUdt h

end Plexdb.Cql.Schema
