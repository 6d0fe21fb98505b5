import Plexdb.SchemaUserTypes

/-! Runs of DDL statements in which no `ALTER TYPE` makes a type contain itself: in every schema
they reach, the user types are well-founded and the recursions over types return. -/

namespace Plexdb.Cql.Schema

open Relation

/-! ### The condition on a statement -/

/-- The types of the fields that `ALTER TYPE ADD` reaches: it stops at the first that does not
resolve. -/
def addedTypes (s : Schema) (ksName : String8) : List ColumnDefinition → List Ty
  | [] => []
  | d :: ds =>
      match s.resolveTypeAst ksName d.type with
      | .error _ => []
      | .ok type => type :: addedTypes s ksName ds

/-- The field types with which `ALTER TYPE` leaves the type `p` that is stored as `u`. A type used in
a primary key gets no field. -/
def alteredFieldTypes (s : Schema) (ksName : String8) (ks p : Nat) (u : UdtStorage) :
    AlterTypeInstruction → List Ty
  | .addFields fields =>
      if anyOf (fun col => typeReferencesUdt s.udts col.type p) (s.keyColumns ks) = some true then []
      else u.fieldTypes ++ addedTypes s ksName fields
  | .renameFields _ => u.fieldTypes

/-- The type that the statement alters, and the field types it leaves it with. -/
def alteredType (s : Schema) (r : Request) : Option (Nat × List Ty) :=
  match r.statement with
  | .alterType name instruction =>
      match s.resolveKs (r.ksName name) with
      | .error _ => none
      | .ok ks => do
          let k ← s.keyspaces[ks]?
          let p ← s.readUdt ks name.tableName
          let i ← s.findUdtStorageIdx k.name name.tableName
          let u ← s.udtStorage[i]?
          some (p, s.alteredFieldTypes (r.ksName name) ks p u instruction)
  | _ => none

/-- The statement is no `ALTER TYPE` that leaves a type with a field that contains the type. -/
def altersNoCycle (s : Schema) (r : Request) : Bool :=
  (s.alteredType r).all fun (p, ts) => ts.all fun t => typeReferencesUdt s.udts t p != some true

/-! ### One statement -/

theorem below_addedTypes {s : Schema} (h : Grounded s) (ksName : String8) (ds : List ColumnDefinition) :
    ∀ t ∈ s.addedTypes ksName ds, Below s.udts.length t := by
  induction ds with
  | nil => exact List.forall_mem_nil _
  | cons d ds ih =>
      rw [addedTypes]
      cases hresolve : s.resolveTypeAst ksName d.type with
      | error e => exact List.forall_mem_nil _
      | ok type => exact List.forall_mem_cons.mpr ⟨h.below_of_named (named_of_resolve hresolve), ih⟩

theorem addedTypes_congr {s s' : Schema} (hks : s'.keyspaces = s.keyspaces)
    (hnames : s'.keyspacesByName = s.keyspacesByName) (ksName : String8) (ds : List ColumnDefinition) :
    s'.addedTypes ksName ds = s.addedTypes ksName ds := by
  have hfind : s'.findUdtRef ksName = s.findUdtRef ksName := by
    funext r
    simp only [findUdtRef, readKeyspace, readUdt, hks, hnames]
  induction ds with
  | nil => rfl
  | cons d ds ih => rw [addedTypes, addedTypes, resolveTypeAst, resolveTypeAst, hfind, ih]

/-- Where `p` cannot be reached, it cannot be reached over new edges out of `p` either. -/
theorem reflTransGen_of_new_edges {R S : Nat → Nat → Prop} {p : Nat} {N : Nat → Prop}
    (hS : ∀ a b, S a b → R a b ∨ (a = p ∧ N b)) {a : Nat} (h : ReflTransGen S a p) :
    ReflTransGen R a p := by
  induction h using ReflTransGen.head_induction_on with
  | refl => exact .refl
  | head hab _ ih =>
      rcases hS _ _ hab with hab | ⟨rfl, -⟩
      · exact .head hab ih
      · exact .refl

theorem Avoids.withStorage {s : Schema} {t : Ty} {p : Nat} (h : Avoids s.udts t p) (i : Nat)
    (u : UdtStorage) (records : List UdtRecord) : Avoids (s.withStorage i p u records).udts t p := by
  intro q hq hpath
  refine h q hq (reflTransGen_of_new_edges (N := fun b => ∃ t ∈ u.fieldTypes, b ∈ t.refs) ?_ hpath)
  exact fun a b hab => fieldOf_modify hab

theorem findUdtStorageIdx_withStorage {s : Schema} {i p : Nat} {u v : UdtStorage} {records : List UdtRecord}
    (hu : s.udtStorage[i]? = some u) (htomb : v.tombstone = u.tombstone) (hks : v.keyspace = u.keyspace)
    (hname : v.name = u.name) (ksName name : String8) :
    (s.withStorage i p v records).findUdtStorageIdx ksName name = s.findUdtStorageIdx ksName name :=
  findIdx?_set _ hu (by rw [htomb, hks, hname])

/-- The loop of `ALTER TYPE ADD`, when neither the stored fields nor those still to come contain the
type. -/
theorem Grounded.addFields {ksName : String8} {ks : Nat} {name : String8} {ds : List ColumnDefinition}
    {s s' : Schema} {r : Option ExecutionResult} (h : Grounded s)
    (hsafe : ∀ k p i u, s.keyspaces[ks]? = some k → s.readUdt ks name = some p →
      s.findUdtStorageIdx k.name name = some i → s.udtStorage[i]? = some u →
      anyOf (fun col => typeReferencesUdt s.udts col.type p) (s.keyColumns ks) = some false →
      ∀ t ∈ u.fieldTypes ++ s.addedTypes ksName ds, Avoids s.udts t p)
    (hadd : Schema.addFields ksName ks name ds s = some (r, s')) : Grounded s' := by
  induction ds generalizing s with
  | nil => cases hadd; exact h
  | cons d ds ih =>
      rw [Schema.addFields] at hadd
      cases hresolve : s.resolveTypeAst ksName d.type with
      | error e =>
          rw [hresolve] at hadd
          obtain ⟨-, rfl⟩ := Prod.mk.inj (Option.some.inj hadd)
          exact h
      | ok type =>
          rw [hresolve] at hadd
          dsimp only at hadd
          cases halter : s.alterUdtAddField ks name d.name type with
          | none => rw [halter] at hadd; cases hadd
          | some altered =>
              obtain ⟨result, s₁⟩ := altered
              rw [halter] at hadd
              cases result with
              | error e =>
                  obtain ⟨-, rfl⟩ := Prod.mk.inj (Option.some.inj hadd)
                  rw [alterUdtAddField_error halter]
                  exact h.of_sameTypes (.bump s)
              | ok _ =>
                  obtain ⟨k, p, i, u, hk, hp, hkey, hi, hu, rfl⟩ := alterUdtAddField_eq_ok halter
                  have havoids := hsafe k p i u hk hp hi hu hkey
                  rw [addedTypes, hresolve] at havoids
                  have hstored : ∀ t ∈ u.fieldTypes ++ [type], Avoids s.udts t p := fun t ht =>
                    havoids t (by
                      rcases List.mem_append.mp ht with ht | ht
                      · exact List.mem_append_left _ ht
                      · exact List.mem_append_right _ (List.mem_singleton.mp ht ▸ List.mem_cons_self))
                  have hbelow : ∀ t ∈ u.fieldTypes ++ [type], Below s.udts.length t :=
                    forall_mem_append_singleton (h.storage u (List.mem_of_getElem? hu))
                      (h.below_of_named (named_of_resolve hresolve))
                  refine ih (h.withStorage hbelow hstored) ?_ hadd
                  intro k' p' i' u' hk' hp' hi' hu' _ t ht
                  -- the look-ups are those before the field was added
                  obtain rfl : k' = k := Option.some.inj (hk'.symm.trans hk)
                  obtain rfl : p' = p := Option.some.inj (hp'.symm.trans hp)
                  rw [findUdtStorageIdx_withStorage (v := u.addFields _ _) hu rfl rfl rfl] at hi'
                  obtain rfl : i' = i := Option.some.inj (hi'.symm.trans hi)
                  obtain rfl : u.addFields [s.blobs.udts.length] [(d.name, type)] = u' :=
                    Option.some.inj ((List.getElem?_set_self (List.getElem?_eq_some_iff.mp hu).1).symm.trans hu')
                  refine Avoids.withStorage (havoids t ?_) _ _ _
                  rw [@addedTypes_congr s (s.withStorage _ _ _ _) rfl rfl] at ht
                  simpa [UdtStorage.addFields] using ht

theorem Grounded.resolveFields_below {s : Schema} (h : Grounded s) {ksName : String8}
    {ds : List ColumnDefinition} {fields : List (String8 × Ty)}
    (hresolve : s.resolveFields ksName ds = .ok fields) : ∀ f ∈ fields, Below s.udts.length f.2 := by
  induction ds generalizing fields with
  | nil => cases hresolve; exact List.forall_mem_nil _
  | cons d ds ih =>
      obtain ⟨type, htype, hrest⟩ := TypeTree.bind_eq_ok hresolve
      obtain ⟨rest, hds, heq⟩ := TypeTree.bind_eq_ok hrest
      cases heq
      exact List.forall_mem_cons.mpr ⟨h.below_of_named (named_of_resolve htype), ih hds⟩

/-- What the condition keeps `ALTER TYPE` from storing. -/
theorem Grounded.avoids_altered {s : Schema} {r : Request} {name : TableName}
    {instruction : AlterTypeInstruction} (h : Grounded s) (hcond : altersNoCycle s r = true)
    (hstmt : r.statement = .alterType name instruction) {ks p i : Nat} {k : Keyspace} {u : UdtStorage}
    (hks : s.resolveKs (r.ksName name) = .ok ks) (hk : s.keyspaces[ks]? = some k)
    (hp : s.readUdt ks name.tableName = some p) (hi : s.findUdtStorageIdx k.name name.tableName = some i)
    (hu : s.udtStorage[i]? = some u) :
    ∀ t ∈ s.alteredFieldTypes (r.ksName name) ks p u instruction, Avoids s.udts t p := by
  have halter : s.alteredType r = some (p, s.alteredFieldTypes (r.ksName name) ks p u instruction) := by
    simp [alteredType, hstmt, hks, hk, hp, hi, hu]
  rw [altersNoCycle, halter] at hcond
  intro t ht
  refine h.avoids ?_ (by simpa using List.all_eq_true.mp hcond t ht)
  have hold := h.storage u (List.mem_of_getElem? hu)
  cases instruction with
  | addFields fields =>
      rw [alteredFieldTypes] at ht
      split_ifs at ht
      · cases ht
      · rcases List.mem_append.mp ht with ht | ht
        · exact hold t ht
        · exact below_addedTypes h _ _ t ht
  | renameFields renames => exact hold t ht

/-- Every statement that meets the condition keeps the user types well-founded. -/
theorem Grounded.ran {s s' : Schema} {r : Request} {result : ExecutionResult} (h : Grounded s)
    (hcond : altersNoCycle s r = true) (hran : Ran s r result s') : Grounded s' := by
  cases hran with
  | unchanged => exact h
  | createKeyspace _ hcreate => exact h.of_sameTypes (sameTypes_createKeyspace hcreate)
  | dropKeyspace => exact h.of_sameTypes (sameTypes_deleteKeyspace s _)
  | createTable _ _ _ hcreate => exact h.of_sameTypes (sameTypes_createTable hcreate)
  | dropTable => exact h.of_sameTypes (sameTypes_deleteTable s _ _)
  | addColumns _ _ _ hadd => exact h.of_sameTypes (sameTypes_addColumns hadd)
  | dropColumns _ _ _ hdrop => exact h.of_sameTypes (sameTypes_dropColumns hdrop)
  | setTableOptions => exact h.of_sameTypes (sameTypes_setTableOptions s _ _)
  | createIndex _ _ _ _ _ hcreate => exact h.of_sameTypes (sameTypes_createIndex hcreate)
  | dropIndex _ _ _ hdelete => exact h.of_sameTypes (sameTypes_deleteIndex hdelete)
  | @createType name _ defs ks fields a _ _ hstmt hks hfields hcreate =>
      cases a with
      | error e =>
          rw [createUdt_error hcreate]
          exact h.of_sameTypes (.bump s)
      | ok p =>
          obtain ⟨k, -, -, -, -, rfl⟩ := createUdt_eq_ok hcreate
          exact h.withUdt ks k.name name.tableName (h.resolveFields_below hfields)
  | @addFields name defs ks a _ _ hstmt hks hadd =>
      refine h.addFields (fun k p i u hk hp hi hu hkey t ht => ?_) hadd
      refine h.avoids_altered hcond hstmt hks hk hp hi hu t ?_
      rw [alteredFieldTypes, hkey, if_neg (by decide)]
      exact ht
  | @renameFields name renames ks a _ _ hstmt hks hrename =>
      cases a with
      | error e =>
          rw [alterUdtRenameFields_error hrename]
          exact h.of_sameTypes (.bump s)
      | ok _ =>
          obtain ⟨k, p, i, u, hk, hp, hi, hu, rfl⟩ := alterUdtRenameFields_eq_ok hrename
          have havoids := h.avoids_altered hcond hstmt hks hk hp hi hu
          exact h.withStorage (h.storage u (List.mem_of_getElem? hu)) havoids
  | @dropType name _ ks a _ _ hstmt hks hdelete =>
      cases a with
      | error e =>
          rw [deleteUdt_error hdelete]
          exact h.of_sameTypes (.bump s)
      | ok _ =>
          obtain ⟨k, p, i, u, -, -, -, -, -, rfl⟩ := deleteUdt_eq_ok hdelete
          exact h.withoutUdt ks i name.tableName u

/-! ### Runs -/

theorem grounded_empty : Grounded {} where
  wellFounded :=
    { below := List.forall_mem_nil _
      acyclic := fun p hp => by
        rcases TransGen.head'_iff.mp hp with ⟨q, ⟨t, ht, -⟩, -⟩
        cases ht }
  storage := List.forall_mem_nil _
  cols := List.forall_mem_nil _
  names := List.forall_mem_nil _

theorem grounded_of_run {s s' : Schema} {rs : List Request} (hs : Grounded s)
    (h : Run step (fun s r => altersNoCycle s r = true) s rs s') : Grounded s' := by
  refine h.invariant (fun s r s' hs hcond hstep => ?_) hs
  obtain ⟨⟨result, s₁⟩, hexec, rfl⟩ := Option.map_eq_some_iff.mp hstep
  exact hs.ran hcond (ran_of_execute hexec)

/-- In every schema that DDL statements reach from the empty one, none of them an `ALTER TYPE` that
leaves a type with a field containing it: no user type reaches itself through its fields, and on
every column type and every field type the search for a user type returns, whichever is searched
for, and so does writing the type out for the value codec. -/
theorem user_types_well_founded {s : Schema} {rs : List Request}
    (h : Run step (fun s r => altersNoCycle s r = true) {} rs s) :
    (∀ p, ¬ TransGen (FieldOf s.udts) p p) ∧
      (∀ tbl ∈ s.tables, ∀ col ∈ tbl.cols, (∀ target, (typeReferencesUdt s.udts col.type target).isSome) ∧
        (expand s.udts col.type).isSome) ∧
      ∀ u ∈ s.udts, ∀ t ∈ u.fieldTypes, (∀ target, (typeReferencesUdt s.udts t target).isSome) ∧
        (expand s.udts t).isSome := by
  have hs := grounded_of_run grounded_empty h
  have hends {t : Ty} (ht : Below s.udts.length t) :
      (∀ target, (typeReferencesUdt s.udts t target).isSome) ∧ (expand s.udts t).isSome :=
    ⟨typeReferencesUdt_isSome hs.wellFounded ht, expand_isSome hs.wellFounded ht⟩
  exact ⟨hs.wellFounded.acyclic, fun tbl htbl col hcol => hends (hs.cols tbl htbl col hcol),
    fun u hu t ht => hends (hs.wellFounded.below u hu t ht)⟩

/-! ### Two runs -/

/-- A literal as a string in memory. -/
def str (s : String) (h : (ascii s).length < 2 ^ 64 := by decide) : String8 := ⟨ascii s, h⟩

def request (statement : Statement) : Request := ⟨statement, str "k", 7⟩

/-- A field of a basic type. -/
def basicField (name : String8) (b : Basic) : ColumnDefinition := ⟨name, ⟨.basic b, trivial⟩, false, false, false⟩

/-- A field of a user type of the same keyspace. -/
def udtField (name type : String8) : ColumnDefinition :=
  ⟨name, ⟨.udt ⟨str "", type, true⟩, trivial⟩, false, false, false⟩

def createTwoTypes : List Request :=
  [request (.createKeyspace ⟨false, str "k", .ok {}⟩),
    request (.createType ⟨none, str "a"⟩ false [basicField (str "x") .int]),
    request (.createType ⟨none, str "b"⟩ false [udtField (str "y") (str "a")])]

theorem user_types_well_founded_chain :
    ∃ s, Run step (fun s r => altersNoCycle s r = true) {}
        (createTwoTypes ++ [request (.alterType ⟨none, str "b"⟩ (.addFields [basicField (str "z") .text]))]) s ∧
      ∀ p, ¬ TransGen (FieldOf s.udts) p p := by
  obtain ⟨s, hs⟩ := Option.isSome_iff_exists.mp
    (show (runAll step altersNoCycle {} (createTwoTypes ++
      [request (.alterType ⟨none, str "b"⟩ (.addFields [basicField (str "z") .text]))])).isSome by decide)
  exact ⟨s, .of_runAll hs, (user_types_well_founded (.of_runAll hs)).1⟩

/-- `ALTER TYPE a ADD z frozen<b>`, where `b` has a field of type `a`, makes `a` contain itself, and a
search through `a` for another type returns for no number of steps. -/
theorem alter_type_closes_cycle :
    ∃ s, Run step (fun _ _ => True) {}
        (createTwoTypes ++ [request (.alterType ⟨none, str "a"⟩ (.addFields [udtField (str "z") (str "b")]))]) s ∧
      TransGen (FieldOf s.udts) 0 0 ∧
      ∀ fuel, typeReferences (udtReferences s.udts 2 fuel) (.udt 0) = none := by
  have hrun : (runAll step (fun _ _ => true) {} (createTwoTypes ++
      [request (.alterType ⟨none, str "a"⟩ (.addFields [udtField (str "z") (str "b")]))])).any (fun s =>
        (fieldRefs s.udts 0).contains 1 && (fieldRefs s.udts 1).contains 0
          && (typeReferencesUdt s.udts (.udt 0) 2).isNone && s.udts.length == 2
          && s.udts.all fun u => u.fieldTypes.all fun t => t.refs.all (· < 2)) := by decide
  obtain ⟨s, hs, hcycle⟩ := (Option.any_eq_true _ _).mp hrun
  simp only [Bool.and_eq_true, List.contains_iff_mem, Option.isNone_iff_eq_none, beq_iff_eq, List.all_eq_true,
    decide_eq_true_eq] at hcycle
  obtain ⟨⟨⟨⟨hab, hba⟩, hnone⟩, hlength⟩, hbelow⟩ := hcycle
  rw [← hlength] at hbelow
  refine ⟨s, (Run.of_runAll hs).mono fun _ _ _ => trivial, ?_, ?_⟩
  · exact .tail (.single (mem_fieldRefs.mp hab)) (mem_fieldRefs.mp hba)
  · refine typeReferencesUdt_eq_none hbelow (fun p hp => ?_) hnone
    rw [TypeTree.refs, List.mem_singleton] at hp
    omega

end Plexdb.Cql.Schema
