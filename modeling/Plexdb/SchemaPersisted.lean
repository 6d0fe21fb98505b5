import Plexdb.SchemaColumns
import Plexdb.SchemaLoad
import Plexdb.SchemaSteps

/-! What the blobs say of the schema in memory. The relation between the two determines the schema
up to where its user types lie in memory. -/

namespace Plexdb.Cql.Schema

/-! ### Stored types -/

theorem readStoredType_writeType {ρ σ : Type} {find : String8 → Option σ} {name : ρ → String8} {g : ρ → σ}
    {t : TypeTree ρ} (hsized : t.Sized) (hfind : ∀ r ∈ t.refs, find (name r) = some (g r)) :
    readStoredType find (writeType name t) = some (t.rename g) := by
  have hread := readType_writeType hsized hfind (size_le_length_writeType name t) []
  rw [List.append_nil] at hread
  rw [readStoredType, hread]

/-- What is stored of a type are its shape and the names it mentions. -/
theorem writeType_inj {ρ σ : Type} {name : ρ → String8} {name' : σ → String8} {t : TypeTree ρ} {t' : TypeTree σ}
    (ht : t.Sized) (ht' : t'.Sized) (h : writeType name t = writeType name' t') :
    t.rename name = t'.rename name' := by
  have hread := @readStoredType_writeType ρ String8 some name name t ht fun _ _ => rfl
  rw [h, readStoredType_writeType ht' fun _ _ => rfl] at hread
  exact (Option.some.inj hread).symm

/-! ### The log of the user types -/

/-- The records of the user types with their offsets. -/
abbrev UdtLog := List (UdtRecord × Nat)

/-- The declaration of a user type in its record. -/
structure UdtDecl where
  offset : Nat
  tombstone : Bool
  keyspace : String8
  name : String8

def UdtStorage.decl (u : UdtStorage) : UdtDecl := ⟨u.offsetInBlob, u.tombstone, u.keyspace, u.name⟩

def declOf : UdtRecord × Nat → Option UdtDecl
  | (.decl tombstone keyspace name, offset) => some ⟨offset, tombstone, keyspace, name⟩
  | (.field _ _ _ _, _) => none

def UdtLog.decls (log : UdtLog) : List UdtDecl := log.filterMap declOf

/-- Offset, name and type of a live field of the type stored at `parent`. -/
def liveFieldOf (parent : Nat) : UdtRecord × Nat → Option (Nat × String8 × Bytes)
  | (.field false p name typeBytes, offset) => if p = parent then some (offset, name, typeBytes) else none
  | (.field true _ _ _, _) => none
  | (.decl _ _ _, _) => none

def UdtLog.liveFields (log : UdtLog) (parent : Nat) : List (Nat × String8 × Bytes) :=
  log.filterMap (liveFieldOf parent)

/-- A live type of the keyspace with the name is declared before the offset. -/
def UdtLog.Declares (log : UdtLog) (keyspace name : String8) (offset : Nat) : Prop :=
  ∃ d ∈ log.decls, d.tombstone = false ∧ d.keyspace = keyspace ∧ d.name = name ∧ d.offset < offset

/-- A field of the type stored at `parent`, dead or alive, can be read at its offset. -/
def UdtLog.Readable (log : UdtLog) (parent : Nat) (typeBytes : Bytes) (offset : Nat) : Prop :=
  ∃ d, log.decls[parent]? = some d ∧ d.offset < offset ∧ ∃ t : TypeTree String8,
    t.Sized ∧ typeBytes = writeType id t ∧ ∀ name ∈ t.refs, log.Declares d.keyspace name offset

/-- A live type has one declaration. -/
def UdtLog.UniqueDecls (log : UdtLog) : Prop :=
  ∀ d ∈ log.decls, ∀ d' ∈ log.decls, d.tombstone = false → d'.tombstone = false →
    d.keyspace = d'.keyspace → d.name = d'.name → d.offset = d'.offset

/-- The log can be replayed. -/
structure UdtLog.Replayable (log : UdtLog) : Prop where
  unique : log.UniqueDecls
  fields : ∀ tombstone parent name typeBytes offset,
    (UdtRecord.field tombstone parent name typeBytes, offset) ∈ log → log.Readable parent typeBytes offset

/-! ### Memory and blobs -/

/-- Every user type that a type mentions is found in the keyspace under its name. -/
def ResolvesIn (s : Schema) (ks : Nat) (t : Ty) : Prop :=
  t.Sized ∧ ∀ p ∈ t.refs, s.readUdt ks (udtName s.udts p) = some p

/-- The user type as the deque holds it. -/
def UdtStorage.udt (u : UdtStorage) : Udt := ⟨u.keyspace, u.name, u.fieldNames, u.fieldTypes⟩

/-- The fields of a type as they are stored. -/
def UdtStorage.fields (udts : List Udt) (u : UdtStorage) : List (Nat × String8 × Bytes) :=
  u.fieldRecordOffsets.zip (u.fieldNames.zip (u.fieldTypes.map (writeType (udtName udts))))

structure KeyspacesStored (records : List KeyspaceRecord) (s : Schema) : Prop where
  stored : s.keyspaces.map Keyspace.record = records
  byName : NameMap.Indexes s.keyspacesByName (fun r => !r.tombstone) (·.name) records

structure TablesStored (records : List TableRecord) (s : Schema) : Prop where
  stored : s.tables.map Table.record = records
  below : ∀ r ∈ records, r.keyspaceIdx < s.keyspaces.length
  byName : ∀ ks k, s.keyspaces[ks]? = some k →
    NameMap.Indexes k.tblsByName (TableRecord.liveIn ks) (·.name) records

structure TypesStored (log : UdtLog) (s : Schema) : Prop where
  decls : s.udtStorage.map UdtStorage.decl = log.decls
  keyspaces : ∀ u ∈ s.udtStorage, (s.readKeyspace u.keyspace).isSome
  fields : ∀ i u, s.udtStorage[i]? = some u → u.tombstone = false → u.fields s.udts = log.liveFields i
  lengths : ∀ u ∈ s.udtStorage,
    u.fieldRecordOffsets.length = u.fieldTypes.length ∧ u.fieldNames.length = u.fieldTypes.length
  types : ∀ u ∈ s.udtStorage, u.tombstone = false → ∀ ks, s.readKeyspace u.keyspace = some ks →
    ∀ t ∈ u.fieldTypes, s.ResolvesIn ks t
  bound : ∀ ks k name p, s.keyspaces[ks]? = some k → k.udtsByName.find name = some p →
    s.readKeyspace k.name = some ks ∧
      ∃ u ∈ s.udtStorage, u.tombstone = false ∧ u.keyspace = k.name ∧ u.name = name ∧ s.udts[p]? = some u.udt
  found : ∀ u ∈ s.udtStorage, u.tombstone = false →
    ∃ ks p, s.readKeyspace u.keyspace = some ks ∧ s.readUdt ks u.name = some p ∧ s.udts[p]? = some u.udt

/-- The columns of the table at `t`. -/
def colsAt (s : Schema) (t : Nat) : List Column := (s.tables[t]?.map Table.cols).getD []

def indexesAt (s : Schema) (t : Nat) : List Index := (s.tables[t]?.map Table.indexes).getD []

structure ColumnsStored (records : List ColumnRecord) (s : Schema) : Prop where
  stored : ∀ t, (s.colsAt t).map (Column.record s.udts t) = records.filter (·.tableIdx == t)
  types : ∀ tbl ∈ s.tables, ∀ col ∈ tbl.cols, s.ResolvesIn tbl.keyspaceIdx col.type

structure IndexesStored (log : List (IndexRecord × Nat)) (s : Schema) : Prop where
  stored : ∀ t, ((s.indexesAt t).map fun index => (index.record t, index.idx)) =
    log.filter (·.1.tableIdx == t)
  byName : ∀ tbl ∈ s.tables, NameMap.Indexes tbl.indexesByName (fun index => !index.tombstone) (·.name) tbl.indexes
  keySpecs : ∀ tbl ∈ s.tables, ∀ index ∈ tbl.indexes,
    ∃ specs, makeIndexKeySpecs tbl.cols index.colIdx index.kind = some specs ∧
      (index.tombstone = false → index.keySpecs = specs)

/-- The schema in memory is what the blobs store. -/
structure Persisted (blobs : Blobs) (s : Schema) : Prop where
  keyspaces : KeyspacesStored blobs.keyspaces s
  tables : TablesStored blobs.tables s
  replayable : UdtLog.Replayable blobs.udts.zipIdx
  types : TypesStored blobs.udts.zipIdx s
  columns : ColumnsStored blobs.columns s
  indexes : IndexesStored blobs.indexes.zipIdx s

/-! ### The blobs determine the schema -/

theorem KeyspacesStored.readKeyspace_eq {records : List KeyspaceRecord} {s s' : Schema}
    (h : KeyspacesStored records s) (h' : KeyspacesStored records s') (name : String8) :
    s'.readKeyspace name = s.readKeyspace name :=
  h'.byName.find_eq h.byName name

theorem KeyspacesStored.length_eq {records : List KeyspaceRecord} {s : Schema}
    (h : KeyspacesStored records s) : s.keyspaces.length = records.length := by
  rw [← h.stored, List.length_map]

/-- The name of the keyspace at `ks`. -/
def keyspaceName (s : Schema) (ks : Nat) : Option String8 := s.keyspaces[ks]?.map (·.name)

theorem KeyspacesStored.keyspaceName_eq {records : List KeyspaceRecord} {s : Schema}
    (h : KeyspacesStored records s) (ks : Nat) : s.keyspaceName ks = records[ks]?.map (·.name) := by
  rw [← h.stored, List.getElem?_map, Option.map_map]
  rfl

theorem TablesStored.readTable_eq {keyspaces : List KeyspaceRecord} {records : List TableRecord} {s s' : Schema}
    (hks : KeyspacesStored keyspaces s) (hks' : KeyspacesStored keyspaces s') (h : TablesStored records s)
    (h' : TablesStored records s') (ks : Nat) (name : String8) : s'.readTable ks name = s.readTable ks name := by
  rw [readTable, readTable]
  cases hk : s.keyspaces[ks]? with
  | none =>
      have hlength : s'.keyspaces.length = s.keyspaces.length := by rw [hks.length_eq, hks'.length_eq]
      rw [List.getElem?_eq_none (hlength ▸ List.getElem?_eq_none_iff.mp hk)]
  | some k =>
      have hlt : ks < s'.keyspaces.length := by
        rw [hks'.length_eq, ← hks.length_eq]
        exact (List.getElem?_eq_some_iff.mp hk).1
      rw [List.getElem?_eq_getElem hlt]
      exact (h'.byName ks _ (List.getElem?_eq_getElem hlt)).find_eq (h.byName ks k hk) name

theorem readUdt_eq_some {s : Schema} {ks p : Nat} {name : String8} :
    s.readUdt ks name = some p ↔ ∃ k, s.keyspaces[ks]? = some k ∧ k.udtsByName.find name = some p :=
  Option.bind_eq_some_iff

/-- A type that resolves in a keyspace, by keyspace and names. -/
theorem TypesStored.named_eq {log : UdtLog} {s : Schema} (h : TypesStored log s) {ks : Nat} {t : Ty}
    (ht : s.ResolvesIn ks t) :
    named s.udts t = (t.rename (udtName s.udts)).rename fun name => (s.keyspaceName ks).map (·, name) := by
  rw [TypeTree.rename_rename, named]
  refine TypeTree.rename_congr fun p hp => ?_
  obtain ⟨k, hk, hfind⟩ := readUdt_eq_some.mp (ht.2 p hp)
  obtain ⟨-, u, -, -, hkeyspace, hname, hudt⟩ := h.bound ks k _ p hk hfind
  simp [keyspaceName, hk, hudt, UdtStorage.udt, hkeyspace, hname]

theorem named_eq_of_writeType_eq {keyspaces : List KeyspaceRecord} {log : UdtLog} {s s' : Schema}
    (hks : KeyspacesStored keyspaces s) (hks' : KeyspacesStored keyspaces s') (h : TypesStored log s)
    (h' : TypesStored log s') {ks : Nat} {t t' : Ty} (ht : s.ResolvesIn ks t) (ht' : s'.ResolvesIn ks t')
    (hwrite : writeType (udtName s'.udts) t' = writeType (udtName s.udts) t) :
    named s'.udts t' = named s.udts t := by
  rw [h.named_eq ht, h'.named_eq ht', writeType_inj ht'.1 ht.1 hwrite, hks.keyspaceName_eq, hks'.keyspaceName_eq]

theorem UdtStorage.decl_inj {u u' : UdtStorage} (h : u'.decl = u.decl) :
    u'.tombstone = u.tombstone ∧ u'.keyspace = u.keyspace ∧ u'.name = u.name :=
  ⟨congrArg UdtDecl.tombstone h, congrArg UdtDecl.keyspace h, congrArg UdtDecl.name h⟩

/-- The columns of the table of stored fields. -/
theorem UdtStorage.map_fields {u : UdtStorage} (udts : List Udt)
    (h : u.fieldRecordOffsets.length = u.fieldTypes.length ∧ u.fieldNames.length = u.fieldTypes.length) :
    (u.fields udts).map (·.1) = u.fieldRecordOffsets ∧ (u.fields udts).map (·.2.1) = u.fieldNames ∧
      (u.fields udts).map (·.2.2) = u.fieldTypes.map (writeType (udtName udts)) := by
  have hinner : (u.fieldNames.zip (u.fieldTypes.map (writeType (udtName udts)))).length = u.fieldTypes.length := by
    simp [h.2]
  have hsnd : (u.fields udts).map Prod.snd = u.fieldNames.zip (u.fieldTypes.map (writeType (udtName udts))) :=
    List.map_snd_zip (by rw [hinner, h.1])
  refine ⟨List.map_fst_zip (by rw [hinner, h.1]), ?_, ?_⟩
  · calc
      (u.fields udts).map (·.2.1) = ((u.fields udts).map Prod.snd).map Prod.fst := List.map_map.symm
      _ = u.fieldNames := by rw [hsnd, List.map_fst_zip (by simp [h.2])]
  · calc
      (u.fields udts).map (·.2.2) = ((u.fields udts).map Prod.snd).map Prod.snd := List.map_map.symm
      _ = u.fieldTypes.map (writeType (udtName udts)) := by rw [hsnd, List.map_snd_zip (by simp [h.2])]

theorem TypesStored.readUdt_eq_some {keyspaces : List KeyspaceRecord} {log : UdtLog} {s s' : Schema}
    (hks : KeyspacesStored keyspaces s) (hks' : KeyspacesStored keyspaces s') (h : TypesStored log s)
    (h' : TypesStored log s') {ks p : Nat} {name : String8} (hp : s.readUdt ks name = some p) :
    ∃ p', s'.readUdt ks name = some p' ∧ userType s'.udts p' = userType s.udts p := by
  obtain ⟨k, hk, hfind⟩ := Schema.readUdt_eq_some.mp hp
  obtain ⟨hlive, u, hu, halive, hkeyspace, hname, hudt⟩ := h.bound ks k name p hk hfind
  obtain ⟨i, hi⟩ := List.mem_iff_getElem?.mp hu
  -- the storage at the same place holds the same declaration
  have hdecl : (s'.udtStorage.map UdtStorage.decl)[i]? = some u.decl := by
    rw [h'.decls, ← h.decls, List.getElem?_map, hi, Option.map_some]
  rw [List.getElem?_map] at hdecl
  obtain ⟨u', hi', hdecl⟩ := Option.map_eq_some_iff.mp hdecl
  obtain ⟨halive', hkeyspace', hname'⟩ := UdtStorage.decl_inj hdecl
  rw [halive] at halive'
  obtain ⟨ks', p', hlive', hp', hudt'⟩ := h'.found u' (List.mem_of_getElem? hi') halive'
  rw [hkeyspace', hkeyspace, hks.readKeyspace_eq hks', hlive] at hlive'
  obtain rfl := Option.some.inj hlive'
  rw [hname', hname] at hp'
  -- and the same fields
  have hfields : u'.fields s'.udts = u.fields s.udts :=
    (h'.fields i u' hi' halive').trans (h.fields i u hi halive).symm
  obtain ⟨-, hnames', htypes'⟩ := UdtStorage.map_fields s'.udts (h'.lengths u' (List.mem_of_getElem? hi'))
  obtain ⟨-, hnames, htypes⟩ := UdtStorage.map_fields s.udts (h.lengths u hu)
  have hfieldNames : u'.fieldNames = u.fieldNames := by rw [← hnames', ← hnames, hfields]
  have hwrite : u'.fieldTypes.map (writeType (udtName s'.udts)) = u.fieldTypes.map (writeType (udtName s.udts)) := by
    rw [← htypes', ← htypes, hfields]
  have hfieldTypes : u'.fieldTypes.map (named s'.udts) = u.fieldTypes.map (named s.udts) := by
    refine map_eq_of_forall₂ (forall₂_of_map_eq hwrite fun t' ht' t ht heq => ?_) fun _ _ => id
    refine named_eq_of_writeType_eq hks hks' h h' (h.types u hu halive ks (hkeyspace ▸ hlive) t ht)
      (h'.types u' (List.mem_of_getElem? hi') halive' ks ?_ t' ht') heq
    rw [hkeyspace', hkeyspace, hks.readKeyspace_eq hks', hlive]
  refine ⟨p', hp', ?_⟩
  simp only [userType, hudt, hudt', Option.map_some, UdtStorage.udt, hkeyspace', hname', hfieldNames, hfieldTypes]

theorem TypesStored.readUdt_eq {keyspaces : List KeyspaceRecord} {log : UdtLog} {s s' : Schema}
    (hks : KeyspacesStored keyspaces s) (hks' : KeyspacesStored keyspaces s') (h : TypesStored log s)
    (h' : TypesStored log s') (ks : Nat) (name : String8) :
    (s'.readUdt ks name).map (userType s'.udts) = (s.readUdt ks name).map (userType s.udts) := by
  cases hp : s.readUdt ks name with
  | some p =>
      obtain ⟨p', hp', heq⟩ := readUdt_eq_some hks hks' h h' hp
      rw [hp', Option.map_some, Option.map_some, heq]
  | none =>
      cases hp' : s'.readUdt ks name with
      | none => rfl
      | some p' =>
          obtain ⟨p, hp'', -⟩ := readUdt_eq_some hks' hks h' h hp'
          rw [hp] at hp''
          cases hp''

/-! ### Columns and indexes -/

theorem shape_eq_of_named_eq {udts udts' : List Udt} {t t' : Ty} (h : named udts' t' = named udts t) :
    shape t' = shape t := by
  have hshape (udts : List Udt) (t : Ty) : shape t = (named udts t).rename fun _ => 0 := by
    rw [shape, named, TypeTree.rename_rename]
    rfl
  rw [hshape udts' t', hshape udts t, h]

theorem sameKey_of_sameColumns {udts udts' : List Udt} {cols cols' : List Column}
    (h : List.Forall₂ (SameColumn udts udts') cols cols') : SameKey cols cols' := by
  have hget : ∀ ci : Nat, (cols[ci]? = none ∧ cols'[ci]? = none) ∨
      ∃ col col', cols[ci]? = some col ∧ cols'[ci]? = some col' ∧ SameColumn udts udts' col col' := by
    intro ci
    induction h generalizing ci with
    | nil => exact Or.inl ⟨rfl, rfl⟩
    | cons hcol _ ih =>
        cases ci with
        | zero => exact Or.inr ⟨_, _, rfl, rfl, hcol⟩
        | succ ci => simpa using ih ci
  refine ⟨fun ci => ?_, fun kind _ => ?_, fun ci col hcol => ?_⟩
  · rcases hget ci with ⟨hnone, hnone'⟩ | ⟨col, col', hcol, hcol', hsame⟩
    · rw [hnone, hnone']
    · rw [hcol, hcol', Option.map_some, Option.map_some, hsame.keyPosition]
  · rw [liveColumns_eq, liveColumns_eq, h.length_eq]
    refine List.filter_congr fun ci _ => ?_
    rw [isLiveColumn, isLiveColumn]
    rcases hget ci with ⟨hnone, hnone'⟩ | ⟨col, col', hcol, hcol', hsame⟩
    · rw [hnone, hnone']
    · rw [hcol, hcol', Option.any_some, Option.any_some, hsame.tombstone, hsame.keyKind]
  · rcases hget ci with ⟨hnone, -⟩ | ⟨old, col', hold, hcol', hsame⟩
    · rw [hnone] at hcol
      cases hcol
    · rw [hold] at hcol
      obtain rfl := Option.some.inj hcol
      exact ⟨col', hcol', shape_eq_of_named_eq hsame.type, hsame.clusteringOrder⟩

theorem ColumnsStored.same {keyspaces : List KeyspaceRecord} {log : UdtLog} {records : List ColumnRecord}
    {s s' : Schema} (hks : KeyspacesStored keyspaces s) (hks' : KeyspacesStored keyspaces s')
    (ht : TypesStored log s) (ht' : TypesStored log s') (h : ColumnsStored records s)
    (h' : ColumnsStored records s') {t : Nat} {tbl tbl' : Table} (htbl : s.tables[t]? = some tbl)
    (htbl' : s'.tables[t]? = some tbl') (hidx : tbl'.keyspaceIdx = tbl.keyspaceIdx) :
    List.Forall₂ (SameColumn s.udts s'.udts) tbl.cols tbl'.cols := by
  have hcols := h.stored t
  have hcols' := h'.stored t
  rw [colsAt, htbl] at hcols
  rw [colsAt, htbl', ← hcols] at hcols'
  refine forall₂_of_map_eq hcols'.symm fun col hcol col' hcol' heq => ?_
  simp only [Column.record, ColumnRecord.mk.injEq] at heq
  obtain ⟨htombstone, hstatic, hkind, horder, hposition, -, hname, htype⟩ := heq
  have hres := h.types tbl (List.mem_of_getElem? htbl) col hcol
  have hres' := h'.types tbl' (List.mem_of_getElem? htbl') col' hcol'
  rw [hidx] at hres'
  exact ⟨htombstone.symm, hstatic.symm, hname.symm, named_eq_of_writeType_eq hks hks' ht ht' hres hres' htype.symm,
    hkind.symm, hposition.symm, horder.symm⟩

theorem IndexesStored.same {log : List (IndexRecord × Nat)} {s s' : Schema} (h : IndexesStored log s)
    (h' : IndexesStored log s') {t : Nat} {tbl tbl' : Table} (htbl : s.tables[t]? = some tbl)
    (htbl' : s'.tables[t]? = some tbl') (hcols : SameKey tbl.cols tbl'.cols) :
    List.Forall₂ SameIndex tbl.indexes tbl'.indexes := by
  have hindexes := h.stored t
  have hindexes' := h'.stored t
  rw [indexesAt, htbl] at hindexes
  rw [indexesAt, htbl', ← hindexes] at hindexes'
  refine forall₂_of_map_eq hindexes'.symm fun index hindex index' hindex' heq => ?_
  simp only [Index.record, Prod.mk.injEq, IndexRecord.mk.injEq] at heq
  obtain ⟨⟨htombstone, hkind, -, hcol, hbtree, hname⟩, hidx⟩ := heq
  refine ⟨hidx.symm, htombstone.symm, hname.symm, hcol.symm, hkind.symm, hbtree.symm, fun hlive => ?_⟩
  obtain ⟨specs, hspecs, hkey⟩ := h.keySpecs tbl (List.mem_of_getElem? htbl) index hindex
  obtain ⟨specs', hspecs', hkey'⟩ := h'.keySpecs tbl' (List.mem_of_getElem? htbl') index' hindex'
  rw [← hcol, ← hkind, hcols.makeIndexKeySpecs_eq hspecs] at hspecs'
  rw [hkey hlive, hkey' (htombstone ▸ hlive), Option.some.inj hspecs']

theorem IndexesStored.readIndex_eq {log : List (IndexRecord × Nat)} {s s' : Schema} (h : IndexesStored log s)
    (h' : IndexesStored log s') {tbl tbl' : Table} (htbl : tbl ∈ s.tables) (htbl' : tbl' ∈ s'.tables)
    (hsame : List.Forall₂ SameIndex tbl.indexes tbl'.indexes) (name : String8) :
    Schema.readIndex tbl' name = Schema.readIndex tbl name := by
  -- both maps index the list of tombstones and names
  have hmap : tbl.indexes.map (fun index => (index.tombstone, index.name)) =
      tbl'.indexes.map fun index => (index.tombstone, index.name) :=
    map_eq_of_forall₂ hsame fun _ _ hi => by rw [hi.tombstone, hi.name]
  have hname : NameMap.Indexes tbl.indexesByName (fun e => !e.1) Prod.snd
      (tbl.indexes.map fun index => (index.tombstone, index.name)) :=
    NameMap.Indexes.map.mpr (h.byName tbl htbl)
  have hname' : NameMap.Indexes tbl'.indexesByName (fun e => !e.1) Prod.snd
      (tbl.indexes.map fun index => (index.tombstone, index.name)) := by
    rw [hmap]
    exact NameMap.Indexes.map.mpr (h'.byName tbl' htbl')
  exact hname'.find_eq hname name

/-- Two schemas that are what the blobs store are the same up to where their user types lie. -/
theorem Persisted.rebuilt {blobs : Blobs} {s s' : Schema} (h : Persisted blobs s) (h' : Persisted blobs s') :
    Rebuilt s s' where
  keyspaces := h'.keyspaces.stored.trans h.keyspaces.stored.symm
  tables := by
    have hrecords : s.tables.map Table.record = s'.tables.map Table.record :=
      h.tables.stored.trans h'.tables.stored.symm
    have hlength : s.tables.length = s'.tables.length := by simpa using congrArg List.length hrecords
    refine List.forall₂_iff_get.mpr ⟨hlength, fun t ht ht' => ?_⟩
    have htbl : s.tables[t]? = some (s.tables.get ⟨t, ht⟩) := List.getElem?_eq_getElem ht
    have htbl' : s'.tables[t]? = some (s'.tables.get ⟨t, ht'⟩) := List.getElem?_eq_getElem ht'
    have hrecord : (s'.tables.get ⟨t, ht'⟩).record = (s.tables.get ⟨t, ht⟩).record := by
      have heq : (s.tables.map Table.record)[t]? = (s'.tables.map Table.record)[t]? := by rw [hrecords]
      rw [List.getElem?_map, List.getElem?_map, htbl, htbl'] at heq
      exact (Option.some.inj heq).symm
    have hcols := h.columns.same h.keyspaces h'.keyspaces h.types h'.types h'.columns htbl htbl'
      (congrArg TableRecord.keyspaceIdx hrecord)
    have hindexes := h.indexes.same h'.indexes htbl htbl' (sameKey_of_sameColumns hcols)
    exact ⟨hrecord, hcols, hindexes,
      h.indexes.readIndex_eq h'.indexes (List.mem_of_getElem? htbl) (List.mem_of_getElem? htbl') hindexes⟩
  readKeyspace := h.keyspaces.readKeyspace_eq h'.keyspaces
  readTable := TablesStored.readTable_eq h.keyspaces h'.keyspaces h.tables h'.tables
  readUdt := TypesStored.readUdt_eq h.keyspaces h'.keyspaces h.types h'.types

end Plexdb.Cql.Schema
