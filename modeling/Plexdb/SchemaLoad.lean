import Plexdb.Schema

/-! Loading the schema from its blobs (`load` of `cql/engine/schema.cpp`), and what it means that the
loaded schema is the one that was stored. Every `assert_true` of `load` is a `none`. -/

namespace Plexdb.Cql.Schema

/-! ### Objects and their records -/

def Keyspace.record (k : Keyspace) : KeyspaceRecord := ⟨k.tombstone, k.options, k.name⟩

def Table.record (tbl : Table) : TableRecord :=
  ⟨tbl.tombstone, tbl.keyspaceIdx, tbl.btree, tbl.options, tbl.name⟩

/-- The record of a column of the table at `t`. -/
def Column.record (udts : List Udt) (t : Nat) (col : Column) : ColumnRecord :=
  ⟨col.tombstone, col.isStatic, col.keyKind, col.clusteringOrder, col.keyPosition, t, col.name,
    writeType (udtName udts) col.type⟩

def Index.record (t : Nat) (index : Index) : IndexRecord :=
  ⟨index.tombstone, index.kind, t, index.colIdx, index.btree, index.name⟩

def TableRecord.table (r : TableRecord) : Table :=
  ⟨r.keyspaceIdx, r.tombstone, r.name, [], [], [], r.btreePage, r.options⟩

def ColumnRecord.column (r : ColumnRecord) (type : Ty) : Column :=
  ⟨r.tombstone, r.isStatic, r.name, type, r.keyKind, r.keyPosition, r.clusteringOrder⟩

def IndexRecord.index (r : IndexRecord) (idx : Nat) (keySpecs : List ColumnSpec) : Index :=
  ⟨idx, r.tombstone, r.name, r.colIdx, r.kind, r.btreePage, keySpecs⟩

/-! ### Load -/

/-- `read_type` on the type of a record; the next record begins where it ends. -/
def readStoredType {ρ : Type} (find : String8 → Option ρ) (bytes : Bytes) : Option (TypeTree ρ) :=
  match readType find bytes.length bytes with
  | some (t, []) => some t
  | _ => none

/-- The live tables of a keyspace. -/
def TableRecord.liveIn (ks : Nat) (r : TableRecord) : Bool := r.keyspaceIdx == ks && !r.tombstone

/-- The keyspace at `ks` before its user types are read. -/
def KeyspaceRecord.keyspace (tables : List TableRecord) (r : KeyspaceRecord) (ks : Nat) : Keyspace :=
  ⟨r.tombstone, r.name, r.options, NameMap.indexBy (TableRecord.liveIn ks) (·.name) tables, []⟩

/-- The runtime keyspaces and tables, without columns and user types. -/
def loadTables (blobs : Blobs) : Option Schema :=
  if blobs.tables.all fun r => r.keyspaceIdx < blobs.keyspaces.length then
    some
      { keyspaces := blobs.keyspaces.mapIdx fun ks r => r.keyspace blobs.tables ks
        keyspacesByName := NameMap.indexBy (fun r => !r.tombstone) (·.name) blobs.keyspaces
        tables := blobs.tables.map TableRecord.table
        blobs := blobs }
  else none

/-- One record of the user types, at its offset. The type of a field is resolved even where the field
or its type is dead. -/
def loadUdtRecord (s : Schema) : UdtRecord × Nat → Option Schema
  | (.decl tombstone keyspace name, offset) =>
      let storage := s.udtStorage ++ [⟨offset, tombstone, keyspace, name, [], [], []⟩]
      if tombstone then some { s with udtStorage := storage }
      else do
        let ks ← s.readKeyspace keyspace
        some { s with
          udtStorage := storage
          udts := s.udts ++ [⟨keyspace, name, [], []⟩]
          keyspaces := s.keyspaces.modify ks fun k =>
            { k with udtsByName := k.udtsByName.insert name s.udts.length } }
  | (.field tombstone parent name typeBytes, offset) => do
      let u ← s.udtStorage[parent]?
      let ks ← s.readKeyspace u.keyspace
      let k ← s.keyspaces[ks]?
      let type ← readStoredType k.udtsByName.find typeBytes
      if tombstone || u.tombstone then some s
      else do
        let p ← k.udtsByName.find u.name
        let u := { u with
          fieldRecordOffsets := u.fieldRecordOffsets ++ [offset]
          fieldNames := u.fieldNames ++ [name]
          fieldTypes := u.fieldTypes ++ [type] }
        some { s with
          udtStorage := s.udtStorage.set parent u
          udts := s.udts.modify p fun du =>
            { du with fieldNames := u.fieldNames, fieldTypes := u.fieldTypes } }

/-- One record of a column, its type resolved in the keyspace of its table. -/
def loadColumn (s : Schema) (r : ColumnRecord) : Option Schema := do
  let tbl ← s.tables[r.tableIdx]?
  let k ← s.keyspaces[tbl.keyspaceIdx]?
  let type ← readStoredType k.udtsByName.find r.typeBytes
  some { s with
    tables := s.tables.modify r.tableIdx fun tbl => { tbl with cols := tbl.cols ++ [r.column type] } }

/-- The table with one more index. -/
def Table.pushIndex (tbl : Table) (index : Index) : Table :=
  { tbl with
    indexes := tbl.indexes ++ [index]
    indexesByName :=
      if index.tombstone then tbl.indexesByName else tbl.indexesByName.insert index.name tbl.indexes.length }

/-- One record of an index, at its position in the storage. -/
def loadIndex (s : Schema) (e : IndexRecord × Nat) : Option Schema := do
  let tbl ← s.tables[e.1.tableIdx]?
  let _ ← s.keyspaces[tbl.keyspaceIdx]?
  let keySpecs ← makeIndexKeySpecs tbl.cols e.1.colIdx e.1.kind
  some { s with tables := s.tables.modify e.1.tableIdx (·.pushIndex (e.1.index e.2 keySpecs)) }

def load (blobs : Blobs) : Option Schema := do
  let s ← loadTables blobs
  let s ← blobs.udts.zipIdx.foldlM loadUdtRecord s
  let s ← blobs.columns.foldlM loadColumn s
  blobs.indexes.zipIdx.foldlM loadIndex s

/-! ### The same schema -/

/-- The type with the keyspace and the name of each user type it mentions. -/
def named (udts : List Udt) (t : Ty) : TypeTree (Option (String8 × String8)) :=
  t.rename fun p => udts[p]?.map fun u => (u.keyspace, u.name)

/-- The definition of a user type. -/
def userType (udts : List Udt) (p : Nat) :
    Option (String8 × String8 × List String8 × List (TypeTree (Option (String8 × String8)))) :=
  udts[p]?.map fun u => (u.keyspace, u.name, u.fieldNames, u.fieldTypes.map (named udts))

structure SameColumn (udts udts' : List Udt) (col col' : Column) : Prop where
  tombstone : col'.tombstone = col.tombstone
  isStatic : col'.isStatic = col.isStatic
  name : col'.name = col.name
  type : named udts' col'.type = named udts col.type
  keyKind : col'.keyKind = col.keyKind
  keyPosition : col'.keyPosition = col.keyPosition
  clusteringOrder : col'.clusteringOrder = col.clusteringOrder

/-- The components of its key are compared for a live index only. -/
structure SameIndex (index index' : Index) : Prop where
  idx : index'.idx = index.idx
  tombstone : index'.tombstone = index.tombstone
  name : index'.name = index.name
  colIdx : index'.colIdx = index.colIdx
  kind : index'.kind = index.kind
  btree : index'.btree = index.btree
  keySpecs : index.tombstone = false → index'.keySpecs = index.keySpecs

structure SameTable (udts udts' : List Udt) (tbl tbl' : Table) : Prop where
  record : tbl'.record = tbl.record
  cols : List.Forall₂ (SameColumn udts udts') tbl.cols tbl'.cols
  indexes : List.Forall₂ SameIndex tbl.indexes tbl'.indexes
  readIndex : ∀ name, Schema.readIndex tbl' name = Schema.readIndex tbl name

/-- The same schema, up to where the user types lie in memory. -/
structure Rebuilt (s s' : Schema) : Prop where
  keyspaces : s'.keyspaces.map Keyspace.record = s.keyspaces.map Keyspace.record
  tables : List.Forall₂ (SameTable s.udts s'.udts) s.tables s'.tables
  readKeyspace : ∀ name, s'.readKeyspace name = s.readKeyspace name
  readTable : ∀ ks name, s'.readTable ks name = s.readTable ks name
  readUdt : ∀ ks name, (s'.readUdt ks name).map (userType s'.udts) = (s.readUdt ks name).map (userType s.udts)

end Plexdb.Cql.Schema
