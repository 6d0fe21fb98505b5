import Plexdb.ListUpdates
import Plexdb.NameMap
import Plexdb.SchemaTypes

/-! The schema: what `cql/engine/schema.cpp` keeps in memory and in its five blobs, and the DDL
operations on both. A blob is the list of its records and an offset the position of a record; the
storage arrays of keyspaces, tables, columns and indexes repeat these lists and are not kept apart.
A table stands at its storage index, with the index of its keyspace, and the arrays that
`rebuild_table_indices` derives from the columns are functions of them. `none` is a failed
assertion, or a recursion that does not return. -/

namespace Plexdb.Cql.Schema

/-! ### Errors -/

inductive Error where
  | invalidOptions | syntaxOptions | missingKeyspace | missingPrimaryKey | columnNameCollision
  | missingTable | missingColumn | missingIndex | missingType | typeInUse
  deriving DecidableEq

structure Failure where
  error : Error
  message : Bytes := []

abbrev Result (α : Type) := Except Failure α

/-! ### Objects -/

inductive KeyKind where
  | none | partitionKey | clusteringKey
  deriving DecidableEq

inductive IndexKind where
  | values | keys | entries | full
  deriving DecidableEq

inductive ReplicationClass where
  | unknown | simpleStrategy | networkTopologyStrategy
  deriving DecidableEq

inductive SortOrder where
  | asc | desc
  deriving DecidableEq

/-- `ClusteringColumnSpec`; no type is the sentinel `Basic::COUNT`. -/
structure ColumnSpec where
  dtype : Option Basic
  order : SortOrder
  deriving DecidableEq

structure TableOptions where
  defaultTtlMs : BitVec 64 := 0
  gcGraceSeconds : BitVec 32 := 864000
  minIndexInterval : BitVec 32 := 128
  maxIndexInterval : BitVec 32 := 2048
  memtableFlushPeriodInMs : BitVec 32 := 0
  deriving DecidableEq

structure KeyspaceOptions where
  replicationClass : ReplicationClass := .simpleStrategy
  replicationFactor : UInt64 := 1
  doDurableWrites : Bool := true
  deriving DecidableEq

structure Column where
  tombstone : Bool
  isStatic : Bool
  name : String8
  type : Ty
  keyKind : KeyKind
  keyPosition : UInt16
  clusteringOrder : SortOrder

structure Index where
  idx : Nat
  tombstone : Bool
  name : String8
  colIdx : Nat
  kind : IndexKind
  btree : UInt64
  keySpecs : List ColumnSpec

structure Table where
  keyspaceIdx : Nat
  tombstone : Bool
  name : String8
  cols : List Column
  indexes : List Index
  indexesByName : NameMap String8 Nat
  btree : UInt64
  options : TableOptions

structure Keyspace where
  tombstone : Bool
  name : String8
  options : KeyspaceOptions
  tblsByName : NameMap String8 Nat
  udtsByName : NameMap String8 Nat

structure UdtStorage where
  offsetInBlob : Nat
  tombstone : Bool
  keyspace : String8
  name : String8
  fieldNames : List String8
  fieldTypes : List Ty
  fieldRecordOffsets : List Nat

/-! ### Records -/

structure KeyspaceRecord where
  tombstone : Bool
  options : KeyspaceOptions
  name : String8

structure TableRecord where
  tombstone : Bool
  keyspaceIdx : Nat
  btreePage : UInt64
  options : TableOptions
  name : String8

structure ColumnRecord where
  tombstone : Bool
  isStatic : Bool
  keyKind : KeyKind
  clusteringOrder : SortOrder
  keyPosition : UInt16
  tableIdx : Nat
  name : String8
  typeBytes : Bytes

structure IndexRecord where
  tombstone : Bool
  kind : IndexKind
  tableIdx : Nat
  colIdx : Nat
  btreePage : UInt64
  name : String8

inductive UdtRecord where
  | decl (tombstone : Bool) (keyspace name : String8)
  | field (tombstone : Bool) (parent : Nat) (name : String8) (typeBytes : Bytes)

structure Blobs where
  keyspaces : List KeyspaceRecord := []
  tables : List TableRecord := []
  columns : List ColumnRecord := []
  udts : List UdtRecord := []
  indexes : List IndexRecord := []

end Schema

structure Schema where
  keyspaces : List Schema.Keyspace := []
  keyspacesByName : NameMap String8 Nat := []
  tables : List Schema.Table := []
  udts : List Schema.Udt := []
  udtStorage : List Schema.UdtStorage := []
  blobs : Schema.Blobs := {}
  version : UInt64 := 0

namespace Schema

/-! ### Indices over the columns of a table -/

/-- The order of `small_sort` by key position. -/
def sortByKeyPosition (cols : List Column) (cis : List Nat) : List Nat :=
  let position (ci : Nat) : Nat := (cols[ci]?.map (·.keyPosition.toNat)).getD 0
  cis.insertionSort fun a b => position a ≤ position b

/-- The live columns of a kind, in the order of their positions in the table. -/
def liveColumns (cols : List Column) (kind : KeyKind) : List Nat :=
  (List.range cols.length).filter fun ci =>
    match cols[ci]? with
    | some col => !col.tombstone && col.keyKind == kind
    | none => false

def partitionKeyColIndices (cols : List Column) : List Nat :=
  sortByKeyPosition cols (liveColumns cols .partitionKey)

def clusteringKeyColIndices (cols : List Column) : List Nat :=
  sortByKeyPosition cols (liveColumns cols .clusteringKey)

def Ty.basic? : TypeTree Nat → Option Basic
  | .basic b => some b
  | _ => none

def clusteringKeySpecs (cols : List Column) : List ColumnSpec :=
  (clusteringKeyColIndices cols).filterMap fun ci =>
    cols[ci]?.map fun col => ⟨Ty.basic? col.type, col.clusteringOrder⟩

def colsByName (cols : List Column) : NameMap String8 Nat :=
  cols.zipIdx.foldl (fun m (col, ci) => if col.tombstone then m else m.insert col.name ci) []

/-- `find_column` and `read_column`. -/
def findColumn (cols : List Column) (name : String8) : Option Nat := (colsByName cols).find name

/-- The components of an index key that hold the indexed value. -/
def indexedValueSpecs (kind : IndexKind) : Ty → Option (List Basic)
  | .basic b => some [b]
  | .list e _ => do
      let e ← Ty.basic? e
      some [e]
  | .set k _ => do
      let k ← Ty.basic? k
      some [k]
  | .vector e _ _ => do
      let e ← Ty.basic? e
      some [e]
  | .map k v _ =>
      match kind with
      | .values => do
          let v ← Ty.basic? v
          some [v]
      | .keys => do
          let k ← Ty.basic? k
          some [k]
      | .entries => do
          let k ← Ty.basic? k
          let v ← Ty.basic? v
          some [k, v]
      | .full => none
  | .tuple _ _ => none
  | .udt _ => none

def ascSpec (b : Basic) : ColumnSpec := ⟨some b, .asc⟩

def makeIndexKeySpecs (cols : List Column) (colIdx : Nat) (kind : IndexKind) :
    Option (List ColumnSpec) := do
  let col ← cols[colIdx]?
  let value ← indexedValueSpecs kind col.type
  let pk ← (partitionKeyColIndices cols).mapM fun ci => do
    let col ← cols[ci]?
    Ty.basic? col.type
  some (value.map ascSpec ++ ascSpec .bigint :: pk.map ascSpec ++ clusteringKeySpecs cols)

/-! ### Look-ups -/

def bumpVersion (s : Schema) : Schema := { s with version := s.version + 1 }

def readKeyspace (s : Schema) (name : String8) : Option Nat := s.keyspacesByName.find name

def readTable (s : Schema) (ks : Nat) (name : String8) : Option Nat := do
  let k ← s.keyspaces[ks]?
  k.tblsByName.find name

def readUdt (s : Schema) (ks : Nat) (name : String8) : Option Nat := do
  let k ← s.keyspaces[ks]?
  k.udtsByName.find name

def readIndex (tbl : Table) (name : String8) : Option Nat := tbl.indexesByName.find name

/-- The name behind a `UDT*`. -/
def udtName (udts : List Udt) (p : Nat) : String8 := (udts[p]?.map Udt.name).getD ⟨[], by decide⟩

def findUdtRef (s : Schema) (defaultKs : String8) (r : UdtRef) : Result Nat :=
  let ksName := if r.keyspace.val.length > 0 then r.keyspace else defaultKs
  if ksName.val.length = 0 then .error ⟨.missingKeyspace, ascii "no keyspace for UDT reference"⟩
  else
    match s.readKeyspace ksName with
    | none => .error ⟨.missingKeyspace, ascii "UDT references unknown keyspace"⟩
    | some ks =>
        match s.readUdt ks r.name with
        | none => .error ⟨.missingType, ascii "user-defined type does not exist"⟩
        | some p => .ok p

def resolveTypeAst (s : Schema) (defaultKs : String8) (ast : Ast) : Result Ty :=
  ast.val.resolve (s.findUdtRef defaultKs)

/-! ### Keyspaces -/

structure CreateKeyspace where
  ifNotExists : Bool
  name : String8
  options : Result KeyspaceOptions

def createKeyspace (s : Schema) (create : CreateKeyspace) : Option (Result Nat × Schema) :=
  let s := s.bumpVersion
  if (s.readKeyspace create.name).isSome then none
  else
    match create.options with
    | .error e => some (.error e, s)
    | .ok popts =>
        some (.ok s.keyspaces.length,
          { s with
            blobs := { s.blobs with keyspaces := s.blobs.keyspaces ++ [⟨false, popts, create.name⟩] }
            keyspaces := s.keyspaces ++ [⟨false, create.name, popts, [], []⟩]
            keyspacesByName := s.keyspacesByName.insert create.name s.keyspaces.length })

def deleteKeyspace (s : Schema) (name : String8) : Result Unit × Schema :=
  let s := s.bumpVersion
  match s.readKeyspace name with
  | none => (.error ⟨.missingKeyspace, []⟩, s)
  | some ks =>
      (.ok (),
        { s with
          keyspaces := s.keyspaces.modify ks fun k => { k with tombstone := true }
          keyspacesByName := s.keyspacesByName.remove name
          blobs := { s.blobs with
            keyspaces := s.blobs.keyspaces.modify ks fun r => { r with tombstone := true } } })

/-! ### Columns -/

/-- What `create_column` is given. -/
structure ColumnSpecification where
  name : String8
  type : Ty
  isStatic : Bool := false
  keyKind : KeyKind := .none
  keyPosition : UInt16 := 0
  clusteringOrder : SortOrder := .asc

def ColumnSpecification.column (c : ColumnSpecification) : Column :=
  ⟨false, c.isStatic, c.name, c.type, c.keyKind, c.keyPosition, c.clusteringOrder⟩

def ColumnSpecification.record (c : ColumnSpecification) (udts : List Udt) (t : Nat) : ColumnRecord :=
  ⟨false, c.isStatic, c.keyKind, c.clusteringOrder, c.keyPosition, t, c.name,
    writeType (udtName udts) c.type⟩

def createColumn (s : Schema) (t : Nat) (c : ColumnSpecification) : Option Schema := do
  let s := s.bumpVersion
  let tbl ← s.tables[t]?
  if (findColumn tbl.cols c.name).isSome then none
  else
    some { s with
      blobs := { s.blobs with columns := s.blobs.columns ++ [c.record s.udts t] }
      tables := s.tables.modify t fun tbl => { tbl with cols := tbl.cols ++ [c.column] } }

def deleteColumn (s : Schema) (t : Nat) (name : String8) : Option (Result Unit × Schema) := do
  let s := s.bumpVersion
  let tbl ← s.tables[t]?
  match findColumn tbl.cols name with
  | none => some (.error ⟨.missingColumn, []⟩, s)
  | some ci =>
      some (.ok (),
        { s with
          tables := s.tables.modify t fun tbl =>
            { tbl with cols := tbl.cols.modify ci fun col => { col with tombstone := true } }
          blobs := { s.blobs with
            columns := modifyFirst (fun r => !r.tombstone && r.tableIdx == t && r.name == name)
              (fun r => { r with tombstone := true }) s.blobs.columns } })

/-! ### Tables -/

structure ColumnDefinition where
  name : String8
  type : Ast
  isStatic : Bool
  mask : Bool
  primaryKey : Bool

structure PrimaryKey where
  partitionKey : List String8
  clusteringColumns : List String8

/-- What the options read from a value: `s32_from_option_value` and `s64_seconds_from_option_value`. -/
structure OptionPair where
  key : String8
  s32 : Option (BitVec 32)
  s64 : Option (BitVec 64)

inductive TableOption where
  | compactStorage
  | clusteringOrder (columnOrders : List (String8 × SortOrder))
  | pair (o : OptionPair)

structure TableName where
  keyspaceName : Option String8
  tableName : String8

structure CreateTable where
  ifNotExists : Bool
  name : TableName
  columnDefinitions : List ColumnDefinition
  primaryKey : Option PrimaryKey
  options : List TableOption

def astIsCounter : TypeTree UdtRef → Bool
  | .basic b => b = .counter
  | _ => false

mutual

def astContainsCounter : TypeTree UdtRef → Bool
  | .basic b => b = .counter
  | .list e _ => astContainsCounter e
  | .set k _ => astContainsCounter k
  | .map k v _ => astContainsCounter k || astContainsCounter v
  | .vector e _ _ => astContainsCounter e
  | .tuple es _ => anyContainsCounter es
  | .udt _ => false

def anyContainsCounter : List (TypeTree UdtRef) → Bool
  | [] => false
  | t :: ts => astContainsCounter t || anyContainsCounter ts

end

structure PrimaryKeyInfo where
  partitionColDefIndices : List Nat
  clusteringColDefIndices : List Nat

def getPrimaryKeyInfo (create : CreateTable) : Option PrimaryKeyInfo :=
  match create.columnDefinitions.findIdx? (·.primaryKey) with
  | some i => some ⟨[i], []⟩
  | none =>
      let find (name : String8) : Option Nat := create.columnDefinitions.findIdx? (·.name = name)
      match create.primaryKey with
      | none => none
      | some pk =>
          let partition := pk.partitionKey.filterMap find
          if partition.length = 0 then none else some ⟨partition, pk.clusteringColumns.filterMap find⟩

/-- The directions that one `CLUSTERING ORDER BY` gives the clustering columns from the `i`-th on;
`none` when it does not list a prefix of them. -/
def clusteringOrders (defs : List ColumnDefinition) (clustering : List Nat) :
    Nat → List (String8 × SortOrder) → List SortOrder → Option (List SortOrder)
  | _, [], orders => some orders
  | i, o :: os, orders =>
      match clustering[i]? with
      | none => none
      | some ci =>
          match defs[ci]? with
          | none => none
          | some d =>
              if d.name = o.1 then clusteringOrders defs clustering (i + 1) os (orders.set i o.2)
              else none

def tableOrders (defs : List ColumnDefinition) (clustering : List Nat) :
    List TableOption → List SortOrder → Option (List SortOrder)
  | [], orders => some orders
  | .clusteringOrder os :: options, orders =>
      match clusteringOrders defs clustering 0 os orders with
      | none => none
      | some orders => tableOrders defs clustering options orders
  | _ :: options, orders => tableOrders defs clustering options orders

def isObsoleteTableOption (key : String8) : Bool :=
  literalEq "default_validation" key || literalEq "key_validation" key || literalEq "row_cache_size" key
    || literalEq "key_cache_size" key || literalEq "index_interval" key
    || literalEq "replicate_on_write" key

/-- What one option sets; a value that cannot be read leaves the option as it is. -/
def setTableOption (out : TableOptions) (o : OptionPair) : TableOptions :=
  if literalEq "default_time_to_live" o.key then
    { out with defaultTtlMs := (o.s64.map (· * 1000)).getD out.defaultTtlMs }
  else if literalEq "gc_grace_seconds" o.key then
    { out with gcGraceSeconds := o.s32.getD out.gcGraceSeconds }
  else if literalEq "min_index_interval" o.key then
    { out with minIndexInterval := o.s32.getD out.minIndexInterval }
  else if literalEq "max_index_interval" o.key then
    { out with maxIndexInterval := o.s32.getD out.maxIndexInterval }
  else if literalEq "memtable_flush_period_in_ms" o.key then
    { out with memtableFlushPeriodInMs := o.s32.getD out.memtableFlushPeriodInMs }
  else out

def parseTableOptions : List TableOption → TableOptions → Result TableOptions
  | [], out => .ok out
  | .pair o :: options, out =>
      if isObsoleteTableOption o.key then .error ⟨.invalidOptions, ascii "Unknown property"⟩
      else parseTableOptions options (setTableOption out o)
  | _ :: options, out => parseTableOptions options out

def deleteTable (s : Schema) (ks : Nat) (name : String8) : Result Unit × Schema :=
  let s := s.bumpVersion
  match s.readTable ks name with
  | none => (.error ⟨.missingTable, []⟩, s)
  | some t =>
      (.ok (),
        { s with
          tables := s.tables.modify t fun tbl => { tbl with tombstone := true }
          keyspaces := s.keyspaces.modify ks fun k => { k with tblsByName := k.tblsByName.remove name }
          blobs := { s.blobs with
            tables := s.blobs.tables.modify t fun r => { r with tombstone := true } } })

def setTableOptions (s : Schema) (t : Nat) (options : TableOptions) : Schema :=
  { s.bumpVersion with
    tables := s.tables.modify t fun tbl => { tbl with options := options }
    blobs := { s.blobs with tables := s.blobs.tables.modify t fun r => { r with options := options } } }

/-- The checks of `create_table` on the statement itself. -/
def checkCreateTable (create : CreateTable) : Result (PrimaryKeyInfo × List SortOrder × TableOptions) :=
  let inlinePkCount := create.columnDefinitions.countP (·.primaryKey)
  if inlinePkCount > 1 ∨ (inlinePkCount = 1 ∧ create.primaryKey.isSome) then
    .error ⟨.invalidOptions, ascii "Multiple PRIMARY KEYs specified"⟩
  else
    match getPrimaryKeyInfo create with
    | none => .error ⟨.missingPrimaryKey, ascii "table needs a primary key"⟩
    | some info =>
        let isCounter (i : Nat) : Bool :=
          (create.columnDefinitions[i]?.map fun d => astIsCounter d.type.val).getD false
        let isPkDef (i : Nat) : Bool :=
          info.partitionColDefIndices.contains i || info.clusteringColDefIndices.contains i
        let valueDefs := (List.range create.columnDefinitions.length).filter fun i => !isPkDef i
        if (info.partitionColDefIndices ++ info.clusteringColDefIndices).any isCounter then
          .error ⟨.invalidOptions, ascii "counter type is not supported for PRIMARY KEY"⟩
        else if create.columnDefinitions.any fun d =>
            !astIsCounter d.type.val && astContainsCounter d.type.val then
          .error ⟨.invalidOptions, ascii "counter type is not allowed inside collections"⟩
        else if valueDefs.any isCounter && valueDefs.any fun i => !isCounter i then
          .error ⟨.invalidOptions, ascii "Cannot mix counter and non counter columns in the same table"⟩
        else
          match tableOrders create.columnDefinitions info.clusteringColDefIndices create.options
              (info.clusteringColDefIndices.map fun _ => .asc) with
          | none =>
              .error ⟨.invalidOptions, ascii "CLUSTERING ORDER BY must list a sequential prefix of the table's clustering columns"⟩
          | some orders =>
              match parseTableOptions create.options {} with
              | .error e => .error e
              | .ok options => .ok (info, orders, options)

/-- Appends an empty table to a keyspace. -/
def pushTable (s : Schema) (ks : Nat) (name : String8) (options : TableOptions) (btreePage : UInt64) :
    Schema :=
  { s with
    blobs := { s.blobs with tables := s.blobs.tables ++ [⟨false, ks, btreePage, options, name⟩] }
    tables := s.tables ++ [⟨ks, false, name, [], [], [], btreePage, options⟩]
    keyspaces := s.keyspaces.modify ks fun k =>
      { k with tblsByName := k.tblsByName.insert name s.tables.length } }

/-- Kind, position and direction of the `ci`-th column definition. -/
def keyOf (info : PrimaryKeyInfo) (orders : List SortOrder) (ci : Nat) : KeyKind × UInt16 × SortOrder :=
  match info.partitionColDefIndices.idxOf? ci with
  | some i => (.partitionKey, UInt16.ofNat i, .asc)
  | none =>
      match info.clusteringColDefIndices.idxOf? ci with
      | some i => (.clusteringKey, UInt16.ofNat i, orders.getD i .asc)
      | none => (.none, 0, .asc)

/-- What `create_table` makes of the `ci`-th column definition. -/
def columnOf (s : Schema) (ksName : String8) (cols : List Column) (info : PrimaryKeyInfo)
    (orders : List SortOrder) (ci : Nat) (d : ColumnDefinition) : Option (Result ColumnSpecification) :=
  if (findColumn cols d.name).isSome then some (.error ⟨.columnNameCollision, []⟩)
  else
    match s.resolveTypeAst ksName d.type with
    | .error e => some (.error e)
    | .ok type =>
        let (keyKind, keyPosition, order) := keyOf info orders ci
        -- column MASKED WITH is not implemented
        if d.mask then none
        else if d.isStatic && info.clusteringColDefIndices.isEmpty then
          some (.error ⟨.invalidOptions, ascii "static columns require at least one clustering column"⟩)
        else if d.isStatic && keyKind != .none then
          some (.error ⟨.invalidOptions, ascii "primary key columns cannot be static"⟩)
        else some (.ok ⟨d.name, type, d.isStatic, keyKind, keyPosition, order⟩)

/-- Creates the columns of the new table one by one; the first that fails drops the table. -/
def createColumns (ks t : Nat) (ksName tableName : String8) (info : PrimaryKeyInfo)
    (orders : List SortOrder) : Nat → List ColumnDefinition → Schema → Option (Result Nat × Schema)
  | _, [], s => some (.ok t, s)
  | ci, d :: ds, s => do
      let tbl ← s.tables[t]?
      let c ← s.columnOf ksName tbl.cols info orders ci d
      match c with
      | .error e => some (.error e, (s.deleteTable ks tableName).2)
      | .ok c => do
          let s ← s.createColumn t c
          createColumns ks t ksName tableName info orders (ci + 1) ds s

def createTable (s : Schema) (ks : Nat) (create : CreateTable) (btreePage : UInt64) :
    Option (Result Nat × Schema) := do
  let s := s.bumpVersion
  let k ← s.keyspaces[ks]?
  if (s.readTable ks create.name.tableName).isSome then none
  else
    match checkCreateTable create with
    | .error e => some (.error e, s)
    | .ok (info, orders, options) =>
        createColumns ks s.tables.length k.name create.name.tableName info orders 0
          create.columnDefinitions (s.pushTable ks create.name.tableName options btreePage)

/-! ### Indexes -/

def createIndex (s : Schema) (t colIdx : Nat) (name : String8) (kind : IndexKind) (btreePage : UInt64) :
    Option Schema := do
  let s := s.bumpVersion
  let tbl ← s.tables[t]?
  let keySpecs ← makeIndexKeySpecs tbl.cols colIdx kind
  some { s with
    blobs := { s.blobs with indexes := s.blobs.indexes ++ [⟨false, kind, t, colIdx, btreePage, name⟩] }
    tables := s.tables.modify t fun tbl =>
      { tbl with
        indexes := tbl.indexes ++ [⟨s.blobs.indexes.length, false, name, colIdx, kind, btreePage, keySpecs⟩]
        indexesByName := tbl.indexesByName.insert name tbl.indexes.length } }

def deleteIndex (s : Schema) (t : Nat) (name : String8) : Option (Result Unit × Schema) := do
  let s := s.bumpVersion
  let tbl ← s.tables[t]?
  match readIndex tbl name with
  | none => some (.error ⟨.missingIndex, []⟩, s)
  | some i => do
      let index ← tbl.indexes[i]?
      some (.ok (),
        { s with
          tables := s.tables.modify t fun tbl =>
            { tbl with
              indexes := tbl.indexes.modify i fun index => { index with tombstone := true }
              indexesByName := tbl.indexesByName.remove name }
          blobs := { s.blobs with
            indexes := s.blobs.indexes.modify index.idx fun r => { r with tombstone := true } } })

/-! ### User types -/

def findUdtStorageIdx (s : Schema) (ksName name : String8) : Option Nat :=
  s.udtStorage.findIdx? fun u => !u.tombstone && u.keyspace = ksName && u.name = name

def UdtRecord.dead : UdtRecord → UdtRecord
  | .decl _ keyspace name => .decl true keyspace name
  | .field _ parent name typeBytes => .field true parent name typeBytes

def tombstoneRecord (s : Schema) (offset : Nat) : Schema :=
  { s with blobs := { s.blobs with udts := s.blobs.udts.modify offset UdtRecord.dead } }

/-- `append_udt_field_record`: the new record's offset is where the blob ended. -/
def appendUdtFieldRecord (s : Schema) (parent : Nat) (name : String8) (type : Ty) : Nat × Schema :=
  (s.blobs.udts.length,
    { s with blobs := { s.blobs with
        udts := s.blobs.udts ++ [.field false parent name (writeType (udtName s.udts) type)] } })

/-- `rebind_udt_views`. -/
def rebindUdtViews (s : Schema) (storage p : Nat) : Schema :=
  match s.udtStorage[storage]? with
  | none => s
  | some u => { s with
      udts := s.udts.modify p fun _ => ⟨u.keyspace, u.name, u.fieldNames, u.fieldTypes⟩ }

/-- Appends one field: its record, then the entries of the storage. -/
def pushUdtField (s : Schema) (storage : Nat) (name : String8) (type : Ty) : Schema :=
  let (offset, s) := s.appendUdtFieldRecord storage name type
  { s with
    udtStorage := s.udtStorage.modify storage fun u =>
      { u with
        fieldRecordOffsets := u.fieldRecordOffsets ++ [offset]
        fieldNames := u.fieldNames ++ [name]
        fieldTypes := u.fieldTypes ++ [type] } }

/-- Appends a user type without fields to a keyspace. -/
def pushUdt (s : Schema) (ks : Nat) (ksName name : String8) : Schema :=
  { s with
    udtStorage := s.udtStorage ++ [⟨s.blobs.udts.length, false, ksName, name, [], [], []⟩]
    blobs := { s.blobs with udts := s.blobs.udts ++ [.decl false ksName name] }
    udts := s.udts ++ [⟨ksName, name, [], []⟩]
    keyspaces := s.keyspaces.modify ks fun k =>
      { k with udtsByName := k.udtsByName.insert name s.udts.length } }

def createUdt (s : Schema) (ks : Nat) (name : String8) (fields : List (String8 × Ty)) :
    Option (Result Nat × Schema) := do
  let s := s.bumpVersion
  let k ← s.keyspaces[ks]?
  if (s.readUdt ks name).isSome then some (.error ⟨.invalidOptions, ascii "type already exists"⟩, s)
  else if fields.isEmpty then
    some (.error ⟨.invalidOptions, ascii "user-defined type must have at least one field"⟩, s)
  else
    let storage := s.udtStorage.length
    let p := s.udts.length
    let filled := fields.foldl (fun s f => s.pushUdtField storage f.1 f.2) (s.pushUdt ks k.name name)
    some (.ok p, filled.rebindUdtViews storage p)

/-- The live key columns of the live tables of a keyspace. -/
def keyColumns (s : Schema) (ks : Nat) : List Column :=
  s.tables.flatMap fun tbl =>
    if tbl.keyspaceIdx = ks ∧ !tbl.tombstone then
      tbl.cols.filter fun col => !col.tombstone && col.keyKind != .none
    else []

def missingUdt : Failure := ⟨.missingType, ascii "user-defined type does not exist"⟩

def alterUdtAddField (s : Schema) (ks : Nat) (name fieldName : String8) (fieldType : Ty) :
    Option (Result Unit × Schema) := do
  let s := s.bumpVersion
  let k ← s.keyspaces[ks]?
  match s.readUdt ks name with
  | none => some (.error missingUdt, s)
  | some p => do
      let used ← anyOf (fun col => typeReferencesUdt s.udts col.type p) (s.keyColumns ks)
      if used then
        some (.error ⟨.invalidOptions, ascii "Cannot add new field to a user type used in a primary key"⟩, s)
      else do
        let storage ← s.findUdtStorageIdx k.name name
        some (.ok (), (s.pushUdtField storage fieldName fieldType).rebindUdtViews storage p)

/-- The new name of a field under the renames of a statement. -/
def renamed (renames : List (String8 × String8)) (name : String8) : String8 :=
  ((renames.find? (·.1 = name)).map (·.2)).getD name

/-- Appends fresh records for fields that the storage already holds. -/
def reappendFields (storage : Nat) : List (String8 × Ty) → Schema → Schema
  | [], s => s
  | (name, type) :: fields, s =>
      let (offset, s) := s.appendUdtFieldRecord storage name type
      reappendFields storage fields
        { s with
          udtStorage := s.udtStorage.modify storage fun u =>
            { u with fieldRecordOffsets := u.fieldRecordOffsets ++ [offset] } }

def alterUdtRenameFields (s : Schema) (ks : Nat) (name : String8) (renames : List (String8 × String8)) :
    Option (Result Unit × Schema) := do
  let s := s.bumpVersion
  let k ← s.keyspaces[ks]?
  match s.readUdt ks name with
  | none => some (.error missingUdt, s)
  | some p => do
      let storage ← s.findUdtStorageIdx k.name name
      let u ← s.udtStorage[storage]?
      let fieldNames := u.fieldNames.map (renamed renames)
      let s := u.fieldRecordOffsets.foldl tombstoneRecord s
      let s := { s with
        udtStorage := s.udtStorage.modify storage fun u =>
          { u with fieldNames := fieldNames, fieldRecordOffsets := [] } }
      let s := reappendFields storage (fieldNames.zip u.fieldTypes) s
      some (.ok (), s.rebindUdtViews storage p)

/-- The live columns of the live tables of a keyspace. -/
def allColumns (s : Schema) (ks : Nat) : List Column :=
  s.tables.flatMap fun tbl =>
    if tbl.keyspaceIdx = ks ∧ !tbl.tombstone then tbl.cols.filter fun col => !col.tombstone else []

/-- Whether `find_udt_dependents` lists anything: it tries every column and every other type, so
that one search that does not return is enough for it not to return. -/
def hasUdtDependents (s : Schema) (ks : Nat) (name : String8) : Option Bool := do
  let k ← s.keyspaces[ks]?
  match k.udtsByName.find name with
  | none => some false
  | some target => do
      let cols ← (s.allColumns ks).mapM fun col => typeReferencesUdt s.udts col.type target
      let udts ← (k.udtsByName.filter (·.2 ≠ target)).mapM fun e =>
        anyOf (fun t => typeReferencesUdt s.udts t target) (fieldTypesAt s.udts e.2)
      some (cols.any id || udts.any id)

def deleteUdt (s : Schema) (ks : Nat) (name : String8) : Option (Result Unit × Schema) := do
  let s := s.bumpVersion
  let k ← s.keyspaces[ks]?
  match s.readUdt ks name with
  | none => some (.error missingUdt, s)
  | some _ => do
      let used ← s.hasUdtDependents ks name
      if used then some (.error ⟨.typeInUse, ascii "Cannot drop user type currently in use"⟩, s)
      else do
        let storage ← s.findUdtStorageIdx k.name name
        let u ← s.udtStorage[storage]?
        let s := (u.offsetInBlob :: u.fieldRecordOffsets).foldl tombstoneRecord s
        some (.ok (),
          { s with
            udtStorage := s.udtStorage.modify storage fun u => { u with tombstone := true }
            keyspaces := s.keyspaces.modify ks fun k =>
              { k with udtsByName := k.udtsByName.remove name } })

end Schema

end Plexdb.Cql
