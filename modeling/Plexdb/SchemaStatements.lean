import Plexdb.Schema

/-! The DDL statements as `execute_inside_transaction` of `cql/engine/engine.cpp` runs them: what
they check, in which order, and which operations of the schema they apply before an error ends
them. Filling a new index from the rows of its table is left out, since it writes no schema. -/

namespace Plexdb.Cql.Schema

/-! ### Results -/

inductive ExecutionStatus where
  | success | serverError | syntaxError | unauthorized | invalid | configError | alreadyExists
  deriving DecidableEq

inductive ResultKind where
  | void | rows | virtualRows | schemaChange | useKeyspace
  deriving DecidableEq

structure ExecutionResult where
  status : ExecutionStatus := .success
  kind : ResultKind := .void
  message : Bytes := []
  keyspace : Bytes := []
  table : Bytes := []

def createVoidSuccess : ExecutionResult := {}

def createInvalid (message : Bytes) : ExecutionResult := { status := .invalid, message := message }

def createServerError (message : Bytes) : ExecutionResult := { status := .serverError, message := message }

def createSystemKeyspaceInvalid : ExecutionResult := createInvalid (ascii "system keyspaces cannot be modified")

def createKeyspaceAlreadyExists (ks : String8) : ExecutionResult :=
  { status := .alreadyExists, message := ascii "Keyspace already exists", keyspace := ks.val }

def createKeyspaceNotFound (ks : String8) : ExecutionResult :=
  { status := .invalid, keyspace := ks.val,
    message := ascii "Keyspace '" ++ ks.val ++ ascii "' does not exist" }

def createNoKeyspaceSpecified : ExecutionResult :=
  createInvalid (ascii "No keyspace has been specified. USE a keyspace, or explicitly specify keyspace.tablename")

def createTableAlreadyExists (ks tbl : String8) : ExecutionResult :=
  { status := .alreadyExists, message := ascii "Table already exists", keyspace := ks.val, table := tbl.val }

def createTableNotFound (ks tbl : String8) : ExecutionResult :=
  { status := .invalid, keyspace := ks.val, table := tbl.val,
    message := ascii "Table '" ++ ks.val ++ ascii "." ++ tbl.val ++ ascii "' does not exist" }

def createSchemaChanged (ks : String8) (tbl : Bytes := []) : ExecutionResult :=
  { kind := .schemaChange, keyspace := ks.val, table := tbl }

def createCreated (ks : String8) (tbl : Bytes := []) : ExecutionResult :=
  { kind := .schemaChange, message := ascii "CREATED", keyspace := ks.val, table := tbl }

/-- `Type ks.name` and what is wrong with it. -/
def createTypeResult (status : ExecutionStatus) (ks name : String8) (what : Bytes) : ExecutionResult :=
  { status := status, keyspace := ks.val,
    message := ascii "Type " ++ ks.val ++ ascii "." ++ name.val ++ what }

/-- The answer to a failure of the schema under a keyspace. -/
def createFailure (ks : String8) (e : Failure) : ExecutionResult :=
  { status := .invalid, keyspace := ks.val, message := e.message }

/-! ### Keyspaces of statements -/

/-- A literal equals each of its prefixes here, so every prefix of these names is a system keyspace. -/
def isSystemKeyspace (ks : String8) : Bool :=
  literalEq "system" ks || literalEq "system_schema" ks || literalEq "system_virtual_schema" ks
    || literalEq "system_auth" ks || literalEq "system_distributed" ks || literalEq "system_traces" ks

def resolveKsName (stmtKsName : Option String8) (currentKeyspace : String8) : String8 :=
  stmtKsName.getD currentKeyspace

structure KsError where
  result : ExecutionResult
  notFound : Bool

def resolveKs (s : Schema) (ksName : String8) : Except KsError Nat :=
  if ksName.val.length = 0 then .error ⟨createNoKeyspaceSpecified, false⟩
  else if isSystemKeyspace ksName then .error ⟨createSystemKeyspaceInvalid, false⟩
  else
    match s.readKeyspace ksName with
    | none => .error ⟨createKeyspaceNotFound ksName, true⟩
    | some ks => .ok ks

/-- What `IF EXISTS` makes of a keyspace that does not resolve. -/
def KsError.answer (e : KsError) (ifExists : Bool) : ExecutionResult :=
  if ifExists && e.notFound then createVoidSuccess else e.result

/-! ### Statements -/

inductive AlterTableInstruction where
  | addColumns (ifNotExists : Bool) (columnDefinitions : List ColumnDefinition)
  | dropColumns (ifExists : Bool) (columns : List String8)
  | renameColumns
  | alterColumn
  | options (opts : List OptionPair)

inductive AlterTypeInstruction where
  | addFields (fields : List ColumnDefinition)
  | renameFields (oldToNew : List (String8 × String8))

structure CreateIndex where
  ifNotExists : Bool
  indexName : Option String8
  table : TableName
  columnName : String8
  selector : Option String8

inductive Statement where
  | createKeyspace (create : CreateKeyspace)
  /-- The options as parsed, and whether some replication map names nothing but its class. -/
  | alterKeyspace (keyspace : String8) (ifExists : Bool) (options : Result KeyspaceOptions) (classOnly : Bool)
  | dropKeyspace (keyspace : String8) (ifExists : Bool)
  | createTable (create : CreateTable)
  | dropTable (table : TableName) (ifExists : Bool)
  | alterTable (table : TableName) (ifExists : Bool) (instruction : AlterTableInstruction)
  | createIndex (create : CreateIndex)
  | dropIndex (indexName : TableName) (ifExists : Bool)
  | createType (name : TableName) (ifNotExists : Bool) (fields : List ColumnDefinition)
  | alterType (name : TableName) (instruction : AlterTypeInstruction)
  | dropType (name : TableName) (ifExists : Bool)

/-- A statement with the keyspace of its connection and the page that a new tree would get. -/
structure Request where
  statement : Statement
  currentKeyspace : String8
  newPage : UInt64

/-- The result and the schema after it; `none` is a failed assertion or no return. -/
abbrev Executed := Option (ExecutionResult × Schema)

/-! ### Keyspace statements -/

def createKeyspaceFailure (e : Failure) : ExecutionResult :=
  if e.error = .syntaxOptions then { status := .syntaxError, message := e.message }
  else if e.error = .invalidOptions then { status := .configError, message := e.message }
  else createServerError (ascii "Failed to create keyspace")

def executeCreateKeyspace (s : Schema) (create : CreateKeyspace) : Executed :=
  if isSystemKeyspace create.name then
    some (if create.ifNotExists then createVoidSuccess else createKeyspaceAlreadyExists create.name, s)
  else if create.name.val.length > 192 then
    some (createInvalid (ascii "Keyspace name exceeds 192 characters"), s)
  else if (s.readKeyspace create.name).isSome then
    some (if create.ifNotExists then createVoidSuccess else createKeyspaceAlreadyExists create.name, s)
  else
    match s.createKeyspace create with
    | none => none
    | some (.error e, s) => some (createKeyspaceFailure e, s)
    | some (.ok _, s) => some (createCreated create.name, s)

/-- `ALTER KEYSPACE` checks its options and ignores them. -/
def executeAlterKeyspace (s : Schema) (keyspace : String8) (ifExists : Bool)
    (options : Result KeyspaceOptions) (classOnly : Bool) : ExecutionResult :=
  if isSystemKeyspace keyspace then createSystemKeyspaceInvalid
  else if (s.readKeyspace keyspace).isNone then
    if ifExists then createVoidSuccess else createKeyspaceNotFound keyspace
  else
    match options with
    | .error e =>
        { status := if e.error = .syntaxOptions then .syntaxError else .configError, message := e.message }
    | .ok _ =>
        if classOnly then
          { status := .configError
            message := ascii "ALTER KEYSPACE requires at least one replication option" }
        else createSchemaChanged keyspace

def executeDropKeyspace (s : Schema) (keyspace : String8) (ifExists : Bool) : ExecutionResult × Schema :=
  if isSystemKeyspace keyspace then (createSystemKeyspaceInvalid, s)
  else if (s.readKeyspace keyspace).isNone then
    (if ifExists then createVoidSuccess else createKeyspaceNotFound keyspace, s)
  else (createSchemaChanged keyspace, (s.deleteKeyspace keyspace).2)

/-! ### Table statements -/

/-- The first name that two column definitions share. -/
def duplicateName : List ColumnDefinition → Option String8
  | [] => none
  | d :: ds => if ds.any (·.name = d.name) then some d.name else duplicateName ds

def createTableFailure (e : Failure) : ExecutionResult :=
  if e.error = .invalidOptions then createInvalid e.message
  else if e.error = .missingPrimaryKey then
    createInvalid (ascii "No PRIMARY KEY specified (exactly one required)")
  else createServerError (ascii "Failed to create table")

def executeCreateTable (s : Schema) (currentKeyspace : String8) (create : CreateTable) (newPage : UInt64) :
    Executed :=
  let ksName := resolveKsName create.name.keyspaceName currentKeyspace
  match s.resolveKs ksName with
  | .error e => some (e.result, s)
  | .ok ks =>
      if (s.readTable ks create.name.tableName).isSome then
        some (if create.ifNotExists then createVoidSuccess
          else createTableAlreadyExists ksName create.name.tableName, s)
      else
        match duplicateName create.columnDefinitions with
        | some name => some (createInvalid (ascii "Multiple definition of identifier " ++ name.val), s)
        | none =>
            match s.createTable ks create newPage with
            | none => none
            | some (.error e, s) => some (createTableFailure e, s)
            | some (.ok _, s) => some (createCreated ksName create.name.tableName.val, s)

def executeDropTable (s : Schema) (currentKeyspace : String8) (table : TableName) (ifExists : Bool) :
    ExecutionResult × Schema :=
  let ksName := resolveKsName table.keyspaceName currentKeyspace
  match s.resolveKs ksName with
  | .error e => (e.answer ifExists, s)
  | .ok ks =>
      match s.deleteTable ks table.tableName with
      | (.error _, s) =>
          (if ifExists then createVoidSuccess else createTableNotFound ksName table.tableName, s)
      | (.ok _, s) => (createSchemaChanged ksName table.tableName.val, s)

/-- What `ALTER TABLE ADD` does with one definition: an error, nothing, or a new column. -/
inductive AddColumn where
  | fail (result : ExecutionResult)
  | skip
  | add (c : ColumnSpecification)

def addColumnOf (s : Schema) (ksName : String8) (cols : List Column) (ifNotExists : Bool)
    (d : ColumnDefinition) : AddColumn :=
  match s.resolveTypeAst ksName d.type with
  | .error e => .fail (createFailure ksName e)
  | .ok type =>
      if (findColumn cols d.name).isSome then
        if ifNotExists then .skip else .fail (createInvalid (ascii "Column already exists"))
      else
        -- a dropped column of this name must come back with its type and staticness
        match cols.find? fun col => col.tombstone && col.name = d.name with
        | none => .add ⟨d.name, type, d.isStatic, .none, 0, .asc⟩
        | some col =>
            if ifNotExists then .skip
            else if col.type.beq type && col.isStatic == d.isStatic then
              .add ⟨d.name, type, d.isStatic, .none, 0, .asc⟩
            else .fail (createInvalid (ascii "Cannot re-add previously dropped column"))

/-- The loop of `ALTER TABLE ADD`, with the result that ends it early. -/
def addColumns (ksName : String8) (t : Nat) (ifNotExists : Bool) :
    List ColumnDefinition → Schema → Option (Option ExecutionResult × Schema)
  | [], s => some (none, s)
  | d :: ds, s => do
      let tbl ← s.tables[t]?
      match s.addColumnOf ksName tbl.cols ifNotExists d with
      | .fail result => some (some result, s)
      | .skip => addColumns ksName t ifNotExists ds s
      | .add c => do
          let s ← s.createColumn t c
          addColumns ksName t ifNotExists ds s

/-- The loop of `ALTER TABLE DROP`. -/
def dropColumns (t : Nat) (ifExists : Bool) :
    List String8 → Schema → Option (Option ExecutionResult × Schema)
  | [], s => some (none, s)
  | name :: names, s => do
      let tbl ← s.tables[t]?
      if (findColumn tbl.cols name).isNone then
        if ifExists then dropColumns t ifExists names s
        else some (some (createInvalid (ascii "Column does not exist")), s)
      else do
        let (_, s) ← s.deleteColumn t name
        dropColumns t ifExists names s

/-- The options of a table with those that the statement names replaced by what was parsed. -/
def mergeTableOption (parsed merged : TableOptions) (o : OptionPair) : TableOptions :=
  if literalEq "default_time_to_live" o.key then { merged with defaultTtlMs := parsed.defaultTtlMs }
  else if literalEq "gc_grace_seconds" o.key then { merged with gcGraceSeconds := parsed.gcGraceSeconds }
  else if literalEq "min_index_interval" o.key then { merged with minIndexInterval := parsed.minIndexInterval }
  else if literalEq "max_index_interval" o.key then { merged with maxIndexInterval := parsed.maxIndexInterval }
  else if literalEq "memtable_flush_period_in_ms" o.key then
    { merged with memtableFlushPeriodInMs := parsed.memtableFlushPeriodInMs }
  else merged

def executeAlterTableInstruction (s : Schema) (ksName tableName : String8) (t : Nat) :
    AlterTableInstruction → Executed
  | .addColumns ifNotExists defs =>
      match addColumns ksName t ifNotExists defs s with
      | none => none
      | some (some result, s) => some (result, s)
      | some (none, s) => some (createSchemaChanged ksName tableName.val, s)
  | .dropColumns ifExists names =>
      match dropColumns t ifExists names s with
      | none => none
      | some (some result, s) => some (result, s)
      | some (none, s) => some (createSchemaChanged ksName tableName.val, s)
  | .renameColumns => none
  | .alterColumn => none
  | .options opts =>
      match parseTableOptions (opts.map .pair) {} with
      | .error e => some ({ status := .syntaxError, message := e.message }, s)
      | .ok parsed => do
          let tbl ← s.tables[t]?
          some (createSchemaChanged ksName tableName.val,
            s.setTableOptions t (opts.foldl (mergeTableOption parsed) tbl.options))

def executeAlterTable (s : Schema) (currentKeyspace : String8) (table : TableName) (ifExists : Bool)
    (instruction : AlterTableInstruction) : Executed :=
  let ksName := resolveKsName table.keyspaceName currentKeyspace
  match s.resolveKs ksName with
  | .error e => some (e.answer ifExists, s)
  | .ok ks =>
      match s.readTable ks table.tableName with
      | none => some (if ifExists then createVoidSuccess else createTableNotFound ksName table.tableName, s)
      | some t => s.executeAlterTableInstruction ksName table.tableName t instruction

/-! ### Index statements -/

def indexKindOf : Option String8 → Option IndexKind
  | none => some .values
  | some sel =>
      if literalEq "values" sel then some .values
      else if literalEq "keys" sel then some .keys
      else if literalEq "entries" sel then some .entries
      else if literalEq "full" sel then some .full
      else none

/-- Why a column of this type cannot be indexed so. -/
def indexTypeError (type : Ty) (kind : IndexKind) (selector : Bool) : Option Bytes :=
  match type with
  | .basic _ => if selector then some (ascii "Selector function on non-collection column") else none
  | .list e _ =>
      if kind = .keys ∨ kind = .entries then
        some (ascii "Cannot create keys() or entries() index on a list/set column")
      else if (Ty.basic? e).isNone then some (ascii "Cannot index collection of complex element type")
      else none
  | .set k _ =>
      if kind = .keys ∨ kind = .entries then
        some (ascii "Cannot create keys() or entries() index on a list/set column")
      else if (Ty.basic? k).isNone then some (ascii "Cannot index collection of complex element type")
      else none
  | .map k v _ =>
      if (Ty.basic? k).isNone ∨ (Ty.basic? v).isNone then
        some (ascii "Cannot index map with complex key or value type")
      else none
  | .vector _ _ _ => some (ascii "Cannot create index on column of this type")
  | .tuple _ _ => some (ascii "Cannot create index on column of this type")
  | .udt _ => some (ascii "Cannot create index on column of this type")

def indexNameOf (create : CreateIndex) : Option String8 :=
  match create.indexName with
  | some name => some name
  | none =>
      let name := create.table.tableName.val ++ ascii "_" ++ create.columnName.val ++ ascii "_idx"
      if h : name.length < 2 ^ 64 then some ⟨name, h⟩ else none

/-- Everything of `CREATE INDEX` before the index itself: the kind, or the error. -/
def checkCreateIndex (tbl : Table) (colIdx : Nat) (col : Column) (create : CreateIndex) :
    Except Bytes IndexKind :=
  match indexKindOf create.selector with
  | none => .error (ascii "Unsupported index selector function")
  | some kind =>
      match indexTypeError col.type kind create.selector.isSome with
      | some message => .error message
      | none =>
          if tbl.cols[colIdx]?.map (·.keyKind) = some .partitionKey
              ∧ (partitionKeyColIndices tbl.cols).length = 1 then
            .error (ascii "cannot create secondary index on the only partition key column")
          else .ok kind

def executeCreateIndexOn (s : Schema) (ksName : String8) (t : Nat) (tbl : Table) (create : CreateIndex)
    (newPage : UInt64) : Executed :=
  match findColumn tbl.cols create.columnName with
  | none => some (createInvalid (ascii "column not found"), s)
  | some colIdx => do
      let col ← tbl.cols[colIdx]?
      match checkCreateIndex tbl colIdx col create with
      | .error message => some (createInvalid message, s)
      | .ok kind => do
          let name ← indexNameOf create
          if (readIndex tbl name).isSome then
            some (if create.ifNotExists then createVoidSuccess
              else { status := .alreadyExists, message := ascii "index already exists" }, s)
          else do
            let s ← s.createIndex t colIdx name kind newPage
            some (createSchemaChanged ksName create.table.tableName.val, s)

def executeCreateIndex (s : Schema) (currentKeyspace : String8) (create : CreateIndex) (newPage : UInt64) :
    Executed :=
  let ksName := resolveKsName create.table.keyspaceName currentKeyspace
  match s.resolveKs ksName with
  | .error e => some (e.result, s)
  | .ok ks =>
      match s.readTable ks create.table.tableName with
      | none => some (createTableNotFound ksName create.table.tableName, s)
      | some t => do
          let tbl ← s.tables[t]?
          s.executeCreateIndexOn ksName t tbl create newPage

/-- The first live table of the keyspace with an index of that name. -/
def findIndexTable (s : Schema) (ks : Nat) (name : String8) : Option Nat :=
  s.tables.findIdx? fun tbl => tbl.keyspaceIdx = ks && !tbl.tombstone && (readIndex tbl name).isSome

def executeDropIndex (s : Schema) (currentKeyspace : String8) (indexName : TableName) (ifExists : Bool) :
    Executed :=
  let ksName := resolveKsName indexName.keyspaceName currentKeyspace
  match s.resolveKs ksName with
  | .error e => some (e.answer ifExists, s)
  | .ok ks =>
      match s.findIndexTable ks indexName.tableName with
      | none => some (if ifExists then createVoidSuccess else createInvalid (ascii "index not found"), s)
      | some t => do
          let tbl ← s.tables[t]?
          let (_, s) ← s.deleteIndex t indexName.tableName
          some (createSchemaChanged ksName tbl.name.val, s)

/-! ### Type statements -/

/-- The fields of a type, each resolved in turn. -/
def resolveFields (s : Schema) (ksName : String8) :
    List ColumnDefinition → Result (List (String8 × Ty))
  | [] => .ok []
  | d :: ds => do
      let type ← s.resolveTypeAst ksName d.type
      let fields ← resolveFields s ksName ds
      .ok ((d.name, type) :: fields)

def executeCreateType (s : Schema) (currentKeyspace : String8) (name : TableName) (ifNotExists : Bool)
    (fields : List ColumnDefinition) : Executed :=
  let ksName := resolveKsName name.keyspaceName currentKeyspace
  match s.resolveKs ksName with
  | .error e => some (e.result, s)
  | .ok ks =>
      if (s.readUdt ks name.tableName).isSome then
        some (if ifNotExists then createVoidSuccess
          else createTypeResult .alreadyExists ksName name.tableName (ascii " already exists"), s)
      else
        match s.resolveFields ksName fields with
        | .error e => some (createFailure ksName e, s)
        | .ok fields =>
            match s.createUdt ks name.tableName fields with
            | none => none
            | some (.error e, s) => some (createFailure ksName e, s)
            | some (.ok _, s) => some (createSchemaChanged ksName, s)

/-- The loop of `ALTER TYPE ADD`. -/
def addFields (ksName : String8) (ks : Nat) (name : String8) :
    List ColumnDefinition → Schema → Option (Option ExecutionResult × Schema)
  | [], s => some (none, s)
  | d :: ds, s =>
      match s.resolveTypeAst ksName d.type with
      | .error e => some (some (createFailure ksName e), s)
      | .ok type =>
          match s.alterUdtAddField ks name d.name type with
          | none => none
          | some (.error e, s) => some (some (createFailure ksName e), s)
          | some (.ok _, s) => addFields ksName ks name ds s

def executeAlterTypeInstruction (s : Schema) (ksName : String8) (ks : Nat) (name : String8) :
    AlterTypeInstruction → Executed
  | .addFields fields =>
      match addFields ksName ks name fields s with
      | none => none
      | some (some result, s) => some (result, s)
      | some (none, s) => some (createSchemaChanged ksName, s)
  | .renameFields renames =>
      match s.alterUdtRenameFields ks name renames with
      | none => none
      | some (.error e, s) => some (createFailure ksName e, s)
      | some (.ok _, s) => some (createSchemaChanged ksName, s)

def executeAlterType (s : Schema) (currentKeyspace : String8) (name : TableName)
    (instruction : AlterTypeInstruction) : Executed :=
  let ksName := resolveKsName name.keyspaceName currentKeyspace
  match s.resolveKs ksName with
  | .error e => some (e.result, s)
  | .ok ks =>
      if (s.readUdt ks name.tableName).isNone then
        some (createTypeResult .invalid ksName name.tableName (ascii " does not exist"), s)
      else s.executeAlterTypeInstruction ksName ks name.tableName instruction

def executeDropType (s : Schema) (currentKeyspace : String8) (name : TableName) (ifExists : Bool) :
    Executed :=
  let ksName := resolveKsName name.keyspaceName currentKeyspace
  match s.resolveKs ksName with
  | .error e => some (e.answer ifExists, s)
  | .ok ks =>
      if (s.readUdt ks name.tableName).isNone then
        some (if ifExists then createVoidSuccess
          else createTypeResult .invalid ksName name.tableName (ascii " does not exist"), s)
      else
        match s.deleteUdt ks name.tableName with
        | none => none
        | some (.error e, s) => some (createFailure ksName e, s)
        | some (.ok _, s) => some (createSchemaChanged ksName, s)

/-! ### Execution -/

def execute (s : Schema) (r : Request) : Executed :=
  match r.statement with
  | .createKeyspace create => s.executeCreateKeyspace create
  | .alterKeyspace ks ifExists options classOnly =>
      some (s.executeAlterKeyspace ks ifExists options classOnly, s)
  | .dropKeyspace ks ifExists => some (s.executeDropKeyspace ks ifExists)
  | .createTable create => s.executeCreateTable r.currentKeyspace create r.newPage
  | .dropTable table ifExists => some (s.executeDropTable r.currentKeyspace table ifExists)
  | .alterTable table ifExists instruction => s.executeAlterTable r.currentKeyspace table ifExists instruction
  | .createIndex create => s.executeCreateIndex r.currentKeyspace create r.newPage
  | .dropIndex name ifExists => s.executeDropIndex r.currentKeyspace name ifExists
  | .createType name ifNotExists fields => s.executeCreateType r.currentKeyspace name ifNotExists fields
  | .alterType name instruction => s.executeAlterType r.currentKeyspace name instruction
  | .dropType name ifExists => s.executeDropType r.currentKeyspace name ifExists

/-- The schema after a request, whatever it answers. -/
def step (s : Schema) (r : Request) : Option Schema := (s.execute r).map (·.2)

end Plexdb.Cql.Schema
