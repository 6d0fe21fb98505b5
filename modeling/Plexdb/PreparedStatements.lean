import Plexdb.BindVariables
import Plexdb.NativeFields
import Plexdb.Runs
import Plexdb.SchemaVersions
import Plexdb.SentinelMap
import Plexdb.XxHash

/-! Prepared statements (`prepare` and `execute` of a prepared id in `cql/engine/engine.cpp`, `PREPARE` and
`EXECUTE` in `cql/native/native.cpp`). One cache serves all connections; its key is the hash of the query. The
parser is a parameter, and so is what it gives for a statement without bind markers. -/

namespace Plexdb.Cql.Prepared

open Native (beBytes beValue)
open Schema (Table TableName partitionKeyColIndices resolveKsName)
open SentinelMap (probe freeSlot)

inductive Statement (ω : Type) where
  | dml (statement : DmlStatement)
  | other (statement : ω)

def emptyString : String8 := ⟨[], Nat.two_pow_pos 64⟩

structure PreparedEntry where
  queryString : String8 := emptyString
  keyspace : String8 := emptyString
  table : String8 := emptyString
  bindVariables : List BindVariableSpec := []
  pkIndex : BitVec 32 := -1
  schemaVersion : UInt64 := 0

/-! ### The cache -/

def maxPreparedStatements : Nat := 1024

/-- `hash(U64)`. -/
def hashId (id : UInt64) : Nat := (1 + id).toNat

abbrev Cache := SentinelMap.Slots UInt64 PreparedEntry

/-- The entry of an id and its slot; the outer `none` is the assertion that the map is not full. -/
def findEntry (cache : Cache) (id : UInt64) : Option (Option (Nat × PreparedEntry)) :=
  match probe hashId maxPreparedStatements cache id with
  | .full => none
  | .free _ => some none
  | .held slot => (cache slot).map fun e => some (slot, e.2)

/-- `insert`: a slot that was never used holds the default entry. -/
def insertEntry (cache : Cache) (id : UInt64) : Option (Nat × PreparedEntry) :=
  (freeSlot hashId maxPreparedStatements cache id).map fun slot => (slot, {})

/-! ### Statements -/

section

variable {ω : Type}

/-- `collect_bind_variables_with_keyspace`. -/
def Statement.bindVariables (schema : Schema) (currentKeyspace : String8) :
    Statement ω → Option (List BindVariableSpec)
  | .dml stmt => collectBindVariables schema currentKeyspace stmt
  | .other _ => some []

def Statement.bindValues (values : List Term) : Statement ω → Statement ω
  | .dml stmt => .dml (bindValuesToStatement stmt values)
  | .other stmt => .other stmt

/-- The first variable that is named as the first column of the partition key. -/
def pkIndexOf (tbl : Table) (bindVariables : List BindVariableSpec) : BitVec 32 :=
  match (partitionKeyColIndices tbl.cols).head?.bind fun ci => tbl.cols[ci]? with
  | none => -1
  | some col =>
      match bindVariables.findIdx? fun v => col.name.val = v.name with
      | none => -1
      | some i => BitVec.ofNat 32 i

/-- What is written to an entry, fresh or stale. -/
def derive (schema : Schema) (query currentKeyspace : String8) (entry : PreparedEntry) (stmt : Statement ω) :
    Option PreparedEntry := do
  let bindVariables ← stmt.bindVariables schema currentKeyspace
  let entry := { entry with
    queryString := query, bindVariables := bindVariables, pkIndex := -1, schemaVersion := schema.version }
  match stmt with
  | .dml (.insert stmt) =>
      let entry := { entry with
        keyspace := resolveKsName stmt.table.keyspaceName currentKeyspace, table := stmt.table.tableName }
      match tableNamed schema currentKeyspace stmt.table with
      | none => some entry
      | some tbl => some { entry with pkIndex := pkIndexOf tbl entry.bindVariables }
  | _ => some entry

end

/-! ### Prepare and execute -/

inductive PrepareResult where
  | success (id : UInt64) (entry : PreparedEntry)
  | syntaxError (message : Bytes)

inductive ExecuteResult (ω : Type) where
  | notFound
  | reparseFailed
  /-- The statement is run under the keyspace of the connection. -/
  | run (stmt : Statement ω) (currentKeyspace : String8)

section

variable {ω : Type} (parse : String8 → Except Bytes (Statement ω))

/-- `none` is a failed assertion. -/
def prepare (schema : Schema) (cache : Cache) (query currentKeyspace : String8) : Option (PrepareResult × Cache) := do
  let queryHash := hashString query.val
  let existing ← findEntry cache queryHash
  match existing.filter fun e => e.2.schemaVersion = schema.version with
  | some (_, entry) => some (.success queryHash entry, cache)
  | none =>
      match parse query with
      | .error err => some (.syntaxError (if err.length > 0 then err else ascii "Failed to parse CQL"), cache)
      | .ok stmt =>
          let (slot, entry) ← match existing with
            | some e => some e
            | none => insertEntry cache queryHash
          let entry ← derive schema query currentKeyspace entry stmt
          some (.success queryHash entry, Function.update cache slot (some (queryHash, entry)))

def execute (cache : Cache) (id : UInt64) (values : List Term) (currentKeyspace : String8) :
    Option (ExecuteResult ω) := do
  match ← findEntry cache id with
  | none => some .notFound
  | some (_, entry) =>
      match parse entry.queryString with
      | .error _ => some .reparseFailed
      | .ok stmt => some (.run (stmt.bindValues values) currentKeyspace)

/-- The id as `append_result_prepared` sends it. -/
def idBytes (id : UInt64) : Bytes := beBytes 8 id.toNat

/-- The id as `EXECUTE` reads it. -/
def readId (idData : Bytes) : UInt64 := (idData.take 8).foldl (fun id b => (id <<< 8) ||| UInt64.ofNat b.toNat) 0

def executeBytes (cache : Cache) (idData : Bytes) (values : List Term) (currentKeyspace : String8) :
    Option (ExecuteResult ω) :=
  execute parse cache (readId idData) values currentKeyspace

/-! ### Histories -/

/-- A statement that changes the schema bumps its version first and goes on after it has waited for the storage:
`changing` until it is done. `changes` counts the bumps and `prepared` keeps the queries that were prepared, with
the keyspace and the count: the source has neither. -/
structure State where
  schema : Schema
  changing : Bool := false
  cache : Cache := fun _ => none
  changes : Nat := 0
  prepared : List (String8 × String8 × Nat) := []

inductive Action where
  | prepare (query currentKeyspace : String8)
  | execute (idData : Bytes) (values : List Term) (currentKeyspace : String8)
  | beginChange
  | change (schema : Schema)
  | endChange

def step (s : State) : Action → Option State
  | .prepare query currentKeyspace => (prepare parse s.schema s.cache query currentKeyspace).map fun (result, cache) =>
      match result with
      | .success .. => { s with cache := cache, prepared := (query, currentKeyspace, s.changes) :: s.prepared }
      | .syntaxError _ => { s with cache := cache }
  | .execute idData values currentKeyspace => (executeBytes parse s.cache idData values currentKeyspace).map fun _ => s
  | .beginChange => some { s with schema := s.schema.bumpVersion, changing := true, changes := s.changes + 1 }
  | .change schema =>
      if s.changing = true ∧ schema.version = s.schema.version then some { s with schema := schema } else none
  | .endChange => some { s with changing := false }

end

/-! ### What an entry should be -/

section

variable {ω : Type}

/-- The text of the query, and its bind variables under the keyspace in the schema. -/
structure DescribesVariables (schema : Schema) (query currentKeyspace : String8) (stmt : Statement ω)
    (entry : PreparedEntry) : Prop where
  queryString : entry.queryString = query
  bindVariables : stmt.bindVariables schema currentKeyspace = some entry.bindVariables

/-- The table that a statement is about, if there is one. -/
def Statement.table : Statement ω → Option TableName
  | .dml (.insert stmt) => some stmt.table
  | .dml (.update stmt) => some stmt.table
  | .dml (.delete stmt) => some stmt.table
  | .dml (.select stmt) => some stmt.from_
  | .dml (.batch _) => none
  | .other _ => none

/-- The table and its keyspace, and the variable of the partition key. -/
structure DescribesTable (schema : Schema) (currentKeyspace : String8) (stmt : Statement ω) (entry : PreparedEntry) :
    Prop where
  keyspace : entry.keyspace = (stmt.table.map fun t => resolveKsName t.keyspaceName currentKeyspace).getD emptyString
  table : entry.table = (stmt.table.map (·.tableName)).getD emptyString
  pkIndex : entry.pkIndex = ((stmt.table.bind (tableNamed schema currentKeyspace)).map fun tbl =>
    pkIndexOf tbl entry.bindVariables).getD (-1)

/-- The table of an UPDATE, a DELETE and a SELECT is not written to the entry. -/
def RecordsTable : Statement ω → Prop
  | .dml (.insert _) => True
  | stmt => stmt.table = none

/-! ### Which steps are kept apart -/

def tableOfModification : ModificationStatement → TableName
  | .insert stmt => stmt.table
  | .update stmt => stmt.table
  | .delete stmt => stmt.table

/-- The tables that a statement names. -/
def Statement.tables : Statement ω → List TableName
  | .dml (.batch stmt) => stmt.statements.map tableOfModification
  | stmt => stmt.table.toList

/-- Every table is named with its keyspace. -/
def Qualified (stmt : Statement ω) : Prop := ∀ t ∈ stmt.tables, t.keyspaceName.isSome

/-- Each marker among the values of an INSERT has a column name in its place. -/
def markersNamed : List String8 → List Term → Bool
  | _, [] => true
  | names, value :: values => (names ≠ [] || !value.isBindMarker) && markersNamed names.tail values

def InsertNamed (stmt : Insert) : Prop :=
  match stmt.insertClause with
  | .namesValues names values => markersNamed names values = true
  | .json .. => True

def ModificationNamed : ModificationStatement → Prop
  | .insert stmt => InsertNamed stmt
  | _ => True

def Named : Statement ω → Prop
  | .dml (.insert stmt) => InsertNamed stmt
  | .dml (.batch stmt) => ∀ m ∈ stmt.statements, ModificationNamed m
  | _ => True

/-- Queries with one hash are one query; a query without the keyspace of its table is prepared under one keyspace
until the schema changes, and not while it changes; the map has a slot; and the schema changes fewer than `2 ^ 64`
times. -/
def Allowed (parse : String8 → Except Bytes (Statement ω)) (s : State) : Action → Prop
  | .prepare query currentKeyspace =>
      s.changing = false ∧
      (∀ q ∈ s.prepared, hashString q.1.val = hashString query.val → q.1 = query) ∧
      (∀ ks, (query, ks, s.changes) ∈ s.prepared → ks = currentKeyspace ∨
        ∀ stmt, parse query = .ok stmt → Qualified stmt) ∧
      ((∃ q ∈ s.prepared, q.1 = query) ∨ ∃ d < maxPreparedStatements - 1,
        s.cache ((hashId (hashString query.val) + d) % maxPreparedStatements) = none) ∧
      ∀ stmt, parse query = .ok stmt → Named stmt
  | .beginChange => s.changes + 1 < 2 ^ 64
  | _ => True

/-! ### The variables of a statement -/

theorem mapM_congr {α β : Type} {f g : α → Option β} {as : List α} (h : ∀ a ∈ as, f a = g a) : as.mapM f = as.mapM g := by
  induction as with
  | nil => rfl
  | cons a as ih =>
      obtain ⟨ha, has⟩ := List.forall_mem_cons.mp h
      rw [List.mapM_cons, List.mapM_cons, ha, ih has]

theorem isSome_mapM {α β : Type} {f : α → Option β} {as : List α} (h : ∀ a ∈ as, (f a).isSome = true) :
    (as.mapM f).isSome = true := by
  induction as with
  | nil => rfl
  | cons a as ih =>
      obtain ⟨ha, has⟩ := List.forall_mem_cons.mp h
      obtain ⟨b, hb⟩ := Option.isSome_iff_exists.mp ha
      obtain ⟨bs, hbs⟩ := Option.isSome_iff_exists.mp (ih has)
      rw [List.mapM_cons, hb, hbs]
      rfl

theorem tableNamed_qualified {schema : Schema} {t : TableName} (h : t.keyspaceName.isSome) (ks ks' : String8) :
    tableNamed schema ks t = tableNamed schema ks' t := by
  obtain ⟨name, hname⟩ := Option.isSome_iff_exists.mp h
  rw [tableNamed, tableNamed, resolveKsName, resolveKsName, hname]
  rfl

theorem collectInTable_qualified {schema : Schema} {t : TableName} (h : t.keyspaceName.isSome) (ks ks' : String8)
    (collect : Table → Option (List BindVariableSpec)) :
    collectInTable schema ks t collect = collectInTable schema ks' t collect := by
  rw [collectInTable, collectInTable, tableNamed_qualified h ks ks']

theorem collectModification_qualified {schema : Schema} {m : ModificationStatement}
    (h : (tableOfModification m).keyspaceName.isSome) (ks ks' : String8) :
    collectBindVariablesModification schema ks m = collectBindVariablesModification schema ks' m := by
  cases m <;> exact collectInTable_qualified h ks ks' _

theorem Qualified.bindVariables {schema : Schema} {stmt : Statement ω} (h : Qualified stmt) (ks ks' : String8) :
    stmt.bindVariables schema ks = stmt.bindVariables schema ks' := by
  cases stmt with
  | other => rfl
  | dml stmt =>
      cases stmt with
      | batch stmt =>
          have hchildren : stmt.statements.mapM (collectBindVariablesModification schema ks) =
              stmt.statements.mapM (collectBindVariablesModification schema ks') :=
            mapM_congr fun m hm => collectModification_qualified (h _ (List.mem_map_of_mem hm)) ks ks'
          rw [Statement.bindVariables, Statement.bindVariables, collectBindVariables, collectBindVariables, hchildren]
      | _ => exact collectInTable_qualified (h _ (List.mem_singleton_self _)) ks ks' _

theorem isSome_collectInsertValues (tbl : Table) {names : List String8} {values : List Term}
    (h : markersNamed names values = true) : (collectBindInInsertValues tbl names values).isSome = true := by
  induction values generalizing names with
  | nil => rfl
  | cons value values ih =>
      obtain ⟨hhead, htail⟩ := (Bool.and_eq_true _ _).mp h
      have hrest := ih htail
      cases value with
      | bindMarker marker =>
          cases names with
          | nil => simp [Term.isBindMarker] at hhead
          | cons name names =>
              obtain ⟨specs, hspecs⟩ := Option.isSome_iff_exists.mp hrest
              rw [List.tail_cons] at hspecs
              rw [collectBindInInsertValues, hspecs]
              rfl
      | _ => exact hrest

theorem isSome_collectInTable {schema : Schema} {ks : String8} {t : TableName}
    {collect : Table → Option (List BindVariableSpec)} (h : ∀ tbl, (collect tbl).isSome = true) :
    (collectInTable schema ks t collect).isSome = true := by
  rw [collectInTable]
  cases tableNamed schema ks t with
  | none => rfl
  | some tbl => exact h tbl

theorem isSome_collectInsert (tbl : Table) {stmt : Insert} (h : InsertNamed stmt) :
    (collectBindVariablesInsert tbl stmt).isSome = true := by
  rw [InsertNamed] at h
  rw [collectBindVariablesInsert]
  cases hclause : stmt.insertClause with
  | namesValues names values =>
      rw [hclause] at h
      obtain ⟨specs, hspecs⟩ := Option.isSome_iff_exists.mp (isSome_collectInsertValues tbl h)
      dsimp only
      rw [hspecs]
      rfl
  | json string default => rfl

theorem isSome_collectModification (schema : Schema) (ks : String8) {m : ModificationStatement}
    (h : ModificationNamed m) : (collectBindVariablesModification schema ks m).isSome = true := by
  cases m with
  | insert stmt => exact isSome_collectInTable fun tbl => isSome_collectInsert tbl h
  | update stmt => exact isSome_collectInTable fun _ => rfl
  | delete stmt => exact isSome_collectInTable fun _ => rfl

theorem Named.isSome_bindVariables {stmt : Statement ω} (h : Named stmt) (schema : Schema) (ks : String8) :
    (stmt.bindVariables schema ks).isSome = true := by
  cases stmt with
  | other => rfl
  | dml stmt =>
      cases stmt with
      | insert stmt => exact isSome_collectModification schema ks (m := .insert stmt) h
      | update stmt => exact isSome_collectModification schema ks (m := .update stmt) trivial
      | delete stmt => exact isSome_collectModification schema ks (m := .delete stmt) trivial
      | select stmt => exact isSome_collectInTable fun _ => rfl
      | batch stmt =>
          have hchildren := isSome_mapM fun m hm => isSome_collectModification schema ks (h m hm)
          obtain ⟨children, hchildren⟩ := Option.isSome_iff_exists.mp hchildren
          rw [Statement.bindVariables, collectBindVariables, hchildren]
          rfl

/-! ### Deriving an entry -/

/-- An entry that holds no table. -/
def Tableless (entry : PreparedEntry) : Prop := entry.keyspace = emptyString ∧ entry.table = emptyString

theorem derive_spec (schema : Schema) (query ks : String8) {old : PreparedEntry} {stmt : Statement ω}
    (hnamed : Named stmt) (hold : stmt.table = none → Tableless old) :
    ∃ entry, derive schema query ks old stmt = some entry ∧ entry.schemaVersion = schema.version ∧
      DescribesVariables schema query ks stmt entry ∧ (RecordsTable stmt → DescribesTable schema ks stmt entry) ∧
      (stmt.table = none → Tableless entry) := by
  obtain ⟨vars, hvars⟩ := Option.isSome_iff_exists.mp (hnamed.isSome_bindVariables schema ks)
  rw [derive, hvars]
  cases stmt with
  | other =>
      obtain ⟨hks, ht⟩ := hold rfl
      exact ⟨_, rfl, rfl, ⟨rfl, hvars⟩, fun _ => ⟨hks, ht, rfl⟩, fun _ => ⟨hks, ht⟩⟩
  | dml stmt =>
      cases stmt with
      | insert stmt =>
          simp only [Option.bind_eq_bind, Option.bind_some]
          cases htbl : tableNamed schema ks stmt.table with
          | none =>
              refine ⟨_, rfl, rfl, ⟨rfl, hvars⟩, fun _ => ⟨rfl, rfl, ?_⟩, fun h => by cases h⟩
              simp only [Statement.table, Option.bind_some, htbl]
              rfl
          | some tbl =>
              refine ⟨_, rfl, rfl, ⟨rfl, hvars⟩, fun _ => ⟨rfl, rfl, ?_⟩, fun h => by cases h⟩
              simp only [Statement.table, Option.bind_some, htbl]
              rfl
      | batch stmt =>
          obtain ⟨hks, ht⟩ := hold rfl
          exact ⟨_, rfl, rfl, ⟨rfl, hvars⟩, fun _ => ⟨hks, ht, rfl⟩, fun _ => ⟨hks, ht⟩⟩
      | _ => exact ⟨_, rfl, rfl, ⟨rfl, hvars⟩, fun h => (by cases h), fun h => by cases h⟩

/-- The keyspace does not matter to a statement that names those of its tables. -/
theorem DescribesVariables.of_qualified {schema : Schema} {query ks ks' : String8} {stmt : Statement ω}
    {entry : PreparedEntry} (h : DescribesVariables schema query ks stmt entry) (hqualified : Qualified stmt) :
    DescribesVariables schema query ks' stmt entry :=
  ⟨h.queryString, (hqualified.bindVariables ks' ks).trans h.bindVariables⟩

theorem DescribesTable.of_qualified {schema : Schema} {ks ks' : String8} {stmt : Statement ω}
    {entry : PreparedEntry} (h : DescribesTable schema ks stmt entry) (hqualified : Qualified stmt) :
    DescribesTable schema ks' stmt entry := by
  cases ht : stmt.table with
  | none =>
      obtain ⟨hks, htable, hpk⟩ := h
      rw [ht] at hks htable hpk
      exact ⟨by rw [ht]; exact hks, by rw [ht]; exact htable, by rw [ht]; exact hpk⟩
  | some t =>
      have hname : t.keyspaceName.isSome := by
        refine hqualified t ?_
        rw [Statement.tables]
        · rw [ht]
          exact List.mem_singleton_self t
        · rintro b rfl
          cases ht
      obtain ⟨hks, htable, hpk⟩ := h
      obtain ⟨name, hname'⟩ := Option.isSome_iff_exists.mp hname
      rw [ht] at hks htable hpk
      refine ⟨?_, by rw [ht]; exact htable, ?_⟩
      · rw [ht, hks]
        simp only [Option.map_some, Option.getD_some, resolveKsName, hname']
      · rw [ht, hpk]
        simp only [Option.bind_some, tableNamed_qualified hname ks ks']

/-! ### The invariant -/

variable {parse : String8 → Except Bytes (Statement ω)} {s : State}

/-- An entry was derived for its query, under a keyspace, `s.changes - n` changes ago. -/
structure EntryLaw (parse : String8 → Except Bytes (Statement ω)) (s : State) (id : UInt64) (entry : PreparedEntry)
    (ks : String8) (n : Nat) (stmt : Statement ω) : Prop where
  parsed : parse entry.queryString = .ok stmt
  keyed : id = hashString entry.queryString.val
  prepared : (entry.queryString, ks, n) ∈ s.prepared
  past : n ≤ s.changes
  version : s.schema.version = entry.schemaVersion + UInt64.ofNat (s.changes - n)
  quiet : n = s.changes → s.changing = false
  reported : n = s.changes → DescribesVariables s.schema entry.queryString ks stmt entry
  table : n = s.changes → RecordsTable stmt → DescribesTable s.schema ks stmt entry
  tableless : stmt.table = none → Tableless entry

structure Sound (parse : String8 → Except Bytes (Statement ω)) (s : State) : Prop where
  probed : SentinelMap.Probed hashId maxPreparedStatements s.cache
  entries : ∀ slot id entry, s.cache slot = some (id, entry) → ∃ ks n stmt, EntryLaw parse s id entry ks n stmt
  kept : ∀ q ∈ s.prepared, ∃ slot entry, s.cache slot = some (hashString q.1.val, entry) ∧ entry.queryString = q.1
  bounded : s.changes < 2 ^ 64

theorem sound_init (schema : Schema) : Sound parse { schema := schema } where
  probed := SentinelMap.probed_empty
  entries _ _ _ h := by cases h
  kept q h := absurd h List.not_mem_nil
  bounded := Nat.two_pow_pos 64

/-- The version tells whether the schema has changed since. -/
theorem EntryLaw.current (hbounded : s.changes < 2 ^ 64) {id : UInt64} {entry : PreparedEntry} {ks : String8} {n : Nat}
    {stmt : Statement ω} (h : EntryLaw parse s id entry ks n stmt) (hversion : entry.schemaVersion = s.schema.version) :
    n = s.changes := by
  have heq := h.version
  rw [← hversion] at heq
  have hzero : UInt64.ofNat (s.changes - n) = 0 := by
    have := (UInt64.add_right_inj (c := entry.schemaVersion)).mp ((UInt64.add_zero _).trans heq)
    exact this.symm
  have hnat := congrArg UInt64.toNat hzero
  rw [UInt64.toNat_ofNat_of_lt' (Nat.lt_of_le_of_lt (Nat.sub_le _ _) hbounded)] at hnat
  have hpast := h.past
  change s.changes - n = 0 at hnat
  omega

/-- What is only added to the queries that were prepared. -/
theorem EntryLaw.mono {id : UInt64} {entry : PreparedEntry} {ks : String8} {n : Nat} {stmt : Statement ω}
    (h : EntryLaw parse s id entry ks n stmt) (cache : Cache) (q : String8 × String8 × Nat) :
    EntryLaw parse { s with cache := cache, prepared := q :: s.prepared } id entry ks n stmt where
  parsed := h.parsed
  keyed := h.keyed
  prepared := List.mem_cons_of_mem q h.prepared
  past := h.past
  version := h.version
  quiet := h.quiet
  reported := h.reported
  table := h.table
  tableless := h.tableless

theorem Sound.find_of_prepared (h : Sound parse s) {q : String8 × String8 × Nat} (hq : q ∈ s.prepared) :
    ∃ slot entry, findEntry s.cache (hashString q.1.val) = some (some (slot, entry)) ∧ entry.queryString = q.1 := by
  obtain ⟨slot, entry, hslot, hquery⟩ := h.kept q hq
  refine ⟨slot, entry, ?_, hquery⟩
  rw [findEntry, h.probed.probe_of_held hslot]
  dsimp only
  rw [hslot]
  rfl

/-- An entry is written at its slot. -/
theorem Sound.store (h : Sound parse s) {query ks : String8} {slot : Nat} {entry : PreparedEntry} {stmt : Statement ω}
    (hquiet : s.changing = false) (hparse : parse query = .ok stmt)
    (hprobed : SentinelMap.Probed hashId maxPreparedStatements
      (Function.update s.cache slot (some (hashString query.val, entry))))
    (hslot : ∀ id e, s.cache slot = some (id, e) → e.queryString = query)
    (hversion : entry.schemaVersion = s.schema.version)
    (hvars : DescribesVariables s.schema query ks stmt entry)
    (htable : RecordsTable stmt → DescribesTable s.schema ks stmt entry)
    (htableless : stmt.table = none → Tableless entry) :
    Sound parse { s with
      cache := Function.update s.cache slot (some (hashString query.val, entry))
      prepared := (query, ks, s.changes) :: s.prepared } where
  probed := hprobed
  entries i id e hi := by
    change Function.update _ _ _ _ = _ at hi
    rw [Function.update_apply] at hi
    split_ifs at hi
    · obtain ⟨rfl, rfl⟩ := Prod.mk.inj (Option.some.inj hi)
      refine ⟨ks, s.changes, stmt, ?_⟩
      have hquery := hvars.queryString
      exact {
        parsed := hquery ▸ hparse
        keyed := by rw [hquery]
        prepared := by rw [hquery]; exact List.mem_cons_self
        past := Nat.le_refl _
        version := by
          change s.schema.version = entry.schemaVersion + UInt64.ofNat (s.changes - s.changes)
          rw [hversion, Nat.sub_self]
          exact (UInt64.add_zero _).symm
        quiet := fun _ => hquiet
        reported := fun _ => hquery ▸ hvars
        table := fun _ => htable
        tableless := htableless }
    · obtain ⟨ks', n, stmt', hlaw⟩ := h.entries i id e hi
      exact ⟨ks', n, stmt', hlaw.mono _ _⟩
  kept q hq := by
    have hnew : ∃ i e, Function.update s.cache slot (some (hashString query.val, entry)) i =
        some (hashString query.val, e) ∧ e.queryString = query :=
      ⟨slot, entry, Function.update_self .., hvars.queryString⟩
    rcases List.mem_cons.mp hq with rfl | hq
    · exact hnew
    · obtain ⟨i, e, hi, hquery⟩ := h.kept q hq
      by_cases heq : i = slot
      · subst heq
        have hsame := hslot _ _ hi
        rw [hquery] at hsame
        rw [hsame]
        exact hnew
      · exact ⟨i, e, (Function.update_of_ne heq ..).trans hi, hquery⟩
  bounded := h.bounded

/-- A query was prepared before. -/
theorem Sound.again (h : Sound parse s) {query ks : String8} {slot : Nat} {entry : PreparedEntry}
    (hslot : s.cache slot = some (hashString query.val, entry)) (hquery : entry.queryString = query) :
    Sound parse { s with prepared := (query, ks, s.changes) :: s.prepared } where
  probed := h.probed
  entries i id e hi := by
    obtain ⟨ks', n, stmt', hlaw⟩ := h.entries i id e hi
    exact ⟨ks', n, stmt', hlaw.mono s.cache _⟩
  kept q hq := by
    rcases List.mem_cons.mp hq with rfl | hq
    · exact ⟨slot, entry, hslot, hquery⟩
    · exact h.kept q hq
  bounded := h.bounded

/-- Where the probe for a query ends. -/
theorem Sound.find_cases (h : Sound parse s) {query ks : String8} (hallowed : Allowed parse s (.prepare query ks)) :
    (∃ slot entry, findEntry s.cache (hashString query.val) = some (some (slot, entry)) ∧
      s.cache slot = some (hashString query.val, entry) ∧ entry.queryString = query) ∨
    ∃ slot, findEntry s.cache (hashString query.val) = some none ∧
      probe hashId maxPreparedStatements s.cache (hashString query.val) = .free slot ∧ s.cache slot = none := by
  obtain ⟨-, hcollide, -, hroom, -⟩ := hallowed
  cases hprobe : probe hashId maxPreparedStatements s.cache (hashString query.val) with
  | full =>
      exfalso
      rcases hroom with ⟨q, hq, rfl⟩ | ⟨d, hd, hfree⟩
      · obtain ⟨slot, entry, hslot, -⟩ := h.kept q hq
        cases hprobe.symm.trans (h.probed.probe_of_held hslot)
      · exact SentinelMap.probeFrom_ne_full hd hfree hprobe
  | free slot =>
      refine Or.inr ⟨slot, ?_, rfl, (SentinelMap.probeFrom_free hprobe).2.1⟩
      rw [findEntry, hprobe]
  | held slot =>
      obtain ⟨entry, hslot⟩ := SentinelMap.exists_of_probe_held hprobe
      obtain ⟨ks', n, stmt, hlaw⟩ := h.entries slot _ entry hslot
      refine Or.inl ⟨slot, entry, ?_, hslot, hcollide _ hlaw.prepared hlaw.keyed.symm⟩
      rw [findEntry, hprobe]
      dsimp only
      rw [hslot]
      rfl

theorem Sound.prepare_spec (h : Sound parse s) {query ks : String8} (hallowed : Allowed parse s (.prepare query ks))
    {stmt : Statement ω} (hparse : parse query = .ok stmt) :
    ∃ entry cache, prepare parse s.schema s.cache query ks = some (.success (hashString query.val) entry, cache) ∧
      DescribesVariables s.schema query ks stmt entry ∧ (RecordsTable stmt → DescribesTable s.schema ks stmt entry) ∧
      Sound parse { s with cache := cache, prepared := (query, ks, s.changes) :: s.prepared } := by
  have hquiet : s.changing = false := hallowed.1
  have hkeyspace := hallowed.2.2.1
  have hnamed : Named stmt := hallowed.2.2.2.2 stmt hparse
  rcases h.find_cases hallowed with ⟨slot, old, hfind, hslot, rfl⟩ | ⟨slot, hfind, hprobe, hnone⟩
  · obtain ⟨ks', n, stmt', hlaw⟩ := h.entries slot _ old hslot
    obtain rfl : stmt' = stmt := Except.ok.inj (hlaw.parsed.symm.trans hparse)
    by_cases hversion : old.schemaVersion = s.schema.version
    · -- the entry is current, and describes the query under the keyspace it was derived under
      have hn := hlaw.current h.bounded hversion
      have hks : ks' = ks ∨ Qualified stmt' :=
        (hkeyspace ks' (hn ▸ hlaw.prepared)).imp_right fun hq => hq stmt' hparse
      refine ⟨old, s.cache, ?_, ?_, fun hrecords => ?_, h.again hslot rfl⟩
      · rw [prepare, hfind]
        simp [Option.filter, hversion]
      · rcases hks with rfl | hqualified
        · exact hlaw.reported hn
        · exact (hlaw.reported hn).of_qualified hqualified
      · rcases hks with rfl | hqualified
        · exact hlaw.table hn hrecords
        · exact (hlaw.table hn hrecords).of_qualified hqualified
    · obtain ⟨entry, hderive, hversion', hvars, htable, htableless⟩ :=
        derive_spec s.schema old.queryString ks hnamed hlaw.tableless
      refine ⟨entry, Function.update s.cache slot (some (hashString old.queryString.val, entry)), ?_, hvars, htable, ?_⟩
      · rw [prepare, hfind]
        simp [Option.filter, hversion, hparse, hderive]
      · refine h.store hquiet hparse (h.probed.modify hslot entry) (fun id e he => ?_) hversion' hvars htable htableless
        obtain ⟨-, rfl⟩ := Prod.mk.inj (Option.some.inj (hslot.symm.trans he))
        rfl
  · obtain ⟨entry, hderive, hversion, hvars, htable, htableless⟩ :=
      @derive_spec ω s.schema query ks {} stmt hnamed fun _ => ⟨rfl, rfl⟩
    refine ⟨entry, Function.update s.cache slot (some (hashString query.val, entry)), ?_, hvars, htable, ?_⟩
    · have hinsert : insertEntry s.cache (hashString query.val) = some (slot, {}) := by
        rw [insertEntry, SentinelMap.freeSlot_of_probe hprobe]
        rfl
      rw [prepare, hfind]
      simp only [Option.bind_eq_bind, Option.bind_some, Option.filter_none, hparse, hinsert, hderive]
    · refine h.store hquiet hparse (h.probed.insert hprobe entry) (fun id e he => ?_) hversion hvars htable htableless
      cases hnone.symm.trans he

/-! ### Steps -/

/-- A query that does not parse is answered and not stored. -/
theorem Sound.prepare_error (h : Sound parse s) {query ks : String8} (hallowed : Allowed parse s (.prepare query ks))
    {err : Bytes} (hparse : parse query = .error err) :
    ∃ message, prepare parse s.schema s.cache query ks = some (.syntaxError message, s.cache) := by
  rcases h.find_cases hallowed with ⟨slot, old, -, hslot, rfl⟩ | ⟨slot, hfind, -, -⟩
  · obtain ⟨ks', n, stmt', hlaw⟩ := h.entries slot _ old hslot
    cases hlaw.parsed.symm.trans hparse
  · refine ⟨if err.length > 0 then err else ascii "Failed to parse CQL", ?_⟩
    rw [prepare, hfind]
    simp only [Option.bind_eq_bind, Option.bind_some, Option.filter_none, hparse]

/-- A schema change makes every entry stale. -/
theorem Sound.beginChange (h : Sound parse s) (hbounded : s.changes + 1 < 2 ^ 64) :
    Sound parse { s with schema := s.schema.bumpVersion, changing := true, changes := s.changes + 1 } where
  probed := h.probed
  entries slot id entry hslot := by
    obtain ⟨ks, n, stmt, hlaw⟩ := h.entries slot id entry hslot
    have hpast := hlaw.past
    have hne : n ≠ s.changes + 1 := by omega
    refine ⟨ks, n, stmt, ?_⟩
    exact {
      parsed := hlaw.parsed
      keyed := hlaw.keyed
      prepared := hlaw.prepared
      past := Nat.le_succ_of_le hpast
      version := by
        change s.schema.version + 1 = _
        rw [hlaw.version, show s.changes + 1 - n = s.changes - n + 1 by omega, UInt64.ofNat_add, UInt64.add_assoc]
        rfl
      quiet := fun heq => absurd heq hne
      reported := fun heq => absurd heq hne
      table := fun heq => absurd heq hne
      tableless := hlaw.tableless }
  kept := h.kept
  bounded := hbounded

/-- While the schema changes no entry is current. -/
theorem Sound.change (h : Sound parse s) {schema : Schema} (hchanging : s.changing = true)
    (hversion : schema.version = s.schema.version) : Sound parse { s with schema := schema } where
  probed := h.probed
  entries slot id entry hslot := by
    obtain ⟨ks, n, stmt, hlaw⟩ := h.entries slot id entry hslot
    have hne : n ≠ s.changes := fun heq => by
      rw [hlaw.quiet heq] at hchanging
      cases hchanging
    exact ⟨ks, n, stmt, hlaw.parsed, hlaw.keyed, hlaw.prepared, hlaw.past, hversion.trans hlaw.version,
      fun heq => absurd heq hne, fun heq => absurd heq hne, fun heq => absurd heq hne, hlaw.tableless⟩
  kept := h.kept
  bounded := h.bounded

theorem Sound.endChange (h : Sound parse s) : Sound parse { s with changing := false } where
  probed := h.probed
  entries slot id entry hslot := by
    obtain ⟨ks, n, stmt, hlaw⟩ := h.entries slot id entry hslot
    exact ⟨ks, n, stmt, hlaw.parsed, hlaw.keyed, hlaw.prepared, hlaw.past, hlaw.version, fun _ => rfl, hlaw.reported,
      hlaw.table, hlaw.tableless⟩
  kept := h.kept
  bounded := h.bounded

theorem sound_step {a : Action} {s' : State} (h : Sound parse s) (hallowed : Allowed parse s a)
    (hstep : step parse s a = some s') : Sound parse s' := by
  cases a with
  | prepare query ks =>
      rw [step] at hstep
      cases hparse : parse query with
      | ok stmt =>
          obtain ⟨entry, cache, hprepare, -, -, hsound⟩ := h.prepare_spec hallowed hparse
          rw [hprepare] at hstep
          exact Option.some.inj hstep ▸ hsound
      | error err =>
          obtain ⟨message, hprepare⟩ := h.prepare_error hallowed hparse
          rw [hprepare] at hstep
          exact Option.some.inj hstep ▸ h
  | execute idData values ks =>
      obtain ⟨-, -, rfl⟩ := Option.map_eq_some_iff.mp hstep
      exact h
  | beginChange => exact Option.some.inj hstep ▸ h.beginChange hallowed
  | change schema =>
      rw [step] at hstep
      split_ifs at hstep with hcond
      exact Option.some.inj hstep ▸ h.change hcond.1 hcond.2
  | endChange => exact Option.some.inj hstep ▸ h.endChange

/-! ### Executing -/

theorem toNat_foldl_id (bytes : Bytes) (id : UInt64) (h : id.toNat < 256 ^ (8 - bytes.length)) (hlen : bytes.length ≤ 8) :
    (bytes.foldl (fun (id : UInt64) (b : UInt8) => (id <<< 8) ||| UInt64.ofNat b.toNat) id).toNat =
      bytes.foldl (fun n b => n * 256 + b.toNat) id.toNat := by
  induction bytes generalizing id with
  | nil => rfl
  | cons b bytes ih =>
      have hb := b.toNat_lt
      rw [List.length_cons] at h hlen
      have hpow : 256 ^ (8 - bytes.length) = 256 ^ (8 - (bytes.length + 1)) * 256 := by
        rw [← pow_succ, show 8 - (bytes.length + 1) + 1 = 8 - bytes.length by omega]
      have hle : 256 ^ (8 - bytes.length) ≤ 256 ^ 8 := Nat.pow_le_pow_right (by decide) (Nat.sub_le _ _)
      have hstep : ((id <<< 8) ||| UInt64.ofNat b.toNat).toNat = id.toNat * 256 + b.toNat := by
        rw [UInt64.toNat_or, UInt64.toNat_shiftLeft, UInt64.toNat_ofNat_of_lt' (hb.trans (by decide))]
        change id.toNat <<< 8 % 2 ^ 64 ||| b.toNat = _
        rw [Nat.shiftLeft_eq, Nat.mod_eq_of_lt (by omega), ← Nat.shiftLeft_eq, ← Nat.shiftLeft_add_eq_or_of_lt hb,
          Nat.shiftLeft_eq]
      rw [List.foldl_cons, List.foldl_cons, ih _ _ (by omega), hstep]
      rw [hstep, hpow]
      omega

theorem readId_idBytes (id : UInt64) : readId (idBytes id) = id := by
  have hlen : (idBytes id).length = 8 := Native.length_beBytes 8 _
  have hid : id.toNat < 256 ^ 8 := id.toNat_lt
  refine UInt64.toNat_inj.mp ?_
  rw [readId, List.take_of_length_le hlen.le, toNat_foldl_id _ 0 (by rw [hlen]; decide) hlen.le]
  exact Native.beValue_beBytes hid

/-- What was prepared is what its id runs. -/
theorem Sound.execute (h : Sound parse s) {q : String8 × String8 × Nat} (hq : q ∈ s.prepared) (values : List Term)
    (ks : String8) : ∃ stmt, parse q.1 = .ok stmt ∧
      executeBytes parse s.cache (idBytes (hashString q.1.val)) values ks = some (.run (stmt.bindValues values) ks) := by
  obtain ⟨slot, entry, hslot, hquery⟩ := h.kept q hq
  obtain ⟨ks', n, stmt, hlaw⟩ := h.entries slot _ entry hslot
  have hparse := hlaw.parsed
  rw [hquery] at hparse
  refine ⟨stmt, hparse, ?_⟩
  obtain ⟨slot', entry', hfind, hquery'⟩ := h.find_of_prepared hq
  rw [executeBytes, readId_idBytes, Prepared.execute, hfind]
  simp only [Option.bind_eq_bind, Option.bind_some, hquery', hparse]

/-! ### Statements on the schema -/

theorem run_bumps (n : Nat) (schema : Schema) (cache : Cache) (changes : Nat)
    (prepared : List (String8 × String8 × Nat)) :
    Run (step parse) (fun _ _ => True) ⟨schema, true, cache, changes, prepared⟩ (List.replicate n .beginChange)
      ⟨{ schema with version := schema.version + UInt64.ofNat n }, true, cache, changes + n, prepared⟩ := by
  induction n generalizing schema changes with
  | zero =>
      have hsame : schema.version + UInt64.ofNat 0 = schema.version := UInt64.add_zero _
      rw [hsame]
      exact .nil _
  | succ n ih =>
      have hversion : schema.version + 1 + UInt64.ofNat n = schema.version + UInt64.ofNat (n + 1) := by
        rw [UInt64.ofNat_add, UInt64.add_comm (UInt64.ofNat n), ← UInt64.add_assoc]
        rfl
      rw [List.replicate_succ, ← hversion, show changes + (n + 1) = changes + 1 + n by omega]
      exact .cons trivial rfl (ih schema.bumpVersion (changes + 1))

/-- Every statement that changes the schema is a history of this kind: the bumps, and what it leaves. -/
theorem change_of_ran {schema' : Schema} {r : Schema.Request} {result : Schema.ExecutionResult}
    (h : Schema.Ran s.schema r result schema') : ∃ as s', Run (step parse) (fun _ _ => True) s as s' ∧
      s'.schema = schema' ∧ s'.cache = s.cache ∧ s'.prepared = s.prepared := by
  obtain ⟨n, hversion, hsame⟩ := h.bumped
  cases n with
  | zero => exact ⟨[], s, .nil s, (hsame rfl).symm, rfl, rfl⟩
  | succ n =>
      have hlast : schema'.version = s.schema.version + 1 + UInt64.ofNat n := by
        rw [hversion, UInt64.ofNat_add, UInt64.add_comm (UInt64.ofNat n), UInt64.add_assoc]
        rfl
      have hbumps := @run_bumps _ parse n s.schema.bumpVersion s.cache (s.changes + 1) s.prepared
      have hchange : step parse ⟨{ s.schema.bumpVersion with version := s.schema.version + 1 + UInt64.ofNat n }, true,
          s.cache, s.changes + 1 + n, s.prepared⟩ (.change schema') =
            some ⟨schema', true, s.cache, s.changes + 1 + n, s.prepared⟩ := if_pos ⟨rfl, hlast⟩
      exact ⟨.beginChange :: (List.replicate n .beginChange ++ [.change schema', .endChange]),
        ⟨schema', false, s.cache, s.changes + 1 + n, s.prepared⟩,
        .cons trivial rfl (hbumps.append (.cons trivial hchange (.cons trivial rfl (.nil _)))), rfl, rfl, rfl⟩

/-! ### Histories that keep to the condition -/

/-- In every history whose steps all meet the condition, the entry that `prepare` returns has the text and the bind
variables of the query under the keyspace in the current schema, and, but for an UPDATE, a DELETE or a SELECT, its
table; and the ids that were returned run their queries. -/
theorem prepared_entries_describe {ω : Type} (parse : String8 → Except Bytes (Statement ω)) (schema : Schema)
    {as : List Action} {s : State} (hrun : Run (step parse) (Allowed parse) { schema := schema } as s) :
    (∀ query ks stmt, parse query = .ok stmt → Allowed parse s (.prepare query ks) →
      ∃ entry cache, prepare parse s.schema s.cache query ks = some (.success (hashString query.val) entry, cache) ∧
        DescribesVariables s.schema query ks stmt entry ∧
        (RecordsTable stmt → DescribesTable s.schema ks stmt entry)) ∧
      ∀ query ks n, (query, ks, n) ∈ s.prepared → ∀ values ks', ∃ stmt, parse query = .ok stmt ∧
        executeBytes parse s.cache (idBytes (hashString query.val)) values ks' =
          some (.run (stmt.bindValues values) ks') := by
  have hsound : Sound parse s :=
    Run.invariant (fun _ _ _ h hallowed hstep => sound_step h hallowed hstep) hrun (sound_init schema)
  refine ⟨fun query ks stmt hparse hallowed => ?_, fun query ks n hq values ks' => hsound.execute hq values ks'⟩
  obtain ⟨entry, cache, hprepare, hvars, htable, -⟩ := hsound.prepare_spec hallowed hparse
  exact ⟨entry, cache, hprepare, hvars, htable⟩

end

/-! ### Two keyspaces -/

def insertQuery : String8 := ⟨ascii "INSERT INTO users (id) VALUES (?)", by decide⟩

def usersTable : String8 := ⟨ascii "users", by decide⟩

def idColumn : String8 := ⟨ascii "id", by decide⟩

def firstKeyspace : String8 := ⟨ascii "k1", by decide⟩

def secondKeyspace : String8 := ⟨ascii "k2", by decide⟩

def insertStatement : Statement Empty :=
  .dml (.insert ⟨⟨none, usersTable⟩, .namesValues [idColumn] [.bindMarker ⟨[], 0⟩], false, []⟩)

def parseInsert (query : String8) : Except Bytes (Statement Empty) :=
  if query = insertQuery then .ok insertStatement else .error []

/-- A table `users` in each of two keyspaces, with a key of another type. -/
def twoKeyspaces : Schema where
  keyspaces := [⟨false, firstKeyspace, {}, [(usersTable, 0)], []⟩, ⟨false, secondKeyspace, {}, [(usersTable, 1)], []⟩]
  keyspacesByName := [(firstKeyspace, 0), (secondKeyspace, 1)]
  tables :=
    [⟨0, false, usersTable, [⟨false, false, idColumn, .basic .int, .partitionKey, 0, .asc⟩], [], [], 1, {}⟩,
      ⟨1, false, usersTable, [⟨false, false, idColumn, .basic .text, .partitionKey, 0, .asc⟩], [], [], 2, {}⟩]

/-- The query is prepared under the first keyspace, and the schema changes. -/
theorem prepared_entries_describe_insert :
    ∃ s, Run (step parseInsert) (Allowed parseInsert) { schema := twoKeyspaces }
        [.prepare insertQuery firstKeyspace, .beginChange, .endChange] s ∧
      s.prepared.map Prod.fst = [insertQuery] ∧
      (∀ query ks stmt, parseInsert query = .ok stmt → Allowed parseInsert s (.prepare query ks) →
        ∃ entry cache, prepare parseInsert s.schema s.cache query ks =
            some (.success (hashString query.val) entry, cache) ∧
          DescribesVariables s.schema query ks stmt entry ∧
          (RecordsTable stmt → DescribesTable s.schema ks stmt entry)) ∧
      ∀ query ks n, (query, ks, n) ∈ s.prepared → ∀ values ks', ∃ stmt, parseInsert query = .ok stmt ∧
        executeBytes parseInsert s.cache (idBytes (hashString query.val)) values ks' =
          some (.run (stmt.bindValues values) ks') := by
  have hfirst : (step parseInsert { schema := twoKeyspaces } (.prepare insertQuery firstKeyspace)).map
      (fun s => (s.prepared.map Prod.fst, s.changes)) = some ([insertQuery], 0) := by decide +kernel
  obtain ⟨s, hs, hfacts⟩ := Option.map_eq_some_iff.mp hfirst
  obtain ⟨hprepared, hchanges⟩ := Prod.mk.inj hfacts
  have hallowed : Allowed parseInsert { schema := twoKeyspaces } (.prepare insertQuery firstKeyspace) := by
    refine ⟨rfl, List.forall_mem_nil _, fun _ h => absurd h List.not_mem_nil, Or.inr ⟨0, by decide, rfl⟩,
      fun stmt hstmt => ?_⟩
    obtain rfl : insertStatement = stmt := Except.ok.inj hstmt
    exact (by decide : markersNamed [idColumn] [.bindMarker ⟨[], 0⟩] = true)
  have hrun : Run (step parseInsert) (Allowed parseInsert) { schema := twoKeyspaces }
      [.prepare insertQuery firstKeyspace, .beginChange, .endChange] _ :=
    .cons hallowed hs (.cons (by rw [Allowed, hchanges]; decide) rfl (.cons trivial rfl (.nil _)))
  exact ⟨_, hrun, hprepared, prepared_entries_describe parseInsert twoKeyspaces hrun⟩

/-- Prepared under the first keyspace and then under the second one, the query has the entry of the first one. -/
theorem entry_of_other_keyspace :
    ¬∀ as s, Run (step parseInsert) (fun _ _ => True) { schema := twoKeyspaces } as s →
      ∀ query ks stmt, parseInsert query = .ok stmt →
        ∃ entry cache, prepare parseInsert s.schema s.cache query ks =
            some (.success (hashString query.val) entry, cache) ∧
          DescribesVariables s.schema query ks stmt entry ∧ DescribesTable s.schema ks stmt entry := by
  intro h
  have hsecond : ((step parseInsert { schema := twoKeyspaces } (.prepare insertQuery firstKeyspace)).bind fun s =>
      (prepare parseInsert s.schema s.cache insertQuery secondKeyspace).map fun r =>
        match r.1 with
        | .success _ entry => entry.keyspace
        | .syntaxError _ => emptyString) = some firstKeyspace := by decide +kernel
  obtain ⟨s, hs, hsecond⟩ := Option.bind_eq_some_iff.mp hsecond
  obtain ⟨entry, cache, hprepare, -, htable⟩ :=
    h _ s (Run.single trivial hs) insertQuery secondKeyspace insertStatement rfl
  rw [hprepare] at hsecond
  have hkeyspace : entry.keyspace = firstKeyspace := Option.some.inj hsecond
  exact absurd (hkeyspace.symm.trans htable.keyspace) (by decide)

end Plexdb.Cql.Prepared
