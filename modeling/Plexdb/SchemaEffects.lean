import Plexdb.SchemaSteps

/-! What a statement can do to the schema: nothing, or one operation under the look-ups that led to
it. Every invariant of the schema is derived from these cases. -/

namespace Plexdb.Cql.Schema

/-! ### Error results -/

theorem addColumnOf_fail {s : Schema} {ksName : String8} {cols : List Column} {ifNotExists : Bool}
    {d : ColumnDefinition} {failure : ExecutionResult}
    (h : s.addColumnOf ksName cols ifNotExists d = .fail failure) : failure.status = .invalid := by
  rw [addColumnOf] at h
  cases hresolve : s.resolveTypeAst ksName d.type with
  | error e => rw [hresolve] at h; cases h; rfl
  | ok type =>
      rw [hresolve] at h
      dsimp only at h
      by_cases hfind : (findColumn cols d.name).isSome
      · rw [if_pos hfind] at h
        split_ifs at h
        cases h
        rfl
      rw [if_neg hfind] at h
      cases hdead : cols.find? fun col => col.tombstone && col.name = d.name with
      | none => rw [hdead] at h; cases h
      | some col =>
          rw [hdead] at h
          dsimp only at h
          split_ifs at h
          cases h
          rfl

theorem addColumns_result {ksName : String8} {t : Nat} {ifNotExists : Bool} {ds : List ColumnDefinition}
    {s s' : Schema} {result : ExecutionResult}
    (h : addColumns ksName t ifNotExists ds s = some (some result, s')) : result.status ≠ .success := by
  induction ds generalizing s with
  | nil => cases h
  | cons d ds ih =>
      obtain ⟨tbl, -, h⟩ := Option.bind_eq_some_iff.mp h
      cases hadd : s.addColumnOf ksName tbl.cols ifNotExists d with
      | fail failure =>
          rw [hadd] at h
          obtain ⟨hfail, -⟩ := Prod.mk.inj (Option.some.inj h)
          rw [← Option.some.inj hfail, addColumnOf_fail hadd]
          decide
      | skip => rw [hadd] at h; exact ih h
      | add c =>
          rw [hadd] at h
          obtain ⟨s₁, -, h⟩ := Option.bind_eq_some_iff.mp h
          exact ih h

theorem dropColumns_result {t : Nat} {ifExists : Bool} {names : List String8} {s s' : Schema}
    {result : ExecutionResult} (h : dropColumns t ifExists names s = some (some result, s')) :
    result.status ≠ .success := by
  induction names generalizing s with
  | nil => cases h
  | cons name names ih =>
      obtain ⟨tbl, -, h⟩ := Option.bind_eq_some_iff.mp h
      split_ifs at h
      · exact ih h
      · obtain ⟨hfail, -⟩ := Prod.mk.inj (Option.some.inj h)
        obtain rfl := Option.some.inj hfail
        exact (by decide : ExecutionStatus.invalid ≠ .success)
      · obtain ⟨⟨r₁, s₁⟩, -, h⟩ := Option.bind_eq_some_iff.mp h
        exact ih h

theorem addFields_result {ksName : String8} {ks : Nat} {name : String8} {ds : List ColumnDefinition}
    {s s' : Schema} {result : ExecutionResult}
    (h : addFields ksName ks name ds s = some (some result, s')) : result.status ≠ .success := by
  induction ds generalizing s with
  | nil => cases h
  | cons d ds ih =>
      rw [addFields] at h
      cases hresolve : s.resolveTypeAst ksName d.type with
      | error e =>
          rw [hresolve] at h
          obtain ⟨hfail, -⟩ := Prod.mk.inj (Option.some.inj h)
          obtain rfl := Option.some.inj hfail
          exact (by decide : ExecutionStatus.invalid ≠ .success)
      | ok type =>
          rw [hresolve] at h
          dsimp only at h
          cases halter : s.alterUdtAddField ks name d.name type with
          | none => rw [halter] at h; cases h
          | some altered =>
              obtain ⟨answer, s₁⟩ := altered
              rw [halter] at h
              cases answer with
              | error e =>
                  obtain ⟨hfail, -⟩ := Prod.mk.inj (Option.some.inj h)
                  obtain rfl := Option.some.inj hfail
                  exact (by decide : ExecutionStatus.invalid ≠ .success)
              | ok _ => exact ih h

/-! ### Effects -/

/-- The keyspace that a statement names, or else that of its connection. -/
def Request.ksName (r : Request) (name : TableName) : String8 :=
  resolveKsName name.keyspaceName r.currentKeyspace

/-- `Ran s r result s'`: a request took the schema from `s` to `s'` in one of these ways. -/
inductive Ran (s : Schema) (r : Request) : ExecutionResult → Schema → Prop where
  | unchanged (result : ExecutionResult) : Ran s r result s
  | createKeyspace {create : CreateKeyspace} {a : Result Nat} {s' : Schema} {result : ExecutionResult}
      (hstmt : r.statement = .createKeyspace create) (h : s.createKeyspace create = some (a, s'))
      (hresult : result.status = .success ↔ a.isOk) : Ran s r result s'
  | dropKeyspace {keyspace : String8} {ifExists : Bool} {ks : Nat} {result : ExecutionResult}
      (hstmt : r.statement = .dropKeyspace keyspace ifExists) (hks : s.readKeyspace keyspace = some ks)
      (hresult : result.status = .success) : Ran s r result (s.deleteKeyspace keyspace).2
  | createTable {create : CreateTable} {ks : Nat} {a : Result Nat} {s' : Schema} {result : ExecutionResult}
      (hstmt : r.statement = .createTable create) (hks : s.resolveKs (r.ksName create.name) = .ok ks)
      (hnames : duplicateName create.columnDefinitions = none)
      (h : s.createTable ks create r.newPage = some (a, s'))
      (hresult : result.status = .success ↔ a.isOk) : Ran s r result s'
  | dropTable {table : TableName} {ifExists : Bool} {ks : Nat} {result : ExecutionResult}
      (hstmt : r.statement = .dropTable table ifExists) (hks : s.resolveKs (r.ksName table) = .ok ks)
      (hresult : (s.deleteTable ks table.tableName).1.isOk → result.status = .success) :
      Ran s r result (s.deleteTable ks table.tableName).2
  | addColumns {table : TableName} {ifExists ifNotExists : Bool} {defs : List ColumnDefinition} {ks t : Nat}
      {a : Option ExecutionResult} {s' : Schema} {result : ExecutionResult}
      (hstmt : r.statement = .alterTable table ifExists (.addColumns ifNotExists defs))
      (hks : s.resolveKs (r.ksName table) = .ok ks) (ht : s.readTable ks table.tableName = some t)
      (h : Schema.addColumns (r.ksName table) t ifNotExists defs s = some (a, s'))
      (hresult : result.status = .success ↔ a = none) : Ran s r result s'
  | dropColumns {table : TableName} {ifExists ifExistsColumn : Bool} {names : List String8} {ks t : Nat}
      {a : Option ExecutionResult} {s' : Schema} {result : ExecutionResult}
      (hstmt : r.statement = .alterTable table ifExists (.dropColumns ifExistsColumn names))
      (hks : s.resolveKs (r.ksName table) = .ok ks) (ht : s.readTable ks table.tableName = some t)
      (h : Schema.dropColumns t ifExistsColumn names s = some (a, s'))
      (hresult : result.status = .success ↔ a = none) : Ran s r result s'
  | setTableOptions {table : TableName} {ifExists : Bool} {opts : List OptionPair} {ks t : Nat}
      {options : TableOptions} {result : ExecutionResult}
      (hstmt : r.statement = .alterTable table ifExists (.options opts))
      (hks : s.resolveKs (r.ksName table) = .ok ks) (ht : s.readTable ks table.tableName = some t)
      (hresult : result.status = .success) : Ran s r result (s.setTableOptions t options)
  | createIndex {create : CreateIndex} {ks t colIdx : Nat} {tbl : Table} {name : String8} {kind : IndexKind}
      {s' : Schema} {result : ExecutionResult} (hstmt : r.statement = .createIndex create)
      (hks : s.resolveKs (r.ksName create.table) = .ok ks)
      (ht : s.readTable ks create.table.tableName = some t) (htbl : s.tables[t]? = some tbl)
      (hname : readIndex tbl name = none) (h : s.createIndex t colIdx name kind r.newPage = some s')
      (hresult : result.status = .success) : Ran s r result s'
  | dropIndex {indexName : TableName} {ifExists : Bool} {ks t : Nat} {a : Result Unit} {s' : Schema}
      {result : ExecutionResult} (hstmt : r.statement = .dropIndex indexName ifExists)
      (hks : s.resolveKs (r.ksName indexName) = .ok ks)
      (ht : s.findIndexTable ks indexName.tableName = some t)
      (h : s.deleteIndex t indexName.tableName = some (a, s'))
      (hresult : result.status = .success) : Ran s r result s'
  | createType {name : TableName} {ifNotExists : Bool} {defs : List ColumnDefinition} {ks : Nat}
      {fields : List (String8 × Ty)} {a : Result Nat} {s' : Schema} {result : ExecutionResult}
      (hstmt : r.statement = .createType name ifNotExists defs)
      (hks : s.resolveKs (r.ksName name) = .ok ks) (hfields : s.resolveFields (r.ksName name) defs = .ok fields)
      (h : s.createUdt ks name.tableName fields = some (a, s'))
      (hresult : result.status = .success ↔ a.isOk) : Ran s r result s'
  | addFields {name : TableName} {defs : List ColumnDefinition} {ks : Nat} {a : Option ExecutionResult}
      {s' : Schema} {result : ExecutionResult} (hstmt : r.statement = .alterType name (.addFields defs))
      (hks : s.resolveKs (r.ksName name) = .ok ks)
      (h : Schema.addFields (r.ksName name) ks name.tableName defs s = some (a, s'))
      (hresult : result.status = .success ↔ a = none) : Ran s r result s'
  | renameFields {name : TableName} {renames : List (String8 × String8)} {ks : Nat} {a : Result Unit}
      {s' : Schema} {result : ExecutionResult} (hstmt : r.statement = .alterType name (.renameFields renames))
      (hks : s.resolveKs (r.ksName name) = .ok ks)
      (h : s.alterUdtRenameFields ks name.tableName renames = some (a, s'))
      (hresult : result.status = .success ↔ a.isOk) : Ran s r result s'
  | dropType {name : TableName} {ifExists : Bool} {ks : Nat} {a : Result Unit} {s' : Schema}
      {result : ExecutionResult} (hstmt : r.statement = .dropType name ifExists)
      (hks : s.resolveKs (r.ksName name) = .ok ks) (h : s.deleteUdt ks name.tableName = some (a, s'))
      (hresult : result.status = .success ↔ a.isOk) : Ran s r result s'

/-- A result that leaves the schema alone. -/
theorem Ran.of_unchanged {s s' : Schema} {r : Request} {result result' : ExecutionResult}
    (h : some (result', s) = some (result, s')) : Ran s r result s' := by
  obtain ⟨rfl, rfl⟩ := Prod.mk.inj (Option.some.inj h)
  exact .unchanged result'

variable {s s' : Schema} {r : Request} {result : ExecutionResult}

theorem ran_createKeyspace {create : CreateKeyspace} (hstmt : r.statement = .createKeyspace create)
    (h : s.executeCreateKeyspace create = some (result, s')) : Ran s r result s' := by
  rw [executeCreateKeyspace] at h
  by_cases hsystem : isSystemKeyspace create.name
  · rw [if_pos hsystem] at h; exact .of_unchanged h
  rw [if_neg hsystem] at h
  by_cases hlong : create.name.val.length > 192
  · rw [if_pos hlong] at h; exact .of_unchanged h
  rw [if_neg hlong] at h
  by_cases hlive : (s.readKeyspace create.name).isSome
  · rw [if_pos hlive] at h; exact .of_unchanged h
  rw [if_neg hlive] at h
  cases hcreate : s.createKeyspace create with
  | none => rw [hcreate] at h; cases h
  | some created =>
      obtain ⟨a, s₁⟩ := created
      rw [hcreate] at h
      cases a with
      | error e =>
          obtain ⟨rfl, rfl⟩ := Prod.mk.inj (Option.some.inj h)
          refine .createKeyspace hstmt hcreate ⟨fun hs => ?_, fun hok => by cases hok⟩
          rw [createKeyspaceFailure] at hs
          split_ifs at hs
          cases hs
      | ok n =>
          obtain ⟨rfl, rfl⟩ := Prod.mk.inj (Option.some.inj h)
          exact .createKeyspace hstmt hcreate (iff_of_true rfl rfl)

theorem ran_dropKeyspace {keyspace : String8} {ifExists : Bool}
    (hstmt : r.statement = .dropKeyspace keyspace ifExists)
    (h : some (s.executeDropKeyspace keyspace ifExists) = some (result, s')) : Ran s r result s' := by
  rw [executeDropKeyspace] at h
  by_cases hsystem : isSystemKeyspace keyspace
  · rw [if_pos hsystem] at h; exact .of_unchanged h
  rw [if_neg hsystem] at h
  cases hlive : s.readKeyspace keyspace with
  | none => rw [hlive] at h; exact .of_unchanged h
  | some ks =>
      rw [hlive] at h
      obtain ⟨rfl, rfl⟩ := Prod.mk.inj (Option.some.inj h)
      exact .dropKeyspace hstmt hlive rfl

theorem ran_createTable {create : CreateTable} (hstmt : r.statement = .createTable create)
    (h : s.executeCreateTable r.currentKeyspace create r.newPage = some (result, s')) : Ran s r result s' := by
  rw [executeCreateTable] at h
  cases hks : s.resolveKs (resolveKsName create.name.keyspaceName r.currentKeyspace) with
  | error e => rw [hks] at h; exact .of_unchanged h
  | ok ks =>
      rw [hks] at h
      dsimp only at h
      by_cases hlive : (s.readTable ks create.name.tableName).isSome
      · rw [if_pos hlive] at h; exact .of_unchanged h
      rw [if_neg hlive] at h
      cases hnames : duplicateName create.columnDefinitions with
      | some name => rw [hnames] at h; exact .of_unchanged h
      | none =>
          rw [hnames] at h
          dsimp only at h
          cases hcreate : s.createTable ks create r.newPage with
          | none => rw [hcreate] at h; cases h
          | some created =>
              obtain ⟨a, s₁⟩ := created
              rw [hcreate] at h
              cases a with
              | error e =>
                  obtain ⟨rfl, rfl⟩ := Prod.mk.inj (Option.some.inj h)
                  refine .createTable hstmt hks hnames hcreate ⟨fun hs => ?_, fun hok => by cases hok⟩
                  rw [createTableFailure] at hs
                  split_ifs at hs <;> cases hs
              | ok n =>
                  obtain ⟨rfl, rfl⟩ := Prod.mk.inj (Option.some.inj h)
                  exact .createTable hstmt hks hnames hcreate (iff_of_true rfl rfl)

theorem ran_dropTable {table : TableName} {ifExists : Bool} (hstmt : r.statement = .dropTable table ifExists)
    (h : some (s.executeDropTable r.currentKeyspace table ifExists) = some (result, s')) :
    Ran s r result s' := by
  rw [executeDropTable] at h
  cases hks : s.resolveKs (resolveKsName table.keyspaceName r.currentKeyspace) with
  | error e => rw [hks] at h; exact .of_unchanged h
  | ok ks =>
      rw [hks] at h
      dsimp only at h
      cases hdelete : s.deleteTable ks table.tableName with
      | mk a s₁ =>
          have hrun := @Ran.dropTable s r table ifExists ks result hstmt hks
          rw [hdelete] at h hrun
          cases a with
          | error e =>
              obtain ⟨-, rfl⟩ := Prod.mk.inj (Option.some.inj h)
              exact hrun fun hok => by cases hok
          | ok _ =>
              obtain ⟨rfl, rfl⟩ := Prod.mk.inj (Option.some.inj h)
              exact hrun fun _ => rfl

theorem ran_alterTable {table : TableName} {ifExists : Bool} {instruction : AlterTableInstruction}
    (hstmt : r.statement = .alterTable table ifExists instruction)
    (h : s.executeAlterTable r.currentKeyspace table ifExists instruction = some (result, s')) :
    Ran s r result s' := by
  rw [executeAlterTable] at h
  cases hks : s.resolveKs (resolveKsName table.keyspaceName r.currentKeyspace) with
  | error e => rw [hks] at h; exact .of_unchanged h
  | ok ks =>
      rw [hks] at h
      dsimp only at h
      cases ht : s.readTable ks table.tableName with
      | none => rw [ht] at h; exact .of_unchanged h
      | some t =>
          rw [ht] at h
          dsimp only at h
          cases instruction with
          | addColumns ifNotExists defs =>
              rw [executeAlterTableInstruction] at h
              cases hadd : Schema.addColumns (resolveKsName table.keyspaceName r.currentKeyspace) t
                  ifNotExists defs s with
              | none => rw [hadd] at h; cases h
              | some added =>
                  obtain ⟨a, s₁⟩ := added
                  rw [hadd] at h
                  cases a with
                  | none =>
                      obtain ⟨rfl, rfl⟩ := Prod.mk.inj (Option.some.inj h)
                      exact .addColumns hstmt hks ht hadd (iff_of_true rfl rfl)
                  | some failure =>
                      obtain ⟨rfl, rfl⟩ := Prod.mk.inj (Option.some.inj h)
                      exact .addColumns hstmt hks ht hadd
                        (iff_of_false (addColumns_result hadd) fun heq => by cases heq)
          | dropColumns ifExistsColumn names =>
              rw [executeAlterTableInstruction] at h
              cases hdrop : Schema.dropColumns t ifExistsColumn names s with
              | none => rw [hdrop] at h; cases h
              | some dropped =>
                  obtain ⟨a, s₁⟩ := dropped
                  rw [hdrop] at h
                  cases a with
                  | none =>
                      obtain ⟨rfl, rfl⟩ := Prod.mk.inj (Option.some.inj h)
                      exact .dropColumns hstmt hks ht hdrop (iff_of_true rfl rfl)
                  | some failure =>
                      obtain ⟨rfl, rfl⟩ := Prod.mk.inj (Option.some.inj h)
                      exact .dropColumns hstmt hks ht hdrop
                        (iff_of_false (dropColumns_result hdrop) fun heq => by cases heq)
          | renameColumns => cases h
          | alterColumn => cases h
          | options opts =>
              rw [executeAlterTableInstruction] at h
              cases hparse : parseTableOptions (opts.map .pair) {} with
              | error e => rw [hparse] at h; exact .of_unchanged h
              | ok parsed =>
                  rw [hparse] at h
                  obtain ⟨tbl, -, h⟩ := Option.bind_eq_some_iff.mp h
                  obtain ⟨rfl, rfl⟩ := Prod.mk.inj (Option.some.inj h)
                  exact .setTableOptions hstmt hks ht rfl

theorem ran_createIndex {create : CreateIndex} (hstmt : r.statement = .createIndex create)
    (h : s.executeCreateIndex r.currentKeyspace create r.newPage = some (result, s')) : Ran s r result s' := by
  rw [executeCreateIndex] at h
  cases hks : s.resolveKs (resolveKsName create.table.keyspaceName r.currentKeyspace) with
  | error e => rw [hks] at h; exact .of_unchanged h
  | ok ks =>
      rw [hks] at h
      dsimp only at h
      cases ht : s.readTable ks create.table.tableName with
      | none => rw [ht] at h; exact .of_unchanged h
      | some t =>
          rw [ht] at h
          obtain ⟨tbl, htbl, h⟩ := Option.bind_eq_some_iff.mp h
          rw [executeCreateIndexOn] at h
          cases hcol : findColumn tbl.cols create.columnName with
          | none => rw [hcol] at h; exact .of_unchanged h
          | some colIdx =>
              rw [hcol] at h
              obtain ⟨col, -, h⟩ := Option.bind_eq_some_iff.mp h
              cases hcheck : checkCreateIndex tbl colIdx col create with
              | error message => rw [hcheck] at h; exact .of_unchanged h
              | ok kind =>
                  rw [hcheck] at h
                  obtain ⟨name, -, h⟩ := Option.bind_eq_some_iff.mp h
                  by_cases hname : (readIndex tbl name).isSome
                  · rw [if_pos hname] at h; exact .of_unchanged h
                  rw [if_neg hname] at h
                  obtain ⟨s₁, hcreate, h⟩ := Option.bind_eq_some_iff.mp h
                  obtain ⟨rfl, rfl⟩ := Prod.mk.inj (Option.some.inj h)
                  exact .createIndex hstmt hks ht htbl (Option.not_isSome_iff_eq_none.mp hname) hcreate rfl

theorem ran_dropIndex {indexName : TableName} {ifExists : Bool}
    (hstmt : r.statement = .dropIndex indexName ifExists)
    (h : s.executeDropIndex r.currentKeyspace indexName ifExists = some (result, s')) : Ran s r result s' := by
  rw [executeDropIndex] at h
  cases hks : s.resolveKs (resolveKsName indexName.keyspaceName r.currentKeyspace) with
  | error e => rw [hks] at h; exact .of_unchanged h
  | ok ks =>
      rw [hks] at h
      dsimp only at h
      cases ht : s.findIndexTable ks indexName.tableName with
      | none => rw [ht] at h; exact .of_unchanged h
      | some t =>
          rw [ht] at h
          obtain ⟨tbl, -, h⟩ := Option.bind_eq_some_iff.mp h
          obtain ⟨⟨a, s₁⟩, hdelete, h⟩ := Option.bind_eq_some_iff.mp h
          obtain ⟨rfl, rfl⟩ := Prod.mk.inj (Option.some.inj h)
          exact .dropIndex hstmt hks ht hdelete rfl

theorem ran_createType {name : TableName} {ifNotExists : Bool} {defs : List ColumnDefinition}
    (hstmt : r.statement = .createType name ifNotExists defs)
    (h : s.executeCreateType r.currentKeyspace name ifNotExists defs = some (result, s')) :
    Ran s r result s' := by
  rw [executeCreateType] at h
  cases hks : s.resolveKs (resolveKsName name.keyspaceName r.currentKeyspace) with
  | error e => rw [hks] at h; exact .of_unchanged h
  | ok ks =>
      rw [hks] at h
      dsimp only at h
      by_cases hread : (s.readUdt ks name.tableName).isSome
      · rw [if_pos hread] at h; exact .of_unchanged h
      rw [if_neg hread] at h
      cases hfields : s.resolveFields (resolveKsName name.keyspaceName r.currentKeyspace) defs with
      | error e => rw [hfields] at h; exact .of_unchanged h
      | ok fields =>
          rw [hfields] at h
          dsimp only at h
          cases hcreate : s.createUdt ks name.tableName fields with
          | none => rw [hcreate] at h; cases h
          | some created =>
              obtain ⟨a, s₁⟩ := created
              rw [hcreate] at h
              cases a with
              | error e =>
                  obtain ⟨rfl, rfl⟩ := Prod.mk.inj (Option.some.inj h)
                  exact .createType hstmt hks hfields hcreate
                    (iff_of_false (fun heq => by cases heq) fun hok => by cases hok)
              | ok n =>
                  obtain ⟨rfl, rfl⟩ := Prod.mk.inj (Option.some.inj h)
                  exact .createType hstmt hks hfields hcreate (iff_of_true rfl rfl)

theorem ran_alterType {name : TableName} {instruction : AlterTypeInstruction}
    (hstmt : r.statement = .alterType name instruction)
    (h : s.executeAlterType r.currentKeyspace name instruction = some (result, s')) : Ran s r result s' := by
  rw [executeAlterType] at h
  cases hks : s.resolveKs (resolveKsName name.keyspaceName r.currentKeyspace) with
  | error e => rw [hks] at h; exact .of_unchanged h
  | ok ks =>
      rw [hks] at h
      dsimp only at h
      by_cases hread : (s.readUdt ks name.tableName).isNone
      · rw [if_pos hread] at h; exact .of_unchanged h
      rw [if_neg hread] at h
      cases instruction with
      | addFields defs =>
          rw [executeAlterTypeInstruction] at h
          cases hadd : Schema.addFields (resolveKsName name.keyspaceName r.currentKeyspace) ks
              name.tableName defs s with
          | none => rw [hadd] at h; cases h
          | some added =>
              obtain ⟨a, s₁⟩ := added
              rw [hadd] at h
              cases a with
              | none =>
                  obtain ⟨rfl, rfl⟩ := Prod.mk.inj (Option.some.inj h)
                  exact .addFields hstmt hks hadd (iff_of_true rfl rfl)
              | some failure =>
                  obtain ⟨rfl, rfl⟩ := Prod.mk.inj (Option.some.inj h)
                  exact .addFields hstmt hks hadd
                    (iff_of_false (addFields_result hadd) fun heq => by cases heq)
      | renameFields renames =>
          rw [executeAlterTypeInstruction] at h
          cases hrename : s.alterUdtRenameFields ks name.tableName renames with
          | none => rw [hrename] at h; cases h
          | some altered =>
              obtain ⟨a, s₁⟩ := altered
              rw [hrename] at h
              cases a with
              | error e =>
                  obtain ⟨rfl, rfl⟩ := Prod.mk.inj (Option.some.inj h)
                  exact .renameFields hstmt hks hrename
                    (iff_of_false (fun heq => by cases heq) fun hok => by cases hok)
              | ok _ =>
                  obtain ⟨rfl, rfl⟩ := Prod.mk.inj (Option.some.inj h)
                  exact .renameFields hstmt hks hrename (iff_of_true rfl rfl)

theorem ran_dropType {name : TableName} {ifExists : Bool} (hstmt : r.statement = .dropType name ifExists)
    (h : s.executeDropType r.currentKeyspace name ifExists = some (result, s')) : Ran s r result s' := by
  rw [executeDropType] at h
  cases hks : s.resolveKs (resolveKsName name.keyspaceName r.currentKeyspace) with
  | error e => rw [hks] at h; exact .of_unchanged h
  | ok ks =>
      rw [hks] at h
      dsimp only at h
      by_cases hread : (s.readUdt ks name.tableName).isNone
      · rw [if_pos hread] at h; exact .of_unchanged h
      rw [if_neg hread] at h
      cases hdelete : s.deleteUdt ks name.tableName with
      | none => rw [hdelete] at h; cases h
      | some deleted =>
          obtain ⟨a, s₁⟩ := deleted
          rw [hdelete] at h
          cases a with
          | error e =>
              obtain ⟨rfl, rfl⟩ := Prod.mk.inj (Option.some.inj h)
              exact .dropType hstmt hks hdelete
                (iff_of_false (fun heq => by cases heq) fun hok => by cases hok)
          | ok _ =>
              obtain ⟨rfl, rfl⟩ := Prod.mk.inj (Option.some.inj h)
              exact .dropType hstmt hks hdelete (iff_of_true rfl rfl)

/-- Every statement that returns ran in one of these ways. -/
theorem ran_of_execute (h : s.execute r = some (result, s')) : Ran s r result s' := by
  rw [execute] at h
  cases hstmt : r.statement with
  | createKeyspace create => rw [hstmt] at h; exact ran_createKeyspace hstmt h
  | alterKeyspace ks ifExists options classOnly => rw [hstmt] at h; exact .of_unchanged h
  | dropKeyspace ks ifExists => rw [hstmt] at h; exact ran_dropKeyspace hstmt h
  | createTable create => rw [hstmt] at h; exact ran_createTable hstmt h
  | dropTable table ifExists => rw [hstmt] at h; exact ran_dropTable hstmt h
  | alterTable table ifExists instruction => rw [hstmt] at h; exact ran_alterTable hstmt h
  | createIndex create => rw [hstmt] at h; exact ran_createIndex hstmt h
  | dropIndex name ifExists => rw [hstmt] at h; exact ran_dropIndex hstmt h
  | createType name ifNotExists fields => rw [hstmt] at h; exact ran_createType hstmt h
  | alterType name instruction => rw [hstmt] at h; exact ran_alterType hstmt h
  | dropType name ifExists => rw [hstmt] at h; exact ran_dropType hstmt h

end Plexdb.Cql.Schema
