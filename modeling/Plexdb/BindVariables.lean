import Plexdb.DmlStatements
import Plexdb.Holes

/-! Bind variables (`cql/engine/engine.cpp`): `collect_bind_variables` reports the type of each marker of
a statement, and `bind_values_to_statement` puts the values there. Each walks the statement by itself. -/

namespace Plexdb.Cql

open Holes (bindEach)
open Schema (Table TableName findColumn resolveKsName)

/-! ### The markers that are reported -/

/-- `marker` is the position of the marker that is reported. The source keeps no such field and nothing
reads it. -/
structure BindVariableSpec where
  name : Bytes
  type : Schema.Ty
  marker : Nat

def colTypeInTable (tbl : Table) (colName : String8) : Schema.Ty :=
  ((findColumn tbl.cols colName).bind fun ci => tbl.cols[ci]?.map (·.type)).getD (.basic .int)

def subscriptHintType : Schema.Ty → Schema.Ty
  | .map key _ _ => key
  | .list .. => .basic .int
  | .vector .. => .basic .int
  | _ => .basic .text

def subscriptRhsHintType : Schema.Ty → Schema.Ty
  | .map _ value _ => value
  | .list element _ => element
  | .vector element _ _ => element
  | t => t

mutual

/-- A UDT literal, an arithmetic operation and a type hint are not entered. -/
def collectBindInTerm (hint : Schema.Ty) : Term → List BindVariableSpec
  | .bindMarker marker => [⟨marker.identifier, hint, marker.position⟩]
  | .listOrVector elements => collectBindInTerms hint elements
  | .set keys => collectBindInTerms hint keys
  | .map keyValues => collectBindInPairs hint keyValues
  | .tuple elements => collectBindInTerms hint elements
  | .functionCall _ arguments => collectBindInTerms hint arguments
  | _ => []

def collectBindInTerms (hint : Schema.Ty) : List Term → List BindVariableSpec
  | [] => []
  | e :: es => collectBindInTerm hint e ++ collectBindInTerms hint es

def collectBindInPairs (hint : Schema.Ty) : List (Term × Term) → List BindVariableSpec
  | [] => []
  | (key, value) :: es => collectBindInTerm hint key ++ (collectBindInTerm hint value ++ collectBindInPairs hint es)

end

def collectBindInTwi (hint : Schema.Ty) : TermWithIdentifiers → List BindVariableSpec
  | .term term => collectBindInTerm hint term
  | .unaryMinus operand => collectBindInTwi hint operand
  | .binaryArithmetic lhs _ rhs => collectBindInTwi hint lhs ++ collectBindInTwi hint rhs
  | .identifier _ => []

def collectBindInInteger (t : Basic) : IntegerTerm → List BindVariableSpec
  | .s64 _ => []
  | .bindMarker marker => [⟨[], .basic t, marker.position⟩]

def usingType : UpdateParameterKind → Basic
  | .timestamp => .bigint
  | .ttl => .int

def collectBindInUsingParams (params : List UpdateParameter) : List BindVariableSpec :=
  params.flatMap fun param => collectBindInInteger (usingType param.kind) param.value

def Term.isBindMarker : Term → Bool
  | .bindMarker _ => true
  | _ => false

/-- A marker after `IN` stands for the whole list, and one after `CONTAINS` for an element. -/
def bindTypeForWhereRelation (op : Operator) (value : Term) (colType : Schema.Ty) : Schema.Ty :=
  if op = .in_ ∧ value.isBindMarker = true then .list colType false
  else if op ≠ .contains ∧ op ≠ .containsKey then colType
  else
    match colType with
    | .list element _ => element
    | .set key _ => key
    | .map key value _ => if op = .containsKey then key else value
    | .vector element _ _ => element
    | _ => colType

/-- The elements of a tuple with the columns they are compared to; further elements are left out. -/
def collectBindInTupleElements (tbl : Table) : List String8 → List Term → List BindVariableSpec
  | column :: columns, e :: es =>
      collectBindInTerm (colTypeInTable tbl column) e ++ collectBindInTupleElements tbl columns es
  | _, _ => []

/-- The type of the first column. An empty name counts as none. -/
def firstColumnType (tbl : Table) : List String8 → Schema.Ty
  | [] => .basic .text
  | column :: _ => if column.val = [] then .basic .text else colTypeInTable tbl column

/-- A value after `IN`. -/
def collectBindInTupleValue (tbl : Table) (columns : List String8) : Term → List BindVariableSpec
  | .tuple elements => collectBindInTupleElements tbl columns elements
  | v => collectBindInTerm (firstColumnType tbl columns) v

/-- The values of a tuple relation with the columns; a value without a column is typed as text. -/
def collectBindInTupleValues (tbl : Table) : List String8 → List Term → List BindVariableSpec
  | _, [] => []
  | columns, v :: vs => collectBindInTerm (firstColumnType tbl columns) v ++ collectBindInTupleValues tbl columns.tail vs

def collectBindInRelation (tbl : Table) : Relation → List BindVariableSpec
  | .columnExpression column op value =>
      collectBindInTerm (bindTypeForWhereRelation op value (colTypeInTable tbl column)) value
  | .tupleExpression columns op values =>
      if op = .in_ then values.flatMap (collectBindInTupleValue tbl columns)
      else if values.length = 1 ∧ 1 < columns.length ∧ values.all Term.isBindMarker = true then
        values.flatMap (collectBindInTerm (.tuple (columns.map (colTypeInTable tbl)) true))
      else collectBindInTupleValues tbl columns values
  | .token _ _ value => collectBindInTerm (.basic .bigint) value
  | .subscripted column subscript _ value =>
      collectBindInTerm (subscriptHintType (colTypeInTable tbl column)) subscript ++
        collectBindInTerm (subscriptRhsHintType (colTypeInTable tbl column)) value

def collectBindInWhere (tbl : Table) (where_ : WhereClause) : List BindVariableSpec :=
  where_.flatMap (collectBindInRelation tbl)

/-- Only a value that is itself a marker is reported. `none` is the failed bounds check of a value
without a name. -/
def collectBindInInsertValues (tbl : Table) : List String8 → List Term → Option (List BindVariableSpec)
  | _, [] => some []
  | [], .bindMarker _ :: _ => none
  | name :: names, .bindMarker marker :: values => do
      let specs ← collectBindInInsertValues tbl names values
      pure (⟨name.val, colTypeInTable tbl name, marker.position⟩ :: specs)
  | names, _ :: values => collectBindInInsertValues tbl names.tail values

def collectBindVariablesInsert (tbl : Table) (stmt : Insert) : Option (List BindVariableSpec) := do
  let values ← match stmt.insertClause with
    | .namesValues names values => collectBindInInsertValues tbl names values
    | .json .. => some []
  pure (values ++ collectBindInUsingParams stmt.usingParameters)

/-- `try_subscript_index_term`. -/
def SimpleSelection.subscript? (sel : SimpleSelection) : Option Term :=
  match sel.access with
  | some (.subscript index) => some index
  | _ => none

def collectBindInAssignment (tbl : Table) (asgn : Assignment) : List BindVariableSpec :=
  let colType := colTypeInTable tbl asgn.target.column
  match asgn.target.subscript? with
  | some sub =>
      collectBindInTerm (subscriptHintType colType) sub ++ collectBindInTwi (subscriptRhsHintType colType) asgn.value
  | none => collectBindInTwi colType asgn.value

def collectBindVariablesUpdate (tbl : Table) (stmt : Update) : List BindVariableSpec :=
  collectBindInUsingParams stmt.usingParameters ++
    (stmt.assignments.flatMap (collectBindInAssignment tbl) ++ collectBindInWhere tbl stmt.where_)

def collectBindInSelection (tbl : Table) (sel : SimpleSelection) : List BindVariableSpec :=
  match sel.subscript? with
  | some sub => collectBindInTerm (subscriptHintType (colTypeInTable tbl sel.column)) sub
  | none => []

def collectBindVariablesDelete (tbl : Table) (stmt : Delete) : List BindVariableSpec :=
  collectBindInUsingParams stmt.usingParameters ++
    (stmt.selections.flatMap (collectBindInSelection tbl) ++ collectBindInWhere tbl stmt.where_)

def collectBindInLimit (limit : Option IntegerTerm) : List BindVariableSpec :=
  (limit.map (collectBindInInteger .int)).getD []

def collectBindVariablesSelect (tbl : Table) (stmt : Select) : List BindVariableSpec :=
  (stmt.where_.map (collectBindInWhere tbl)).getD [] ++
    (collectBindInLimit stmt.limit ++ collectBindInLimit stmt.perPartitionLimit)

/-- The table that a statement names, if there is one. -/
def tableNamed (schema : Schema) (currentKeyspace : String8) (name : TableName) : Option Table := do
  let ks ← schema.readKeyspace (resolveKsName name.keyspaceName currentKeyspace)
  let t ← schema.readTable ks name.tableName
  schema.tables[t]?

/-- Nothing is reported for a table that does not exist. -/
def collectInTable (schema : Schema) (currentKeyspace : String8) (name : TableName)
    (collect : Table → Option (List BindVariableSpec)) : Option (List BindVariableSpec) :=
  match tableNamed schema currentKeyspace name with
  | none => some []
  | some tbl => collect tbl

def collectBindVariablesModification (schema : Schema) (currentKeyspace : String8) :
    ModificationStatement → Option (List BindVariableSpec)
  | .insert stmt => collectInTable schema currentKeyspace stmt.table fun tbl => collectBindVariablesInsert tbl stmt
  | .update stmt => collectInTable schema currentKeyspace stmt.table fun tbl => some (collectBindVariablesUpdate tbl stmt)
  | .delete stmt => collectInTable schema currentKeyspace stmt.table fun tbl => some (collectBindVariablesDelete tbl stmt)

def collectBindVariables (schema : Schema) (currentKeyspace : String8) : DmlStatement → Option (List BindVariableSpec)
  | .insert stmt => collectBindVariablesModification schema currentKeyspace (.insert stmt)
  | .update stmt => collectBindVariablesModification schema currentKeyspace (.update stmt)
  | .delete stmt => collectBindVariablesModification schema currentKeyspace (.delete stmt)
  | .select stmt => collectInTable schema currentKeyspace stmt.from_ fun tbl => some (collectBindVariablesSelect tbl stmt)
  | .batch stmt => do
      let children ← stmt.statements.mapM (collectBindVariablesModification schema currentKeyspace)
      pure (collectBindInUsingParams stmt.usingParameters ++ children.flatten)

/-! ### The values that are bound: each step hands on the values it has not used -/

mutual

def bindInTerm : Term → List Term → Term × List Term
  | .bindMarker _, v :: bv => (v, bv)
  | .bindMarker marker, [] => (.bindMarker marker, [])
  | .listOrVector elements, bv => (.listOrVector (bindInTerms elements bv).1, (bindInTerms elements bv).2)
  | .tuple elements, bv => (.tuple (bindInTerms elements bv).1, (bindInTerms elements bv).2)
  | .set keys, bv => (.set (bindInTerms keys bv).1, (bindInTerms keys bv).2)
  | .map keyValues, bv => (.map (bindInPairs keyValues bv).1, (bindInPairs keyValues bv).2)
  | .functionCall identifier arguments, bv =>
      (.functionCall identifier (bindInTerms arguments bv).1, (bindInTerms arguments bv).2)
  | term, bv => (term, bv)

def bindInTerms : List Term → List Term → List Term × List Term
  | [], bv => ([], bv)
  | e :: es, bv =>
      let (e, bv) := bindInTerm e bv
      let (es, bv) := bindInTerms es bv
      (e :: es, bv)

def bindInPairs : List (Term × Term) → List Term → List (Term × Term) × List Term
  | [], bv => ([], bv)
  | (key, value) :: es, bv =>
      let (key, bv) := bindInTerm key bv
      let (value, bv) := bindInTerm value bv
      let (es, bv) := bindInPairs es bv
      ((key, value) :: es, bv)

end

def bindInTwi : TermWithIdentifiers → List Term → TermWithIdentifiers × List Term
  | .term term, bv => let (term, bv) := bindInTerm term bv; (.term term, bv)
  | .unaryMinus operand, bv => let (operand, bv) := bindInTwi operand bv; (.unaryMinus operand, bv)
  | .binaryArithmetic lhs op rhs, bv =>
      let (lhs, bv) := bindInTwi lhs bv
      let (rhs, bv) := bindInTwi rhs bv
      (.binaryArithmetic lhs op rhs, bv)
  | .identifier name, bv => (.identifier name, bv)

/-- A null or unset value counts as a parameter that is not given; any other value that is no integer
leaves the marker. -/
def bindInUsingParam (param : UpdateParameter) (bv : List Term) : UpdateParameter × List Term :=
  match param.value, bv with
  | .bindMarker _, .literal (.s64 n) :: bv => ({ param with value := .s64 n }, bv)
  | .bindMarker _, .literal .unset :: bv => ({ param with value := .s64 0 }, bv)
  | .bindMarker _, .literal .null :: bv => ({ param with value := .s64 0 }, bv)
  | .bindMarker _, _ :: bv => (param, bv)
  | _, bv => (param, bv)

def bindInUsingParams : List UpdateParameter → List Term → List UpdateParameter × List Term := bindEach bindInUsingParam

def bindInRelation : Relation → List Term → Relation × List Term
  | .columnExpression column op value, bv =>
      let (value, bv) := bindInTerm value bv
      (.columnExpression column op value, bv)
  | .tupleExpression columns op values, bv =>
      let (values, bv) := bindEach bindInTerm values bv
      (.tupleExpression columns op values, bv)
  | .token columns op value, bv =>
      let (value, bv) := bindInTerm value bv
      (.token columns op value, bv)
  | .subscripted column subscript op value, bv =>
      let (subscript, bv) := bindInTerm subscript bv
      let (value, bv) := bindInTerm value bv
      (.subscripted column subscript op value, bv)

def bindInWhere : WhereClause → List Term → WhereClause × List Term := bindEach bindInRelation

/-- Only a value that is itself a marker is replaced. -/
def bindInInsertValues : List Term → List Term → List Term × List Term
  | values, [] => (values, [])
  | [], bv => ([], bv)
  | .bindMarker _ :: values, v :: bv =>
      let (values, bv) := bindInInsertValues values bv
      (v :: values, bv)
  | value :: values, bv =>
      let (values, bv) := bindInInsertValues values bv
      (value :: values, bv)

def bindInInsertClause : InsertClause → List Term → InsertClause × List Term
  | .namesValues names values, bv =>
      let (values, bv) := bindInInsertValues values bv
      (.namesValues names values, bv)
  | .json string default, bv => (.json string default, bv)

def bindInInsert (stmt : Insert) (bv : List Term) : Insert × List Term :=
  let (insertClause, bv) := bindInInsertClause stmt.insertClause bv
  let (usingParameters, bv) := bindInUsingParams stmt.usingParameters bv
  ({ stmt with insertClause := insertClause, usingParameters := usingParameters }, bv)

def bindInSelection (sel : SimpleSelection) (bv : List Term) : SimpleSelection × List Term :=
  match sel.access with
  | some (.subscript index) =>
      let (index, bv) := bindInTerm index bv
      ({ sel with access := some (.subscript index) }, bv)
  | _ => (sel, bv)

def bindInAssignment (asgn : Assignment) (bv : List Term) : Assignment × List Term :=
  let (target, bv) := bindInSelection asgn.target bv
  let (value, bv) := bindInTwi asgn.value bv
  (⟨target, value⟩, bv)

def bindInUpdate (stmt : Update) (bv : List Term) : Update × List Term :=
  let (usingParameters, bv) := bindInUsingParams stmt.usingParameters bv
  let (assignments, bv) := bindEach bindInAssignment stmt.assignments bv
  let (where_, bv) := bindInWhere stmt.where_ bv
  ({ stmt with usingParameters := usingParameters, assignments := assignments, where_ := where_ }, bv)

def bindInDelete (stmt : Delete) (bv : List Term) : Delete × List Term :=
  let (usingParameters, bv) := bindInUsingParams stmt.usingParameters bv
  let (selections, bv) := bindEach bindInSelection stmt.selections bv
  let (where_, bv) := bindInWhere stmt.where_ bv
  ({ stmt with usingParameters := usingParameters, selections := selections, where_ := where_ }, bv)

def bindInModification : ModificationStatement → List Term → ModificationStatement × List Term
  | .insert stmt, bv => let (stmt, bv) := bindInInsert stmt bv; (.insert stmt, bv)
  | .update stmt, bv => let (stmt, bv) := bindInUpdate stmt bv; (.update stmt, bv)
  | .delete stmt, bv => let (stmt, bv) := bindInDelete stmt bv; (.delete stmt, bv)

def bindInBatch (stmt : Batch) (bv : List Term) : Batch × List Term :=
  let (usingParameters, bv) := bindInUsingParams stmt.usingParameters bv
  let (statements, bv) := bindEach bindInModification stmt.statements bv
  ({ stmt with usingParameters := usingParameters, statements := statements }, bv)

/-- A value that is no integer leaves the marker. -/
def bindInLimit : Option IntegerTerm → List Term → Option IntegerTerm × List Term
  | some (.bindMarker _), .literal (.s64 n) :: bv => (some (.s64 n), bv)
  | limit@(some (.bindMarker _)), _ :: bv => (limit, bv)
  | limit, bv => (limit, bv)

/-- `PER PARTITION LIMIT` uses up a value and keeps its marker. -/
def bindInSelect (stmt : Select) (bv : List Term) : Select × List Term :=
  let (where_, bv) := match stmt.where_ with
    | none => (none, bv)
    | some where_ => let (where_, bv) := bindInWhere where_ bv; (some where_, bv)
  let (limit, bv) := bindInLimit stmt.limit bv
  ({ stmt with where_ := where_, limit := limit }, bv)

/-- An `INSERT` of a JSON text is left as it is, with its `USING` clause. -/
def bindValuesToStatement (stmt : DmlStatement) (boundValues : List Term) : DmlStatement :=
  if boundValues.isEmpty then stmt
  else
    match stmt with
    | .insert s =>
        match s.insertClause with
        | .json .. => .insert s
        | .namesValues .. => .insert (bindInInsert s boundValues).1
    | .update s => .update (bindInUpdate s boundValues).1
    | .delete s => .delete (bindInDelete s boundValues).1
    | .batch s => .batch (bindInBatch s boundValues).1
    | .select s => .select (bindInSelect s boundValues).1

end Plexdb.Cql
