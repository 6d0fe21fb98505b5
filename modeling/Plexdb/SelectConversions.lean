import Plexdb.RowBlob
import Plexdb.SchemaColumns
import Plexdb.TypedConversions

/-! Selectors: how `plan_select` of `cql/engine/planner.cpp` lowers them to operations, and what the paths of
`cql/engine/engine.cpp` return for a row. The operation of a nest of conversions carries a stack, which is replayed
from the inside out on the path that materializes rows and left out on the path that returns them raw. -/

namespace Plexdb.Cql.Conversion

open Schema (Column findColumn)

/-! ### Names of conversions -/

def kConversionTypeNames : List (String × Basic) :=
  [("int", .int), ("bigint", .bigint), ("smallint", .smallint), ("tinyint", .tinyint), ("counter", .counter),
    ("float", .float), ("double", .double), ("text", .text), ("ascii", .ascii), ("varchar", .varchar),
    ("timestamp", .timestamp), ("date", .date), ("time", .time), ("uuid", .uuid), ("timeuuid", .timeuuid),
    ("boolean", .boolean), ("inet", .inet), ("blob", .blob)]

/-- The comparison is the one of a literal with a string: every prefix of a name is taken for it. -/
def typedConversionTypeFromToken (tok : Bytes) : Option Basic :=
  (kConversionTypeNames.find? fun e => tok.isPrefixOf (ascii e.1)).map (·.2)

/-- The split at `i`, when there is an `as` with a type on either side. -/
def splitAt (name : Bytes) (i : Nat) : Option Step :=
  if name[i]? = some 97 ∧ name[i + 1]? = some 115 then do
    let source ← typedConversionTypeFromToken (name.take i)
    let target ← typedConversionTypeFromToken (name.drop (i + 2))
    pure ⟨source, target⟩
  else none

def parseTypedConversionName (name : Bytes) : Option Step :=
  (List.range name.length).findSome? fun i => if 1 ≤ i ∧ i + 2 < name.length then splitAt name i else none

inductive Selector where
  | columnName (identifier : String8)
  | term (t : Term)
  | function (functionName : String8) (arguments : List Selector)
  | count
  | cast (column : Selector) (target : Schema.Ast)

inductive FuncCallArg where
  | column (ci : Nat)
  | literal (value : Literal)

inductive OpValue where
  | columnRef (colIdx : Nat)
  | countStar
  | ttlOf (colIdx : Nat)
  | writetimeOf (colIdx : Nat)
  | token (pkColIndices : List Nat)
  | funcCall (name : Bytes) (args : List FuncCallArg) (returnType : Basic)

structure SelectOp where
  value : OpValue
  conversions : List Step := []

inductive PlanError where
  | columnNotFound | invalidTtlArgument | invalidWritetimeArgument

/-- An error comes with its context. -/
abbrev Lowered (α : Type) := Except (PlanError × Bytes) α

def notFound {α : Type} (context : Bytes) : Lowered α := .error (.columnNotFound, context)

/-! ### Lowering -/

def toStr : Basic → String
  | .text => "text" | .int => "int" | .bigint => "bigint" | .smallint => "smallint" | .counter => "counter"
  | .timestamp => "timestamp" | .boolean => "boolean" | .float => "float" | .double => "double" | .uuid => "uuid"
  | .ascii => "ascii" | .blob => "blob" | .date => "date" | .decimal => "decimal" | .duration => "duration"
  | .inet => "inet" | .time => "time" | .timeuuid => "timeuuid" | .tinyint => "tinyint" | .varchar => "varchar"
  | .varint => "varint" | .hex => "hex"

def astBasic? (t : Schema.Ast) : Option Basic :=
  match t.val with
  | .basic b => some b
  | _ => none

def typeIsCollection : Schema.Ty → Bool
  | .list .. | .set .. | .map .. => true
  | _ => false

section

variable (tbl : TableView) (ctx : EvalContext)

/-- The column of a name, with its position. -/
def columnNamed (identifier : String8) : Option (Nat × Column) := do
  let ci ← findColumn tbl.cols identifier
  let col ← tbl.cols[ci]?
  pure (ci, col)

/-- `ttl(c)` and `writetime(c)`. -/
def resolveMetaSelector (arguments : List Selector) (isTtl : Bool) : Lowered SelectOp :=
  let shapeError := if isTtl then PlanError.invalidTtlArgument else .invalidWritetimeArgument
  let label := ascii (if isTtl then "ttl" else "writetime")
  match arguments with
  | [.columnName name] =>
      match columnNamed tbl name with
      | none => notFound name.1
      | some (ci, col) =>
          if col.keyKind ≠ .none then .error (shapeError,
            ascii "Cannot use selection function " ++ label ++ ascii " on PRIMARY KEY part " ++ name.1)
          else if typeIsCollection col.type then .error (shapeError,
            ascii "Cannot use selection function " ++ label ++ ascii " on collection column " ++ name.1)
          else .ok { value := if isTtl then .ttlOf ci else .writetimeOf ci }
  | _ => .error (shapeError, label ++ ascii " requires a single column argument")

def isMetaName (name : String8) : Bool := literalEq "ttl" name || literalEq "writetime" name

def reverseConversionsInto (dst src : List Step) : List Step := dst ++ src.reverse

mutual

/-- One round of the loop that unwraps nested conversions, at their argument; `source` is the type it has to have. -/
def unwindArgument (conversions : List Step) (source : Basic) : Selector → Lowered SelectOp
  | .columnName name =>
      match columnNamed tbl name with
      | none => notFound name.1
      | some (ci, col) =>
          match Schema.Ty.basic? col.type with
          | none => notFound (ascii "Type conversion requires a basic-typed column")
          | some dtype =>
              if dtype ≠ source then notFound (ascii "Type conversion argument type does not match column type")
              else .ok { value := .columnRef ci, conversions := reverseConversionsInto [] conversions }
  | .function name arguments =>
      if isMetaName name then
        let isTtl := literalEq "ttl" name
        if source ≠ (if isTtl then .int else .bigint) then
          notFound (ascii "Type conversion argument type does not match inner function result type")
        else do
          let op ← resolveMetaSelector tbl arguments isTtl
          pure { op with conversions := reverseConversionsInto op.conversions conversions }
      else
        match parseTypedConversionName name.1 with
        | some nested =>
            if source ≠ nested.target then
              notFound (ascii "Type conversion argument type does not match inner conversion result type")
            else unwindArguments (conversions ++ [nested]) nested.source arguments
        | none => notFound (ascii "Unsupported argument for type conversion function")
  | _ => notFound (ascii "Unsupported argument for type conversion function")

def unwindArguments (conversions : List Step) (source : Basic) : List Selector → Lowered SelectOp
  | [] => notFound (ascii "Type conversion function requires a single argument")
  | argument :: rest =>
      if rest.isEmpty then unwindArgument conversions source argument
      else notFound (ascii "Type conversion function requires a single argument")

end

end

/-! ### Projection -/

def narrowEvaluated (e : Evaluated) (target : Basic) : ColumnValue :=
  match e with
  | .columnValue v => v
  | .literal l =>
      match l with
      | .null | .unset => .null
      | .s64 v => narrowS64Literal v target
      | .f64 v => narrowF64Literal v target
      | .bool v => .u8 (if v then 1 else 0)
      | .hex v => .blob v
      | .text v => .text v
      | .uuid v => .uuid v
      | .blob v => .blob v
      | .duration v => .duration v
  | _ => .null

section

variable (partitionToken : List ColumnValue → BitVec 64) (nowUnixMs : BitVec 64) (ctx : EvalContext) (row : RowArrays)

def value (ci : Nat) : ColumnValue := row.colValues.getD ci .null

def argumentOf : FuncCallArg → Evaluated
  | .column ci => if row.present ci then .columnValue (value row ci) else .literal .null
  | .literal l => .literal l

/-- The base of an operation; a cell that is missing has none. The hash of the partition key is a parameter. -/
def baseOf : OpValue → Option ColumnValue
  | .columnRef ci => if row.present ci then some (value row ci) else none
  | .ttlOf ci => do
      let m ← row.metaOf ci
      if row.present ci && cellHasTtl m.flags then
        some (.s32 (BitVec.ofInt 32 (max 0 (Int.tdiv (m.expiryUnixMs.toInt - nowUnixMs.toInt) 1000))))
      else none
  | .writetimeOf ci => do
      let m ← row.metaOf ci
      if row.present ci && cellHasWritetime m.flags then some (.s64 m.writetimeUs) else none
  | .token _ => some (.s64 (partitionToken row.colValues))
  | .funcCall name args returnType => some (narrowEvaluated (ctx.call name (args.map (argumentOf row))) returnType)
  | .countStar => none

end

end Plexdb.Cql.Conversion
