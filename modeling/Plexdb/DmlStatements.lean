import Plexdb.SchemaStatements
import Plexdb.Terms

/-! The statements on rows (`cql/engine/statements.cppm`). What a SELECT selects, groups and orders by
is left out: the parser puts no term there. -/

namespace Plexdb.Cql

open Schema (TableName)

/-- A term without an identifier in it is a `Term`: the variants that `TermWithIdentifiers` shares with
`Term` are built from one, and every traversal treats them alike. -/
inductive TermWithIdentifiers where
  | term (term : Term)
  | unaryMinus (operand : TermWithIdentifiers)
  | binaryArithmetic (lhs : TermWithIdentifiers) (op : ArithmeticOperator) (rhs : TermWithIdentifiers)
  | identifier (name : Bytes)

/-- `TaggedUnion<S64, BindMarker>`. -/
inductive IntegerTerm where
  | s64 (value : BitVec 64)
  | bindMarker (marker : BindMarker)
  deriving DecidableEq

inductive UpdateParameterKind where
  | timestamp | ttl
  deriving DecidableEq

structure UpdateParameter where
  kind : UpdateParameterKind
  value : IntegerTerm
  deriving DecidableEq

inductive Operator where
  | eq | lt | gt | le | ge | ne | in_ | contains | containsKey
  deriving DecidableEq

inductive Access where
  | subscript (index : Term)
  | fieldAccess (field : Bytes)

structure SimpleSelection where
  column : String8
  access : Option Access

structure Condition where
  selection : SimpleSelection
  op : Operator
  value : Term

inductive IfClause where
  | exists_
  | conditions (conditions : List Condition)

inductive Relation where
  | columnExpression (column : String8) (op : Operator) (value : Term)
  | tupleExpression (columns : List String8) (op : Operator) (values : List Term)
  | token (columns : List String8) (op : Operator) (value : Term)
  | subscripted (column : String8) (subscript : Term) (op : Operator) (value : Term)

abbrev WhereClause := List Relation

inductive JsonDefault where
  | null | unset

inductive InsertClause where
  | namesValues (names : List String8) (values : List Term)
  | json (string : Bytes) (default : JsonDefault)

structure Insert where
  table : TableName
  insertClause : InsertClause
  ifNotExists : Bool
  usingParameters : List UpdateParameter

structure Assignment where
  target : SimpleSelection
  value : TermWithIdentifiers

structure Update where
  table : TableName
  usingParameters : List UpdateParameter
  assignments : List Assignment
  where_ : WhereClause
  if_ : Option IfClause

structure Delete where
  selections : List SimpleSelection
  table : TableName
  usingParameters : List UpdateParameter
  where_ : WhereClause
  if_ : Option IfClause

inductive ModificationStatement where
  | insert (statement : Insert)
  | update (statement : Update)
  | delete (statement : Delete)

inductive BatchKind where
  | logged | unlogged | counter

structure Batch where
  kind : BatchKind
  usingParameters : List UpdateParameter
  statements : List ModificationStatement

structure Select where
  from_ : TableName
  where_ : Option WhereClause
  perPartitionLimit : Option IntegerTerm
  limit : Option IntegerTerm

inductive DmlStatement where
  | insert (statement : Insert)
  | update (statement : Update)
  | delete (statement : Delete)
  | batch (statement : Batch)
  | select (statement : Select)

end Plexdb.Cql
