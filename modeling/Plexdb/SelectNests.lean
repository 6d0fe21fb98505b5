import Plexdb.ConversionChains
import Plexdb.SelectConversions

/-! Nests of conversions in SELECT. A nest is lowered to what it converts and the conversions from the inside out. The
path that materializes rows replays them; the path without metadata returns the column as it is, which is the same for
the chains that give every stored value of the column back. -/

namespace Plexdb.Cql.Conversion

open Schema (Column findColumn)

/-! ### Nests -/

section

variable (tbl : TableView)

def columnBasic? (identifier : String8) : Option Basic := do
  let (_, col) ← columnNamed tbl identifier
  Schema.Ty.basic? col.type

/-- The conversion of a cast. -/
def castStep? (column : Selector) (target : Schema.Ast) : Option Step :=
  match column with
  | .columnName name => do
      let source ← columnBasic? tbl name
      let target ← astBasic? target
      pure ⟨source, target⟩
  | _ => none

mutual

/-- The conversions of a nest, from the inside out. -/
def nestSteps : Selector → List Step
  | .function name arguments =>
      if isMetaName name then []
      else nestStepsOf arguments ++ (parseTypedConversionName name.1).toList
  | .cast column target => (castStep? tbl column target).toList
  | _ => []

def nestStepsOf : List Selector → List Step
  | [] => []
  | argument :: _ => nestSteps argument

end

/-- The column under `ttl` or `writetime`. -/
def metaBase (name : String8) : List Selector → Option OpValue
  | [.columnName c] => (columnNamed tbl c).map fun e => if literalEq "ttl" name then .ttlOf e.1 else .writetimeOf e.1
  | _ => none

mutual

/-- What a nest converts. -/
def nestBase : Selector → Option OpValue
  | .columnName name => (columnNamed tbl name).map fun e => .columnRef e.1
  | .function name arguments => if isMetaName name then metaBase tbl name arguments else nestBaseOf arguments
  | .cast column _ => nestBase column
  | _ => none

def nestBaseOf : List Selector → Option OpValue
  | [] => none
  | argument :: _ => nestBase argument

end

variable (partitionToken : List ColumnValue → BitVec 64) (nowUnixMs : BitVec 64) (ctx : EvalContext) (row : RowArrays)

/-- The value of a base; a missing cell is null. -/
def baseValue (base : OpValue) : ColumnValue := (baseOf partitionToken nowUnixMs ctx row base).getD .null

mutual

/-- The value of a nest, from the inside out. -/
def evalNest : Selector → Option ColumnValue
  | .columnName name => (columnNamed tbl name).map fun e => baseValue partitionToken nowUnixMs ctx row (.columnRef e.1)
  | .function name arguments =>
      if isMetaName name then (metaBase tbl name arguments).map (baseValue partitionToken nowUnixMs ctx row)
      else do
        let v ← evalNestOf arguments
        let step ← parseTypedConversionName name.1
        applyTypedConversion v step.source step.target
  | .cast column target => do
      let v ← evalNest column
      let step ← castStep? tbl column target
      applyTypedConversion v step.source step.target
  | _ => none

def evalNestOf : List Selector → Option ColumnValue
  | [] => none
  | argument :: _ => evalNest argument

end

end

variable {tbl : TableView} {partitionToken : List ColumnValue → BitVec 64} {nowUnixMs : BitVec 64} {ctx : EvalContext}
  {row : RowArrays}

theorem columnNamed_eq_some {name : String8} {e : Nat × Column} (h : columnNamed tbl name = some e) :
    tbl.cols[e.1]? = some e.2 := by
  obtain ⟨ci, -, h⟩ := Option.bind_eq_some_iff.mp h
  obtain ⟨col, hcol, h⟩ := Option.bind_eq_some_iff.mp h
  cases h
  exact hcol

/-- What the operation of a nest of type `target` says about the nest. -/
structure Unwound (tbl : TableView) (sel : Selector) (target : Basic) (conversions : List Step) (op : SelectOp) : Prop
    where
  base : nestBase tbl sel = some op.value
  conversions : op.conversions = nestSteps tbl sel ++ conversions
  value : ∀ partitionToken nowUnixMs ctx row, evalNest tbl partitionToken nowUnixMs ctx row sel =
    applyConversionStack (baseValue partitionToken nowUnixMs ctx row op.value) (nestSteps tbl sel)
  typed : ∀ ci, op.value = .columnRef ci → ∃ col dtype, tbl.cols[ci]? = some col ∧
    Schema.Ty.basic? col.type = some dtype ∧ Chained dtype (nestSteps tbl sel) target

theorem Unwound.column {name : String8} {e : Nat × Column} {dtype : Basic} (hcol : columnNamed tbl name = some e)
    (htype : Schema.Ty.basic? e.2.type = some dtype) (conversions : List Step) :
    Unwound tbl (.columnName name) dtype conversions { value := .columnRef e.1, conversions := conversions } where
  base := by rw [nestBase, hcol, Option.map_some]
  conversions := rfl
  value := fun _ _ _ _ => by
    rw [evalNest, hcol, Option.map_some]
    rfl
  typed := by
    rintro ci ⟨⟩
    exact ⟨e.2, dtype, columnNamed_eq_some hcol, htype, rfl⟩

variable {clauses : List Selector} {ops : List SelectOp}

end Plexdb.Cql.Conversion
