import Plexdb.ColumnContainers
import Plexdb.FloatConversion
import Plexdb.SchemaTypes

/-! Terms (`cql/engine/statements.cppm`), their evaluation (`evaluate_term` of
`cql/engine/evaluator.cpp`) and the column values they resolve to (`cql/engine/io.evaluator.cpp`). -/

namespace Plexdb.Cql

inductive Literal where
  | text (value : Bytes)
  | s64 (value : BitVec 64)
  | bool (value : Bool)
  | f64 (value : BitVec 64)
  | null
  | uuid (value : Raw 16)
  | hex (value : Bytes)
  | blob (value : Bytes)
  | duration (value : Duration)
  | unset
  deriving DecidableEq

/-- `position` is where the marker stands in the text of the statement. The source keeps no such
field and nothing reads it; it tells two markers apart. -/
structure BindMarker where
  identifier : Bytes
  position : Nat
  deriving DecidableEq

inductive ArithmeticOperator where
  | plus | minus | times | divide | mod
  deriving DecidableEq

inductive Term where
  | literal (value : Literal)
  | bindMarker (marker : BindMarker)
  | map (keyValues : List (Term × Term))
  | set (keys : List Term)
  | listOrVector (elements : List Term)
  | udt (identifierValues : List (Bytes × Term))
  | tuple (elements : List Term)
  | functionCall (identifier : Bytes) (arguments : List Term)
  | unaryMinus (operand : Term)
  | binaryArithmetic (lhs : Term) (op : ArithmeticOperator) (rhs : Term)
  | typeHint (type : Schema.Ast) (operand : Term)
  | columnValue (value : ColumnValue)

@[induction_eliminator]
theorem Term.induct {P : Term → Prop} (literal : ∀ value, P (.literal value))
    (bindMarker : ∀ marker, P (.bindMarker marker)) (map : ∀ es, (∀ e ∈ es, P e.1 ∧ P e.2) → P (.map es))
    (set : ∀ es, (∀ e ∈ es, P e) → P (.set es)) (listOrVector : ∀ es, (∀ e ∈ es, P e) → P (.listOrVector es))
    (udt : ∀ es, (∀ e ∈ es, P e.2) → P (.udt es)) (tuple : ∀ es, (∀ e ∈ es, P e) → P (.tuple es))
    (functionCall : ∀ identifier es, (∀ e ∈ es, P e) → P (.functionCall identifier es))
    (unaryMinus : ∀ operand, P operand → P (.unaryMinus operand))
    (binaryArithmetic : ∀ lhs op rhs, P lhs → P rhs → P (.binaryArithmetic lhs op rhs))
    (typeHint : ∀ type operand, P operand → P (.typeHint type operand))
    (columnValue : ∀ value, P (.columnValue value)) (t : Term) : P t :=
  @Term.rec P (fun es => ∀ e ∈ es, P e.1 ∧ P e.2) (fun es => ∀ e ∈ es, P e) (fun es => ∀ e ∈ es, P e.2)
    (fun e => P e.1 ∧ P e.2) (fun e => P e.2) literal bindMarker map set listOrVector udt tuple functionCall unaryMinus
    binaryArithmetic typeHint columnValue (List.forall_mem_nil _)
    (fun _ _ he hes => List.forall_mem_cons.mpr ⟨he, hes⟩) (List.forall_mem_nil _)
    (fun _ _ he hes => List.forall_mem_cons.mpr ⟨he, hes⟩) (List.forall_mem_nil _)
    (fun _ _ he hes => List.forall_mem_cons.mpr ⟨he, hes⟩) (fun _ _ hk hv => ⟨hk, hv⟩) (fun _ _ hv => hv) t

/-! ### Evaluation -/

/-- What a term that is no marker, function call, operation or hint evaluates to is the term. -/
abbrev Evaluated := Term

/-- The bindings of an evaluation, and the functions and operations on evaluated terms. -/
structure EvalContext where
  binding : BindMarker → Option Literal
  call : Bytes → List Evaluated → Evaluated
  unaryMinus : Evaluated → Evaluated
  binaryArithmetic : Evaluated → ArithmeticOperator → Evaluated → Evaluated

mutual

def evaluate (ctx : EvalContext) : Term → Evaluated
  | .bindMarker marker => .literal ((ctx.binding marker).getD .null)
  | .functionCall identifier arguments => ctx.call identifier (evaluateAll ctx arguments)
  | .unaryMinus operand => ctx.unaryMinus (evaluate ctx operand)
  | .binaryArithmetic lhs op rhs => ctx.binaryArithmetic (evaluate ctx lhs) op (evaluate ctx rhs)
  | .typeHint _ operand => evaluate ctx operand
  | term => term

def evaluateAll (ctx : EvalContext) : List Term → List Evaluated
  | [] => []
  | term :: terms => evaluate ctx term :: evaluateAll ctx terms

end

@[simp]
theorem evaluate_literal (ctx : EvalContext) (lit : Literal) : evaluate ctx (.literal lit) = .literal lit := by
  simp [evaluate]

@[simp]
theorem evaluate_listOrVector (ctx : EvalContext) (es : List Term) :
    evaluate ctx (.listOrVector es) = .listOrVector es := by
  simp [evaluate]

@[simp]
theorem evaluate_set (ctx : EvalContext) (keys : List Term) : evaluate ctx (.set keys) = .set keys := by
  simp [evaluate]

@[simp]
theorem evaluate_map (ctx : EvalContext) (es : List (Term × Term)) : evaluate ctx (.map es) = .map es := by
  simp [evaluate]

/-! ### Column values -/

/-- `can_write_typed_basic_as_column_value`, on the variant of a literal. -/
def canWriteLiteral : Literal → Basic → Bool
  | .s64 _, dtype => isLiteralIntegerFamily dtype
  | .f64 _, dtype => isLiteralFloatFamily dtype
  | .bool _, dtype => dtype == .boolean
  | .null, _ => true
  | .unset, _ => false
  | .hex _, dtype => dtype == .hex
  | .text _, dtype => dtype == .text || dtype == .varchar || dtype == .ascii
  | .blob _, dtype => dtype == .blob || dtype == .hex
  | .uuid _, dtype => dtype == .uuid || dtype == .timeuuid
  | .duration _, dtype => dtype == .duration

def narrowS64Literal (v : BitVec 64) : Basic → ColumnValue
  | .smallint => .s16 (v.setWidth 16)
  | .int | .date => .s32 (v.setWidth 32)
  | .tinyint => .u8 (v.setWidth 8)
  | _ => .s64 v

def narrowF64Literal (v : BitVec 64) : Basic → ColumnValue
  | .float => .f32 (Float.toF32 v)
  | _ => .f64 v

def resolveLiteralScalar (lit : Literal) : Ty → Option ColumnValue
  | .basic b =>
      if !canWriteLiteral lit b then none
      else
        match lit with
        | .null => some .null
        | .s64 v => some (narrowS64Literal v b)
        | .bool v => some (.u8 (if v then 1 else 0))
        | .f64 v => some (narrowF64Literal v b)
        | .text v => some (.text v)
        | .uuid v => some (.uuid v)
        | .blob v => some (.blob v)
        | .hex v => some (.blob v)
        | .duration v => some (.duration v)
        | .unset => none
  | _ => none

mutual

def resolveEvaluated (ctx : EvalContext) : Ty → Evaluated → Option ColumnValue
  | _, .columnValue v => some v
  | t, .literal lit => resolveLiteralScalar lit t
  | .list element _, .listOrVector es =>
      (es.mapM fun e => resolveEvaluated ctx element (evaluate ctx e)).map .array
  | .vector element _ _, .listOrVector es =>
      (es.mapM fun e => resolveEvaluated ctx element (evaluate ctx e)).map .array
  | .set key _, .set keys => do
      let keys ← keys.mapM fun k => resolveEvaluated ctx key (evaluate ctx k)
      pure (.set (keys.foldl insertKey []))
  | .map key value _, .map entries => do
      let entries ← entries.mapM fun e => do
        let k ← resolveEvaluated ctx key (evaluate ctx e.1)
        let v ← resolveEvaluated ctx value (evaluate ctx e.2)
        pure (k, v)
      pure (.map (entries.foldl (fun m e => insertEntry m e.1 e.2) []))
  | .tuple elements _, .tuple es => (resolveFields ctx elements es).map .array
  | .udt _ _ names types, .udt fields => (resolveUdtFields ctx types names fields).map .array
  | _, _ => none

/-- The elements that a tuple literal leaves out are null. -/
def resolveFields (ctx : EvalContext) : List Ty → List Term → Option (List ColumnValue)
  | [], _ => some []
  | _ :: ts, [] => do
      let vs ← resolveFields ctx ts []
      pure (.null :: vs)
  | t :: ts, e :: es => do
      let v ← resolveEvaluated ctx t (evaluate ctx e)
      let vs ← resolveFields ctx ts es
      pure (v :: vs)

/-- A field is given by the first pair under its name, and is null without one. -/
def resolveUdtFields (ctx : EvalContext) : List Ty → List Bytes → List (Bytes × Term) →
    Option (List ColumnValue)
  | [], _, _ => some []
  | _ :: _, [], _ => none
  | t :: ts, name :: names, fields => do
      let v ← match fields.find? fun f => f.1 == name with
        | none => some .null
        | some f => resolveEvaluated ctx t (evaluate ctx f.2)
      let vs ← resolveUdtFields ctx ts names fields
      pure (v :: vs)

end

end Plexdb.Cql
