import Plexdb.DmlStatements
import Plexdb.KeyedLists
import Plexdb.ResolvedValues

/-! Patches of collections: the assignments and deletions that `plan_update` and `plan_delete` of
`cql/engine/planner.cpp` turn into one, and `apply_collection_patch` of `cql/engine/engine.cpp`. A cell is the value
of a column that has one; `none` for a whole result is a failed assertion. -/

namespace Plexdb.Cql.Patches

open Resolve
open Schema (KeyKind)

inductive PatchOp where
  | append | prepend | subtract | subscriptSet | subscriptDelete
  deriving DecidableEq

/-- An operation does not read the terms it has not been given. -/
structure CollectionPatch where
  op : PatchOp
  key : Evaluated := .literal .null
  value : Evaluated := .literal .null

/-! ### Planning -/

inductive PlanError where
  | invalidSubscriptTarget | invalidCollectionMutation | unsetSubscriptValue | counterOperationOnNonCounter

/-- What the planner reads of the column. -/
structure Target where
  name : String8
  type : Ty
  keyKind : KeyKind

/-- `plain` is an assignment or a deletion without a patch. -/
inductive Planned where
  | error (e : PlanError) (context : Bytes)
  | unchanged
  | patch (p : CollectionPatch)
  | plain

def twiHasColumnRef : TermWithIdentifiers → Bool
  | .term _ => false
  | .identifier _ => true
  | .unaryMinus operand => twiHasColumnRef operand
  | .binaryArithmetic lhs _ rhs => twiHasColumnRef lhs || twiHasColumnRef rhs

/-- A statement is planned without a row, so a column is null. -/
def evaluateToi (ctx : EvalContext) : TermWithIdentifiers → Evaluated
  | .term term => evaluate ctx term
  | .identifier _ => .literal .null
  | .unaryMinus operand => ctx.unaryMinus (evaluateToi ctx operand)
  | .binaryArithmetic lhs op rhs => ctx.binaryArithmetic (evaluateToi ctx lhs) op (evaluateToi ctx rhs)

structure CompoundForm where
  op : ArithmeticOperator
  colOnLeft : Bool
  other : TermWithIdentifiers

def isTarget (targetCol : Bytes) : TermWithIdentifiers → Bool
  | .identifier name => name == targetCol
  | _ => false

def matchCompoundForm (targetCol : Bytes) : TermWithIdentifiers → Option CompoundForm
  | .binaryArithmetic lhs op rhs =>
      if isTarget targetCol lhs && !twiHasColumnRef rhs then some ⟨op, true, rhs⟩
      else if isTarget targetCol rhs && !twiHasColumnRef lhs then some ⟨op, false, lhs⟩
      else none
  | _ => none

def isList : Ty → Bool
  | .list .. => true
  | _ => false

def isSet : Ty → Bool
  | .set .. => true
  | _ => false

def isMap : Ty → Bool
  | .map .. => true
  | _ => false

def colIsCollection (t : Ty) : Bool := isList t || isSet t || isMap t

def colIsCounter : Ty → Bool
  | .basic .counter => true
  | _ => false

def evalIsUnset : Evaluated → Bool
  | .literal .unset => true
  | _ => false

/-- The operation of `c + X`, `X + c` or `c - X`. -/
def compoundOp (col : Target) (cf : CompoundForm) : Except (PlanError × Bytes) PatchOp :=
  match cf.op with
  | .plus => .ok (if cf.colOnLeft || !isList col.type then .append else .prepend)
  | .minus =>
      if cf.colOnLeft then .ok .subtract
      else .error (.invalidCollectionMutation,
        ascii "Subtraction with a collection on the right is not supported: " ++ col.name.1)
  | _ => .error (.invalidCollectionMutation,
      ascii "Only + and - are valid compound operators on collections: " ++ col.name.1)

/-- The type of the other operand: the keys of a map for a subtraction from it. -/
def operandType (t : Ty) (op : PatchOp) : Ty :=
  match t, op with
  | .map key _ _, .subtract => .set key false
  | t, _ => t

def planCompound (ctx : EvalContext) (col : Target) (cf : CompoundForm) : Planned :=
  match compoundOp col cf with
  | .error (e, context) => .error e context
  | .ok op =>
      let value := evaluateToi ctx cf.other
      if evalIsUnset value then .unchanged
      else if (resolveEvaluated ctx (operandType col.type op) value).isSome then .patch { op := op, value := value }
      else .error .invalidCollectionMutation (ascii "Incompatible right-hand side collection for " ++ col.name.1)

/-- An assignment of `plan_update`. -/
def planAssignment (ctx : EvalContext) (col : Target) (a : Assignment) : Planned :=
  match a.target.access with
  | some access =>
      if !colIsCollection col.type then .error .invalidSubscriptTarget
        (ascii "Element-based access is only supported on collection columns: " ++ col.name.1)
      else if isSet col.type then .error .invalidSubscriptTarget
        (ascii "Subscript-based assignment is not supported on sets: " ++ col.name.1)
      else match access with
        | .fieldAccess _ =>
            .error .invalidSubscriptTarget (ascii "Field access on non-UDT column: " ++ col.name.1)
        | .subscript index =>
            if twiHasColumnRef a.value then .error .invalidCollectionMutation
              (ascii "Element-based assignment must not reference other columns: " ++ col.name.1)
            else
              let key := evaluate ctx index
              let value := evaluateToi ctx a.value
              if evalIsUnset key then .error .unsetSubscriptValue col.name.1
              else if evalIsUnset value then .unchanged
              else .patch ⟨.subscriptSet, key, value⟩
  | none =>
      match matchCompoundForm col.name.1 a.value with
      | none => .plain
      | some cf =>
          if colIsCounter col.type then .plain
          else if !colIsCollection col.type then .error .counterOperationOnNonCounter col.name.1
          else planCompound ctx col cf

/-- A selection of `plan_delete`. -/
def planSelection (ctx : EvalContext) (col : Target) (s : SimpleSelection) : Planned :=
  if col.keyKind ≠ .none then
    .error .invalidSubscriptTarget (ascii "Invalid deletion of primary key part " ++ col.name.1)
  else match s.access with
    | none => .plain
    | some access =>
        if !colIsCollection col.type then .error .invalidSubscriptTarget
          (ascii "Element-based access is only supported on collection columns: " ++ col.name.1)
        else match access with
          | .fieldAccess _ =>
              .error .invalidSubscriptTarget (ascii "Field access on non-UDT column: " ++ col.name.1)
          | .subscript index =>
              let key := evaluate ctx index
              if evalIsUnset key then
                if isList col.type then .unchanged else .error .unsetSubscriptValue col.name.1
              else .patch { op := .subscriptDelete, key := key }

/-! ### Applying -/

abbrev Cell := Option ColumnValue

def currentList : Cell → List ColumnValue
  | some (.array vs) => vs
  | _ => []

def currentSet : Cell → List ColumnValue
  | some (.set vs) => vs
  | _ => []

def currentMap : Cell → List (ColumnValue × ColumnValue)
  | some (.map es) => es
  | _ => []

def asArray : ColumnValue → Option (List ColumnValue)
  | .array vs => some vs
  | _ => none

def asSet : ColumnValue → Option (List ColumnValue)
  | .set vs => some vs
  | _ => none

def asMap : ColumnValue → Option (List (ColumnValue × ColumnValue))
  | .map es => some es
  | _ => none

/-- An empty collection is no value. -/
def present {α : Type} (mk : List α → ColumnValue) (out : List α) : Cell := if out.isEmpty then none else some (mk out)

def evaluatedToS64 : Evaluated → Option (BitVec 64)
  | .literal (.s64 c) => some c
  | .columnValue (.s64 c) => some c
  | .columnValue (.s32 c) => some (c.signExtend 64)
  | .columnValue (.s16 c) => some (c.signExtend 64)
  | .columnValue (.u8 c) => some (c.signExtend 64)
  | _ => none

/-- `remove` from a `DynamicMap`. -/
def removeEntry (entries : List (ColumnValue × ColumnValue)) (key : ColumnValue) : List (ColumnValue × ColumnValue) :=
  entries.eraseP fun e => ColumnValue.beq e.1 key

/-- The position that a list has under an index. -/
def listPosition (key : Evaluated) (length : Nat) : Option (Option Nat) :=
  (evaluatedToS64 key).map fun i => if i.toInt < 0 ∨ length ≤ i.toNat then none else some i.toNat

def applyListPatch (ctx : EvalContext) (t element : Ty) (cell : Cell) (p : CollectionPatch) : Option Cell :=
  let cur := currentList cell
  match p.op with
  | .append => ((resolveEvaluated ctx t p.value).bind asArray).map fun rhs => present .array (cur ++ rhs)
  | .prepend => ((resolveEvaluated ctx t p.value).bind asArray).map fun rhs => present .array (rhs ++ cur)
  | .subtract => ((resolveEvaluated ctx t p.value).bind asArray).map fun rhs =>
      present .array (cur.filter fun e => !rhs.any fun r => ColumnValue.beq e r)
  | .subscriptSet => (listPosition p.key cur.length).bind fun
      | none => some cell
      | some i =>
          if evalIsNull p.value then some (present .array (cur.eraseIdx i))
          else (resolveEvaluated ctx element p.value).map fun v => some (.array (cur.set i v))
  | .subscriptDelete => (listPosition p.key cur.length).map fun
      | none => cell
      | some i => present .array (cur.eraseIdx i)

def applySetPatch (ctx : EvalContext) (t key : Ty) (cell : Cell) (p : CollectionPatch) : Option Cell :=
  let cur := currentSet cell
  match p.op with
  | .append => ((resolveEvaluated ctx t p.value).bind asSet).map fun rhs => present .set (rhs.foldl insertKey cur)
  | .subtract => ((resolveEvaluated ctx t p.value).bind asSet).map fun rhs =>
      present .set ((cur.filter fun e => !rhs.any (ColumnValue.beq · e)).foldl insertKey [])
  | .subscriptDelete => (resolveEvaluated ctx key p.key).map fun el =>
      present .set ((cur.filter fun e => !ColumnValue.beq e el).foldl insertKey [])
  | .prepend | .subscriptSet => none

def applyMapPatch (ctx : EvalContext) (t key value : Ty) (cell : Cell) (p : CollectionPatch) : Option Cell :=
  let cur := currentMap cell
  match p.op with
  | .append => ((resolveEvaluated ctx t p.value).bind asMap).map fun rhs =>
      present .map (rhs.foldl (fun m e => insertEntry m e.1 e.2) cur)
  | .subtract => ((resolveEvaluated ctx (.set key false) p.value).bind asSet).map fun rhsKeys =>
      present .map (rhsKeys.foldl removeEntry cur)
  | .subscriptSet => (resolveEvaluated ctx key p.key).bind fun k =>
      if evalIsNull p.value then some (present .map (removeEntry cur k))
      else (resolveEvaluated ctx value p.value).map fun v => some (.map (insertEntry cur k v))
  | .subscriptDelete => (resolveEvaluated ctx key p.key).map fun k => present .map (removeEntry cur k)
  | .prepend => none

def applyCollectionPatch (ctx : EvalContext) (t : Ty) (cell : Cell) (p : CollectionPatch) : Option Cell :=
  match t with
  | .list element _ => applyListPatch ctx t element cell p
  | .set key _ => applySetPatch ctx t key cell p
  | .map key value _ => applyMapPatch ctx t key value cell p
  | _ => none

/-! ### What a patch is to give -/

/-- No value, or one of the type. -/
def CellOf (t : Ty) (c : Cell) : Prop := ∀ v, c = some v → OfType t v

/-- A term writes a value of the type. -/
def Writes (ctx : EvalContext) (t : Ty) (e : Evaluated) (v : ColumnValue) : Prop := OfType t v ∧ Denotes ctx t e v

/-- Or it writes null. -/
def WritesOrNull (ctx : EvalContext) (t : Ty) (e : Evaluated) (v : ColumnValue) : Prop :=
  (v = .null ∨ OfType t v) ∧ Denotes ctx t e v

def IndexIs : Evaluated → Int → Prop
  | .literal (.s64 n), i => n.toInt = i
  | .columnValue v, i => Resolve.integerOf v = some i
  | _, _ => False

/-- The operations on lists. An element that is set to null is removed, and nothing stands at an index out of
range. -/
def ListGives (ctx : EvalContext) (t element : Ty) (p : CollectionPatch) (cur out : List ColumnValue) : Prop :=
  match p.op with
  | .append => ∃ rhs, Writes ctx t p.value (.array rhs) ∧ out = cur ++ rhs
  | .prepend => ∃ rhs, Writes ctx t p.value (.array rhs) ∧ out = rhs ++ cur
  | .subtract => ∃ rhs, Writes ctx t p.value (.array rhs) ∧ out = Keyed.diff ColumnValue.beq cur rhs
  | .subscriptSet => ∃ i, IndexIs p.key i ∧
      (¬ (0 ≤ i ∧ i < cur.length) → out = cur) ∧
      (0 ≤ i ∧ i < cur.length → evalIsNull p.value = true → out = cur.eraseIdx i.toNat) ∧
      (0 ≤ i ∧ i < cur.length → evalIsNull p.value = false →
        ∃ v, Writes ctx element p.value v ∧ out = cur.set i.toNat v)
  | .subscriptDelete => ∃ i, IndexIs p.key i ∧
      (¬ (0 ≤ i ∧ i < cur.length) → out = cur) ∧ (0 ≤ i ∧ i < cur.length → out = cur.eraseIdx i.toNat)

/-- Union, difference and the removal of an element. -/
def SetGives (ctx : EvalContext) (t key : Ty) (p : CollectionPatch) (cur out : List ColumnValue) : Prop :=
  match p.op with
  | .append => ∃ rhs, Writes ctx t p.value (.set rhs) ∧ out = Keyed.union ColumnValue.beq cur rhs
  | .subtract => ∃ rhs, Writes ctx t p.value (.set rhs) ∧ out = Keyed.diff ColumnValue.beq cur rhs
  | .subscriptDelete => ∃ k, WritesOrNull ctx key p.key k ∧ out = Keyed.erase ColumnValue.beq cur k
  | .prepend | .subscriptSet => False

/-- The entries of one map over those of another, and the removal of keys. A key whose value is set to null is
removed. -/
def MapGives (ctx : EvalContext) (t key value : Ty) (p : CollectionPatch)
    (cur out : List (ColumnValue × ColumnValue)) : Prop :=
  match p.op with
  | .append => ∃ rhs, Writes ctx t p.value (.map rhs) ∧ out = Keyed.override ColumnValue.beq cur rhs
  | .subtract => ∃ ks, Writes ctx (.set key false) p.value (.set ks) ∧ out = Keyed.eraseKeys ColumnValue.beq cur ks
  | .subscriptSet =>
      (evalIsNull p.value = true →
        ∃ k, WritesOrNull ctx key p.key k ∧ out = Keyed.eraseKeys ColumnValue.beq cur [k]) ∧
      (evalIsNull p.value = false →
        ∃ k v, Writes ctx key p.key k ∧ Writes ctx value p.value v ∧ out = Keyed.override ColumnValue.beq cur [(k, v)])
  | .subscriptDelete => ∃ k, WritesOrNull ctx key p.key k ∧ out = Keyed.eraseKeys ColumnValue.beq cur [k]
  | .prepend => False

def Gives (ctx : EvalContext) (t : Ty) (p : CollectionPatch) (before after : Cell) : Prop :=
  match t with
  | .list element _ => ListGives ctx t element p (currentList before) (currentList after)
  | .set key _ => SetGives ctx t key p (currentSet before) (currentSet after)
  | .map key value _ => MapGives ctx t key value p (currentMap before) (currentMap after)
  | _ => False

/-! ### When it gives that -/

def OperandSound (ctx : EvalContext) (t : Ty) (e : Evaluated) : Prop := evalIsNull e = false ∧ Sound ctx t e

def ElementSound (ctx : EvalContext) (t : Ty) (e : Evaluated) : Prop := Accepts ctx t e ∧ Sound ctx t e

def ListPatchSound (ctx : EvalContext) (t element : Ty) (p : CollectionPatch) (length : Nat) : Prop :=
  match p.op with
  | .append | .prepend | .subtract => OperandSound ctx t p.value
  | .subscriptSet => ∃ i, evaluatedToS64 p.key = some i ∧
      (0 ≤ i.toInt → i.toInt < length → evalIsNull p.value = true ∨ ElementSound ctx element p.value)
  | .subscriptDelete => (evaluatedToS64 p.key).isSome

def SetPatchSound (ctx : EvalContext) (t key : Ty) (p : CollectionPatch) : Prop :=
  match p.op with
  | .append | .subtract => OperandSound ctx t p.value
  | .subscriptDelete => ElementSound ctx key p.key
  | .prepend | .subscriptSet => False

def MapPatchSound (ctx : EvalContext) (t key value : Ty) (p : CollectionPatch) : Prop :=
  match p.op with
  | .append => OperandSound ctx t p.value
  | .subtract => OperandSound ctx (.set key false) p.value
  | .subscriptSet => ElementSound ctx key p.key ∧
      (evalIsNull p.value = true ∨ evalIsNull p.key = false ∧ ElementSound ctx value p.value)
  | .subscriptDelete => ElementSound ctx key p.key
  | .prepend => False

/-- The operand of `+` and `-` is not null and sound; the index of a list element is an integer, the key of a set or a
map element is of the kind of its type and sound, and so is a value that is set, with a key that is not null. -/
def PatchSound (ctx : EvalContext) (t : Ty) (p : CollectionPatch) (cell : Cell) : Prop :=
  match t with
  | .list element _ => ListPatchSound ctx t element p (currentList cell).length
  | .set key _ => SetPatchSound ctx t key p
  | .map key value _ => MapPatchSound ctx t key value p
  | _ => False

/-! ### Cells -/

@[simp]
theorem currentList_present (out : List ColumnValue) : currentList (present .array out) = out := by
  cases out <;> rfl

@[simp]
theorem currentSet_present (out : List ColumnValue) : currentSet (present .set out) = out := by
  cases out <;> rfl

@[simp]
theorem currentMap_present (out : List (ColumnValue × ColumnValue)) : currentMap (present .map out) = out := by
  cases out <;> rfl

theorem cellOf_present {α : Type} {mk : List α → ColumnValue} {t : Ty} {out : List α} (h : OfType t (mk out)) :
    CellOf t (present mk out) := by
  intro v hv
  rw [present] at hv
  split at hv
  · cases hv
  · obtain rfl := Option.some.inj hv
    exact h

theorem CellOf.list {element : Ty} {frozen : Bool} {c : Cell} (h : CellOf (.list element frozen) c) :
    ∀ v ∈ currentList c, OfType element v := by
  cases c with
  | none => exact List.forall_mem_nil _
  | some v =>
      have hv := h v rfl
      cases v with
      | array vs =>
          rw [OfType] at hv
          exact hv
      | _ => exact List.forall_mem_nil _

theorem CellOf.set {key : Ty} {frozen : Bool} {c : Cell} (h : CellOf (.set key frozen) c) :
    (∀ v ∈ currentSet c, OfType key v) ∧ (currentSet c).Pairwise fun a b => ColumnValue.beq a b = false := by
  cases c with
  | none => exact ⟨List.forall_mem_nil _, .nil⟩
  | some v =>
      have hv := h v rfl
      cases v with
      | set vs =>
          rw [OfType] at hv
          exact hv
      | _ => exact ⟨List.forall_mem_nil _, .nil⟩

theorem CellOf.map {key value : Ty} {frozen : Bool} {c : Cell} (h : CellOf (.map key value frozen) c) :
    (∀ e ∈ currentMap c, OfType key e.1 ∧ OfType value e.2) ∧
      (currentMap c).Pairwise fun a b => ColumnValue.beq a.1 b.1 = false := by
  cases c with
  | none => exact ⟨List.forall_mem_nil _, .nil⟩
  | some v =>
      have hv := h v rfl
      cases v with
      | map es =>
          rw [OfType] at hv
          exact hv
      | _ => exact ⟨List.forall_mem_nil _, .nil⟩

/-! ### Operands -/

variable {ctx : EvalContext} {t : Ty} {e : Evaluated} {v : ColumnValue}

theorem OperandSound.resolve (h : OperandSound ctx t e) (haccepts : Accepts ctx t e) :
    ∃ v, resolveEvaluated ctx t e = some v ∧ Writes ctx t e v := by
  obtain ⟨v, hv⟩ := Option.isSome_iff_exists.mp (resolveEvaluated_isSome.mpr haccepts)
  exact ⟨v, hv, (resolved_of_sound hv h.2).of_nonnull h.1⟩

theorem operandSound_of_writes (h : Writes ctx t e v) : OperandSound ctx t e :=
  ⟨evalIsNull_of_denotes h.2 h.1, sound_of_denotes h.2 (Or.inr h.1)⟩

theorem ElementSound.resolve (h : ElementSound ctx t e) :
    ∃ v, resolveEvaluated ctx t e = some v ∧ WritesOrNull ctx t e v ∧ (evalIsNull e = false → Writes ctx t e v) := by
  obtain ⟨v, hv⟩ := Option.isSome_iff_exists.mp (resolveEvaluated_isSome.mpr h.1)
  have hresolved := resolved_of_sound hv h.2
  exact ⟨v, hv, ⟨hresolved.null_or, hresolved.2⟩, hresolved.of_nonnull⟩

theorem elementSound_of_writes {w : ColumnValue} (hresolve : resolveEvaluated ctx t e = some w)
    (h : WritesOrNull ctx t e v) : ElementSound ctx t e :=
  ⟨resolveEvaluated_isSome.mp (hresolve ▸ rfl), sound_of_denotes h.2 h.1⟩

theorem Writes.orNull (h : Writes ctx t e v) : WritesOrNull ctx t e v := ⟨Or.inr h.1, h.2⟩

/-- An operand of `+` or `-`: `g` is what the cell is to hold, of the contents `a` of the operand. -/
theorem compound_iff {α β : Type} {colType : Ty} {as : ColumnValue → Option α} {mk : α → ColumnValue}
    {out : α → Cell} {current : Cell → β} {g : α → β} (haccepts : Accepts ctx t e)
    (has : ∀ v, OfType t v → ∃ a, v = mk a ∧ as v = some a)
    (hout : ∀ a, OfType t (mk a) → CellOf colType (out a) ∧ current (out a) = g a) :
    (∃ c', ((resolveEvaluated ctx t e).bind as).map out = some c' ∧ CellOf colType c' ∧
      ∃ a, Writes ctx t e (mk a) ∧ current c' = g a) ↔ OperandSound ctx t e := by
  constructor
  · rintro ⟨c', -, -, a, hwrites, -⟩
    exact operandSound_of_writes hwrites
  · intro h
    obtain ⟨v, hv, hwrites⟩ := h.resolve haccepts
    obtain ⟨a, rfl, ha⟩ := has v hwrites.1
    obtain ⟨hcell, hg⟩ := hout a hwrites.1
    refine ⟨out a, ?_, hcell, a, hwrites, hg⟩
    rw [hv, Option.bind_some, ha, Option.map_some]

/-- The key of an element to remove. -/
theorem removal_iff (ctx : EvalContext) (e : Evaluated) {β : Type} {colType : Ty} {out : ColumnValue → Cell} {current : Cell → β} {g : ColumnValue → β}
    (hout : ∀ k, (k = .null ∨ OfType t k) → CellOf colType (out k) ∧ current (out k) = g k) :
    (∃ c', (resolveEvaluated ctx t e).map out = some c' ∧ CellOf colType c' ∧
      ∃ k, WritesOrNull ctx t e k ∧ current c' = g k) ↔ ElementSound ctx t e := by
  constructor
  · rintro ⟨c', happly, -, k, hwrites, -⟩
    obtain ⟨w, hw, -⟩ := Option.map_eq_some_iff.mp happly
    exact elementSound_of_writes hw hwrites
  · intro h
    obtain ⟨k, hk, hwrites, -⟩ := h.resolve
    obtain ⟨hcell, hg⟩ := hout k hwrites.1
    exact ⟨out k, by rw [hk, Option.map_some], hcell, k, hwrites, hg⟩

theorem asArray_of_list {element : Ty} {frozen : Bool} (v : ColumnValue) (h : OfType (.list element frozen) v) :
    ∃ vs, v = .array vs ∧ asArray v = some vs := by
  cases v with
  | array vs => exact ⟨vs, rfl, rfl⟩
  | _ => exact h.elim

theorem asSet_of_set {key : Ty} {frozen : Bool} (v : ColumnValue) (h : OfType (.set key frozen) v) :
    ∃ vs, v = .set vs ∧ asSet v = some vs := by
  cases v with
  | set vs => exact ⟨vs, rfl, rfl⟩
  | _ => exact h.elim

theorem asMap_of_map {key value : Ty} {frozen : Bool} (v : ColumnValue) (h : OfType (.map key value frozen) v) :
    ∃ es, v = .map es ∧ asMap v = some es := by
  cases v with
  | map es => exact ⟨es, rfl, rfl⟩
  | _ => exact h.elim

/-! ### Lists -/

theorem indexIs_iff {key : Evaluated} {i : Int} : IndexIs key i ↔ ∃ n, evaluatedToS64 key = some n ∧ n.toInt = i := by
  cases key with
  | literal lit =>
      cases lit with
      | s64 n => simp [IndexIs, evaluatedToS64]
      | _ => simp [IndexIs, evaluatedToS64]
  | columnValue v =>
      cases v with
      | s64 n => simp [IndexIs, evaluatedToS64, Resolve.integerOf]
      | s32 n => simp [IndexIs, evaluatedToS64, Resolve.integerOf, BitVec.toInt_signExtend_of_le]
      | s16 n => simp [IndexIs, evaluatedToS64, Resolve.integerOf, BitVec.toInt_signExtend_of_le]
      | u8 n => simp [IndexIs, evaluatedToS64, Resolve.integerOf, BitVec.toInt_signExtend_of_le]
      | _ => simp [IndexIs, evaluatedToS64, Resolve.integerOf]
  | _ => simp [IndexIs, evaluatedToS64]

/-- An index is a position of the list, or out of its range. -/
theorem listPosition_eq {key : Evaluated} {n : BitVec 64} (h : evaluatedToS64 key = some n) {length : Nat} :
    listPosition key length = some (if 0 ≤ n.toInt ∧ n.toInt < length then some n.toInt.toNat else none) := by
  rw [listPosition, h, Option.map_some]
  by_cases hneg : n.toInt < 0
  · rw [if_pos (Or.inl hneg), if_neg (by omega)]
  · have hnat : n.toInt = n.toNat := by
      have hlt := n.isLt
      have hcond := BitVec.toInt_eq_toNat_cond n
      split at hcond <;> omega
    rw [hnat, Int.toNat_natCast]
    by_cases hlen : length ≤ n.toNat
    · rw [if_pos (Or.inr hlen), if_neg (by omega)]
    · rw [if_neg (by omega), if_pos (by omega)]

/-- The patches of `+` and `-` are planned with an operand that is accepted. -/
def OperandAccepted (ctx : EvalContext) (t : Ty) (p : CollectionPatch) : Prop :=
  p.op = .append ∨ p.op = .prepend ∨ p.op = .subtract → Accepts ctx (operandType t p.op) p.value

section

variable {element : Ty} {frozen : Bool} {c : Cell} {p : CollectionPatch}

theorem cellOf_presentList (frozen : Bool) {out : List ColumnValue} (h : ∀ v ∈ out, OfType element v) :
    CellOf (.list element frozen) (present .array out) ∧ currentList (present .array out) = out :=
  ⟨cellOf_present (by rwa [OfType]), currentList_present out⟩

theorem diff_eq {cur rhs : List ColumnValue} (hcur : ∀ v ∈ cur, OfType t v) (hrhs : ∀ v ∈ rhs, OfType t v) :
    (cur.filter fun e => !rhs.any fun r => ColumnValue.beq e r) = Keyed.diff ColumnValue.beq cur rhs := by
  refine List.filter_congr fun e he => ?_
  have hany : (rhs.any fun r => ColumnValue.beq e r) = rhs.any fun r => ColumnValue.beq r e := by
    rw [Bool.eq_iff_iff, List.any_eq_true, List.any_eq_true]
    refine exists_congr fun r => and_congr_right fun hr => ?_
    rw [(equates_ofType t).comm (hcur e he) (hrhs r hr)]
  rw [hany]

/-- An element is set or removed, when the index is an integer. -/
theorem subscriptSet_iff {key value : Evaluated} {n : BitVec 64} (hkey : evaluatedToS64 key = some n)
    (hcur : ∀ v ∈ currentList c, OfType element v) (hcell : CellOf (.list element frozen) c) :
    (∃ c', applyListPatch ctx (.list element frozen) element c ⟨.subscriptSet, key, value⟩ = some c' ∧
      CellOf (.list element frozen) c' ∧
      ListGives ctx (.list element frozen) element ⟨.subscriptSet, key, value⟩ (currentList c) (currentList c')) ↔
      ListPatchSound ctx (.list element frozen) element ⟨.subscriptSet, key, value⟩ (currentList c).length := by
  have hindex : IndexIs key n.toInt := indexIs_iff.mpr ⟨n, hkey, rfl⟩
  by_cases hin : 0 ≤ n.toInt ∧ n.toInt < (currentList c).length
  · cases hnull : evalIsNull value with
    | true =>
        have happlied : applyListPatch ctx (.list element frozen) element c ⟨.subscriptSet, key, value⟩ =
            some (present .array ((currentList c).eraseIdx n.toInt.toNat)) := by
          rw [applyListPatch, listPosition_eq hkey, if_pos hin]
          change (if evalIsNull value = true then _ else _) = _
          rw [hnull, if_pos rfl]
        obtain ⟨hout, hlist⟩ := cellOf_presentList frozen fun v hv =>
          hcur v (List.mem_of_mem_eraseIdx (i := n.toInt.toNat) hv)
        refine iff_of_true ⟨_, happlied, hout, n.toInt, hindex, fun h => absurd hin h, fun _ _ => hlist, fun _ hfalse => ?_⟩
          ⟨n, hkey, fun _ _ => Or.inl hnull⟩
        rw [hnull] at hfalse
        cases hfalse
    | false =>
        have happlied : applyListPatch ctx (.list element frozen) element c ⟨.subscriptSet, key, value⟩ =
            (resolveEvaluated ctx element value).map fun v => some (.array ((currentList c).set n.toInt.toNat v)) := by
          rw [applyListPatch, listPosition_eq hkey, if_pos hin]
          change (if evalIsNull value = true then _ else _) = _
          rw [hnull, if_neg Bool.false_ne_true]
        rw [happlied]
        constructor
        · rintro ⟨c', happly, -, i, hi, -, -, hset⟩
          obtain ⟨w, hw, -⟩ := Option.map_eq_some_iff.mp happly
          obtain ⟨m, hm, rfl⟩ := indexIs_iff.mp hi
          obtain rfl := Option.some.inj (hkey.symm.trans hm)
          obtain ⟨v, hwrites, -⟩ := hset hin hnull
          exact ⟨n, hkey, fun _ _ => Or.inr (elementSound_of_writes hw (Writes.orNull hwrites))⟩
        · rintro ⟨m, hm, hsound⟩
          obtain rfl := Option.some.inj (hkey.symm.trans hm)
          have helement := (hsound hin.1 hin.2).resolve_left (by rw [hnull]; exact Bool.false_ne_true)
          obtain ⟨v, hv, -, hwrites⟩ := helement.resolve
          refine ⟨some (.array ((currentList c).set n.toInt.toNat v)), by rw [hv, Option.map_some], ?_, n.toInt, hindex,
            fun h => absurd hin h, fun _ htrue => ?_, fun _ _ => ⟨v, hwrites hnull, rfl⟩⟩
          · intro w hw
            obtain rfl := Option.some.inj hw
            rw [OfType]
            intro x hx
            rcases List.mem_or_eq_of_mem_set hx with hx | rfl
            · exact hcur x hx
            · exact (hwrites hnull).1
          · rw [hnull] at htrue
            cases htrue
  · have happlied : applyListPatch ctx (.list element frozen) element c ⟨.subscriptSet, key, value⟩ = some c := by
      rw [applyListPatch, listPosition_eq hkey, if_neg hin]
      rfl
    exact iff_of_true ⟨c, happlied, hcell, n.toInt, hindex, fun _ => rfl, fun h => absurd h hin, fun h => absurd h hin⟩
      ⟨n, hkey, fun hlow hhigh => absurd ⟨hlow, hhigh⟩ hin⟩

theorem listPatch_iff (haccepted : OperandAccepted ctx (.list element frozen) p)
    (hcell : CellOf (.list element frozen) c) :
    (∃ c', applyListPatch ctx (.list element frozen) element c p = some c' ∧ CellOf (.list element frozen) c' ∧
      ListGives ctx (.list element frozen) element p (currentList c) (currentList c')) ↔
      ListPatchSound ctx (.list element frozen) element p (currentList c).length := by
  obtain ⟨op, key, value⟩ := p
  have hcur := hcell.list
  cases op with
  | append =>
      refine compound_iff (haccepted (Or.inl rfl)) asArray_of_list fun rhs hrhs => cellOf_presentList _ ?_
      rw [OfType] at hrhs
      exact List.forall_mem_append.mpr ⟨hcur, hrhs⟩
  | prepend =>
      refine compound_iff (haccepted (Or.inr (Or.inl rfl))) asArray_of_list fun rhs hrhs => cellOf_presentList _ ?_
      rw [OfType] at hrhs
      exact List.forall_mem_append.mpr ⟨hrhs, hcur⟩
  | subtract =>
      refine compound_iff (haccepted (Or.inr (Or.inr rfl))) asArray_of_list fun rhs hrhs => ?_
      rw [OfType] at hrhs
      rw [diff_eq hcur hrhs]
      exact cellOf_presentList _ fun v hv => hcur v (List.mem_of_mem_filter hv)
  | subscriptSet =>
      cases hkey : evaluatedToS64 key with
      | none =>
          refine iff_of_false ?_ ?_
          · rintro ⟨c', happly, -⟩
            rw [applyListPatch, listPosition, hkey] at happly
            cases happly
          · rintro ⟨i, hi, -⟩
            rw [hkey] at hi
            cases hi
      | some n => exact subscriptSet_iff hkey hcur hcell
  | subscriptDelete =>
      cases hkey : evaluatedToS64 key with
      | none =>
          refine iff_of_false ?_ ?_
          · rintro ⟨c', happly, -⟩
            rw [applyListPatch, listPosition, hkey] at happly
            cases happly
          · rw [ListPatchSound, hkey]
            exact Bool.false_ne_true
      | some n =>
          refine iff_of_true ?_ (by rw [ListPatchSound, hkey]; rfl)
          rw [applyListPatch, listPosition_eq hkey]
          by_cases hin : 0 ≤ n.toInt ∧ n.toInt < (currentList c).length
          · rw [if_pos hin]
            obtain ⟨hout, hlist⟩ := cellOf_presentList frozen fun v hv => hcur v (List.mem_of_mem_eraseIdx hv)
            exact ⟨_, rfl, hout, n.toInt, indexIs_iff.mpr ⟨n, hkey, rfl⟩, fun h => absurd hin h, fun _ => hlist⟩
          · rw [if_neg hin]
            exact ⟨c, rfl, hcell, n.toInt, indexIs_iff.mpr ⟨n, hkey, rfl⟩, fun _ => rfl, fun h => absurd h hin⟩

/-! ### Sets -/

theorem cellOf_presentSet (frozen : Bool) {key : Ty} {out : List ColumnValue} (h : ∀ v ∈ out, OfType key v)
    (hdistinct : out.Pairwise fun a b => ColumnValue.beq a b = false) :
    CellOf (.set key frozen) (present .set out) ∧ currentSet (present .set out) = out :=
  ⟨cellOf_present (by rw [OfType]; exact ⟨h, hdistinct⟩), currentSet_present out⟩

theorem insertKey_eq : insertKey = Keyed.add ColumnValue.beq := rfl

theorem setPatch_iff {key : Ty} (haccepted : OperandAccepted ctx (.set key frozen) p)
    (hcell : CellOf (.set key frozen) c) :
    (∃ c', applySetPatch ctx (.set key frozen) key c p = some c' ∧ CellOf (.set key frozen) c' ∧
      SetGives ctx (.set key frozen) key p (currentSet c) (currentSet c')) ↔
      SetPatchSound ctx (.set key frozen) key p := by
  obtain ⟨op, elementKey, value⟩ := p
  obtain ⟨hcur, hdistinct⟩ := hcell.set
  -- what is left of a set is inserted into an empty one
  have hkept : ∀ q : ColumnValue → Bool, CellOf (.set key frozen) (present .set (((currentSet c).filter q).foldl insertKey [])) ∧
      currentSet (present .set (((currentSet c).filter q).foldl insertKey [])) = (currentSet c).filter q := fun q => by
    have hfilter := hdistinct.filter q
    rw [insertKey_eq, Keyed.foldl_add_nil hfilter]
    exact cellOf_presentSet frozen (fun v hv => hcur v (List.mem_of_mem_filter hv)) hfilter
  cases op with
  | append =>
      refine compound_iff (haccepted (Or.inl rfl)) asSet_of_set fun rhs hrhs => ?_
      rw [OfType] at hrhs
      have hunion : rhs.foldl insertKey (currentSet c) = Keyed.union ColumnValue.beq (currentSet c) rhs := by
        rw [insertKey_eq, Keyed.foldl_add hrhs.2]
      rw [← hunion]
      exact cellOf_presentSet frozen (forall_mem_foldl_insertKey hcur hrhs.1) (pairwise_foldl_insertKey hdistinct rhs)
  | subtract => exact compound_iff (haccepted (Or.inr (Or.inr rfl))) asSet_of_set fun rhs _ => hkept _
  | subscriptDelete => exact removal_iff ctx elementKey fun k _ => hkept _
  | prepend => exact iff_of_false (by rintro ⟨_, happly, -⟩; cases happly) id
  | subscriptSet => exact iff_of_false (by rintro ⟨_, happly, -⟩; cases happly) id

/-! ### Maps -/

theorem cellOf_presentMap (frozen : Bool) {key value : Ty} {out : List (ColumnValue × ColumnValue)}
    (h : ∀ e ∈ out, OfType key e.1 ∧ OfType value e.2)
    (hdistinct : out.Pairwise fun a b => ColumnValue.beq a.1 b.1 = false) :
    CellOf (.map key value frozen) (present .map out) ∧ currentMap (present .map out) = out :=
  ⟨cellOf_present (by rw [OfType]; exact ⟨h, hdistinct⟩), currentMap_present out⟩

theorem insertEntry_eq (m : List (ColumnValue × ColumnValue)) (key value : ColumnValue) :
    insertEntry m key value = Keyed.insert ColumnValue.beq m key value := by
  induction m with
  | nil => rfl
  | cons e m ih => rw [insertEntry, Keyed.insert, ih]

theorem mapPatch_iff {key value : Ty} (haccepted : OperandAccepted ctx (.map key value frozen) p)
    (hcell : CellOf (.map key value frozen) c) :
    (∃ c', applyMapPatch ctx (.map key value frozen) key value c p = some c' ∧ CellOf (.map key value frozen) c' ∧
      MapGives ctx (.map key value frozen) key value p (currentMap c) (currentMap c')) ↔
      MapPatchSound ctx (.map key value frozen) key value p := by
  obtain ⟨op, elementKey, elementValue⟩ := p
  obtain ⟨hcur, hdistinct⟩ := hcell.map
  have hkeys : ∀ e ∈ currentMap c, e.1 = .null ∨ OfType key e.1 := fun e he => Or.inr (hcur e he).1
  -- entries put into the map
  have hput : ∀ es : List (ColumnValue × ColumnValue), (∀ e ∈ es, OfType key e.1 ∧ OfType value e.2) →
      es.Pairwise (fun a b => ColumnValue.beq a.1 b.1 = false) →
      es.foldl (fun m e => insertEntry m e.1 e.2) (currentMap c) = Keyed.override ColumnValue.beq (currentMap c) es :=
    fun es hes hdistinct' => by
      simp only [insertEntry_eq]
      exact Keyed.foldl_insert (equates_ofType key) (fun e he => (hcur e he).1) hdistinct (fun e he => (hes e he).1)
        hdistinct'
  -- keys removed from it
  have hremoved : ∀ ks : List ColumnValue, (∀ k ∈ ks, k = .null ∨ OfType key k) →
      ks.foldl removeEntry (currentMap c) = Keyed.eraseKeys ColumnValue.beq (currentMap c) ks := fun ks hks =>
    Keyed.foldl_eraseP (equates_or_null (equates_ofType key)) hkeys hdistinct hks
  have hkept : ∀ ks : List ColumnValue, (∀ k ∈ ks, k = .null ∨ OfType key k) →
      CellOf (.map key value frozen) (present .map (ks.foldl removeEntry (currentMap c))) ∧
        currentMap (present .map (ks.foldl removeEntry (currentMap c))) =
          Keyed.eraseKeys ColumnValue.beq (currentMap c) ks := fun ks hks => by
    rw [hremoved ks hks]
    exact cellOf_presentMap frozen (fun e he => hcur e (List.mem_of_mem_filter he)) (hdistinct.filter _)
  cases op with
  | append =>
      refine compound_iff (haccepted (Or.inl rfl)) asMap_of_map fun rhs hrhs => ?_
      rw [OfType] at hrhs
      rw [← hput rhs hrhs.1 hrhs.2]
      exact cellOf_presentMap frozen (forall_mem_foldl_insertEntry hcur hrhs.1) (pairwise_foldl_insertEntry hdistinct rhs)
  | subtract =>
      refine compound_iff (haccepted (Or.inr (Or.inr rfl))) asSet_of_set fun ks hks => hkept ks fun k hk => ?_
      rw [OfType] at hks
      exact Or.inr (hks.1 k hk)
  | subscriptSet =>
      cases hnull : evalIsNull elementValue with
      | true =>
          have happlied : applyMapPatch ctx (.map key value frozen) key value c ⟨.subscriptSet, elementKey, elementValue⟩ =
              (resolveEvaluated ctx key elementKey).map fun k => present .map (removeEntry (currentMap c) k) := by
            change (resolveEvaluated ctx key elementKey).bind (fun k => if evalIsNull elementValue = true then _ else _) = _
            simp only [hnull, if_pos]
            cases resolveEvaluated ctx key elementKey <;> rfl
          rw [happlied]
          have hremoval := removal_iff ctx elementKey fun k hk => hkept [k] (by simpa using hk)
          constructor
          · rintro ⟨c', happly, hc', hgives, -⟩
            exact ⟨hremoval.mp ⟨c', happly, hc', hgives hnull⟩, Or.inl hnull⟩
          · rintro ⟨hkey, -⟩
            obtain ⟨c', happly, hc', hgives⟩ := hremoval.mpr hkey
            refine ⟨c', happly, hc', fun _ => hgives, fun hfalse => ?_⟩
            rw [hnull] at hfalse
            cases hfalse
      | false =>
          have happlied : applyMapPatch ctx (.map key value frozen) key value c ⟨.subscriptSet, elementKey, elementValue⟩ =
              (resolveEvaluated ctx key elementKey).bind fun k => (resolveEvaluated ctx value elementValue).map fun v =>
                some (.map (insertEntry (currentMap c) k v)) := by
            change (resolveEvaluated ctx key elementKey).bind (fun k => if evalIsNull elementValue = true then _ else _) = _
            simp only [hnull, Bool.false_eq_true, if_false]
          rw [happlied]
          constructor
          · rintro ⟨c', happly, -, -, hgives⟩
            obtain ⟨k', hk', happly⟩ := Option.bind_eq_some_iff.mp happly
            obtain ⟨v', hv', -⟩ := Option.map_eq_some_iff.mp happly
            obtain ⟨k, v, hk, hv, -⟩ := hgives hnull
            exact ⟨elementSound_of_writes hk' (Writes.orNull hk),
              Or.inr ⟨evalIsNull_of_denotes hk.2 hk.1, elementSound_of_writes hv' (Writes.orNull hv)⟩⟩
          · rintro ⟨hkey, hvalue⟩
            obtain ⟨hkeyNull, hvalue⟩ := hvalue.resolve_left (by rw [hnull]; exact Bool.false_ne_true)
            obtain ⟨k, hk, -, hkWrites⟩ := hkey.resolve
            obtain ⟨v, hv, -, hvWrites⟩ := hvalue.resolve
            have hkv : ∀ e ∈ [(k, v)], OfType key e.1 ∧ OfType value e.2 := fun e he => by
              obtain rfl := List.mem_singleton.mp he
              exact ⟨(hkWrites hkeyNull).1, (hvWrites hnull).1⟩
            have hinsert := hput [(k, v)] hkv (List.pairwise_singleton _ _)
            refine ⟨some (.map (insertEntry (currentMap c) k v)), by rw [hk, Option.bind_some, hv, Option.map_some], ?_,
              fun htrue => ?_, fun _ => ⟨k, v, hkWrites hkeyNull, hvWrites hnull, hinsert⟩⟩
            · intro w hw
              obtain rfl := Option.some.inj hw
              rw [OfType]
              exact ⟨forall_mem_foldl_insertEntry hcur hkv, pairwise_foldl_insertEntry hdistinct [(k, v)]⟩
            · rw [hnull] at htrue
              cases htrue
  | subscriptDelete => exact removal_iff ctx elementKey fun k hk => hkept [k] (by simpa using hk)
  | prepend => exact iff_of_false (by rintro ⟨_, happly, -⟩; cases happly) id

end

/-! ### Patches of statements -/

theorem operandAccepted_of_compound {col : Target} {cf : CompoundForm} {p : CollectionPatch}
    (h : planCompound ctx col cf = .patch p) : OperandAccepted ctx col.type p := by
  rw [planCompound] at h
  cases hop : compoundOp col cf with
  | error e =>
      simp only [hop] at h
      cases h
  | ok op =>
      simp only [hop] at h
      split_ifs at h with hunset hresolved
      obtain rfl := Planned.patch.inj h
      exact fun _ => resolveEvaluated_isSome.mp hresolved

theorem operandAccepted_of_assignment {col : Target} {a : Assignment} {p : CollectionPatch}
    (h : planAssignment ctx col a = .patch p) : OperandAccepted ctx col.type p := by
  rw [planAssignment] at h
  rcases haccess : a.target.access with _ | (index | field)
  · simp only [haccess] at h
    cases hform : matchCompoundForm col.name.1 a.value with
    | none =>
        simp only [hform] at h
        cases h
    | some cf =>
        simp only [hform] at h
        split_ifs at h
        exact operandAccepted_of_compound h
  · simp only [haccess] at h
    split_ifs at h
    obtain rfl := Planned.patch.inj h
    rintro (hop | hop | hop) <;> cases hop
  · simp only [haccess] at h
    split_ifs at h

theorem operandAccepted_of_selection {col : Target} {s : SimpleSelection} {p : CollectionPatch}
    (h : planSelection ctx col s = .patch p) : OperandAccepted ctx col.type p := by
  rw [planSelection] at h
  rcases haccess : s.access with _ | (index | field)
  · simp only [haccess] at h
    split_ifs at h
  · simp only [haccess] at h
    split_ifs at h
    obtain rfl := Planned.patch.inj h
    rintro (hop | hop | hop) <;> cases hop
  · simp only [haccess] at h
    split_ifs at h

/-- A patch that is planned for an assignment or a deletion is applied without a failed assertion, and gives the result
of its operation in values of the type, exactly when it is sound. -/
theorem patch_gives_iff {col : Target} {p : CollectionPatch} {c : Cell}
    (hplanned : (∃ a, planAssignment ctx col a = .patch p) ∨ ∃ s, planSelection ctx col s = .patch p)
    (hcell : CellOf col.type c) :
    (∃ c', applyCollectionPatch ctx col.type c p = some c' ∧ CellOf col.type c' ∧ Gives ctx col.type p c c') ↔
      PatchSound ctx col.type p c := by
  have haccepted : OperandAccepted ctx col.type p := by
    rcases hplanned with ⟨a, ha⟩ | ⟨s, hs⟩
    · exact operandAccepted_of_assignment ha
    · exact operandAccepted_of_selection hs
  obtain ⟨name, type, keyKind⟩ := col
  cases type with
  | list element frozen => exact listPatch_iff haccepted hcell
  | set key frozen => exact setPatch_iff haccepted hcell
  | map key value frozen => exact mapPatch_iff haccepted hcell
  | _ => exact iff_of_false (by rintro ⟨_, happly, -⟩; cases happly) id

def columnL : Target := ⟨⟨ascii "l", by decide⟩, .list (.basic .int) false, .none⟩

def targetL (access : Option Access) : SimpleSelection := ⟨columnL.name, access⟩

/-- `SET l[0] = 5`. -/
theorem patch_gives_element :
    (∃ c', applyCollectionPatch emptyContext columnL.type (some (.array [.s32 1]))
        ⟨.subscriptSet, .literal (.s64 0), .literal (.s64 5)⟩ = some c' ∧ CellOf columnL.type c' ∧
      Gives emptyContext columnL.type ⟨.subscriptSet, .literal (.s64 0), .literal (.s64 5)⟩ (some (.array [.s32 1])) c') ↔
      PatchSound emptyContext columnL.type ⟨.subscriptSet, .literal (.s64 0), .literal (.s64 5)⟩
        (some (.array [.s32 1])) := by
  refine patch_gives_iff (Or.inl ⟨⟨targetL (some (.subscript (.literal (.s64 0)))), .term (.literal (.s64 5))⟩, ?_⟩) ?_
  · simp [planAssignment, targetL, columnL, colIsCollection, isList, isSet, twiHasColumnRef, evaluateToi, evalIsUnset]
  · intro v hv
    obtain rfl := Option.some.inj hv
    rw [columnL, OfType]
    intro x hx
    obtain rfl := List.mem_singleton.mp hx
    rw [OfType]
    rfl

/-- `SET l['a'] = 5` is planned, and fails an assertion. -/
theorem element_at_text :
    planAssignment emptyContext columnL
        ⟨targetL (some (.subscript (.literal (.text (ascii "a"))))), .term (.literal (.s64 5))⟩ =
      .patch ⟨.subscriptSet, .literal (.text (ascii "a")), .literal (.s64 5)⟩ ∧
    ¬ ∃ c', applyCollectionPatch emptyContext columnL.type (some (.array [.s32 1]))
        ⟨.subscriptSet, .literal (.text (ascii "a")), .literal (.s64 5)⟩ = some c' := by
  refine ⟨?_, ?_⟩
  · simp [planAssignment, targetL, columnL, colIsCollection, isList, isSet, twiHasColumnRef, evaluateToi, evalIsUnset]
  · rintro ⟨c', happly⟩
    cases happly

end Plexdb.Cql.Patches
