import Plexdb.DmlStatements

/-! Arithmetic on evaluated terms (`evaluate_binary_arithmetic`, `evaluate_unary_minus` and `as_s64` of
`cql/engine/evaluator.cpp`). A result that a signed 64-bit word does not hold is undefined behaviour of the language:
`none`. -/

namespace Plexdb.Cql.Arithmetic

/-- The operations of the language on floats, and its conversion of an integer. -/
structure FloatOperations where
  add : BitVec 64 → BitVec 64 → BitVec 64
  sub : BitVec 64 → BitVec 64 → BitVec 64
  mul : BitVec 64 → BitVec 64 → BitVec 64
  div : BitVec 64 → BitVec 64 → BitVec 64
  neg : BitVec 64 → BitVec 64
  ofInt : Int → BitVec 64

/-! ### Reading a value -/

def evalIsNull : Evaluated → Bool
  | .literal .null => true
  | .columnValue .null => true
  | _ => false

def evalIsUnset : Evaluated → Bool
  | .literal .unset => true
  | _ => false

def evalIsFloatLike : Evaluated → Bool
  | .literal (.f64 _) => true
  | .columnValue (.f64 _) => true
  | .columnValue (.f32 _) => true
  | _ => false

/-- `as_value<AutoString8>`. -/
def asText : Evaluated → Option Bytes
  | .literal (.text bytes) => some bytes
  | .columnValue (.text bytes) => some bytes
  | _ => none

/-- `as_s64`. A tinyint is stored as a `U8`, and read as one. -/
def asS64 : Evaluated → Option Int
  | .literal (.s64 v) => some v.toInt
  | .literal (.bool v) => some (if v then 1 else 0)
  | .columnValue (.s64 v) => some v.toInt
  | .columnValue (.s32 v) => some v.toInt
  | .columnValue (.s16 v) => some v.toInt
  | .columnValue (.u8 v) => some v.toNat
  | _ => none

def asF64 (floats : FloatOperations) : Evaluated → Option (BitVec 64)
  | .literal (.f64 v) => some v
  | .literal (.s64 v) => some (floats.ofInt v.toInt)
  | .columnValue (.f64 v) => some v
  | .columnValue (.f32 v) => some (Float.toF64 v)
  | .columnValue (.s64 v) => some (floats.ofInt v.toInt)
  | .columnValue (.s32 v) => some (floats.ofInt v.toInt)
  | _ => none

/-! ### Operations -/

def inS64 (x : Int) : Prop := -2 ^ 63 ≤ x ∧ x < 2 ^ 63

instance (x : Int) : Decidable (inS64 x) := inferInstanceAs (Decidable (_ ∧ _))

/-- A literal of the result of an `S64` operation. -/
def s64Literal (x : Int) : Option Evaluated :=
  if inS64 x then some (.literal (.s64 (BitVec.ofInt 64 x))) else none

/-- The operators on `S64`. A remainder is undefined where the quotient is. -/
def s64Arithmetic (l : Int) (op : ArithmeticOperator) (r : Int) : Option Evaluated :=
  match op with
  | .plus => s64Literal (l + r)
  | .minus => s64Literal (l - r)
  | .times => s64Literal (l * r)
  | .divide => s64Literal (l.tdiv r)
  | .mod => if inS64 (l.tdiv r) then s64Literal (l.tmod r) else none

def floatArithmetic (floats : FloatOperations) (l : BitVec 64) (op : ArithmeticOperator) (r : BitVec 64) : Evaluated :=
  match op with
  | .plus => .literal (.f64 (floats.add l r))
  | .minus => .literal (.f64 (floats.sub l r))
  | .times => .literal (.f64 (floats.mul l r))
  | .divide => .literal (.f64 (floats.div l r))
  | .mod => .literal .null

def evaluateBinaryArithmetic (floats : FloatOperations) (lhs : Evaluated) (op : ArithmeticOperator)
    (rhs : Evaluated) : Option Evaluated :=
  if evalIsUnset lhs || evalIsUnset rhs then some (.literal .unset)
  else if evalIsNull lhs || evalIsNull rhs then some (.literal .null)
  else
    match asText lhs, asText rhs with
    | some ls, some rs => if op = .plus then some (.literal (.text (ls ++ rs))) else some (.literal .null)
    | _, _ =>
        if evalIsFloatLike lhs || evalIsFloatLike rhs then
          match asF64 floats lhs, asF64 floats rhs with
          | some l, some r => some (floatArithmetic floats l op r)
          | _, _ => some (.literal .null)
        else
          match asS64 lhs, asS64 rhs with
          | some l, some r =>
              if (op = .divide ∨ op = .mod) ∧ r = 0 then some (.literal .null) else s64Arithmetic l op r
          | _, _ => some (.literal .null)

def evaluateUnaryMinus (floats : FloatOperations) (value : Evaluated) : Option Evaluated :=
  if evalIsUnset value then some (.literal .unset)
  else if evalIsNull value then some (.literal .null)
  else if evalIsFloatLike value then
    match asF64 floats value with
    | some v => some (.literal (.f64 (floats.neg v)))
    | none => some (.literal .null)
  else
    match asS64 value with
    | some v => s64Literal (-v)
    | none => some (.literal .null)

/-! ### Terms -/

/-- What an evaluation reads: the operations on floats, the bound literals, the functions, and the columns of a row. -/
structure Context where
  floats : FloatOperations
  binding : BindMarker → Option Literal
  call : Bytes → List Evaluated → Evaluated
  column : Bytes → Option ColumnValue

mutual

def evaluateTerm (ctx : Context) : Term → Option Evaluated
  | .bindMarker marker => some (.literal ((ctx.binding marker).getD .null))
  | .functionCall identifier arguments => (evaluateTerms ctx arguments).map (ctx.call identifier)
  | .unaryMinus operand => (evaluateTerm ctx operand).bind (evaluateUnaryMinus ctx.floats)
  | .binaryArithmetic lhs op rhs =>
      (evaluateTerm ctx lhs).bind fun l => (evaluateTerm ctx rhs).bind (evaluateBinaryArithmetic ctx.floats l op)
  | .typeHint _ operand => evaluateTerm ctx operand
  | term => some term

def evaluateTerms (ctx : Context) : List Term → Option (List Evaluated)
  | [] => some []
  | term :: terms => (evaluateTerm ctx term).bind fun e => (evaluateTerms ctx terms).map (e :: ·)

end

theorem evaluateTerm_literal (ctx : Context) (v : Literal) : evaluateTerm ctx (.literal v) = some (.literal v) := by
  simp [evaluateTerm]

theorem evaluateTerm_columnValue (ctx : Context) (v : ColumnValue) :
    evaluateTerm ctx (.columnValue v) = some (.columnValue v) := by
  simp [evaluateTerm]

/-- `lookup_column_value`. -/
def lookupColumnValue (ctx : Context) (name : Bytes) : Evaluated :=
  match ctx.column name with
  | some v => .columnValue v
  | none => .literal .null

/-- `evaluate_toi`. -/
def evaluateToi (ctx : Context) : TermWithIdentifiers → Option Evaluated
  | .term term => evaluateTerm ctx term
  | .identifier name => some (lookupColumnValue ctx name)
  | .unaryMinus operand => (evaluateToi ctx operand).bind (evaluateUnaryMinus ctx.floats)
  | .binaryArithmetic lhs op rhs =>
      (evaluateToi ctx lhs).bind fun l => (evaluateToi ctx rhs).bind (evaluateBinaryArithmetic ctx.floats l op)

/-! ### Integer values -/

/-- The number that an integer stands for; `none` is null. A tinyint is signed. -/
def signedValue : Evaluated → Option Int
  | .literal (.s64 v) => some v.toInt
  | .columnValue (.s64 v) => some v.toInt
  | .columnValue (.s32 v) => some v.toInt
  | .columnValue (.s16 v) => some v.toInt
  | .columnValue (.u8 v) => some v.toInt
  | _ => none

/-- An integer literal, the value of an integer column, or null. -/
def IsInteger : Evaluated → Prop
  | .literal (.s64 _) => True
  | .literal .null => True
  | .columnValue (.s64 _) => True
  | .columnValue (.s32 _) => True
  | .columnValue (.s16 _) => True
  | .columnValue (.u8 _) => True
  | .columnValue .null => True
  | _ => False

/-- No tinyint under zero. -/
def NotNegativeTinyint : Evaluated → Prop
  | .columnValue (.u8 v) => v.toNat < 128
  | _ => True

/-- The number that an operation stands for; `none` is null, for a division by zero. -/
def exactResult (a : Int) (op : ArithmeticOperator) (b : Int) : Option Int :=
  match op with
  | .plus => some (a + b)
  | .minus => some (a - b)
  | .times => some (a * b)
  | .divide => if b = 0 then none else some (a.tdiv b)
  | .mod => if b = 0 then none else some (a.tmod b)

/-- The result of an operation: the number, wrapped to 64 bits or null where it does not fit. -/
def Answers (exact : Option Int) (result : Option Evaluated) : Prop :=
  match exact with
  | none => result = some (.literal .null)
  | some x => result = some (.literal (.s64 (BitVec.ofInt 64 x))) ∨ ¬ inS64 x ∧ result = some (.literal .null)

/-- An operation is defined, reads its operands as the numbers they stand for, and answers with their result. -/
def OperationOk (l : Evaluated) (op : ArithmeticOperator) (r : Evaluated) (result : Option Evaluated) : Prop :=
  match signedValue l, signedValue r with
  | some a, some b => asS64 l = some a ∧ asS64 r = some b ∧ Answers (exactResult a op b) result
  | _, _ => result = some (.literal .null)

def NegationOk (e : Evaluated) (result : Option Evaluated) : Prop :=
  match signedValue e with
  | some a => asS64 e = some a ∧ Answers (some (-a)) result
  | none => result = some (.literal .null)

/-- The numbers for which the operation of the language is defined. -/
def ResultFits (a : Int) (op : ArithmeticOperator) (b : Int) : Prop :=
  match op with
  | .plus => inS64 (a + b)
  | .minus => inS64 (a - b)
  | .times => inS64 (a * b)
  | .divide => b = 0 ∨ inS64 (a.tdiv b)
  | .mod => b = 0 ∨ inS64 (a.tdiv b)

theorem asS64_eq_iff {e : Evaluated} {a : Int} (h : signedValue e = some a) :
    asS64 e = some a ↔ NotNegativeTinyint e := by
  unfold signedValue at h
  split at h
  case h_5 v =>
    cases h
    rw [asS64, Option.some_inj, NotNegativeTinyint]
    rw [BitVec.toInt_eq_toNat_cond]
    split <;> omega
  case h_6 => cases h
  all_goals exact iff_of_true h trivial

/-- A null integer is null to the code. -/
theorem evalIsNull_iff {e : Evaluated} (h : IsInteger e) : evalIsNull e = true ↔ signedValue e = none := by
  unfold IsInteger at h
  split at h
  case h_8 => cases h
  all_goals simp [evalIsNull, signedValue]

theorem not_unset {e : Evaluated} (h : IsInteger e) : evalIsUnset e = false := by
  unfold IsInteger at h
  split at h
  case h_8 => cases h
  all_goals rfl

theorem not_text {e : Evaluated} (h : IsInteger e) : asText e = none := by
  unfold IsInteger at h
  split at h
  case h_8 => cases h
  all_goals rfl

theorem not_float {e : Evaluated} (h : IsInteger e) : evalIsFloatLike e = false := by
  unfold IsInteger at h
  split at h
  case h_8 => cases h
  all_goals rfl

theorem exists_asS64 {e : Evaluated} {a : Int} (h : signedValue e = some a) : ∃ x, asS64 e = some x := by
  unfold signedValue at h
  split at h
  case h_6 => cases h
  all_goals exact ⟨_, rfl⟩

theorem inS64_signedValue {e : Evaluated} {a : Int} (h : signedValue e = some a) : inS64 a := by
  unfold signedValue at h
  split at h
  case h_6 => cases h
  all_goals
    rename_i v
    cases h
    have hle := BitVec.le_toInt v
    have hlt := BitVec.toInt_lt (x := v)
    exact ⟨by omega, by omega⟩

/-! ### One operation -/

theorem answers_s64Literal_iff {x : Int} : Answers (some x) (s64Literal x) ↔ inS64 x := by
  rw [s64Literal, Answers]
  by_cases hx : inS64 x
  · rw [if_pos hx]
    exact iff_of_true (Or.inl rfl) hx
  · rw [if_neg hx]
    exact iff_of_false (fun h => h.elim nofun fun h => nomatch h.2) hx

/-- A remainder fits where its dividend does. -/
theorem inS64_tmod {a : Int} (h : inS64 a) (b : Int) : inS64 (a.tmod b) := by
  have hle : (a.tmod b).natAbs ≤ a.natAbs := by
    rw [Int.natAbs_tmod]
    exact Nat.mod_le _ _
  obtain ⟨hmin, hmax⟩ := h
  rcases Int.le_total 0 a with ha | ha
  · have hnonneg := Int.tmod_nonneg b ha
    exact ⟨by omega, by omega⟩
  · have hnonneg := Int.tmod_nonneg b (Int.neg_nonneg_of_nonpos ha)
    rw [Int.neg_tmod] at hnonneg
    exact ⟨by omega, by omega⟩

theorem answers_s64Arithmetic_iff {a b : Int} {op : ArithmeticOperator} (ha : inS64 a)
    (hb : ¬ ((op = .divide ∨ op = .mod) ∧ b = 0)) :
    Answers (exactResult a op b) (s64Arithmetic a op b) ↔ ResultFits a op b := by
  cases op with
  | plus => exact answers_s64Literal_iff
  | minus => exact answers_s64Literal_iff
  | times => exact answers_s64Literal_iff
  | divide =>
      have hb' : b ≠ 0 := fun h => hb ⟨Or.inl rfl, h⟩
      rw [exactResult, if_neg hb', ResultFits, or_iff_right hb']
      exact answers_s64Literal_iff
  | mod =>
      have hb' : b ≠ 0 := fun h => hb ⟨Or.inr rfl, h⟩
      rw [exactResult, if_neg hb', ResultFits, or_iff_right hb', s64Arithmetic]
      by_cases hquotient : inS64 (a.tdiv b)
      · rw [if_pos hquotient]
        exact iff_of_true (answers_s64Literal_iff.mpr (inS64_tmod ha b)) hquotient
      · rw [if_neg hquotient]
        exact iff_of_false (fun h => h.elim nofun fun h => nomatch h.2) hquotient

theorem evaluateBinaryArithmetic_null (floats : FloatOperations) {l r : Evaluated} (op : ArithmeticOperator)
    (hl : IsInteger l) (hr : IsInteger r) (hnull : signedValue l = none ∨ signedValue r = none) :
    evaluateBinaryArithmetic floats l op r = some (.literal .null) := by
  have hnull' : (evalIsNull l || evalIsNull r) = true := by
    rw [Bool.or_eq_true]
    exact hnull.imp (evalIsNull_iff hl).mpr (evalIsNull_iff hr).mpr
  rw [evaluateBinaryArithmetic, not_unset hl, not_unset hr, hnull']
  rfl

theorem evaluateBinaryArithmetic_integers (floats : FloatOperations) {l r : Evaluated} {x y : Int}
    (op : ArithmeticOperator) (hl : IsInteger l) (hr : IsInteger r) (hln : signedValue l ≠ none)
    (hrn : signedValue r ≠ none) (hx : asS64 l = some x) (hy : asS64 r = some y) :
    evaluateBinaryArithmetic floats l op r =
      if (op = .divide ∨ op = .mod) ∧ y = 0 then some (.literal .null) else s64Arithmetic x op y := by
  have hl' : evalIsNull l = false := Bool.eq_false_iff.mpr fun h => hln ((evalIsNull_iff hl).mp h)
  have hr' : evalIsNull r = false := Bool.eq_false_iff.mpr fun h => hrn ((evalIsNull_iff hr).mp h)
  rw [evaluateBinaryArithmetic, not_unset hl, not_unset hr, hl', hr', not_text hl, not_float hl, not_float hr, hx, hy]
  rfl

/-- When an operation on integers is as it should be: the operands that are read are no negative tinyints, and the
operation is defined for their numbers. -/
theorem operationOk_iff (floats : FloatOperations) {l r : Evaluated} (op : ArithmeticOperator) (hl : IsInteger l)
    (hr : IsInteger r) :
    OperationOk l op r (evaluateBinaryArithmetic floats l op r) ↔
      ∀ a b, signedValue l = some a → signedValue r = some b →
        NotNegativeTinyint l ∧ NotNegativeTinyint r ∧ ResultFits a op b := by
  cases ha : signedValue l with
  | none =>
      rw [OperationOk, ha, evaluateBinaryArithmetic_null floats op hl hr (Or.inl ha)]
      exact iff_of_true rfl nofun
  | some a =>
      cases hb : signedValue r with
      | none =>
          rw [OperationOk, ha, hb, evaluateBinaryArithmetic_null floats op hl hr (Or.inr hb)]
          exact iff_of_true rfl nofun
      | some b =>
          have hread : ∀ h : asS64 l = some a ∧ asS64 r = some b,
              (Answers (exactResult a op b) (evaluateBinaryArithmetic floats l op r) ↔ ResultFits a op b) := by
            rintro ⟨hx, hy⟩
            rw [evaluateBinaryArithmetic_integers floats op hl hr (by rw [ha]; nofun) (by rw [hb]; nofun) hx hy]
            by_cases hzero : (op = .divide ∨ op = .mod) ∧ b = 0
            · rw [if_pos hzero]
              obtain ⟨rfl | rfl, rfl⟩ := hzero
              · exact iff_of_true rfl (Or.inl rfl)
              · exact iff_of_true rfl (Or.inl rfl)
            · rw [if_neg hzero]
              exact answers_s64Arithmetic_iff (inS64_signedValue ha) hzero
          rw [OperationOk, ha, hb]
          constructor
          · rintro ⟨hx, hy, hanswer⟩ _ _ ⟨⟩ ⟨⟩
            exact ⟨(asS64_eq_iff ha).mp hx, (asS64_eq_iff hb).mp hy, (hread ⟨hx, hy⟩).mp hanswer⟩
          · intro h
            obtain ⟨hl', hr', hfits⟩ := h a b rfl rfl
            have hx := (asS64_eq_iff ha).mpr hl'
            have hy := (asS64_eq_iff hb).mpr hr'
            exact ⟨hx, hy, (hread ⟨hx, hy⟩).mpr hfits⟩

theorem negationOk_iff (floats : FloatOperations) {e : Evaluated} (he : IsInteger e) :
    NegationOk e (evaluateUnaryMinus floats e) ↔
      ∀ a, signedValue e = some a → NotNegativeTinyint e ∧ inS64 (-a) := by
  cases ha : signedValue e with
  | none =>
      have hnull := (evalIsNull_iff he).mpr ha
      rw [NegationOk, ha, evaluateUnaryMinus, not_unset he, hnull]
      exact iff_of_true rfl nofun
  | some a =>
      have hnull : evalIsNull e = false := Bool.eq_false_iff.mpr fun h => by
        rw [(evalIsNull_iff he).mp h] at ha
        cases ha
      obtain ⟨x, hx⟩ := exists_asS64 ha
      have heval : evaluateUnaryMinus floats e = s64Literal (-x) := by
        rw [evaluateUnaryMinus, not_unset he, hnull, not_float he, hx]
        rfl
      rw [NegationOk, ha, heval]
      constructor
      · rintro ⟨hread, hanswer⟩ _ ⟨⟩
        rw [hx, Option.some_inj] at hread
        rw [hread] at hanswer
        exact ⟨(asS64_eq_iff ha).mp (hx.trans (congrArg some hread)), answers_s64Literal_iff.mp hanswer⟩
      · intro h
        obtain ⟨htiny, hfits⟩ := h a rfl
        have hread := (asS64_eq_iff ha).mpr htiny
        have heq : x = a := Option.some.inj (hx.symm.trans hread)
        rw [heq]
        exact ⟨hread, answers_s64Literal_iff.mpr hfits⟩

end Plexdb.Cql.Arithmetic
