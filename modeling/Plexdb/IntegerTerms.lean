import Plexdb.IntegerArithmetic

/-! The evaluation of arithmetic terms over integer literals and the values of integer columns: when every operation
in it is defined, and reads its operands as the numbers they stand for. -/

namespace Plexdb.Cql.Arithmetic

/-! ### Arithmetic terms -/

/-- A term of integers, negations and operations. -/
inductive Expr where
  | leaf (value : Evaluated)
  | negate (operand : Expr)
  | apply (lhs : Expr) (op : ArithmeticOperator) (rhs : Expr)

def isIntegerColumn : ColumnValue → Bool
  | .s64 _ => true
  | .s32 _ => true
  | .s16 _ => true
  | .u8 _ => true
  | .null => true
  | _ => false

/-- The arithmetic term over integers that a term is, if it is one. -/
def exprOfTerm : Term → Option Expr
  | .literal (.s64 v) => some (.leaf (.literal (.s64 v)))
  | .columnValue v => if isIntegerColumn v then some (.leaf (.columnValue v)) else none
  | .unaryMinus operand => (exprOfTerm operand).map .negate
  | .binaryArithmetic lhs op rhs => (exprOfTerm lhs).bind fun l => (exprOfTerm rhs).map fun r => .apply l op r
  | _ => none

/-- A name stands for the value of its column in the row. -/
def exprOfToi (ctx : Context) : TermWithIdentifiers → Option Expr
  | .term term => exprOfTerm term
  | .identifier name =>
      match ctx.column name with
      | some v => if isIntegerColumn v then some (.leaf (.columnValue v)) else none
      | none => some (.leaf (.literal .null))
  | .unaryMinus operand => (exprOfToi ctx operand).map .negate
  | .binaryArithmetic lhs op rhs =>
      (exprOfToi ctx lhs).bind fun l => (exprOfToi ctx rhs).map fun r => .apply l op r

namespace Expr

def eval (floats : FloatOperations) : Expr → Option Evaluated
  | leaf value => some value
  | negate operand => (operand.eval floats).bind (evaluateUnaryMinus floats)
  | apply lhs op rhs =>
      (lhs.eval floats).bind fun l => (rhs.eval floats).bind (evaluateBinaryArithmetic floats l op)

/-- The leaves are integers. -/
def Integers : Expr → Prop
  | leaf value => IsInteger value
  | negate operand => operand.Integers
  | apply lhs _ rhs => lhs.Integers ∧ rhs.Integers

/-- Every operation of the evaluation is as it should be. -/
def Performs (floats : FloatOperations) : Expr → Prop
  | leaf _ => True
  | negate operand => operand.Performs floats ∧
      ∃ e, operand.eval floats = some e ∧ NegationOk e (evaluateUnaryMinus floats e)
  | apply lhs op rhs => lhs.Performs floats ∧ rhs.Performs floats ∧
      ∃ l r, lhs.eval floats = some l ∧ rhs.eval floats = some r ∧
        OperationOk l op r (evaluateBinaryArithmetic floats l op r)

/-- The number that a term stands for, if no result leaves the 64 bits; `none` is null. -/
def value : Expr → Option Int
  | leaf value => signedValue value
  | negate operand => operand.value.map (-·)
  | apply lhs op rhs => lhs.value.bind fun a => rhs.value.bind fun b => exactResult a op b

/-- The term is no column with a tinyint under zero. -/
def NoNegativeTinyint : Expr → Prop
  | leaf value => NotNegativeTinyint value
  | negate _ => True
  | apply _ _ _ => True

/-- No operand that is read is a tinyint under zero, and the numbers of every operation are such that it is defined. -/
def Fits : Expr → Prop
  | leaf _ => True
  | negate operand => operand.Fits ∧
      ∀ a, operand.value = some a → operand.NoNegativeTinyint ∧ inS64 (-a)
  | apply lhs op rhs => lhs.Fits ∧ rhs.Fits ∧
      ∀ a b, lhs.value = some a → rhs.value = some b →
        lhs.NoNegativeTinyint ∧ rhs.NoNegativeTinyint ∧ ResultFits a op b

end Expr

/-! ### Terms and their arithmetic -/

theorem isInteger_columnValue {v : ColumnValue} (h : isIntegerColumn v = true) : IsInteger (.columnValue v) := by
  cases v with
  | s64 _ => trivial
  | s32 _ => trivial
  | s16 _ => trivial
  | u8 _ => trivial
  | null => trivial
  | _ => cases h

theorem exprOfTerm_spec (ctx : Context) (t : Term) :
    ∀ x, exprOfTerm t = some x → x.Integers ∧ evaluateTerm ctx t = x.eval ctx.floats := by
  induction t with
  | literal value =>
      intro x h
      cases value with
      | s64 v =>
          cases h
          exact ⟨trivial, evaluateTerm_literal ctx _⟩
      | _ => cases h
  | columnValue v =>
      intro x h
      rw [exprOfTerm] at h
      split_ifs at h with hinteger
      cases h
      exact ⟨isInteger_columnValue hinteger, evaluateTerm_columnValue ctx v⟩
  | unaryMinus operand ih =>
      intro x h
      rw [exprOfTerm] at h
      obtain ⟨y, hy, rfl⟩ := Option.map_eq_some_iff.mp h
      obtain ⟨hinteger, heval⟩ := ih y hy
      exact ⟨hinteger, by rw [evaluateTerm, heval]; rfl⟩
  | binaryArithmetic lhs op rhs ihl ihr =>
      intro x h
      rw [exprOfTerm] at h
      obtain ⟨l, hl, h⟩ := Option.bind_eq_some_iff.mp h
      obtain ⟨r, hr, rfl⟩ := Option.map_eq_some_iff.mp h
      obtain ⟨hintegerl, hevall⟩ := ihl l hl
      obtain ⟨hintegerr, hevalr⟩ := ihr r hr
      exact ⟨⟨hintegerl, hintegerr⟩, by rw [evaluateTerm, hevall, hevalr]; rfl⟩
  | _ => intro x h; simp [exprOfTerm] at h

theorem exprOfToi_spec (ctx : Context) (t : TermWithIdentifiers) :
    ∀ x, exprOfToi ctx t = some x → x.Integers ∧ evaluateToi ctx t = x.eval ctx.floats := by
  induction t with
  | term term => exact exprOfTerm_spec ctx term
  | identifier name =>
      intro x h
      rw [exprOfToi] at h
      cases hcolumn : ctx.column name with
      | none =>
          rw [hcolumn] at h
          cases h
          exact ⟨trivial, by rw [evaluateToi, lookupColumnValue, hcolumn]; rfl⟩
      | some v =>
          simp only [hcolumn] at h
          split_ifs at h with hinteger
          cases h
          exact ⟨isInteger_columnValue hinteger, by rw [evaluateToi, lookupColumnValue, hcolumn]; rfl⟩
  | unaryMinus operand ih =>
      intro x h
      obtain ⟨y, hy, rfl⟩ := Option.map_eq_some_iff.mp h
      obtain ⟨hinteger, heval⟩ := ih y hy
      exact ⟨hinteger, by rw [evaluateToi, heval]; rfl⟩
  | binaryArithmetic lhs op rhs ihl ihr =>
      intro x h
      obtain ⟨l, hl, h⟩ := Option.bind_eq_some_iff.mp h
      obtain ⟨r, hr, rfl⟩ := Option.map_eq_some_iff.mp h
      obtain ⟨hintegerl, hevall⟩ := ihl l hl
      obtain ⟨hintegerr, hevalr⟩ := ihr r hr
      exact ⟨⟨hintegerl, hintegerr⟩, by rw [evaluateToi, hevall, hevalr]; rfl⟩

/-! ### Evaluation -/

theorem toInt_ofInt {x : Int} (h : inS64 x) : (BitVec.ofInt 64 x).toInt = x := by
  obtain ⟨hmin, hmax⟩ := h
  rw [BitVec.toInt_ofInt]
  exact Int.bmod_eq_of_le (by omega) (by omega)

theorem inS64_of_resultFits {a b x : Int} {op : ArithmeticOperator} (ha : inS64 a) (h : ResultFits a op b)
    (hx : exactResult a op b = some x) : inS64 x := by
  cases op with
  | plus => cases hx; exact h
  | minus => cases hx; exact h
  | times => cases hx; exact h
  | divide =>
      rw [exactResult] at hx
      split_ifs at hx with hb
      cases hx
      exact h.resolve_left hb
  | mod =>
      rw [exactResult] at hx
      split_ifs at hx with hb
      cases hx
      exact inS64_tmod ha b

/-- What an operation that is as it should be answers with, when its number fits. -/
theorem Answers.spec {exact : Option Int} {result : Option Evaluated} (h : Answers exact result)
    (hfits : ∀ x, exact = some x → inS64 x) :
    ∃ e, result = some e ∧ IsInteger e ∧ signedValue e = exact ∧ NotNegativeTinyint e := by
  cases exact with
  | none => exact ⟨_, h, trivial, rfl, trivial⟩
  | some x =>
      have hx := hfits x rfl
      have hresult := h.resolve_right fun hnot => hnot.1 hx
      exact ⟨_, hresult, trivial, congrArg some (toInt_ofInt hx), trivial⟩

namespace Expr

variable (floats : FloatOperations)

/-- A term whose operations are defined evaluates to the number it stands for. -/
theorem eval_of_fits {x : Expr} (hx : x.Integers) (h : x.Fits) : ∃ e, x.eval floats = some e ∧ IsInteger e ∧
    signedValue e = x.value ∧ (NotNegativeTinyint e ↔ x.NoNegativeTinyint) := by
  induction x with
  | leaf value => exact ⟨value, rfl, hx, rfl, Iff.rfl⟩
  | negate operand ih =>
      obtain ⟨hoperand, hfits⟩ := h
      obtain ⟨e, heval, hinteger, hvalue, htiny⟩ := ih hx hoperand
      have hok : NegationOk e (evaluateUnaryMinus floats e) :=
        (negationOk_iff floats hinteger).mpr fun a ha => by
          rw [htiny]
          exact hfits a (hvalue ▸ ha)
      have hanswer : Answers (operand.value.map (-·)) (evaluateUnaryMinus floats e) := by
        rw [NegationOk, hvalue] at hok
        cases hv : operand.value with
        | none => rw [hv] at hok; exact hok
        | some a => rw [hv] at hok; exact hok.2
      obtain ⟨e', he', hinteger', hvalue', htiny'⟩ := hanswer.spec fun y hy => by
        obtain ⟨a, ha, rfl⟩ := Option.map_eq_some_iff.mp hy
        exact (hfits a ha).2
      exact ⟨e', by rw [eval, heval]; exact he', hinteger', hvalue', iff_of_true htiny' trivial⟩
  | apply lhs op rhs ihl ihr =>
      obtain ⟨hl, hr, hfits⟩ := h
      obtain ⟨l, hevall, hintegerl, hvaluel, htinyl⟩ := ihl hx.1 hl
      obtain ⟨r, hevalr, hintegerr, hvaluer, htinyr⟩ := ihr hx.2 hr
      have hok : OperationOk l op r (evaluateBinaryArithmetic floats l op r) :=
        (operationOk_iff floats op hintegerl hintegerr).mpr fun a b ha hb => by
          rw [htinyl, htinyr]
          exact hfits a b (hvaluel ▸ ha) (hvaluer ▸ hb)
      have hanswer : Answers (lhs.value.bind fun a => rhs.value.bind fun b => exactResult a op b)
          (evaluateBinaryArithmetic floats l op r) := by
        rw [OperationOk, hvaluel, hvaluer] at hok
        cases ha : lhs.value with
        | none => rw [ha] at hok; exact hok
        | some a =>
            cases hb : rhs.value with
            | none => rw [ha, hb] at hok; exact hok
            | some b => rw [ha, hb] at hok; exact hok.2.2
      obtain ⟨e, he, hinteger, hvalue, htiny⟩ := hanswer.spec fun y hy => by
        obtain ⟨a, ha, hy⟩ := Option.bind_eq_some_iff.mp hy
        obtain ⟨b, hb, hy⟩ := Option.bind_eq_some_iff.mp hy
        exact inS64_of_resultFits (inS64_signedValue (hvaluel.trans ha)) (hfits a b ha hb).2.2 hy
      exact ⟨e, by rw [eval, hevall, Option.bind_some, hevalr]; exact he, hinteger, hvalue, iff_of_true htiny trivial⟩

theorem performs_iff {x : Expr} (hx : x.Integers) : x.Performs floats ↔ x.Fits := by
  induction x with
  | leaf value => exact Iff.rfl
  | negate operand ih =>
      rw [Performs, Fits, ih hx]
      refine and_congr_right fun hoperand => ?_
      obtain ⟨e, heval, hinteger, hvalue, htiny⟩ := eval_of_fits floats (x := operand) hx hoperand
      have hnegation := negationOk_iff floats hinteger
      rw [hvalue, htiny] at hnegation
      rw [← hnegation, heval]
      exact ⟨fun ⟨e', he', hok⟩ => Option.some.inj he' ▸ hok, fun hok => ⟨e, rfl, hok⟩⟩
  | apply lhs op rhs ihl ihr =>
      rw [Performs, Fits, ihl hx.1, ihr hx.2]
      refine and_congr_right fun hl => and_congr_right fun hr => ?_
      obtain ⟨l, hevall, hintegerl, hvaluel, htinyl⟩ := eval_of_fits floats hx.1 hl
      obtain ⟨r, hevalr, hintegerr, hvaluer, htinyr⟩ := eval_of_fits floats hx.2 hr
      have hoperation := operationOk_iff floats op hintegerl hintegerr
      rw [hvaluel, hvaluer, htinyl, htinyr] at hoperation
      rw [← hoperation, hevall, hevalr]
      constructor
      · rintro ⟨l', r', hl', hr', hok⟩
        rwa [Option.some.inj hl', Option.some.inj hr']
      · exact fun hok => ⟨l, r, rfl, rfl, hok⟩

end Expr

/-- The evaluation of an arithmetic term over integers has a result, and each operation in it is defined and reads
its operands as the numbers they stand for, exactly when no result leaves the 64 bits and no tinyint under zero is
read. -/
theorem integer_evaluation_iff (ctx : Context) (t : TermWithIdentifiers) {x : Expr}
    (hx : exprOfToi ctx t = some x) :
    ((evaluateToi ctx t).isSome = true ∧ x.Performs ctx.floats) ↔ x.Fits := by
  obtain ⟨hintegers, heval⟩ := exprOfToi_spec ctx t x hx
  rw [Expr.performs_iff ctx.floats hintegers, heval]
  refine and_iff_right_of_imp fun hfits => ?_
  obtain ⟨e, he, -⟩ := Expr.eval_of_fits ctx.floats hintegers hfits
  rw [he]
  rfl

/-- A row with one tinyint, and no operation on floats that is looked at. -/
def tinyintRow (v : BitVec 8) : Context where
  floats := ⟨fun l _ => l, fun l _ => l, fun l _ => l, fun l _ => l, id, BitVec.ofInt 64⟩
  binding _ := none
  call _ _ := .literal .null
  column _ := some (.u8 v)

theorem integer_evaluation_five : (evaluateToi (tinyintRow 5) (.binaryArithmetic (.identifier []) .plus
    (.term (.literal (.s64 3))))).isSome = true ∧
      (Expr.apply (.leaf (.columnValue (.u8 5))) .plus (.leaf (.literal (.s64 3)))).Performs (tinyintRow 5).floats :=
  (integer_evaluation_iff (tinyintRow 5) _ rfl).mpr
    ⟨trivial, trivial, fun _ _ ha hb => by
      cases ha
      cases hb
      exact ⟨(by decide : (5 : Nat) < 128), trivial, (by decide : inS64 (5 + 3))⟩⟩

/-- The greatest literal and one have no sum, and a tinyint of minus one is read as 255. -/
theorem integer_evaluation_fails :
    evaluateToi (tinyintRow 255) (.binaryArithmetic (.term (.literal (.s64 (BitVec.ofInt 64 (2 ^ 63 - 1))))) .plus
      (.term (.literal (.s64 1)))) = none ∧
    signedValue (.columnValue (.u8 255)) = some (-1) ∧
    evaluateToi (tinyintRow 255) (.binaryArithmetic (.identifier []) .plus (.term (.literal (.s64 0)))) =
      some (.literal (.s64 255)) := by
  exact ⟨rfl, rfl, rfl⟩

end Plexdb.Cql.Arithmetic
