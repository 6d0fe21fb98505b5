import Plexdb.IntegerArithmetic

/-! The texts of string, integer and duration literals and what they are parsed to (`string_literal`,
`integer_literal` and `duration_literal` of `cql/parsers/parsers.cpp`). The combinators of the parser library match a
prefix of the text. -/

namespace Plexdb.Cql.LiteralText

open Arithmetic (inS64)

/-- What a rule gives: a value and the text that follows, a parse error, or an undefined operation. -/
inductive Outcome (α : Type) where
  | value (v : α) (rest : Bytes)
  | rejected
  | undefined
  deriving DecidableEq

/-- `dsl::digit<>`. -/
def isDigit (c : UInt8) : Bool := 48 ≤ c && c ≤ 57

/-- `dsl::ascii::space`, with the newlines. -/
def isSpace (c : UInt8) : Bool := c = 32 || 9 ≤ c && c ≤ 13

/-! ### Strings -/

def quote : UInt8 := 39

section

-- the bytes that the encoding of the input reads as a code point
variable (codePoint : UInt8 → Bool)

/-- `dsl::while_(content)`: pairs of quotes and code points other than a quote. -/
def whileContent : Bytes → Bytes × Bytes
  | [] => ([], [])
  | c :: s =>
      if c = quote then
        match s with
        | [] => ([], [c])
        | d :: rest => if d = quote then (c :: d :: (whileContent rest).1, (whileContent rest).2) else ([], c :: s)
      else if codePoint c then (c :: (whileContent s).1, (whileContent s).2)
      else ([], c :: s)

/-- The copy loop over the text between the quotes. -/
def unescape : Bytes → Bytes
  | [] => []
  | [c] => [c]
  | c :: d :: rest => if c = quote ∧ d = quote then c :: unescape rest else c :: unescape (d :: rest)

def stringLiteral : Bytes → Outcome Bytes
  | [] => .rejected
  | c :: s =>
      if c = quote then
        match whileContent codePoint s with
        | (_, []) => .rejected
        | (body, d :: rest) => if d = quote then .value (unescape body) rest else .rejected
      else .rejected

end

/-! ### Integers -/

/-- The optional sign, and what follows. -/
def splitSign : Bytes → Bytes × Bytes
  | [] => ([], [])
  | c :: s => if c = 45 ∨ c = 43 then ([c], s) else ([], c :: s)

/-- The callback, for the text of a literal. The magnitude is collected in a `U64`. -/
def integerValue (lexeme : Bytes) : BitVec 64 :=
  let neg := (splitSign lexeme).1 = [45]
  let val := (splitSign lexeme).2.foldl (fun (val : BitVec 64) c => val * 10 + BitVec.ofNat 64 (c.toNat - 48)) 0
  if neg then
    if val = 0x8000000000000000#64 then 0x8000000000000000#64 else -val
  else val

def integerLiteral (s : Bytes) : Outcome (BitVec 64) :=
  let sign := (splitSign s).1
  let digits := (splitSign s).2.takeWhile isDigit
  if digits = [] then .rejected
  else .value (integerValue (sign ++ digits)) ((splitSign s).2.dropWhile isDigit)

/-! ### Durations -/

inductive DurUnit where
  | y | mo | w | d | h | ms | m | s | us | ns
  deriving DecidableEq

def unitText : DurUnit → Bytes
  | .y => [121]
  | .mo => [109, 111]
  | .w => [119]
  | .d => [100]
  | .h => [104]
  | .ms => [109, 115]
  | .m => [109]
  | .s => [115]
  | .us => [117, 115]
  | .ns => [110, 115]

/-- The order of the alternatives. -/
def durUnits : List DurUnit := [.mo, .ms, .us, .ns, .y, .w, .d, .h, .m, .s]

def stripPrefix : Bytes → Bytes → Option Bytes
  | [], s => some s
  | _ :: _, [] => none
  | c :: p, d :: s => if c = d then stripPrefix p s else none

def durUnit (s : Bytes) : Option (DurUnit × Bytes) :=
  durUnits.findSome? fun unit => (stripPrefix (unitText unit) s).map fun rest => (unit, rest)

/-- The first letters of the units. -/
def durStart : List UInt8 := [121, 109, 119, 100, 104, 115, 117, 110]

/-- The product in an `S64`. -/
def timesS64 (n : BitVec 64) (factor : Int) : Option (BitVec 64) :=
  if inS64 (n.toInt * factor) then some (BitVec.ofInt 64 (n.toInt * factor)) else none

def monthsOf (n : BitVec 64) : Duration := ⟨n.setWidth 32, 0, 0⟩

def daysOf (n : BitVec 64) : Duration := ⟨0, n.setWidth 32, 0⟩

def nanosecondsOf (n : BitVec 64) : Duration := ⟨0, 0, n⟩

/-- The callback of a component. -/
def component (n : BitVec 64) : DurUnit → Option Duration
  | .y => (timesS64 n 12).map monthsOf
  | .mo => some (monthsOf n)
  | .w => (timesS64 n 7).map daysOf
  | .d => some (daysOf n)
  | .h => (timesS64 n 3600000000000).map nanosecondsOf
  | .ms => (timesS64 n 1000000).map nanosecondsOf
  | .m => (timesS64 n 60000000000).map nanosecondsOf
  | .s => (timesS64 n 1000000000).map nanosecondsOf
  | .us => (timesS64 n 1000).map nanosecondsOf
  | .ns => some (nanosecondsOf n)

def inS32 (x : Int) : Prop := -2 ^ 31 ≤ x ∧ x < 2 ^ 31

instance (x : Int) : Decidable (inS32 x) := inferInstanceAs (Decidable (_ ∧ _))

def addS32 (a b : BitVec 32) : Option (BitVec 32) := if inS32 (a.toInt + b.toInt) then some (a + b) else none

def addS64 (a b : BitVec 64) : Option (BitVec 64) := if inS64 (a.toInt + b.toInt) then some (a + b) else none

def addDuration (result delta : Duration) : Option Duration :=
  (addS32 result.months delta.months).bind fun months =>
    (addS32 result.days delta.days).bind fun days =>
      (addS64 result.nanoseconds delta.nanoseconds).map fun nanoseconds => ⟨months, days, nanoseconds⟩

/-- The callback of a duration, from the result so far. -/
def sumDurations (result : Duration) : List Duration → Option Duration
  | [] => some result
  | delta :: deltas => (addDuration result delta).bind fun result => sumDurations result deltas

def decimalValue (digits : Bytes) : Nat := digits.foldl (fun n c => n * 10 + (c.toNat - 48)) 0

section

-- the value with which the parser library goes on after an integer that does not fit
variable (recovered : Bytes → BitVec 64)

-- whether white space is skipped between tokens
variable (whitespace : Bool)

/-- `dsl::integer<S64>`. -/
def durAmount (digits : Bytes) : BitVec 64 :=
  if decimalValue digits < 2 ^ 63 then BitVec.ofNat 64 (decimalValue digits) else recovered digits

def skip (s : Bytes) : Bytes := if whitespace then s.dropWhile isSpace else s

/-- The list of components: those that are parsed, and the rest of the text unless one has no unit. -/
def components : (fuel : Nat) → Bytes → List (Bytes × DurUnit) × Option Bytes
  | 0, _ => ([], none)
  | fuel + 1, s =>
      let digits := s.takeWhile isDigit
      match durUnit (skip whitespace (s.dropWhile isDigit)) with
      | none => ([], none)
      | some (unit, rest) =>
          if (skip whitespace rest).head?.any isDigit then
            ((digits, unit) :: (components fuel (skip whitespace rest)).1, (components fuel (skip whitespace rest)).2)
          else ([(digits, unit)], some (skip whitespace rest))

/-- The lookahead: digits, and the first letter of a unit. -/
def isDuration (s : Bytes) : Bool :=
  s.head?.any isDigit && (s.dropWhile isDigit).head?.any (durStart.contains ·)

def durationLiteral (s : Bytes) : Outcome Duration :=
  if isDuration s then
    let parsed := components whitespace s.length s
    match parsed.1.mapM fun c => component (durAmount recovered c.1) c.2 with
    | none => .undefined
    | some deltas =>
        match parsed.2 with
        | none => .rejected
        | some rest =>
            match sumDurations ⟨0, 0, 0⟩ deltas with
            | none => .undefined
            | some result =>
                -- an integer that does not fit is an error of the parse
                if parsed.1.any fun c => 2 ^ 63 ≤ decimalValue c.1 then .rejected else .value result rest
  else .rejected

end

end Plexdb.Cql.LiteralText
