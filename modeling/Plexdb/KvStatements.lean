import Plexdb.Bytes

/-! The statements of the key-value front end (`keyvalue/engine/statements.cppm`) and how the
parser builds one from the arguments of a command (`build_from_args` in
`keyvalue/parsers/parsers.cpp`). -/

namespace Plexdb.Kv

inductive Statement where
  | ping (message : Option Bytes)
  | quit
  | get (key : Bytes)
  | set (key value : Bytes) (nx xx : Bool)
  | del (keys : List Bytes)
  | exists_ (keys : List Bytes)
  | mget (keys : List Bytes)
  | mset (pairs : List (Bytes × Bytes))
  | keys (pattern : Bytes)
  | scan (cursor : UInt64) (pattern : Option Bytes) (count : Option UInt64)
  | flushDb
  | flushAll
  | dbSize
  | typeOf (key : Bytes)
  | cmd
  | selectDb (index : UInt64)
  | clientGetName
  | client (args : List Bytes)
  | info (part : Option Bytes)
  | unknown (name : Bytes) (args : List Bytes)
  deriving DecidableEq, Repr

/-! ### `u64_from_str` is `strtoull` in base ten on the bytes before the first NUL -/

def isSpace (c : UInt8) : Bool := c == 32 || (9 ≤ c && c ≤ 13)

def isDigit (c : UInt8) : Bool := 48 ≤ c && c ≤ 57

/-- The value of the leading digits, as `strtoull` reads them. -/
def leadingDecimal (value : Nat) : Bytes → Nat
  | [] => value
  | c :: cs => if isDigit c then leadingDecimal (value * 10 + (c.toNat - 48)) cs else value

def u64FromStr (s : Bytes) : UInt64 :=
  let s := (s.takeWhile (· != 0)).dropWhile isSpace
  let (negative, digits) := match s with
    | 45 :: rest => (true, rest)
    | 43 :: rest => (false, rest)
    | rest => (false, rest)
  let value := leadingDecimal 0 digits
  if 2 ^ 64 ≤ value then UInt64.ofNat (2 ^ 64 - 1)
  else if negative then - UInt64.ofNat value
  else UInt64.ofNat value

/-! ### Arguments to statement -/

def upper (c : UInt8) : UInt8 := if 97 ≤ c && c ≤ 122 then c - 32 else c

def argEq (a b : Bytes) : Bool := a.length == b.length && a.map upper == b.map upper

def isExpiryOption (a : Bytes) : Bool :=
  argEq a (ascii "EX") || argEq a (ascii "PX") || argEq a (ascii "EXAT") || argEq a (ascii "PXAT")

/-- The option loop of `SET`: `none` where the source stops at "key expiry" not implemented. -/
def setOptions (nx xx : Bool) : List Bytes → Option (Bool × Bool)
  | [] => some (nx, xx)
  | a :: rest =>
      if argEq a (ascii "NX") then setOptions true xx rest
      else if argEq a (ascii "XX") then setOptions nx true rest
      else if isExpiryOption a then none
      else setOptions nx xx rest

/-- Consecutive pairs; a last odd argument is dropped, as `i + 1 < args.length` does. -/
def pairUp : List Bytes → List (Bytes × Bytes)
  | a :: b :: rest => (a, b) :: pairUp rest
  | _ => []

def scanOption (acc : Option Bytes × Option UInt64) (pair : Bytes × Bytes) :
    Option Bytes × Option UInt64 :=
  if argEq pair.1 (ascii "MATCH") then (some pair.2, acc.2)
  else if argEq pair.1 (ascii "COUNT") then (acc.1, some (u64FromStr pair.2))
  else acc

/-- `build_from_args`; `none` where the source asserts that a feature is not implemented. -/
def buildFromArgs : List Bytes → Option Statement
  | [] => some (.unknown [] [])
  | name :: args =>
      if argEq name (ascii "PING") then some (.ping args.head?)
      else if argEq name (ascii "QUIT") then some .quit
      else if argEq name (ascii "GET") then
        some (match args with
          | key :: _ => .get key
          | [] => .unknown name [])
      else if argEq name (ascii "TYPE") then
        some (match args with
          | key :: _ => .typeOf key
          | [] => .unknown name [])
      else if argEq name (ascii "DBSIZE") then some .dbSize
      else if argEq name (ascii "COMMAND") then some .cmd
      else if argEq name (ascii "FLUSHDB") then some .flushDb
      else if argEq name (ascii "FLUSHALL") then some .flushAll
      else if argEq name (ascii "SELECT") then
        some (.selectDb (match args with
          | index :: _ => u64FromStr index
          | [] => 0))
      else if argEq name (ascii "KEYS") then some (.keys (args.head?.getD (ascii "*")))
      else if argEq name (ascii "INFO") then some (.info args.head?)
      else if argEq name (ascii "SET") then
        match args with
        | key :: value :: options =>
            (setOptions false false options).map fun (nx, xx) => .set key value nx xx
        | _ => some (.unknown name [])
      else if argEq name (ascii "DEL") then some (.del args)
      else if argEq name (ascii "EXISTS") then some (.exists_ args)
      else if argEq name (ascii "MGET") then some (.mget args)
      else if argEq name (ascii "MSET") then some (.mset (pairUp args))
      else if argEq name (ascii "SCAN") then
        match args with
        | [] => some (.unknown name [])
        | cursor :: options =>
            let found := (pairUp options).foldl scanOption (none, none)
            some (.scan (u64FromStr cursor) found.1 found.2)
      else if argEq name (ascii "CLIENT") then
        match args with
        | sub :: _ => some (if argEq sub (ascii "GETNAME") then .clientGetName else .client args)
        | [] => some (.client [])
      else some (.unknown name args)

/-- A `SET` with one of the expiry options, the one command the parser does not implement. -/
def usesExpiry : List Bytes → Bool
  | name :: _ :: _ :: options =>
      argEq name (ascii "SET") && options.any isExpiryOption
  | _ => false

theorem argEq_iff (a b : Bytes) : argEq a b = true ↔ a.map upper = b.map upper := by
  simp only [argEq, Bool.and_eq_true, beq_iff_eq, and_iff_right_iff_imp]
  intro h
  simpa using congrArg List.length h

theorem argEq_congr {a c : Bytes} (h : argEq a c = true) (b : Bytes) : argEq a b = argEq c b := by
  rw [Bool.eq_iff_iff, argEq_iff, argEq_iff, (argEq_iff a c).mp h]

theorem setOptions_eq_none_iff (nx xx : Bool) (options : List Bytes) :
    setOptions nx xx options = none ↔ options.any isExpiryOption = true := by
  induction options generalizing nx xx with
  | nil => simp [setOptions]
  | cons a rest ih =>
      rw [setOptions, List.any_cons]
      by_cases hnx : argEq a (ascii "NX") = true
      · have : isExpiryOption a = false := by
          simp only [isExpiryOption, argEq_congr hnx]
          decide
        rw [if_pos hnx, this, Bool.false_or, ih]
      · rw [if_neg hnx]
        by_cases hxx : argEq a (ascii "XX") = true
        · have : isExpiryOption a = false := by
            simp only [isExpiryOption, argEq_congr hxx]
            decide
          rw [if_pos hxx, this, Bool.false_or, ih]
        · rw [if_neg hxx]
          cases isExpiryOption a with
          | true => simp
          | false => simpa using ih nx xx

theorem ite_ne_none {α : Type*} {c : Prop} [Decidable c] {a b : Option α} (ha : a ≠ none)
    (hb : b ≠ none) : (if c then a else b) ≠ none := by
  split
  · exact ha
  · exact hb

/-- The parser builds no statement exactly for a `SET` with an expiry option. -/
theorem buildFromArgs_eq_none_iff (args : List Bytes) :
    buildFromArgs args = none ↔ usesExpiry args = true := by
  cases args with
  | nil => simp [buildFromArgs, usesExpiry]
  | cons name args =>
      by_cases hset : argEq name (ascii "SET") = true
      · have hother : ∀ b ∈ [ascii "PING", ascii "QUIT", ascii "GET", ascii "TYPE", ascii "DBSIZE",
            ascii "COMMAND", ascii "FLUSHDB", ascii "FLUSHALL", ascii "SELECT", ascii "KEYS",
            ascii "INFO"], argEq name b = false := by
          intro b hb
          rw [argEq_congr hset]
          revert b
          decide
        simp only [List.forall_mem_cons, List.not_mem_nil, false_implies, implies_true,
          and_true] at hother
        match args with
        | [] => simp [buildFromArgs, usesExpiry, hother, hset]
        | [key] => simp [buildFromArgs, usesExpiry, hother, hset]
        | key :: value :: options =>
            simp [buildFromArgs, usesExpiry, hother, hset, setOptions_eq_none_iff]
      · have huse : usesExpiry (name :: args) = false := by
          rcases args with _ | ⟨key, _ | ⟨value, options⟩⟩ <;> simp [usesExpiry, hset]
        refine iff_of_false ?_ (by rw [huse]; exact Bool.false_ne_true)
        rw [buildFromArgs.eq_def]
        dsimp only
        rw [if_neg hset]
        repeat' refine ite_ne_none ?_ ?_
        all_goals first
          | exact Option.some_ne_none _
          | cases args <;> exact Option.some_ne_none _

end Plexdb.Kv
