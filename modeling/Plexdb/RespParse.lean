import Plexdb.KvStatements

/-! The incremental command parser (`keyvalue/parsers/parsers.cpp`). `p` and `end` of the source
are the suffix of the received bytes between them. -/

namespace Plexdb.Resp

open Kv

/-- What `parse` reports: its `ParseResult` with the statement and the consumed length of `Ok`,
or a stop at a feature that is asserted not to be implemented. -/
inductive Outcome where
  | ok (stmt : Statement) (consumed : Nat)
  | incomplete
  | error
  | notImplemented
  deriving DecidableEq, Repr

/-- The bytes before the first CRLF and the bytes after it. -/
def findCrlf : Bytes → Option (Bytes × Bytes)
  | a :: b :: rest =>
      if a == 13 && b == 10 then some ([], rest)
      else (findCrlf (b :: rest)).map fun (line, rest) => (a :: line, rest)
  | _ => none

/-- `S64` arithmetic. A signed overflow wraps here. -/
def s64 (x : Int) : Int := x.bmod (2 ^ 64)

def parseDigits (r : Int) : Bytes → Option Int
  | [] => some r
  | c :: cs => if c < 48 || 57 < c then none else parseDigits (s64 (r * 10 + (c.toNat - 48))) cs

def parseDecimal : Bytes → Option Int
  | [] => none
  | 45 :: [] => none
  | 45 :: digits => (parseDigits 0 digits).map fun r => s64 (-r)
  | digits => parseDigits 0 digits

inductive Elements where
  | done (args : List Bytes) (rest : Bytes)
  | incomplete
  | error
  deriving DecidableEq, Repr

/-- The loop over the `count` bulk strings of an array. -/
def parseElements : Nat → List Bytes → Bytes → Elements
  | 0, args, p => .done args p
  | n + 1, args, p =>
      match p with
      | 36 :: p =>
          match findCrlf p with
          | none => .incomplete
          | some (line, rest) =>
              match parseDecimal line with
              | none => .error
              | some bulkLen =>
                  if bulkLen < 0 then .error
                  else if rest.length < bulkLen.toNat + 2 then .incomplete
                  else parseElements n (args ++ [rest.take bulkLen.toNat])
                    (rest.drop (bulkLen.toNat + 2))
      -- `p >= end` and any byte but `$` take the same branch
      | _ => .error

def finish (data rest : Bytes) (args : List Bytes) : Outcome :=
  match buildFromArgs args with
  | none => .notImplemented
  | some stmt => .ok stmt (data.length - rest.length)

def parseRespArray (data : Bytes) : Outcome :=
  match findCrlf data.tail with
  | none => .incomplete
  | some (line, rest) =>
      match parseDecimal line with
      | none => .error
      | some count =>
          if count < 0 then .error
          else match parseElements count.toNat [] rest with
            | .done args rest => finish data rest args
            | .incomplete => .incomplete
            | .error => .error

def isBlank (c : UInt8) : Bool := c == 32 || c == 9

/-- The tokens of an inline line: maximal runs without a space or a tab. `tok` is the token
being read, empty between tokens. -/
def tokens (tok : Bytes) : Bytes → List Bytes
  | [] => if tok = [] then [] else [tok]
  | c :: cs =>
      if isBlank c then (if tok = [] then tokens [] cs else tok :: tokens [] cs)
      else tokens (tok ++ [c]) cs

def parseInline (data : Bytes) : Outcome :=
  match findCrlf data with
  | none => .incomplete
  | some (line, rest) =>
      match tokens [] line with
      | [] => .error
      | args => finish data rest args

def parse : Bytes → Outcome
  | [] => .incomplete
  | 42 :: rest => parseRespArray (42 :: rest)
  | data => parseInline data

end Plexdb.Resp
