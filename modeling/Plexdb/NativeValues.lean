import Plexdb.NativeFields
import Plexdb.Terms

/-! Column values in the native protocol: `append_cql_value` (`cql/native/native.cpp`) with
`basic_element_byte_size` and `append_cql_basic_element` (`cql/native/native.cppm`), which write what
a row holds, and `read_cql_value_as_term`, which reads what a client binds. A failed assertion is
`none`. -/

namespace Plexdb.Cql.Native

open Wire

/-! ### Writing -/

/-- A length that is not positive is followed by nothing. -/
def appendCqlBytesRaw (data : Bytes) (n : BitVec 32) : Bytes :=
  appendBeS32 n ++ if 0 < n.toInt then data.take n.toInt.toNat else []

/-- The types that a value of this variant is asserted to be of. The variants that are not implemented,
and those that are no element, fail for each type. -/
def elementTypes : ColumnValue → List Basic
  | .s64 _ => [.bigint, .counter, .timestamp, .time]
  | .s32 _ => [.int, .date]
  | .s16 _ => [.smallint]
  | .u8 _ => [.boolean, .tinyint]
  | .f64 _ => [.double]
  | .f32 _ => [.float]
  | .text _ => [.ascii, .text, .varchar]
  | .uuid _ => [.uuid, .timeuuid]
  | .blob _ => [.blob, .inet, .varint, .decimal, .duration, .hex]
  | .inet _ => [.inet]
  | _ => []

def basicElementByteSize (dtype : Basic) (value : ColumnValue) : Option (BitVec 32) :=
  if dtype ∉ elementTypes value then none
  else
    match value with
    | .s64 _ => some 8
    | .s32 _ => some 4
    | .s16 _ => some 2
    | .u8 _ => some 1
    | .f64 _ => some 8
    | .f32 _ => some 4
    | .text bytes => some (BitVec.ofNat 32 bytes.length)
    | .uuid _ => some 16
    | .blob bytes => some (BitVec.ofNat 32 bytes.length)
    | .inet (.v4 _) => some 4
    | .inet (.v6 _) => some 16
    | _ => none

def appendCqlBasicElement (dtype : Basic) (value : ColumnValue) : Option Bytes :=
  if dtype ∉ elementTypes value then none
  else
    match value with
    | .text bytes => some (appendCqlBytesRaw bytes (BitVec.ofNat 32 bytes.length))
    | .uuid bytes => some (appendCqlBytesRaw bytes.val 16)
    | .s64 bits => some (appendCqlBytesRaw (beBytes 8 bits.toNat) 8)
    | .s32 bits => some (appendCqlBytesRaw (beBytes 4 bits.toNat) 4)
    | .s16 bits => some (appendCqlBytesRaw (beBytes 2 bits.toNat) 2)
    | .u8 bits => some (appendCqlBytesRaw (beBytes 1 bits.toNat) 1)
    | .f32 bits => some (appendCqlBytesRaw (beBytes 4 bits.toNat) 4)
    | .f64 bits => some (appendCqlBytesRaw (beBytes 8 bits.toNat) 8)
    | .blob bytes => some (appendCqlBytesRaw bytes (BitVec.ofNat 32 bytes.length))
    | .inet (.v6 bytes) => some (appendCqlBytesRaw bytes.val 16)
    | .inet (.v4 bytes) => some (appendCqlBytesRaw bytes.val 4)
    | _ => none

/-- `get<type::Basic>`. -/
def basicOf : Ty → Option Basic
  | .basic b => some b
  | _ => none

/-- The size of the elements and then the elements, each with its type. An overflow of the size wraps
around. -/
def appendElements (count : Nat) (elements : List (Ty × ColumnValue)) : Option Bytes := do
  let sizes ← elements.mapM fun e => do basicElementByteSize (← basicOf e.1) e.2
  let written ← elements.mapM fun e => do appendCqlBasicElement (← basicOf e.1) e.2
  let body := sizes.foldl (fun body size => body + (4 + size)) 4
  pure (appendBeS32 body ++ (appendBeS32 (BitVec.ofNat 32 count) ++ written.flatten))

/-- There is no branch for a tuple: its values are arrays, which are asserted to be of a list or a
vector. -/
def appendCqlValue : ColumnValue → Ty → Option Bytes
  | .null, _ => some (appendBeS32 (-1))
  | .map entries, .map key value _ =>
      appendElements entries.length (entries.flatMap fun e => [(key, e.1), (value, e.2)])
  | .map _, _ => none
  | .set keys, .set key _ => do
      let _ ← basicOf key
      appendElements keys.length (keys.map fun k => (key, k))
  | .set _, _ => none
  | .array vs, .vector element count _ => do
      let _ ← basicOf element
      if vs.length < count.toNat then none
      else appendElements count.toNat ((vs.take count.toNat).map fun v => (element, v))
  | .array vs, .list element _ => do
      let _ ← basicOf element
      appendElements vs.length (vs.map fun v => (element, v))
  | .array _, _ => none
  | v, t => do appendCqlBasicElement (← basicOf t) v

/-! ### Reading -/

/-- The length before a value, a literal instead of the value when it is negative, and the value, of
which `body` is given the length and the bytes from its start. -/
def readSized {α : Type} (absent : Literal → α) (body : Nat → Bytes → Option α) : Reader α := fun p =>
  if p.length < 4 then none
  else
    let len := readBeS32 p
    let p := p.drop 4
    if len = -2 then some (absent .unset, p)
    else if len < 0 then some (absent .null, p)
    else if p.length < len.toNat then none
    else do
      let value ← body len.toNat p
      some (value, p.drop len.toNat)

/-- A value of the given width as a signed integer. -/
def signedValue (len width : Nat) (val : Bytes) : Option Literal :=
  if len = width then some (.s64 ((BitVec.ofNat (8 * width) (beValue (val.take width))).signExtend 64)) else none

/-- The `switch` of `read_cql_value_as_constant`. The length of a `tinyint` is not checked; past the end
of the bytes it reads 0 here. -/
def constantOf (dtype : Basic) (len : Nat) (val : Bytes) : Option Literal :=
  match dtype with
  | .text | .ascii | .varchar => some (.text (val.take len))
  | .int | .date => signedValue len 4 val
  | .bigint | .timestamp | .counter | .time => signedValue len 8 val
  | .smallint => signedValue len 2 val
  | .double => if len = 8 then some (.f64 (BitVec.ofNat 64 (beValue (val.take 8)))) else none
  | .float => if len = 4 then some (.f64 (Float.toF64 (BitVec.ofNat 32 (beValue (val.take 4))))) else none
  | .boolean => if len = 1 then some (.bool (val.headD 0 != 0)) else none
  | .uuid | .timeuuid => if len = 16 then (readFixed 16 val).map fun r => .uuid r.1 else none
  | .tinyint => some (.s64 ((BitVec.ofNat 8 (val.headD 0).toNat).signExtend 64))
  | .blob => some (.blob (val.take len))
  | .decimal | .duration | .inet | .varint | .hex => some (.text (val.take len))

def readCqlValueAsConstant (dtype : Basic) : Reader Literal := readSized id (constantOf dtype)

/-- Items until `n` are read or the bytes end. -/
def readUpTo {α : Type} (read : Reader α) : Nat → Bytes → Option (List α)
  | 0, _ => some []
  | n + 1, p =>
      if p.isEmpty then some []
      else do
        let (a, p) ← read p
        let as ← readUpTo read n p
        pure (a :: as)

def readCounted {α : Type} (read : Reader α) (len : Nat) (p : Bytes) : Option (List α) :=
  let coll := p.take len
  if coll.length < 4 then none else readUpTo read (readBeS32 coll).toNat (coll.drop 4)

mutual

def readCqlValueAsTerm : Ty → Reader Term
  | .basic dtype => fun p => (readCqlValueAsConstant dtype p).map fun r => (.literal r.1, r.2)
  | .list element _ =>
      readSized .literal fun len p => (readCounted (readCqlValueAsTerm element) len p).map .listOrVector
  | .set key _ => readSized .literal fun len p => (readCounted (readCqlValueAsTerm key) len p).map .set
  | .map key value _ =>
      readSized .literal fun len p =>
        (readCounted (readPair (readCqlValueAsTerm key) (readCqlValueAsTerm value)) len p).map .map
  | .tuple elements _ => readSized .literal fun len p => (readTupleFields elements (p.take len)).map .tuple
  | .vector .. => fun _ => none
  | .udt .. => fun _ => none

def readTupleFields : List Ty → Bytes → Option (List Term)
  | [], _ => some []
  | t :: ts, p =>
      if p.isEmpty then some []
      else do
        let (e, p) ← readCqlValueAsTerm t p
        let es ← readTupleFields ts p
        pure (e :: es)

end

end Plexdb.Cql.Native
