import Plexdb.ColumnTypes

/-! The column value codec (`cql/engine/io.codec.cpp` and the generated
`io_codec_wire.cpp` / `.cppm`). A writer that fails an assertion gives `none`; a reader fails on a
failed assertion and on a stream that is too short. -/

namespace Plexdb.Cql

open Wire

/-! ### Native values -/

/-- `write_typed_basic`: the bytes depend on the variant of the value alone. -/
def writeTypedBasic : ColumnValue → Bytes
  | .s16 bits => writeRaw 2 bits
  | .s32 bits => writeRaw 4 bits
  | .s64 bits => writeRaw 8 bits
  | .u8 bits => writeRaw 1 bits
  | .f32 bits => writeRaw 4 bits
  | .f64 bits => writeRaw 8 bits
  | .text bytes => writePrefixed bytes
  | .blob bytes => writePrefixed bytes
  | .uuid bytes => bytes.val
  | .inet (.v4 bytes) => 0 :: bytes.val
  | .inet (.v6 bytes) => 1 :: bytes.val
  | .varint value => (if value.negative then 1 else 0) :: writePrefixed value.magnitude
  | .decimal value =>
      writeRaw 4 value.scale ++ (if value.unscaled.negative then 1 else 0) ::
        writePrefixed value.unscaled.magnitude
  | .duration value =>
      writeRaw 4 value.months ++ (writeRaw 4 value.days ++ writeRaw 8 value.nanoseconds)
  | _ => []

def isLiteralIntegerFamily : Basic → Bool
  | .smallint | .int | .date | .bigint | .timestamp | .counter | .time | .tinyint => true
  | _ => false

def isLiteralFloatFamily : Basic → Bool
  | .float | .double => true
  | _ => false

/-- `can_write_typed_basic_as_column_value`, on the variant of the value. -/
def canWriteTypedBasic : ColumnValue → Basic → Bool
  | .s64 _, dtype => isLiteralIntegerFamily dtype
  | .f64 _, dtype => isLiteralFloatFamily dtype
  | .s16 _, dtype => dtype == .smallint
  | .s32 _, dtype => dtype == .int || dtype == .date
  | .u8 _, dtype => dtype == .tinyint || dtype == .boolean
  | .f32 _, dtype => dtype == .float
  | .text _, dtype => dtype == .text || dtype == .varchar || dtype == .ascii
  | .blob _, dtype => dtype == .blob || dtype == .hex
  | .uuid _, dtype => dtype == .uuid || dtype == .timeuuid
  | .inet _, dtype => dtype == .inet
  | .varint _, dtype => dtype == .varint
  | .decimal _, dtype => dtype == .decimal
  | .duration _, dtype => dtype == .duration
  | _, _ => false

def readFlag : Reader Bool := fun s => do
  let (raw, s) ← readRaw 1 s
  pure (raw != 0, s)

def readFixed (n : Nat) : Reader (Raw n) := fun s =>
  match h : take n s with
  | none => none
  | some (bytes, rest) => some (⟨bytes, take_eq_some h⟩, rest)

def readVarInt : Reader VarInt := fun s => do
  let (negative, s) ← readFlag s
  let (magnitude, s) ← readPrefixed s
  pure (⟨negative, magnitude⟩, s)

/-- `read_column_value` on a native type. -/
def readBasic (dtype : Basic) : Reader ColumnValue := fun s =>
  match dtype with
  | .smallint => do
      let (bits, s) ← readRaw 2 s
      pure (.s16 bits, s)
  | .int | .date => do
      let (bits, s) ← readRaw 4 s
      pure (.s32 bits, s)
  | .bigint | .timestamp | .counter | .time => do
      let (bits, s) ← readRaw 8 s
      pure (.s64 bits, s)
  | .tinyint | .boolean => do
      let (bits, s) ← readRaw 1 s
      pure (.u8 bits, s)
  | .float => do
      let (bits, s) ← readRaw 4 s
      pure (.f32 bits, s)
  | .double => do
      let (bits, s) ← readRaw 8 s
      pure (.f64 bits, s)
  | .text | .varchar | .ascii => do
      let (bytes, s) ← readPrefixed s
      pure (.text bytes, s)
  | .blob | .hex => do
      let (bytes, s) ← readPrefixed s
      pure (.blob bytes, s)
  | .uuid | .timeuuid => do
      let (bytes, s) ← readFixed 16 s
      pure (.uuid bytes, s)
  | .inet => do
      let (isV6, s) ← readFlag s
      if isV6 then
        let (bytes, s) ← readFixed 16 s
        pure (.inet (.v6 bytes), s)
      else
        let (bytes, s) ← readFixed 4 s
        pure (.inet (.v4 bytes), s)
  | .varint => do
      let (value, s) ← readVarInt s
      pure (.varint value, s)
  | .decimal => do
      let (scale, s) ← readRaw 4 s
      let (unscaled, s) ← readVarInt s
      pure (.decimal ⟨scale, unscaled⟩, s)
  | .duration => do
      let (months, s) ← readRaw 4 s
      let (days, s) ← readRaw 4 s
      let (nanoseconds, s) ← readRaw 8 s
      pure (.duration ⟨months, days, nanoseconds⟩, s)

/-! ### Null masks -/

def maskWords (count : Nat) : Nat := (count + 63) / 64

def setMaskBit (mask : List (BitVec 64)) (i : Nat) : List (BitVec 64) :=
  mask.modify (i / 64) (· ||| (1#64 <<< (i % 64)))

def maskBit (mask : List (BitVec 64)) (i : Nat) : Bool :=
  0 < mask.length && ((mask.getD (i / 64) 0 >>> (i % 64)) &&& 1#64) != 0

def ColumnValue.isNull : ColumnValue → Bool
  | .null => true
  | _ => false

/-- The mask loop of `write_masked_payloads`, from field `i` on. -/
def maskOf (mask : List (BitVec 64)) (i count : Nat) : List ColumnValue → List (BitVec 64)
  | [] => mask
  | v :: vs =>
      if i < count then maskOf (if v.isNull then mask else setMaskBit mask i) (i + 1) count vs
      else mask

def nullMask (count : Nat) (vs : List ColumnValue) : List (BitVec 64) :=
  maskOf (List.replicate (maskWords count) 0) 0 count vs

def writeMask (mask : List (BitVec 64)) : Bytes := mask.flatMap (writeRaw 8 ·)

def readMask (count : Nat) : Reader (List (BitVec 64)) := readMany (readRaw 8) (maskWords count)

/-! ### Containers -/

/-- `insert` into a `DynamicSet`: an equal key is kept as it is. -/
def insertKey (keys : List ColumnValue) (key : ColumnValue) : List ColumnValue :=
  if keys.any (ColumnValue.beq · key) then keys else keys ++ [key]

/-- `insert` into a `DynamicMap`: the value of the first equal key is replaced. -/
def insertEntry (entries : List (ColumnValue × ColumnValue)) (key value : ColumnValue) :
    List (ColumnValue × ColumnValue) :=
  match entries with
  | [] => [(key, value)]
  | e :: entries =>
      if ColumnValue.beq e.1 key then (e.1, value) :: entries else e :: insertEntry entries key value

def canWriteColumnValue : ColumnValue → Ty → Bool
  | .array _, t => match t with
      | .list .. | .vector .. | .tuple .. | .udt .. => true
      | _ => false
  | .set _, t => match t with
      | .set .. => true
      | _ => false
  | .map _, t => match t with
      | .map .. => true
      | _ => false
  | .null, _ => true
  | v, t => match t with
      | .basic dtype => canWriteTypedBasic v dtype
      | _ => false

mutual

/-- `write_column_value`; `none` when `can_write_column_value` does not hold. -/
def writeColumnValue (t : Ty) (v : ColumnValue) : Option Bytes :=
  if canWriteColumnValue v t then
    match t, v with
    | .list element _, .array vs => do
        let bytes ← writeMany (writeColumnValue element) vs
        pure (writeCount vs.length ++ bytes)
    | .vector element _ _, .array vs => writeMany (writeColumnValue element) vs
    | .tuple elements _, .array vs => do
        let mask := nullMask elements.length vs
        let bytes ← writeMaskedPayloads elements vs mask 0
        pure (writeMask mask ++ bytes)
    | .udt _ _ _ fieldTypes, .array vs => do
        let mask := nullMask fieldTypes.length vs
        let bytes ← writeMaskedPayloads fieldTypes vs mask 0
        pure (writeCount fieldTypes.length ++ (writeMask mask ++ bytes))
    | .set key _, .set vs => do
        let bytes ← writeMany (writeColumnValue key) vs
        pure (writeCount vs.length ++ bytes)
    | .map key value _, .map es => do
        let bytes ← writeMany (writePair (writeColumnValue key) (writeColumnValue value)) es
        pure (writeCount es.length ++ bytes)
    | _, v => some (writeTypedBasic v)
  else none

/-- The payload loop of `write_masked_payloads`, from field `i` on. -/
def writeMaskedPayloads (ts : List Ty) (vs : List ColumnValue) (mask : List (BitVec 64))
    (i : Nat) : Option Bytes :=
  match ts, vs with
  | t :: ts, v :: vs => do
      let front ← if maskBit mask i then writeColumnValue t v else some []
      let back ← writeMaskedPayloads ts vs mask (i + 1)
      pure (front ++ back)
  | _, _ => some []

end

mutual

/-- `read_column_value`. -/
def readColumnValue (t : Ty) : Reader ColumnValue := fun s =>
  match t with
  | .basic dtype => readBasic dtype s
  | .list element _ => do
      let (n, s) ← readCount s
      let (vs, s) ← readMany (readColumnValue element) n s
      pure (.array vs, s)
  | .set key _ => do
      let (n, s) ← readCount s
      let (vs, s) ← readMany (readColumnValue key) n s
      pure (.set (vs.foldl insertKey []), s)
  | .map key value _ => do
      let (n, s) ← readCount s
      let (es, s) ← readMany (readPair (readColumnValue key) (readColumnValue value)) n s
      pure (.map (es.foldl (fun m e => insertEntry m e.1 e.2) []), s)
  | .vector element count _ => do
      let (vs, s) ← readMany (readColumnValue element) count.toNat s
      pure (.array vs, s)
  | .tuple elements _ => do
      let (mask, s) ← readMask elements.length s
      let (vs, s) ← readMaskedPayloads elements elements.length mask 0 s
      pure (.array vs, s)
  | .udt _ _ _ fieldTypes => do
      let (written, s) ← readCount s
      if written ≤ fieldTypes.length then
        let (mask, s) ← readMask written s
        let (vs, s) ← readMaskedPayloads fieldTypes written mask 0 s
        pure (.array (vs ++ List.replicate (fieldTypes.length - written) .null), s)
      else none

/-- The payload loop of `read_masked_payloads`: fields `i` to `count`. -/
def readMaskedPayloads (ts : List Ty) (count : Nat) (mask : List (BitVec 64)) (i : Nat) :
    Reader (List ColumnValue) := fun s =>
  match ts with
  | t :: ts =>
      if i < count then do
        let (v, s) ← if maskBit mask i then readColumnValue t s else some (.null, s)
        let (vs, s) ← readMaskedPayloads ts count mask (i + 1) s
        pure (v :: vs, s)
      else some ([], s)
  | [] => some ([], s)

end

end Plexdb.Cql
