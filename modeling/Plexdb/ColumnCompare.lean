import Plexdb.ColumnRoundTrip
import Plexdb.NativeFields
import Plexdb.ThreeWay

/-! The comparison of two stored values of a column type (`cql/engine/column_value.cpp`). The signed and
unsigned machine words are compared by their value, floats by their bits; the difference of two scales wraps. -/

namespace Plexdb.Cql

/-- `memory_compare`: the difference of the first bytes that differ. -/
def memoryCompare : Bytes → Bytes → Int
  | a :: as, b :: bs => if a = b then memoryCompare as bs else a.toNat - b.toNat
  | _, _ => 0

def clampCmp (c : Int) : Int := if c < 0 then -1 else if c > 0 then 1 else 0

def compareBytes (a b : Bytes) : Int :=
  let n := min a.length b.length
  let c := if n > 0 then memoryCompare (a.take n) (b.take n) else 0
  if c ≠ 0 then clampCmp c else compareScalar a.length b.length

def f64OrderKey (bits : BitVec 64) : BitVec 64 :=
  if bits &&& 0x8000000000000000#64 ≠ 0 then ~~~bits else bits ^^^ 0x8000000000000000#64

def f32OrderKey (bits : BitVec 32) : BitVec 32 :=
  if bits &&& 0x80000000#32 ≠ 0 then ~~~bits else bits ^^^ 0x80000000#32

/-! ### UUIDs -/

def byteAt (u : Raw 16) (i : Nat) : Nat := (u.val.getD i 0).toNat

def timeuuidTimestamp (u : Raw 16) : Nat :=
  let timeLow := byteAt u 0 <<< 24 ||| byteAt u 1 <<< 16 ||| byteAt u 2 <<< 8 ||| byteAt u 3
  let timeMid := byteAt u 4 <<< 8 ||| byteAt u 5
  let timeHi := (byteAt u 6 <<< 8 ||| byteAt u 7) &&& 0x0FFF
  timeHi <<< 48 ||| timeMid <<< 32 ||| timeLow

def compareTimeuuid (a b : Raw 16) : Int :=
  let ta := timeuuidTimestamp a
  let tb := timeuuidTimestamp b
  if ta ≠ tb then compareScalar ta tb else compareBytes (a.val.drop 8) (b.val.drop 8)

/-- The version nibble. -/
def uuidVersion (u : Raw 16) : Nat := (byteAt u 6 >>> 4) &&& 0x0F

def compareUuid (a b : Raw 16) : Int :=
  let va := uuidVersion a
  let vb := uuidVersion b
  if va ≠ vb then compareScalar va vb
  else if va = 1 then compareTimeuuid a b
  else compareBytes a.val b.val

/-! ### Numbers -/

/-- The magnitude from `magnitude_bounds` on: without leading zeros. -/
def significant (m : Bytes) : Bytes := m.dropWhile (· = 0)

def compareMagnitude (a b : Bytes) : Int :=
  let sa := significant a
  let sb := significant b
  if sa.length ≠ sb.length then compareScalar sa.length sb.length
  else if sa.length = 0 then 0
  else clampCmp (memoryCompare sa sb)

def magnitudeIsZero (m : Bytes) : Bool := (significant m).length = 0

def compareVarint (a b : VarInt) : Int :=
  let aZero := magnitudeIsZero a.magnitude
  let bZero := magnitudeIsZero b.magnitude
  if aZero && bZero then 0
  else if a.negative ≠ b.negative then
    if aZero then if b.negative then 1 else -1
    else if bZero then if a.negative then -1 else 1
    else if a.negative then -1 else 1
  else
    let m := compareMagnitude a.magnitude b.magnitude
    if a.negative then -m else m

/-- The loop over the bytes, from the last one on, and its last carry. -/
def mulTen : Bytes → Bytes × Nat
  | [] => ([], 0)
  | b :: bs =>
      let (bs, carry) := mulTen bs
      let v := b.toNat * 10 + carry
      (UInt8.ofNat (v % 256) :: bs, v / 256)

/-- The loop that grows the magnitude by a carry. -/
def grow (carry : Nat) (m : Bytes) : Bytes :=
  if carry = 0 then m else grow (carry / 256) (UInt8.ofNat (carry % 256) :: m)

def magnitudeMulPow10 (m : Bytes) : (times : Nat) → Bytes
  | 0 => m
  | times + 1 =>
      let (cur, carry) := mulTen m
      magnitudeMulPow10 (grow carry cur) times

def compareDecimal (a b : Decimal) : Int :=
  if a.scale = b.scale then compareVarint a.unscaled b.unscaled
  else if b.scale.slt a.scale then
    compareVarint a.unscaled
      { b.unscaled with magnitude := magnitudeMulPow10 b.unscaled.magnitude (a.scale - b.scale).toNat }
  else
    compareVarint { a.unscaled with magnitude := magnitudeMulPow10 a.unscaled.magnitude (b.scale - a.scale).toNat }
      b.unscaled

/-! ### Values -/

def Inet.octets : Inet → Bytes
  | .v4 bytes => bytes.val
  | .v6 bytes => bytes.val

/-- `none` where a value is not of the variant that is read, and for a duration: the assertions. -/
def compareColumnValue (a b : ColumnValue) (dtype : Basic) : Option Int :=
  match dtype with
  | .bigint | .timestamp | .counter | .time =>
      match a, b with
      | .s64 a, .s64 b => some (compareScalar a.toInt b.toInt)
      | _, _ => none
  | .int | .date =>
      match a, b with
      | .s32 a, .s32 b => some (compareScalar a.toInt b.toInt)
      | _, _ => none
  | .smallint =>
      match a, b with
      | .s16 a, .s16 b => some (compareScalar a.toInt b.toInt)
      | _, _ => none
  | .tinyint =>
      match a, b with
      | .u8 a, .u8 b => some (compareScalar a.toInt b.toInt)
      | _, _ => none
  | .boolean =>
      match a, b with
      | .u8 a, .u8 b => some (compareScalar a.toNat b.toNat)
      | _, _ => none
  | .double =>
      match a, b with
      | .f64 a, .f64 b => some (compareScalar (f64OrderKey a).toNat (f64OrderKey b).toNat)
      | _, _ => none
  | .float =>
      match a, b with
      | .f32 a, .f32 b => some (compareScalar (f32OrderKey a).toNat (f32OrderKey b).toNat)
      | _, _ => none
  | .text | .varchar | .ascii =>
      match a, b with
      | .text a, .text b => some (compareBytes a b)
      | _, _ => none
  | .blob | .hex =>
      match a, b with
      | .blob a, .blob b => some (compareBytes a b)
      | _, _ => none
  | .inet =>
      match a, b with
      | .inet a, .inet b => some (compareBytes a.octets b.octets)
      | _, _ => none
  | .uuid =>
      match a, b with
      | .uuid a, .uuid b => some (compareUuid a b)
      | _, _ => none
  | .timeuuid =>
      match a, b with
      | .uuid a, .uuid b => some (compareTimeuuid a b)
      | _, _ => none
  | .varint =>
      match a, b with
      | .varint a, .varint b => some (compareVarint a b)
      | _, _ => none
  | .decimal =>
      match a, b with
      | .decimal a, .decimal b => some (compareDecimal a b)
      | _, _ => none
  | .duration => none

/-! ### What a value stands for -/

def VarInt.value (v : VarInt) : ℤ := if v.negative then -Native.beValue v.magnitude else Native.beValue v.magnitude

def Decimal.value (d : Decimal) : ℚ := d.unscaled.value * (10 : ℚ) ^ (-d.scale.toInt)

/-- The number that a value of an integer type, a varint or a decimal is. -/
def numericValue (dtype : Basic) : ColumnValue → Option ℚ
  | .s64 bits => some bits.toInt
  | .s32 bits => some bits.toInt
  | .s16 bits => some bits.toInt
  | .u8 bits => if dtype = .tinyint then some bits.toInt else none
  | .varint v => some v.value
  | .decimal d => some d.value
  | _ => none

/-- Two values are the same: the same number, for what can be written in several ways, and the same value
otherwise. A float is its bits. -/
def SameValue : ColumnValue → ColumnValue → Prop
  | .varint a, .varint b => a.value = b.value
  | .decimal a, .decimal b => a.value = b.value
  | a, b => a = b

/-- The two UUIDs differ in the version nibble at most. -/
def SameButVersion (a b : Raw 16) : Prop :=
  (∀ i, i ≠ 6 → byteAt a i = byteAt b i) ∧ byteAt a 6 % 16 = byteAt b 6 % 16

end Plexdb.Cql
