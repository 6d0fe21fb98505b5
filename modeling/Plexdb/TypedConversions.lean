import Plexdb.NativeFields
import Plexdb.ResolvedValues

/-! Conversions between the integer-shaped types and blobs: `apply_typed_conversion` of `cql/engine/engine.cpp`, which
SELECT projections use, and the registered functions of `cql/engine/evaluator.cpp`. `none` is undefined behaviour. -/

namespace Plexdb.Cql.Conversion

open Wire Native

/-! ### Typed conversions -/

structure IntConvType where
  type : Basic
  bytes : Nat
  decodeToS32 : Bool

def kIntConvTypes : List IntConvType :=
  [⟨.bigint, 8, false⟩, ⟨.timestamp, 8, false⟩, ⟨.counter, 8, false⟩, ⟨.time, 8, false⟩, ⟨.int, 4, true⟩,
    ⟨.date, 4, true⟩, ⟨.smallint, 2, false⟩, ⟨.tinyint, 1, false⟩]

def intConvFor (t : Basic) : Option IntConvType := kIntConvTypes.find? fun e => e.type == t

def readBeU64 (src : Bytes) : UInt64 := src.foldl (fun acc b => (acc <<< 8) ||| b.toUInt64) 0

/-- Byte `n - 1 - i` is byte `i` of the word. -/
def writeBeU64 (v : UInt64) (n : Nat) : Bytes :=
  (List.range n).reverse.map fun i => ((v >>> UInt64.ofNat (i * 8)) &&& 0xff).toUInt8

/-- `x << n` on a `U64`: shifting by the width of the word is undefined. -/
def shiftLeft (x : UInt64) (n : Nat) : Option UInt64 := if n < 64 then some (x <<< UInt64.ofNat n) else none

def signExtendBe (raw : UInt64) (bytes : Nat) : Option UInt64 := do
  let width := bytes * 8
  let sign ← shiftLeft 1 (width - 1)
  if raw &&& sign ≠ 0 then
    let above ← shiftLeft 1 width
    pure (raw ||| ~~~(above - 1))
  else pure raw

def applyTypedConversion (v : ColumnValue) (source target : Basic) : Option ColumnValue :=
  if v.isNull || source == target then some v
  else if target == .blob then
    match intConvFor source, v with
    | some info, .s64 bits => some (.blob (writeBeU64 (UInt64.ofBitVec bits) info.bytes))
    | some info, .s32 bits => some (.blob (writeBeU64 (UInt64.ofBitVec (bits.signExtend 64)) info.bytes))
    | _, _ => some .null
  else
    match source, v, intConvFor target with
    | .blob, .blob bytes, some info =>
        if bytes.length ≠ info.bytes then some .null
        else do
          let iv ← signExtendBe (readBeU64 bytes) info.bytes
          pure (if info.decodeToS32 then .s32 (iv.toBitVec.setWidth 32) else .s64 iv.toBitVec)
    | _, _, _ => some .null

structure Step where
  source : Basic
  target : Basic
  deriving DecidableEq

def applyConversionStack (v : ColumnValue) (conversions : List Step) : Option ColumnValue :=
  conversions.foldlM (fun v c => applyTypedConversion v c.source c.target) v

/-! ### The registered functions -/

/-- `as_value<S64>`. -/
def asS64 : Evaluated → Option (BitVec 64)
  | .literal (.s64 v) => some v
  | .columnValue (.s64 v) => some v
  | _ => none

theorem leBytes_eq_map (n x : Nat) : leBytes n x = (List.range n).map fun i => UInt8.ofNat (x / 256 ^ i % 256) := by
  induction n generalizing x with
  | zero => rfl
  | succ n ih =>
      rw [leBytes, ih, List.range_succ_eq_map, List.map_cons, List.map_map, pow_zero, Nat.div_one]
      refine congrArg (_ :: ·) (List.map_congr_left fun i _ => ?_)
      rw [Function.comp_apply, Nat.div_div_eq_div_mul, pow_succ']

theorem leBytes_mod (n x : Nat) : leBytes n (x % 256 ^ n) = leBytes n x := by
  induction n generalizing x with
  | zero => rfl
  | succ n ih =>
      rw [leBytes, leBytes, pow_succ', Nat.mod_mul_right_mod, Nat.mod_mul_right_div_self, ih]

theorem byteOf_shift (v : UInt64) {i : Nat} (h : i * 8 < 64) :
    ((v >>> UInt64.ofNat (i * 8)) &&& 0xff).toUInt8 = UInt8.ofNat (v.toNat / 256 ^ i % 256) := by
  have hshift : (UInt64.ofNat (i * 8)).toNat = i * 8 := UInt64.toNat_ofNat_of_lt' (h.trans (by decide))
  have hmask : (0xff : UInt64).toNat = 2 ^ 8 - 1 := rfl
  have hpow : 2 ^ (i * 8) = 256 ^ i := by
    rw [mul_comm, pow_mul]
    rfl
  apply UInt8.toNat_inj.mp
  rw [UInt64.toNat_toUInt8, UInt64.toNat_and, UInt64.toNat_shiftRight, hshift, Nat.mod_eq_of_lt h, hmask,
    Nat.and_two_pow_sub_one_eq_mod, Nat.shiftRight_eq_div_pow, hpow, UInt8.toNat_ofNat']

/-- The bytes that are written are the big-endian ones. -/
theorem writeBeU64_eq (v : UInt64) {n : Nat} (h : n ≤ 8) : writeBeU64 v n = beBytes n v.toNat := by
  rw [writeBeU64, beBytes, leBytes_eq_map, List.map_reverse]
  refine congrArg List.reverse (List.map_congr_left fun i hi => byteOf_shift v ?_)
  have := List.mem_range.mp hi
  omega

/-- Reading a byte appends it. -/
theorem toNat_readStep (acc : UInt64) (b : UInt8) (h : acc.toNat < 2 ^ 56) :
    ((acc <<< 8) ||| b.toUInt64).toNat = acc.toNat * 256 + b.toNat := by
  have hb := b.toNat_lt
  have hshift : (8 : UInt64).toNat % 64 = 8 := rfl
  rw [UInt64.toNat_or, UInt64.toNat_shiftLeft, hshift, UInt8.toNat_toUInt64, Nat.shiftLeft_eq,
    Nat.mod_eq_of_lt (by omega), Nat.mul_comm, show (2 : Nat) ^ 8 = 256 from rfl]
  have hor := Nat.two_pow_add_eq_or_of_lt (i := 8) hb acc.toNat
  rw [show (2 : Nat) ^ 8 = 256 from rfl] at hor
  rw [← hor, Nat.mul_comm]

theorem toNat_readBeU64 {src : Bytes} (h : src.length ≤ 8) : (readBeU64 src).toNat = beValue src := by
  have hfold : ∀ (l : Bytes) (acc : UInt64), acc.toNat < 256 ^ (8 - l.length) → l.length ≤ 8 →
      (l.foldl (fun (acc : UInt64) (b : UInt8) => (acc <<< 8) ||| b.toUInt64) acc).toNat =
        l.foldl (fun (n : Nat) (b : UInt8) => n * 256 + b.toNat) acc.toNat := by
    intro l
    induction l with
    | nil => exact fun acc _ _ => rfl
    | cons b l ih =>
        intro acc hacc hlen
        rw [List.length_cons] at hacc hlen
        have hb := b.toNat_lt
        have hsmall : acc.toNat < 2 ^ 56 := by
          refine hacc.trans_le ?_
          calc 256 ^ (8 - (l.length + 1)) ≤ 256 ^ 7 := Nat.pow_le_pow_right (by decide) (by omega)
            _ = 2 ^ 56 := by decide
        have hstep := toNat_readStep acc b hsmall
        have hnext : 256 ^ (8 - l.length) = 256 * 256 ^ (8 - (l.length + 1)) := by
          rw [← pow_succ']
          congr 1
          omega
        rw [List.foldl_cons, List.foldl_cons, ih _ (by rw [hstep, hnext]; omega) (by omega), hstep]
  rw [readBeU64, hfold src 0 (by positivity) h]
  rfl

/-! ### Sign extension -/

theorem signMask_bits : ∀ n < 8, ∀ i < 64,
    (~~~((1 <<< UInt64.ofNat (n * 8)) - 1) : UInt64).toBitVec.getLsbD i = decide (n * 8 ≤ i) := by decide +kernel

theorem signBit : ∀ n < 8, (1 <<< UInt64.ofNat (n * 8 + 7) : UInt64).toBitVec = BitVec.twoPow 64 (n * 8 + 7) := by
  decide +kernel

theorem and_signBit (raw : UInt64) {n : Nat} (h : n < 8) :
    (raw &&& 1 <<< UInt64.ofNat (n * 8 + 7) ≠ 0) ↔ raw.toBitVec.getLsbD (n * 8 + 7) = true := by
  rw [ne_eq, ← UInt64.toBitVec_inj, UInt64.toBitVec_and, signBit n h, BitVec.and_twoPow]
  cases raw.toBitVec.getLsbD (n * 8 + 7) with
  | false => exact ⟨fun h => absurd rfl h, fun h => Bool.noConfusion h⟩
  | true =>
      refine ⟨fun _ => rfl, fun _ hz => ?_⟩
      rw [if_pos rfl, ← BitVec.toNat_inj, BitVec.toNat_twoPow_of_lt (by omega)] at hz
      exact (Nat.two_pow_pos _).ne' hz

theorem signExtendBe_narrow (raw : UInt64) {n : Nat} (h : n < 7) (hraw : raw.toNat < 256 ^ (n + 1)) :
    signExtendBe raw (n + 1) = some ⟨(raw.toBitVec.setWidth ((n + 1) * 8)).signExtend 64⟩ := by
  have hwidth : (n + 1) * 8 - 1 = n * 8 + 7 := by omega
  have hhigh (i : Nat) (hi : (n + 1) * 8 ≤ i) : raw.toBitVec.getLsbD i = false := by
    refine Nat.testBit_eq_false_of_lt (hraw.trans_le ?_)
    calc 256 ^ (n + 1) = 2 ^ ((n + 1) * 8) := by
          rw [mul_comm, pow_mul]
          rfl
      _ ≤ 2 ^ i := Nat.pow_le_pow_right (by decide) hi
  have hmsb : (raw.toBitVec.setWidth ((n + 1) * 8)).msb = raw.toBitVec.getLsbD (n * 8 + 7) := by
    rw [BitVec.msb_eq_getLsbD_last, BitVec.getLsbD_setWidth, hwidth, decide_eq_true (by omega), Bool.true_and]
  simp only [signExtendBe, shiftLeft, hwidth, Option.bind_eq_bind, Option.pure_def]
  rw [if_pos (by omega), Option.bind_some]
  by_cases hsign : raw.toBitVec.getLsbD (n * 8 + 7) = true
  · rw [if_pos ((and_signBit raw (by omega)).mpr hsign), if_pos (by omega), Option.bind_some]
    refine congrArg some (UInt64.toBitVec_inj.mp (BitVec.eq_of_getLsbD_eq fun i hi => ?_))
    rw [UInt64.toBitVec_or, BitVec.getLsbD_or, signMask_bits (n + 1) (by omega) i hi, BitVec.getLsbD_signExtend,
      BitVec.getLsbD_setWidth, hmsb, hsign, decide_eq_true hi, Bool.true_and]
    split
    · rename_i hlow
      rw [decide_eq_true hlow, decide_eq_false (by omega), Bool.or_false, Bool.true_and]
    · rename_i hlow
      rw [decide_eq_true (by omega), Bool.or_true]
  · rw [if_neg (mt (and_signBit raw (by omega)).mp hsign)]
    refine congrArg some (UInt64.toBitVec_inj.mp (BitVec.eq_of_getLsbD_eq fun i hi => ?_))
    rw [BitVec.getLsbD_signExtend, BitVec.getLsbD_setWidth, hmsb, Bool.eq_false_iff.mpr hsign, decide_eq_true hi,
      Bool.true_and]
    split
    · rename_i hlow
      rw [decide_eq_true hlow, Bool.true_and]
    · rename_i hlow
      exact hhigh i (by omega)

/-- The stored bits of an integer in two's complement, most significant byte first. -/
def twosComplement : ColumnValue → Bytes
  | .u8 bits => beBytes 1 bits.toNat
  | .s16 bits => beBytes 2 bits.toNat
  | .s32 bits => beBytes 4 bits.toNat
  | .s64 bits => beBytes 8 bits.toNat
  | _ => []

/-- `v` goes to its encoding and comes back. -/
def Inverts (dtype : Basic) (v : ColumnValue) : Prop :=
  applyTypedConversion v dtype .blob = some (.blob (twosComplement v)) ∧
    applyTypedConversion (.blob (twosComplement v)) .blob dtype = some v

variable {dtype : Basic} {info : IntConvType} {v : ColumnValue}

theorem intConvFor_ne_blob (hinfo : intConvFor dtype = some info) : dtype ≠ .blob := by
  rintro rfl
  cases hinfo

/-- The number the conversion reads off a stored value. -/
def wordOf : ColumnValue → Option (BitVec 64)
  | .s64 bits => some bits
  | .s32 bits => some (bits.signExtend 64)
  | _ => none

theorem toBlob_eq (hinfo : intConvFor dtype = some info) (hnull : v.isNull = false) :
    applyTypedConversion v dtype .blob =
      some ((wordOf v).elim .null fun word => .blob (writeBeU64 (UInt64.ofBitVec word) info.bytes)) := by
  have hne : (dtype == Basic.blob) = false := beq_eq_false_iff_ne.mpr (intConvFor_ne_blob hinfo)
  simp only [applyTypedConversion, hnull, hne, hinfo, Bool.false_or, Bool.false_eq_true, if_false]
  cases v <;> rfl

theorem ofBlob_eq (hinfo : intConvFor dtype = some info) (bytes : Bytes) :
    applyTypedConversion (.blob bytes) .blob dtype =
      if bytes.length ≠ info.bytes then some .null
      else (signExtendBe (readBeU64 bytes) info.bytes).bind fun iv =>
        some (if info.decodeToS32 then .s32 (iv.toBitVec.setWidth 32) else .s64 iv.toBitVec) := by
  have hne : (Basic.blob == dtype) = false := beq_eq_false_iff_ne.mpr (intConvFor_ne_blob hinfo).symm
  have hne' : (dtype == Basic.blob) = false := beq_eq_false_iff_ne.mpr (intConvFor_ne_blob hinfo)
  simp only [applyTypedConversion, ColumnValue.isNull, hne, hne', hinfo, Bool.false_or, Bool.false_eq_true, if_false]
  rfl

theorem setWidth_signExtend (bits : BitVec 32) : (bits.signExtend 64).setWidth 32 = bits := by
  refine BitVec.eq_of_getLsbD_eq fun i hi => ?_
  rw [BitVec.getLsbD_setWidth, BitVec.getLsbD_signExtend, if_pos hi, decide_eq_true hi,
    decide_eq_true (hi.trans (by decide)), Bool.true_and, Bool.true_and]

/-- A blob of another length is no number. -/
theorem ofBlob_of_length (hinfo : intConvFor dtype = some info) {bytes : Bytes} (h : bytes.length ≠ info.bytes) :
    applyTypedConversion (.blob bytes) .blob dtype = some .null := by
  rw [ofBlob_eq hinfo, if_pos h]

theorem inverts_s32 (hinfo : intConvFor dtype = some info) (hbytes : info.bytes = 4) (hdecode : info.decodeToS32 = true)
    (bits : BitVec 32) : Inverts dtype (.s32 bits) := by
  have hbits : bits.toNat < 256 ^ 4 := bits.isLt
  have hto : writeBeU64 (UInt64.ofBitVec (bits.signExtend 64)) 4 = beBytes 4 bits.toNat := by
    have hmod : (bits.signExtend 64).toNat % 256 ^ 4 = bits.toNat := by
      have := congrArg BitVec.toNat (setWidth_signExtend bits)
      rwa [BitVec.toNat_setWidth] at this
    rw [writeBeU64_eq _ (by decide), beBytes, ← leBytes_mod]
    exact congrArg (fun n => (leBytes 4 n).reverse) hmod
  have hread : (readBeU64 (beBytes 4 bits.toNat)).toNat = bits.toNat := by
    rw [toNat_readBeU64 (by rw [length_beBytes]; decide), beValue_beBytes hbits]
  have hback : (readBeU64 (beBytes 4 bits.toNat)).toBitVec.setWidth 32 = bits := by
    refine BitVec.eq_of_toNat_eq ?_
    rw [BitVec.toNat_setWidth, UInt64.toNat_toBitVec, hread]
    exact Nat.mod_eq_of_lt bits.isLt
  refine ⟨?_, ?_⟩
  · rw [toBlob_eq hinfo rfl, hbytes]
    exact congrArg (fun b => some (ColumnValue.blob b)) hto
  · rw [ofBlob_eq hinfo, hbytes, hdecode, twosComplement, if_neg (not_not.mpr (length_beBytes _ _)),
      signExtendBe_narrow _ (by decide) (hread.trans_lt hbits), Option.bind_some, if_pos rfl]
    exact congrArg (fun b => some (ColumnValue.s32 b)) ((congrArg (fun x : BitVec 32 => (x.signExtend 64).setWidth 32)
      hback).trans (setWidth_signExtend bits))

theorem leValue_lt (bytes : Bytes) : leValue bytes < 256 ^ bytes.length := by
  induction bytes with
  | nil => decide
  | cons b bytes ih =>
      have hb := b.toNat_lt
      rw [leValue, List.length_cons, pow_succ]
      omega

variable (n : Nat)

end Plexdb.Cql.Conversion
