import Plexdb.ColumnRoundTrip
import Plexdb.NativeValues

/-! What the bytes of one native value are read as. An address is read as a text, a boolean as one of two
bytes, and a 32-bit float through a 64-bit one; a length is a signed 32-bit field. -/

namespace Plexdb.Cql.Native

open Wire

/-- The basic types whose encoding is implemented. -/
def isEncoded : Basic → Bool
  | .varint | .decimal | .duration | .hex => false
  | _ => true

/-- The bytes of a value after its length. -/
def elementData : ColumnValue → Bytes
  | .text bytes => bytes
  | .s64 bits => beBytes 8 bits.toNat
  | .s32 bits => beBytes 4 bits.toNat
  | .s16 bits => beBytes 2 bits.toNat
  | .u8 bits => beBytes 1 bits.toNat
  | .f64 bits => beBytes 8 bits.toNat
  | .f32 bits => beBytes 4 bits.toNat
  | .blob bytes => bytes
  | .uuid bytes => bytes.val
  | .inet (.v4 bytes) => bytes.val
  | .inet (.v6 bytes) => bytes.val
  | _ => []

/-- The variant that is read back, and a value of it that is kept. -/
def isReturned : Basic → ColumnValue → Bool
  | .inet, _ => false
  | .boolean, .u8 bits => bits == 0 || bits == 1
  | .float, .f32 bits => !Float.isSignaling bits
  | dtype, v => storedVariant dtype v

/-! ### Lengths -/

theorem toInt_ofNat_eq {n : Nat} (h : n < 2 ^ 31) : (BitVec.ofNat 32 n).toInt = n := by
  rw [BitVec.toInt_ofNat', Int.bmod_eq_of_le (by omega) (by omega)]

theorem toInt_ofNat_le (n : Nat) : (BitVec.ofNat 32 n).toInt ≤ n := by
  rw [BitVec.toInt_ofNat', Int.bmod_def]
  split <;> omega

theorem length_appendCqlBytesRaw {data : Bytes} {n : BitVec 32} (h : n.toInt ≤ data.length) :
    (appendCqlBytesRaw data n).length = 4 + n.toInt.toNat := by
  rw [appendCqlBytesRaw, List.length_append, length_appendBeS32]
  split_ifs with hpos
  · rw [List.length_take_of_le (by omega)]
  · rw [List.length_nil]
    omega

/-- What a sized value is read as. -/
theorem readSized_appendCqlBytesRaw {α : Type} (absent : Literal → α) (body : Nat → Bytes → Option α)
    {data : Bytes} {n : BitVec 32} (h : n.toInt ≤ data.length) (rest : Bytes) :
    readSized absent body (appendCqlBytesRaw data n ++ rest) =
      if n.toInt = -2 then some (absent .unset, rest)
      else if n.toInt < 0 then some (absent .null, rest)
      else (body n.toInt.toNat (data.take n.toInt.toNat ++ rest)).map fun value => (value, rest) := by
  have hdata : (if 0 < n.toInt then data.take n.toInt.toNat else []) = data.take n.toInt.toNat := by
    split_ifs with hpos
    · rfl
    · rw [show n.toInt.toNat = 0 by omega, List.take_zero]
  have hlen : (data.take n.toInt.toNat).length = n.toInt.toNat := List.length_take_of_le (by omega)
  rw [appendCqlBytesRaw, hdata, List.append_assoc, readSized, if_neg (by simp), readBeS32_appendBeS32,
    drop_appendBeS32]
  dsimp only
  split_ifs with hunset hnull hshort
  · rw [show n.toInt.toNat = 0 by omega, List.take_zero, List.nil_append]
  · rw [show n.toInt.toNat = 0 by omega, List.take_zero, List.nil_append]
  · rw [List.length_append, hlen] at hshort
    omega
  · rw [List.drop_append_of_le_length hlen.ge, List.drop_of_length_le hlen.le, List.nil_append]
    cases body n.toInt.toNat (data.take n.toInt.toNat ++ rest) <;> rfl

theorem readSized_of_short {α : Type} (absent : Literal → α) (body : Nat → Bytes → Option α) {data : Bytes}
    (h : data.length < 2 ^ 31) (rest : Bytes) :
    readSized absent body (appendCqlBytesRaw data (BitVec.ofNat 32 data.length) ++ rest) =
      (body data.length (data ++ rest)).map fun value => (value, rest) := by
  have hn := toInt_ofNat_eq h
  rw [readSized_appendCqlBytesRaw absent body hn.le, hn, if_neg (by omega), if_neg (by omega), Int.toNat_natCast,
    List.take_length]

/-! ### Elements -/

/-- What is written for an element. -/
def written (v : ColumnValue) : Bytes := appendCqlBytesRaw (elementData v) (BitVec.ofNat 32 (elementData v).length)

theorem appendCqlBasicElement_eq {dtype : Basic} {v : ColumnValue} :
    appendCqlBasicElement dtype v = if dtype ∈ elementTypes v then some (written v) else none := by
  unfold appendCqlBasicElement
  split_ifs with h
  · cases v with
    | uuid bytes => exact congrArg (fun n => some (appendCqlBytesRaw bytes.val (BitVec.ofNat 32 n))) bytes.property.symm
    | inet address =>
        cases address with
        | v4 bytes => exact congrArg (fun n => some (appendCqlBytesRaw bytes.val (BitVec.ofNat 32 n))) bytes.property.symm
        | v6 bytes => exact congrArg (fun n => some (appendCqlBytesRaw bytes.val (BitVec.ofNat 32 n))) bytes.property.symm
    | text | blob | s64 | s32 | s16 | u8 | f64 | f32 => rfl
    | varint | decimal | duration | array | set | map | null => cases h
  · rfl

theorem basicElementByteSize_eq {dtype : Basic} {v : ColumnValue} :
    basicElementByteSize dtype v =
      if dtype ∈ elementTypes v then some (BitVec.ofNat 32 (elementData v).length) else none := by
  unfold basicElementByteSize
  split_ifs with h
  · cases v with
    | uuid bytes => exact congrArg (fun n => some (BitVec.ofNat 32 n)) bytes.property.symm
    | inet address =>
        cases address with
        | v4 bytes => exact congrArg (fun n => some (BitVec.ofNat 32 n)) bytes.property.symm
        | v6 bytes => exact congrArg (fun n => some (BitVec.ofNat 32 n)) bytes.property.symm
    | text | blob | s64 | s32 | s16 | u8 | f64 | f32 => rfl
    | varint | decimal | duration | array | set | map | null => cases h
  · rfl

/-- `lit` is what the bytes of `v` are read as. -/
def ReadAs (b : Basic) (v : ColumnValue) (lit : Literal) : Prop :=
  ∀ rest, readCqlValueAsConstant b (written v ++ rest) = some (lit, rest)

theorem ReadAs.of_short {b : Basic} {v : ColumnValue} {lit : Literal} (hlen : (elementData v).length < 2 ^ 31)
    (h : ∀ rest, constantOf b (elementData v).length (elementData v ++ rest) = some lit) : ReadAs b v lit := by
  intro rest
  rw [readCqlValueAsConstant, written, readSized_of_short id (constantOf b) hlen, h]
  rfl

theorem take_beBytes (n x : Nat) (rest : Bytes) : (beBytes n x ++ rest).take n = beBytes n x := by
  rw [List.take_append_of_le_length (length_beBytes n x).ge, List.take_of_length_le (length_beBytes n x).le]

theorem setWidth_signExtend {w n : Nat} (x : BitVec w) (h : w ≤ n) : (x.signExtend n).setWidth w = x := by
  ext i hi
  rw [BitVec.getElem_setWidth, BitVec.getLsbD_signExtend]
  simp [hi, show i < n by omega]

theorem signedValue_beBytes (width : Nat) (x : BitVec (8 * width)) (rest : Bytes) :
    signedValue (beBytes width x.toNat).length width (beBytes width x.toNat ++ rest) =
      some (.s64 (x.signExtend 64)) := by
  rw [signedValue, if_pos (length_beBytes _ _), take_beBytes, ofNat_beValue_beBytes width x rfl]

theorem headD_beBytes_one (x : BitVec 8) (rest : Bytes) : (beBytes 1 x.toNat ++ rest).headD 0 = UInt8.ofNat x.toNat := by
  have hx : x.toNat % 256 = x.toNat := Nat.mod_eq_of_lt x.isLt
  simp [beBytes, leBytes, hx]

/-- A text or a blob comes back when its length fits the field, and never otherwise. -/
theorem exists_readAs_bytes {b : Basic} {v : ColumnValue} (lit : Bytes → Literal) (hnull : v ≠ .null)
    (hconst : ∀ len val, constantOf b len val = some (lit (val.take len)))
    (hresolve : ∀ bytes, resolveLiteralScalar (lit bytes) (.basic b) = some v ↔ bytes = elementData v) :
    ∃ l, ReadAs b v l ∧
      (resolveLiteralScalar l (.basic b) = some v ↔ (elementData v).length < 2 ^ 31) := by
  by_cases hlen : (elementData v).length < 2 ^ 31
  · refine ⟨lit (elementData v), ReadAs.of_short hlen fun rest => ?_, iff_of_true ((hresolve _).mpr rfl) hlen⟩
    rw [hconst, List.take_append_of_le_length le_rfl, List.take_length]
  · have hn := toInt_ofNat_le (elementData v).length
    have hlt := BitVec.toInt_lt (x := BitVec.ofNat 32 (elementData v).length)
    have hread := readSized_appendCqlBytesRaw id (constantOf b) hn
    generalize hsize : BitVec.ofNat 32 (elementData v).length = n at hn hlt hread
    by_cases hunset : n.toInt = -2
    · refine ⟨.unset, fun rest => ?_, ?_⟩
      · rw [readCqlValueAsConstant, written, hsize, hread, if_pos hunset]
        rfl
      · exact iff_of_false (by simp [resolveLiteralScalar, canWriteLiteral]) hlen
    · by_cases hneg : n.toInt < 0
      · refine ⟨.null, fun rest => ?_, ?_⟩
        · rw [readCqlValueAsConstant, written, hsize, hread, if_neg hunset, if_pos hneg]
          rfl
        · exact iff_of_false (by simp [resolveLiteralScalar, canWriteLiteral, Ne.symm hnull]) hlen
      · refine ⟨lit ((elementData v).take n.toInt.toNat), fun rest => ?_, ?_⟩
        · rw [readCqlValueAsConstant, written, hsize, hread, if_neg hunset, if_neg hneg, hconst,
            List.take_append_of_le_length (by rw [List.length_take]; omega), List.take_take, Nat.min_self]
          rfl
        · have hshort : n.toInt.toNat < (elementData v).length := by omega
          refine iff_of_false (fun h => ?_) hlen
          rw [hresolve, List.take_eq_self_iff] at h
          omega

theorem exists_readAs_fixed {b : Basic} {v : ColumnValue} (lit : Literal) (hlen : (elementData v).length ≤ 16)
    (hconst : ∀ rest, constantOf b (elementData v).length (elementData v ++ rest) = some lit)
    (hresolve : resolveLiteralScalar lit (.basic b) = some v ↔ isReturned b v = true) :
    ∃ l, ReadAs b v l ∧
      (resolveLiteralScalar l (.basic b) = some v ↔
        isReturned b v = true ∧ (elementData v).length < 2 ^ 31) := by
  have hshort : (elementData v).length < 2 ^ 31 := by omega
  exact ⟨lit, ReadAs.of_short hshort hconst, hresolve.trans (and_iff_left hshort).symm⟩

theorem constantOf_f64 (bits : BitVec 64) (rest : Bytes) :
    constantOf .double (beBytes 8 bits.toNat).length (beBytes 8 bits.toNat ++ rest) = some (.f64 bits) := by
  rw [constantOf, if_pos (length_beBytes _ _), take_beBytes, ofNat_beValue_beBytes 8 bits rfl]

theorem constantOf_f32 (bits : BitVec 32) (rest : Bytes) :
    constantOf .float (beBytes 4 bits.toNat).length (beBytes 4 bits.toNat ++ rest) =
      some (.f64 (Float.toF64 bits)) := by
  rw [constantOf, if_pos (length_beBytes _ _), take_beBytes, ofNat_beValue_beBytes 4 bits rfl]

theorem toNat_ofNat_bits (bits : BitVec 8) : (UInt8.ofNat bits.toNat).toNat = bits.toNat := by
  rw [UInt8.toNat_ofNat', Nat.mod_eq_of_lt bits.isLt]

theorem constantOf_boolean (bits : BitVec 8) (rest : Bytes) :
    constantOf .boolean (beBytes 1 bits.toNat).length (beBytes 1 bits.toNat ++ rest) =
      some (.bool (bits != 0)) := by
  have hzero : (UInt8.ofNat bits.toNat != 0) = (bits != 0) := by
    rw [Bool.eq_iff_iff, bne_iff_ne, bne_iff_ne, ne_eq, ne_eq, ← UInt8.toNat_inj, toNat_ofNat_bits, ← BitVec.toNat_inj]
    rfl
  rw [constantOf, if_pos (length_beBytes _ _), headD_beBytes_one, hzero]

theorem constantOf_tinyint (bits : BitVec 8) (rest : Bytes) :
    constantOf .tinyint (beBytes 1 bits.toNat).length (beBytes 1 bits.toNat ++ rest) =
      some (.s64 (bits.signExtend 64)) := by
  rw [constantOf, headD_beBytes_one, toNat_ofNat_bits, BitVec.ofNat_toNat, BitVec.setWidth_eq]

theorem constantOf_uuid (bytes : Raw 16) (rest : Bytes) :
    constantOf .uuid bytes.val.length (bytes.val ++ rest) = some (.uuid bytes) := by
  rw [constantOf, if_pos bytes.property, readFixed_append]
  rfl

theorem resolveLiteralScalar_f32 (bits : BitVec 32) :
    resolveLiteralScalar (.f64 (Float.toF64 bits)) (.basic .float) = some (.f32 bits) ↔
      isReturned .float (.f32 bits) = true := by
  have hnarrow : resolveLiteralScalar (.f64 (Float.toF64 bits)) (.basic .float) =
      some (.f32 (Float.toF32 (Float.toF64 bits))) := rfl
  rw [hnarrow, Option.some.injEq, ColumnValue.f32.injEq, Float.toF32_toF64, isReturned, Bool.not_eq_true']

theorem resolveLiteralScalar_bool (bits : BitVec 8) :
    resolveLiteralScalar (.bool (bits != 0)) (.basic .boolean) = some (.u8 bits) ↔
      isReturned .boolean (.u8 bits) = true := by
  have hresolve : resolveLiteralScalar (.bool (bits != 0)) (.basic .boolean) =
      some (.u8 (if bits != 0 then 1 else 0)) := rfl
  rw [hresolve, Option.some.injEq, ColumnValue.u8.injEq, isReturned, Bool.or_eq_true, beq_iff_eq, beq_iff_eq]
  by_cases hzero : bits = 0
  · rw [hzero]
    decide
  · rw [if_pos (bne_iff_ne.mpr hzero), or_iff_right hzero, eq_comm]

/-- How an element that can be written is read back. -/
theorem exists_readAs {b : Basic} {v : ColumnValue} (henc : isEncoded b = true)
    (hwt : canWriteTypedBasic v b = true) (hmem : b ∈ elementTypes v) :
    ∃ lit, ReadAs b v lit ∧
      (resolveLiteralScalar lit (.basic b) = some v ↔
        isReturned b v = true ∧ (elementData v).length < 2 ^ 31) := by
  cases v with
  | s64 bits =>
      refine exists_readAs_fixed (.s64 bits) (length_beBytes _ _ |>.trans_le (by decide)) (fun rest => ?_) ?_
      · have hval := signedValue_beBytes 8 bits rest
        rw [BitVec.signExtend_eq] at hval
        simp only [elementTypes, List.mem_cons, List.not_mem_nil, or_false] at hmem
        rcases hmem with rfl | rfl | rfl | rfl <;> exact hval
      · simp only [elementTypes, List.mem_cons, List.not_mem_nil, or_false] at hmem
        rcases hmem with rfl | rfl | rfl | rfl <;> exact iff_of_true rfl rfl
  | s32 bits =>
      refine exists_readAs_fixed (.s64 (bits.signExtend 64)) (length_beBytes _ _ |>.trans_le (by decide))
        (fun rest => ?_) ?_
      · have hval := signedValue_beBytes 4 bits rest
        simp only [elementTypes, List.mem_cons, List.not_mem_nil, or_false] at hmem
        rcases hmem with rfl | rfl <;> exact hval
      · have hnarrow : (bits.signExtend 64).setWidth 32 = bits := setWidth_signExtend bits (by decide)
        simp only [elementTypes, List.mem_cons, List.not_mem_nil, or_false] at hmem
        rcases hmem with rfl | rfl <;>
          exact iff_of_true (congrArg (fun x => some (ColumnValue.s32 x)) hnarrow) rfl
  | s16 bits =>
      obtain rfl := List.mem_singleton.mp hmem
      have hnarrow : (bits.signExtend 64).setWidth 16 = bits := setWidth_signExtend bits (by decide)
      exact exists_readAs_fixed (.s64 (bits.signExtend 64)) (length_beBytes _ _ |>.trans_le (by decide))
        (signedValue_beBytes 2 bits)
        (iff_of_true (congrArg (fun x => some (ColumnValue.s16 x)) hnarrow) rfl)
  | u8 bits =>
      simp only [elementTypes, List.mem_cons, List.not_mem_nil, or_false] at hmem
      rcases hmem with rfl | rfl
      · exact exists_readAs_fixed _ (length_beBytes _ _ |>.trans_le (by decide)) (constantOf_boolean bits)
          (resolveLiteralScalar_bool bits)
      · have hnarrow : (bits.signExtend 64).setWidth 8 = bits := setWidth_signExtend bits (by decide)
        exact exists_readAs_fixed _ (length_beBytes _ _ |>.trans_le (by decide)) (constantOf_tinyint bits)
          (iff_of_true (congrArg (fun x => some (ColumnValue.u8 x)) hnarrow) rfl)
  | f64 bits =>
      obtain rfl := List.mem_singleton.mp hmem
      exact exists_readAs_fixed _ (length_beBytes _ _ |>.trans_le (by decide)) (constantOf_f64 bits) (iff_of_true rfl rfl)
  | f32 bits =>
      obtain rfl := List.mem_singleton.mp hmem
      exact exists_readAs_fixed _ (length_beBytes _ _ |>.trans_le (by decide)) (constantOf_f32 bits)
        (resolveLiteralScalar_f32 bits)
  | uuid bytes =>
      simp only [elementTypes, List.mem_cons, List.not_mem_nil, or_false] at hmem
      rcases hmem with rfl | rfl <;>
        exact exists_readAs_fixed _ bytes.property.le (constantOf_uuid bytes) (iff_of_true rfl rfl)
  | text bytes =>
      have hkept : isReturned b (.text bytes) = true := by
        simp only [elementTypes, List.mem_cons, List.not_mem_nil, or_false] at hmem
        rcases hmem with rfl | rfl | rfl <;> rfl
      rw [hkept]
      simp only [true_and]
      refine exists_readAs_bytes .text ColumnValue.noConfusion ?_ ?_
      · simp only [elementTypes, List.mem_cons, List.not_mem_nil, or_false] at hmem
        rcases hmem with rfl | rfl | rfl <;> exact fun _ _ => rfl
      · intro data
        simp only [elementTypes, List.mem_cons, List.not_mem_nil, or_false] at hmem
        rcases hmem with rfl | rfl | rfl <;> simp [resolveLiteralScalar, canWriteLiteral, elementData]
  | blob bytes =>
      obtain rfl : b = .blob := by
        rcases Bool.or_eq_true_iff.mp hwt with hblob | hhex
        · exact beq_iff_eq.mp hblob
        · rw [beq_iff_eq.mp hhex] at henc
          exact absurd henc Bool.false_ne_true
      have hkept : isReturned .blob (.blob bytes) = true := rfl
      rw [hkept]
      simp only [true_and]
      exact exists_readAs_bytes .blob ColumnValue.noConfusion (fun _ _ => rfl)
        (fun data => by simp [resolveLiteralScalar, canWriteLiteral, elementData])
  | inet address =>
      obtain rfl := List.mem_singleton.mp hmem
      cases address with
      | v4 bytes =>
          exact exists_readAs_fixed (.text bytes.val) (bytes.property.trans_le (by decide))
            (fun rest => by simp [constantOf, elementData]) (by simp [resolveLiteralScalar, canWriteLiteral, isReturned])
      | v6 bytes =>
          exact exists_readAs_fixed (.text bytes.val) bytes.property.le
            (fun rest => by simp [constantOf, elementData]) (by simp [resolveLiteralScalar, canWriteLiteral, isReturned])
  | varint | decimal | duration | array | set | map | null => exact absurd hmem List.not_mem_nil

theorem mem_elementTypes_of_isReturned {b : Basic} {v : ColumnValue} (henc : isEncoded b = true)
    (h : isReturned b v = true) : b ∈ elementTypes v := by
  cases b <;> cases v <;> first | exact absurd h Bool.false_ne_true | exact absurd henc Bool.false_ne_true |
    simp [elementTypes]

/-- What the bytes of an element are read as. -/
def readBack (b : Basic) (v : ColumnValue) : Literal :=
  ((readCqlValueAsConstant b (written v)).map Prod.fst).getD .null

theorem ReadAs.eq_readBack {b : Basic} {v : ColumnValue} {lit : Literal} (h : ReadAs b v lit) :
    readBack b v = lit := by
  have hnil := h []
  rw [List.append_nil] at hnil
  rw [readBack, hnil]
  rfl

theorem readBack_spec {b : Basic} {v : ColumnValue} (henc : isEncoded b = true)
    (hwt : canWriteTypedBasic v b = true) (hmem : b ∈ elementTypes v) :
    ReadAs b v (readBack b v) ∧
      (resolveLiteralScalar (readBack b v) (.basic b) = some v ↔
        isReturned b v = true ∧ (elementData v).length < 2 ^ 31) := by
  obtain ⟨lit, hread, hresolve⟩ := exists_readAs henc hwt hmem
  rw [hread.eq_readBack]
  exact ⟨hread, hresolve⟩

theorem length_written_of_short {v : ColumnValue} (h : (elementData v).length < 2 ^ 31) :
    (written v).length = 4 + (elementData v).length := by
  have hn := toInt_ofNat_eq h
  rw [written, length_appendCqlBytesRaw hn.le, hn, Int.toNat_natCast]

theorem four_le_length_written (v : ColumnValue) : 4 ≤ (written v).length := by
  rw [written, length_appendCqlBytesRaw (toInt_ofNat_le _)]
  omega

end Plexdb.Cql.Native
