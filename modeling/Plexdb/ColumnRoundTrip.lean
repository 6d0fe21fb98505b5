import Plexdb.ColumnContainers

/-! What the codec writes for a well-typed value is read back as that value exactly when every
native value in it is of the variant its type is read as. `can_write_column_value` admits more: an
`S64` in a narrower integer column and an `F64` in a float column, which are written with their own
eight bytes. -/

namespace Plexdb.Cql

open Wire

/-! ### Typing -/

/-- Byte counts fit the `U64` length of a `DynamicArray<U8>`. -/
def Representable : ColumnValue → Prop
  | .text bytes => bytes.length < 2 ^ 64
  | .blob bytes => bytes.length < 2 ^ 64
  | .varint value => value.magnitude.length < 2 ^ 64
  | .decimal value => value.unscaled.magnitude.length < 2 ^ 64
  | _ => True

mutual

/-- A native value of a variant the type admits; containers of well-typed elements, without two
equal keys; a vector of its type's count; null or well-typed fields, as many as the type has. -/
def WellTyped : Ty → ColumnValue → Prop
  | .basic dtype, v => canWriteTypedBasic v dtype = true ∧ Representable v
  | .list element _, .array vs => vs.length < 2 ^ 64 ∧ ∀ v ∈ vs, WellTyped element v
  | .set key _, .set vs =>
      vs.length < 2 ^ 64 ∧ (∀ v ∈ vs, WellTyped key v) ∧
        vs.Pairwise fun a b => ColumnValue.beq a b = false
  | .map key value _, .map es =>
      es.length < 2 ^ 64 ∧ (∀ e ∈ es, WellTyped key e.1 ∧ WellTyped value e.2) ∧
        es.Pairwise fun a b => ColumnValue.beq a.1 b.1 = false
  | .vector element count _, .array vs =>
      vs.length = count.toNat ∧ ∀ v ∈ vs, WellTyped element v
  | .tuple elements _, .array vs => FieldsTyped elements vs
  | .udt _ _ _ fieldTypes, .array vs => fieldTypes.length < 2 ^ 64 ∧ FieldsTyped fieldTypes vs
  | _, _ => False

def FieldsTyped : List Ty → List ColumnValue → Prop
  | [], [] => True
  | t :: ts, v :: vs => (v = .null ∨ WellTyped t v) ∧ FieldsTyped ts vs
  | _, _ => False

end

/-- The variant `read_column_value` builds for a native type. -/
def storedVariant : Basic → ColumnValue → Bool
  | .smallint, .s16 _ => true
  | .int, .s32 _ | .date, .s32 _ => true
  | .bigint, .s64 _ | .timestamp, .s64 _ | .counter, .s64 _ | .time, .s64 _ => true
  | .tinyint, .u8 _ | .boolean, .u8 _ => true
  | .float, .f32 _ => true
  | .double, .f64 _ => true
  | .text, .text _ | .varchar, .text _ | .ascii, .text _ => true
  | .blob, .blob _ | .hex, .blob _ => true
  | .uuid, .uuid _ | .timeuuid, .uuid _ => true
  | .inet, .inet _ => true
  | .varint, .varint _ => true
  | .decimal, .decimal _ => true
  | .duration, .duration _ => true
  | _, _ => false

mutual

/-- Every native value in `v` is of the variant its type is read as. -/
def StoredAs : Ty → ColumnValue → Prop
  | .basic dtype, v => storedVariant dtype v = true
  | .list element _, .array vs => ∀ v ∈ vs, StoredAs element v
  | .set key _, .set vs => ∀ v ∈ vs, StoredAs key v
  | .map key value _, .map es => ∀ e ∈ es, StoredAs key e.1 ∧ StoredAs value e.2
  | .vector element _ _, .array vs => ∀ v ∈ vs, StoredAs element v
  | .tuple elements _, .array vs => FieldsStored elements vs
  | .udt _ _ _ fieldTypes, .array vs => FieldsStored fieldTypes vs
  | _, _ => False

def FieldsStored : List Ty → List ColumnValue → Prop
  | [], [] => True
  | t :: ts, v :: vs => (v = .null ∨ StoredAs t v) ∧ FieldsStored ts vs
  | _, _ => False

end

def RoundTrips (t : Ty) (v : ColumnValue) : Prop :=
  ∃ bytes, writeColumnValue t v = some bytes ∧
    ∀ rest, readColumnValue t (bytes ++ rest) = some (v, rest)

/-! ### Native values -/

theorem readFlag_cons (b : Bool) (rest : Bytes) :
    readFlag ((if b then 1 else 0) :: rest) = some (b, rest) := by
  cases b <;> simp [readFlag, readRaw, Wire.take, leValue]

theorem readFixed_append {n : Nat} (bytes : Raw n) (rest : Bytes) :
    readFixed n (bytes.val ++ rest) = some (bytes, rest) := by
  have h := take_append bytes.property rest
  unfold readFixed
  split
  · rename_i heq
    rw [h] at heq
    cases heq
  · rename_i heq
    rw [h] at heq
    cases heq
    rfl

theorem readVarInt_append (value : VarInt) (h : value.magnitude.length < 2 ^ 64) (rest : Bytes) :
    readVarInt ((if value.negative then 1 else 0) :: (writePrefixed value.magnitude ++ rest)) =
      some (value, rest) := by
  rw [readVarInt, readFlag_cons]
  simp [readPrefixed_writePrefixed h]

theorem readBasic_writeTypedBasic {dtype : Basic} {v : ColumnValue} (hrep : Representable v)
    (hv : storedVariant dtype v = true) (rest : Bytes) :
    readBasic dtype (writeTypedBasic v ++ rest) = some (v, rest) := by
  cases v with
  | text bytes =>
      rw [Representable] at hrep
      have := readPrefixed_writePrefixed hrep rest
      cases dtype <;> first | exact absurd hv Bool.false_ne_true | simp [readBasic, writeTypedBasic, this]
  | blob bytes =>
      rw [Representable] at hrep
      have := readPrefixed_writePrefixed hrep rest
      cases dtype <;> first | exact absurd hv Bool.false_ne_true | simp [readBasic, writeTypedBasic, this]
  | s64 bits =>
      have := readRaw_writeRaw 8 bits rest
      cases dtype <;> first | exact absurd hv Bool.false_ne_true | simp [readBasic, writeTypedBasic, this]
  | s32 bits =>
      have := readRaw_writeRaw 4 bits rest
      cases dtype <;> first | exact absurd hv Bool.false_ne_true | simp [readBasic, writeTypedBasic, this]
  | s16 bits =>
      have := readRaw_writeRaw 2 bits rest
      cases dtype <;> first | exact absurd hv Bool.false_ne_true | simp [readBasic, writeTypedBasic, this]
  | u8 bits =>
      have := readRaw_writeRaw 1 bits rest
      cases dtype <;> first | exact absurd hv Bool.false_ne_true | simp [readBasic, writeTypedBasic, this]
  | f64 bits =>
      have := readRaw_writeRaw 8 bits rest
      cases dtype <;> first | exact absurd hv Bool.false_ne_true | simp [readBasic, writeTypedBasic, this]
  | f32 bits =>
      have := readRaw_writeRaw 4 bits rest
      cases dtype <;> first | exact absurd hv Bool.false_ne_true | simp [readBasic, writeTypedBasic, this]
  | uuid bytes =>
      cases dtype <;> first | exact absurd hv Bool.false_ne_true | simp [readBasic, writeTypedBasic, readFixed_append]
  | inet address =>
      cases dtype <;> first | exact absurd hv Bool.false_ne_true | skip
      cases address with
      | v4 bytes =>
          have := readFlag_cons false (bytes.val ++ rest)
          simp_all [readBasic, writeTypedBasic, readFixed_append]
      | v6 bytes =>
          have := readFlag_cons true (bytes.val ++ rest)
          simp_all [readBasic, writeTypedBasic, readFixed_append]
  | varint value =>
      rw [Representable] at hrep
      have := readVarInt_append value hrep rest
      cases dtype <;> first | exact absurd hv Bool.false_ne_true | simp [readBasic, writeTypedBasic, this]
  | decimal value =>
      rw [Representable] at hrep
      have := readVarInt_append value.unscaled hrep rest
      cases dtype <;> first | exact absurd hv Bool.false_ne_true | skip
      simp [readBasic, writeTypedBasic, readRaw_writeRaw 4 value.scale, this]
  | duration value =>
      cases dtype <;> first | exact absurd hv Bool.false_ne_true | skip
      simp [readBasic, writeTypedBasic, readRaw_writeRaw 4 value.months,
        readRaw_writeRaw 4 value.days, readRaw_writeRaw 8 value.nanoseconds]
  | _ => cases dtype <;> exact absurd hv Bool.false_ne_true

theorem storedVariant_of_readBasic {dtype : Basic} {s rest : Bytes} {v : ColumnValue}
    (h : readBasic dtype s = some (v, rest)) : storedVariant dtype v = true := by
  cases dtype
  case inet =>
    simp only [readBasic, Option.bind_eq_bind, Option.bind_eq_some_iff] at h
    obtain ⟨⟨isV6, s⟩, -, h⟩ := h
    cases isV6 <;>
    · simp only [Bool.false_eq_true, if_true, if_false, Option.bind_eq_some_iff, Option.pure_def,
        Option.some.injEq, Prod.mk.injEq] at h
      obtain ⟨-, -, rfl, -⟩ := h
      rfl
  all_goals
    simp only [readBasic, Option.bind_eq_bind, Option.bind_eq_some_iff, Option.pure_def,
      Option.some.injEq, Prod.mk.injEq] at h
  case decimal =>
    obtain ⟨-, -, -, -, rfl, -⟩ := h
    rfl
  case duration =>
    obtain ⟨-, -, -, -, -, -, rfl, -⟩ := h
    rfl
  all_goals
    obtain ⟨-, -, rfl, -⟩ := h
    rfl

/-! ### The round trip -/

theorem canWrite_basic {v : ColumnValue} {dtype : Basic} (h : canWriteTypedBasic v dtype = true) :
    canWriteColumnValue v (.basic dtype) = true := by
  cases v <;> first | exact h | exact absurd h Bool.false_ne_true

theorem writeColumnValue_basic {v : ColumnValue} {dtype : Basic}
    (h : canWriteTypedBasic v dtype = true) :
    writeColumnValue (.basic dtype) v = some (writeTypedBasic v) := by
  rw [writeColumnValue.eq_def, if_pos (canWrite_basic h)]

theorem length_of_fieldsTyped : ∀ (ts : List Ty) (vs : List ColumnValue), FieldsTyped ts vs →
    vs.length = ts.length
  | [], [], _ => rfl
  | t :: ts, v :: vs, h => by
      rw [FieldsTyped] at h
      rw [List.length_cons, List.length_cons, length_of_fieldsTyped ts vs h.2]
  | [], _ :: _, h => by simp [FieldsTyped] at h
  | _ :: _, [], h => by simp [FieldsTyped] at h

mutual

theorem roundTrips_of_storedAs : ∀ (t : Ty) (v : ColumnValue), WellTyped t v → StoredAs t v →
    RoundTrips t v
  | .basic dtype, v, hw, hs => by
      rw [WellTyped] at hw
      rw [StoredAs] at hs
      refine ⟨_, writeColumnValue_basic hw.1, fun rest => ?_⟩
      rw [readColumnValue]
      exact readBasic_writeTypedBasic hw.2 hs rest
  | .list element _, .array vs, hw, hs => by
      rw [WellTyped] at hw
      rw [StoredAs] at hs
      obtain ⟨bytes, hwrite, hread⟩ := readMany_writeMany fun v hv =>
        roundTrips_of_storedAs element v (hw.2 v hv) (hs v hv)
      refine ⟨writeCount vs.length ++ bytes, ?_, fun rest => ?_⟩
      · simp [writeColumnValue, canWriteColumnValue, hwrite]
      · rw [readColumnValue, List.append_assoc, readCount_writeCount hw.1]
        simp [hread]
  | .set key _, .set vs, hw, hs => by
      rw [WellTyped] at hw
      rw [StoredAs] at hs
      obtain ⟨bytes, hwrite, hread⟩ := readMany_writeMany fun v hv =>
        roundTrips_of_storedAs key v (hw.2.1 v hv) (hs v hv)
      refine ⟨writeCount vs.length ++ bytes, ?_, fun rest => ?_⟩
      · simp [writeColumnValue, canWriteColumnValue, hwrite]
      · rw [readColumnValue, List.append_assoc, readCount_writeCount hw.1]
        simp [hread, @foldl_insertKey [] vs hw.2.2]
  | .map key value _, .map es, hw, hs => by
      rw [WellTyped] at hw
      rw [StoredAs] at hs
      obtain ⟨bytes, hwrite, hread⟩ := readMany_writeMany fun e he => readPair_writePair
        (roundTrips_of_storedAs key e.1 (hw.2.1 e he).1 (hs e he).1)
        (roundTrips_of_storedAs value e.2 (hw.2.1 e he).2 (hs e he).2)
      refine ⟨writeCount es.length ++ bytes, ?_, fun rest => ?_⟩
      · simp [writeColumnValue, canWriteColumnValue, hwrite]
      · rw [readColumnValue, List.append_assoc, readCount_writeCount hw.1]
        simp [hread, @foldl_insertEntry [] es hw.2.2]
  | .vector element count _, .array vs, hw, hs => by
      rw [WellTyped] at hw
      rw [StoredAs] at hs
      obtain ⟨bytes, hwrite, hread⟩ := readMany_writeMany fun v hv =>
        roundTrips_of_storedAs element v (hw.2 v hv) (hs v hv)
      refine ⟨bytes, ?_, fun rest => ?_⟩
      · simp [writeColumnValue, canWriteColumnValue, hwrite]
      · rw [readColumnValue, ← hw.1]
        simp [hread]
  | .tuple elements _, .array vs, hw, hs => by
      rw [WellTyped] at hw
      rw [StoredAs] at hs
      have hlen := length_of_fieldsTyped elements vs hw
      obtain ⟨bytes, hwrite, hread⟩ := payloads_roundTrip elements vs hw hs
        (nullMask elements.length vs) 0 (maskBit_nullMask hlen)
      refine ⟨writeMask (nullMask elements.length vs) ++ bytes, ?_, fun rest => ?_⟩
      · simp [writeColumnValue, canWriteColumnValue, hwrite]
      · rw [Nat.zero_add] at hread
        rw [readColumnValue, List.append_assoc, readMask_writeMask (length_nullMask _ vs)]
        simp [hread]
  | .udt _ _ _ fieldTypes, .array vs, hw, hs => by
      rw [WellTyped] at hw
      rw [StoredAs] at hs
      have hlen := length_of_fieldsTyped fieldTypes vs hw.2
      obtain ⟨bytes, hwrite, hread⟩ := payloads_roundTrip fieldTypes vs hw.2 hs
        (nullMask fieldTypes.length vs) 0 (maskBit_nullMask hlen)
      refine ⟨writeCount fieldTypes.length ++ (writeMask (nullMask fieldTypes.length vs) ++ bytes),
        ?_, fun rest => ?_⟩
      · simp [writeColumnValue, canWriteColumnValue, hwrite]
      · rw [Nat.zero_add] at hread
        rw [readColumnValue, List.append_assoc, List.append_assoc, readCount_writeCount hw.1]
        simp [readMask_writeMask (length_nullMask _ vs), hread]

theorem payloads_roundTrip : ∀ (ts : List Ty) (vs : List ColumnValue), FieldsTyped ts vs →
    FieldsStored ts vs → ∀ (mask : List (BitVec 64)) (i : Nat),
    (∀ j, maskBit mask (i + j) = (vs[j]?).any (!·.isNull)) →
    ∃ bytes, writeMaskedPayloads ts vs mask i = some bytes ∧
      ∀ rest, readMaskedPayloads ts (i + ts.length) mask i (bytes ++ rest) = some (vs, rest)
  | [], [], _, _, mask, i, _ => ⟨[], by rw [writeMaskedPayloads.eq_def], fun rest => by
      rw [readMaskedPayloads.eq_def]
      rfl⟩
  | t :: ts, v :: vs, hw, hs, mask, i, hmask => by
      rw [FieldsTyped] at hw
      rw [FieldsStored] at hs
      obtain ⟨back, hback, hreadBack⟩ := payloads_roundTrip ts vs hw.2 hs.2 mask (i + 1) fun j => by
        have := hmask (j + 1)
        rwa [List.getElem?_cons_succ, ← Nat.add_assoc, Nat.add_right_comm] at this
      have hbit : maskBit mask i = !v.isNull := by simpa using hmask 0
      have hcount : i + (t :: ts).length = i + 1 + ts.length := by
        rw [List.length_cons]
        omega
      rw [hcount]
      by_cases hv : v = .null
      · subst hv
        refine ⟨back, ?_, fun rest => ?_⟩
        · simp [writeMaskedPayloads, hbit, ColumnValue.isNull, hback]
        · rw [readMaskedPayloads, if_pos (by omega), hbit]
          simp [ColumnValue.isNull, hreadBack]
      · obtain ⟨front, hfront, hread⟩ :=
          roundTrips_of_storedAs t v (hw.1.resolve_left hv) (hs.1.resolve_left hv)
        have hbit : maskBit mask i = true := by
          rw [hbit]
          cases v <;> first | rfl | exact absurd rfl hv
        refine ⟨front ++ back, ?_, fun rest => ?_⟩
        · simp [writeMaskedPayloads, hbit, hfront, hback]
        · rw [readMaskedPayloads, if_pos (by omega), if_pos hbit, List.append_assoc, hread]
          simp [hreadBack]

end

/-! ### What the reader builds -/

theorem fieldsStored_null : ∀ ts : List Ty, FieldsStored ts (List.replicate ts.length .null)
  | [] => by simp [FieldsStored]
  | _ :: ts => by simp [FieldsStored, List.replicate_succ, fieldsStored_null ts]

mutual

theorem storedAs_of_read : ∀ (t : Ty) {s rest : Bytes} {v : ColumnValue},
    readColumnValue t s = some (v, rest) → StoredAs t v
  | .basic dtype, s, rest, v, h => by
      rw [readColumnValue] at h
      rw [StoredAs]
      exact storedVariant_of_readBasic h
  | .list element _, s, rest, v, h => by
      simp only [readColumnValue, Option.bind_eq_bind, Option.bind_eq_some_iff] at h
      obtain ⟨_, -, ⟨vs, _⟩, hvs, h⟩ := h
      obtain ⟨rfl, rfl⟩ := Prod.mk.inj (Option.some.inj h)
      rw [StoredAs]
      exact readMany_forall (fun _ _ _ => storedAs_of_read element) hvs
  | .set key _, s, rest, v, h => by
      simp only [readColumnValue, Option.bind_eq_bind, Option.bind_eq_some_iff] at h
      obtain ⟨_, -, ⟨vs, _⟩, hvs, h⟩ := h
      obtain ⟨rfl, rfl⟩ := Prod.mk.inj (Option.some.inj h)
      rw [StoredAs]
      exact forall_mem_foldl_insertKey (by simp)
        (readMany_forall (fun _ _ _ => storedAs_of_read key) hvs)
  | .map key value _, s, rest, v, h => by
      simp only [readColumnValue, Option.bind_eq_bind, Option.bind_eq_some_iff] at h
      obtain ⟨_, -, ⟨es, _⟩, hes, h⟩ := h
      obtain ⟨rfl, rfl⟩ := Prod.mk.inj (Option.some.inj h)
      rw [StoredAs]
      exact forall_mem_foldl_insertEntry (by simp) (readMany_forall (fun _ _ _ =>
        readPair_forall (fun _ _ _ => storedAs_of_read key) fun _ _ _ => storedAs_of_read value) hes)
  | .vector element count _, s, rest, v, h => by
      simp only [readColumnValue, Option.bind_eq_bind, Option.bind_eq_some_iff] at h
      obtain ⟨⟨vs, _⟩, hvs, h⟩ := h
      obtain ⟨rfl, rfl⟩ := Prod.mk.inj (Option.some.inj h)
      rw [StoredAs]
      exact readMany_forall (fun _ _ _ => storedAs_of_read element) hvs
  | .tuple elements _, s, rest, v, h => by
      simp only [readColumnValue, Option.bind_eq_bind, Option.bind_eq_some_iff] at h
      obtain ⟨_, -, ⟨vs, _⟩, hvs, h⟩ := h
      obtain ⟨rfl, rfl⟩ := Prod.mk.inj (Option.some.inj h)
      rw [StoredAs]
      simpa using fieldsStored_of_read elements (Nat.zero_le _) (by omega) hvs
  | .udt _ _ _ fieldTypes, s, rest, v, h => by
      simp only [readColumnValue, Option.bind_eq_bind, Option.bind_eq_some_iff] at h
      obtain ⟨⟨written, _⟩, -, h⟩ := h
      split at h
      · obtain ⟨⟨mask, _⟩, -, h⟩ := Option.bind_eq_some_iff.mp h
        obtain ⟨⟨vs, _⟩, hvs, h⟩ := Option.bind_eq_some_iff.mp h
        obtain ⟨rfl, rfl⟩ := Prod.mk.inj (Option.some.inj h)
        rw [StoredAs]
        simpa using fieldsStored_of_read fieldTypes (Nat.zero_le _) (by omega) hvs
      · simp at h

/-- The fields read, and nulls for the fields the type has beyond the written count. -/
theorem fieldsStored_of_read : ∀ (ts : List Ty) {count i : Nat} {mask : List (BitVec 64)}
    {s rest : Bytes} {vs : List ColumnValue}, i ≤ count → count ≤ i + ts.length →
    readMaskedPayloads ts count mask i s = some (vs, rest) →
    FieldsStored ts (vs ++ List.replicate (i + ts.length - count) .null)
  | [], count, i, mask, s, rest, vs, hi, hcount, h => by
      rw [readMaskedPayloads] at h
      obtain ⟨rfl, rfl⟩ := Prod.mk.inj (Option.some.inj h)
      rw [List.length_nil] at hcount
      rw [List.length_nil, show i + 0 - count = 0 by omega]
      exact fieldsStored_null []
  | t :: ts, count, i, mask, s, rest, vs, hi, hcount, h => by
      rw [readMaskedPayloads] at h
      rw [List.length_cons] at hcount
      split at h
      · rw [List.length_cons, show i + (ts.length + 1) = i + 1 + ts.length by omega]
        cases hbit : maskBit mask i
        · rw [hbit, if_neg Bool.false_ne_true] at h
          obtain ⟨⟨v, _⟩, hv, h⟩ := Option.bind_eq_some_iff.mp h
          obtain ⟨rfl, rfl⟩ := Prod.mk.inj (Option.some.inj hv)
          obtain ⟨⟨vs, _⟩, hvs, h⟩ := Option.bind_eq_some_iff.mp h
          obtain ⟨rfl, rfl⟩ := Prod.mk.inj (Option.some.inj h)
          rw [List.cons_append, FieldsStored]
          exact ⟨.inl rfl, fieldsStored_of_read ts (by omega) (by omega) hvs⟩
        · rw [hbit, if_pos rfl] at h
          obtain ⟨⟨v, _⟩, hv, h⟩ := Option.bind_eq_some_iff.mp h
          obtain ⟨⟨vs, _⟩, hvs, h⟩ := Option.bind_eq_some_iff.mp h
          obtain ⟨rfl, rfl⟩ := Prod.mk.inj (Option.some.inj h)
          rw [List.cons_append, FieldsStored]
          exact ⟨.inr (storedAs_of_read t hv), fieldsStored_of_read ts (by omega) (by omega) hvs⟩
      · obtain ⟨rfl, rfl⟩ := Prod.mk.inj (Option.some.inj h)
        rw [show i + (t :: ts).length - count = (t :: ts).length by omega]
        exact fieldsStored_null (t :: ts)

end

/-- The codec gives back a well-typed value exactly when its native values are of the variants the
reader builds. -/
theorem roundTrips_iff_storedAs (t : Ty) (v : ColumnValue) (h : WellTyped t v) :
    RoundTrips t v ↔ StoredAs t v := by
  constructor
  · rintro ⟨bytes, -, hread⟩
    exact storedAs_of_read t (hread [])
  · exact roundTrips_of_storedAs t v h

/-- A UDT with a null field, a set of two texts and a map of lists. -/
theorem roundTrips_udt :
    RoundTrips
      (.udt (ascii "ks") (ascii "person") [ascii "age", ascii "tags", ascii "scores"]
        [.basic .int, .set (.basic .text) true, .map (.basic .ascii) (.list (.basic .float) true) true])
      (.array [.null, .set [.text (ascii "a"), .text (ascii "b")],
        .map [(.text (ascii "k"), .array [.f32 0, .f32 1])]]) := by
  refine (roundTrips_iff_storedAs _ _ ?_).mpr ?_
  · simp [WellTyped, FieldsTyped, canWriteTypedBasic, Representable, ColumnValue.beq]
    decide
  · simp [StoredAs, FieldsStored, storedVariant]

/-- `INSERT` of the literal's own `S64` into a `smallint` column: eight bytes are written and two
are read. -/
theorem smallint_s64_not_roundTrips :
    WellTyped (.basic .smallint) (.s64 7) ∧ ¬ RoundTrips (.basic .smallint) (.s64 7) := by
  refine ⟨⟨rfl, trivial⟩, ?_⟩
  rintro ⟨bytes, -, hread⟩
  have h := storedAs_of_read _ (hread [])
  rw [StoredAs] at h
  exact absurd h Bool.false_ne_true

end Plexdb.Cql
