import Plexdb.ColumnSync

/-! Default values (`write_default_column_value` of `cql/engine/io.codec.cpp` and of the generated
`io_codec_wire.cpp`), and when they are read and skipped as they were written. -/

namespace Plexdb.Cql

open Wire

/-! ### The default writer -/

/-- `write_default_column_value` on a native type. -/
def writeDefaultBasic : Basic → Bytes
  | .smallint => writeRaw 2 0
  | .int | .date => writeRaw 4 0
  | .bigint | .timestamp | .counter | .time => writeRaw 8 0
  | .tinyint | .boolean => writeRaw 1 0
  | .float => writeRaw 4 0
  | .double => writeRaw 8 0
  | .text | .varchar | .ascii => writeCount 0
  | .blob | .hex => writeCount 0
  | .uuid | .timeuuid => List.replicate 16 0
  | .inet => 0 :: List.replicate 4 0
  | .varint => 0 :: writeCount 0
  | .decimal => writeRaw 4 0 ++ 0 :: writeCount 0
  | .duration => writeRaw 4 0 ++ (writeRaw 4 0 ++ writeRaw 8 0)

/-- `write_empty_mask`. -/
def writeEmptyMask (count : Nat) : Bytes := (List.replicate (maskWords count) (writeRaw 8 0)).flatten

/-- `write_default_column_value`. Lists, sets, maps and vectors share the last branch. -/
def writeDefaultColumnValue : Ty → Bytes
  | .basic dtype => writeDefaultBasic dtype
  | .tuple elements _ => writeEmptyMask elements.length
  | .udt _ _ _ fieldTypes => writeCount fieldTypes.length ++ writeEmptyMask fieldTypes.length
  | .list .. | .set .. | .map .. | .vector .. => writeCount 0

/-- The default of a type is read and skipped exactly, whatever follows it. -/
def DefaultConsumed (t : Ty) : Prop :=
  (∃ v, ∀ rest, readColumnValue t (writeDefaultColumnValue t ++ rest) = some (v, rest)) ∧
    ∀ rest, skipColumnValue t (writeDefaultColumnValue t ++ rest) = some rest

/-! ### Reading zero bytes -/

def zeros (n : Nat) : Bytes := List.replicate n 0

theorem zeros_add (m n : Nat) : zeros (m + n) = zeros m ++ zeros n := List.replicate_add ..

/-- The number of zero bytes that a value of a type is read from. -/
def zeroWidth : Ty → Nat
  | .basic dtype => (writeDefaultBasic dtype).length
  | .tuple elements _ => 8 * maskWords elements.length
  | .vector element count _ => count.toNat * zeroWidth element
  | .list .. | .set .. | .map .. | .udt .. => 8

/-- A reader that reads one value from `width` zero bytes. -/
def ReadsZeros {α : Type} (read : Reader α) (width : Nat) : Prop :=
  ∃ a, ∀ rest, read (zeros width ++ rest) = some (a, rest)

theorem ReadsZeros.of_fronts {α : Type} {read : Reader α} {width : Nat} {a : α} (h : Fronts read)
    (hread : read (zeros width) = some (a, [])) : ReadsZeros read width := by
  obtain ⟨front, hfront, htail⟩ := h _ _ _ hread
  rw [List.append_nil] at hfront
  exact ⟨a, fun rest => by rw [hfront, htail]⟩

theorem ReadsZeros.many {α : Type} {read : Reader α} {width : Nat} {a : α}
    (h : ∀ rest, read (zeros width ++ rest) = some (a, rest)) (n : Nat) (rest : Bytes) :
    readMany read n (zeros (n * width) ++ rest) = some (List.replicate n a, rest) := by
  induction n with
  | zero =>
      rw [Nat.zero_mul]
      rfl
  | succ n ih =>
      rw [Nat.succ_mul, Nat.add_comm (n * width), zeros_add, List.append_assoc, readMany, h]
      simp only [Option.bind_eq_bind, Option.bind_some, ih]
      rfl

theorem readRaw_zeros (rest : Bytes) : readRaw 8 (zeros 8 ++ rest) = some (0, rest) :=
  readRaw_writeRaw 8 0 rest

theorem readCount_zeros (rest : Bytes) : readCount (zeros 8 ++ rest) = some (0, rest) :=
  readCount_writeCount (n := 0) (by decide) rest

theorem readMask_zeros (count : Nat) (rest : Bytes) :
    readMask count (zeros (8 * maskWords count) ++ rest) = some (List.replicate (maskWords count) 0, rest) := by
  rw [Nat.mul_comm]
  exact ReadsZeros.many readRaw_zeros (maskWords count) rest

theorem maskBit_replicate (words i : Nat) : maskBit (List.replicate words 0) i = false := by
  have hword : (List.replicate words (0 : BitVec 64)).getD (i / 64) 0 = 0 := by
    simp [List.getD_eq_getElem?_getD, List.getElem?_replicate]
    split_ifs <;> rfl
  rw [maskBit, hword]
  simp

/-- A mask without bits reads nothing but nulls. -/
theorem readMaskedPayloads_replicate (ts : List Ty) (count words i : Nat) :
    ∃ vs, ∀ s, readMaskedPayloads ts count (List.replicate words 0) i s = some (vs, s) := by
  induction ts generalizing i with
  | nil => exact ⟨[], fun s => by rw [readMaskedPayloads]⟩
  | cons t ts ih =>
      by_cases hlt : i < count
      · obtain ⟨vs, hvs⟩ := ih (i + 1)
        refine ⟨.null :: vs, fun s => ?_⟩
        rw [readMaskedPayloads, if_pos hlt, maskBit_replicate, if_neg Bool.false_ne_true]
        simp only [Option.bind_eq_bind, Option.bind_some, hvs]
        rfl
      · exact ⟨[], fun s => by rw [readMaskedPayloads, if_neg hlt]⟩

theorem writeDefaultBasic_eq (dtype : Basic) : writeDefaultBasic dtype = zeros (writeDefaultBasic dtype).length := by
  cases dtype <;> rfl

theorem readsZeros_basic (dtype : Basic) : ReadsZeros (readBasic dtype) (writeDefaultBasic dtype).length := by
  refine ReadsZeros.of_fronts (Fronts.basic dtype) (a := ((readBasic dtype (writeDefaultBasic dtype)).get ?_).1) ?_
  · cases dtype <;> rfl
  · rw [← writeDefaultBasic_eq]
    cases dtype <;> rfl

theorem readsZeros_columnValue (t : Ty) : ReadsZeros (readColumnValue t) (zeroWidth t) := by
  induction t with
  | basic dtype =>
      obtain ⟨v, hv⟩ := readsZeros_basic dtype
      exact ⟨v, fun rest => by rw [readColumnValue, zeroWidth, hv]⟩
  | list e frozen =>
      refine ⟨.array [], fun rest => ?_⟩
      rw [readColumnValue, zeroWidth, readCount_zeros]
      rfl
  | set k frozen =>
      refine ⟨.set [], fun rest => ?_⟩
      rw [readColumnValue, zeroWidth, readCount_zeros]
      rfl
  | map k v frozen =>
      refine ⟨.map [], fun rest => ?_⟩
      rw [readColumnValue, zeroWidth, readCount_zeros]
      rfl
  | vector e count frozen ih =>
      obtain ⟨v, hv⟩ := ih
      refine ⟨.array (List.replicate count.toNat v), fun rest => ?_⟩
      rw [readColumnValue, zeroWidth, ReadsZeros.many hv]
      rfl
  | tuple es frozen =>
      obtain ⟨vs, hvs⟩ := readMaskedPayloads_replicate es es.length (maskWords es.length) 0
      refine ⟨.array vs, fun rest => ?_⟩
      rw [readColumnValue, zeroWidth, readMask_zeros]
      simp only [Option.bind_eq_bind, Option.bind_some, hvs]
      rfl
  | udt keyspace name names ts =>
      obtain ⟨vs, hvs⟩ := readMaskedPayloads_replicate ts 0 (maskWords 0) 0
      refine ⟨.array (vs ++ List.replicate ts.length .null), fun rest => ?_⟩
      have hmask := readMask_zeros 0 rest
      rw [show zeros (8 * maskWords 0) ++ rest = rest from rfl] at hmask
      rw [readColumnValue, zeroWidth, readCount_zeros]
      simp only [Option.bind_eq_bind, Option.bind_some, Nat.zero_le, if_true, hmask, hvs, Nat.sub_zero]
      rfl

/-! ### When the default is consumed -/

theorem writeEmptyMask_eq (count : Nat) : writeEmptyMask count = zeros (8 * maskWords count) := by
  unfold writeEmptyMask zeros
  induction maskWords count with
  | zero => rfl
  | succ n ih =>
      rw [List.replicate_succ, List.flatten_cons, ih, show 8 * (n + 1) = 8 + 8 * n by omega,
        List.replicate_add]
      rfl

/-- A default that reads back is skipped too. -/
theorem DefaultConsumed.of_read {t : Ty} {v : ColumnValue}
    (h : ∀ rest, readColumnValue t (writeDefaultColumnValue t ++ rest) = some (v, rest)) : DefaultConsumed t :=
  ⟨⟨v, h⟩, fun rest => skips_columnValue t _ _ _ (h rest)⟩

/-- A default of as many zero bytes as the type takes is consumed. -/
theorem DefaultConsumed.of_zeros {t : Ty} (h : writeDefaultColumnValue t = zeros (zeroWidth t)) :
    DefaultConsumed t := by
  obtain ⟨v, hv⟩ := readsZeros_columnValue t
  refine DefaultConsumed.of_read (v := v) fun rest => ?_
  rw [h, hv]

/-- The field types of a user type; their number is a `U64`. -/
def Ty.fieldTypes : Ty → List Ty
  | .udt _ _ _ fieldTypes => fieldTypes
  | _ => []

theorem defaultConsumed_udt {keyspace name : Bytes} {names : List Bytes} {ts : List Ty} (h : ts.length < 2 ^ 64) :
    DefaultConsumed (.udt keyspace name names ts) := by
  obtain ⟨vs, hvs⟩ := readMaskedPayloads_replicate ts ts.length (maskWords ts.length) 0
  refine DefaultConsumed.of_read (v := .array (vs ++ [])) fun rest => ?_
  rw [writeDefaultColumnValue, writeEmptyMask_eq, List.append_assoc, readColumnValue, readCount_writeCount h]
  simp only [Option.bind_eq_bind, Option.bind_some, Nat.le_refl, if_true, readMask_zeros, hvs, Nat.sub_self,
    List.replicate_zero]
  rfl

/-- A vector has no count in front of its elements: the eight bytes of its default are elements. -/
theorem defaultConsumed_vector_iff {e : Ty} {count : UInt64} {frozen : Bool} :
    DefaultConsumed (.vector e count frozen) ↔ count.toNat * zeroWidth e = 8 := by
  constructor
  · rintro ⟨⟨v, hv⟩, -⟩
    obtain ⟨w, hw⟩ := readsZeros_columnValue (.vector e count frozen)
    have hread := hv (zeros (zeroWidth (.vector e count frozen)))
    have hzeros := hw (zeros 8)
    rw [← zeros_add, Nat.add_comm, zeros_add] at hzeros
    have heq := hread.symm.trans hzeros
    have hlength := congrArg List.length (Prod.mk.inj (Option.some.inj heq)).2
    rw [zeros, zeros, List.length_replicate, List.length_replicate, zeroWidth] at hlength
    exact hlength
  · intro h
    refine DefaultConsumed.of_zeros ?_
    rw [zeroWidth, h]
    rfl

/-- A type is not a vector, or the zero elements of the vector take eight bytes. -/
def DefaultFits : Ty → Prop
  | .vector element count _ => count.toNat * zeroWidth element = 8
  | _ => True

instance : DecidablePred DefaultFits
  | .vector element count _ => inferInstanceAs (Decidable (count.toNat * zeroWidth element = 8))
  | .basic _ | .list .. | .set .. | .map .. | .tuple .. | .udt .. => inferInstanceAs (Decidable True)

/-- The default of a type is read and skipped exactly when the type is no vector or its zero elements take
eight bytes. -/
theorem defaultConsumed_iff {t : Ty} (h : t.fieldTypes.length < 2 ^ 64) : DefaultConsumed t ↔ DefaultFits t := by
  cases t with
  | basic dtype => exact iff_of_true (DefaultConsumed.of_zeros (writeDefaultBasic_eq dtype)) trivial
  | list e frozen => exact iff_of_true (DefaultConsumed.of_zeros rfl) trivial
  | set k frozen => exact iff_of_true (DefaultConsumed.of_zeros rfl) trivial
  | map k v frozen => exact iff_of_true (DefaultConsumed.of_zeros rfl) trivial
  | vector e count frozen => exact defaultConsumed_vector_iff
  | tuple es frozen => exact iff_of_true (DefaultConsumed.of_zeros (writeEmptyMask_eq es.length)) trivial
  | udt keyspace name names ts => exact iff_of_true (defaultConsumed_udt h) trivial

/-- A list of bytes. -/
theorem defaultConsumed_iff_list :
    DefaultConsumed (.list (.basic .tinyint) false) ↔ DefaultFits (.list (.basic .tinyint) false) :=
  defaultConsumed_iff (by decide)

/-- The default of a vector of three ints has eight bytes, and its elements take twelve. -/
theorem default_of_int_vector : ¬ DefaultConsumed (.vector (.basic .int) 3 false) := by
  rintro ⟨⟨v, hv⟩, -⟩
  have hread := hv []
  rw [readColumnValue] at hread
  cases hread

end Plexdb.Cql
