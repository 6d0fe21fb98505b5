import Plexdb.Wire

/-! Column types and column values (`cql/engine/types.cppm`, `cql/engine/column_value.cppm`).
Integers and floats are their raw bits. A `DynamicSet` or `DynamicMap` is the list of its entries
in iteration order: the hash layout only decides that order, and every order is a value here. -/

namespace Plexdb.Cql

/-! ### Types -/

inductive Basic where
  | ascii | bigint | blob | boolean | counter | date | decimal | double | duration | float | inet
  | int | smallint | text | time | timestamp | timeuuid | tinyint | uuid | varchar | varint | hex
  deriving DecidableEq, Repr

/-- `type::Type`. A user type is held with its definition. -/
inductive Ty where
  | basic (b : Basic)
  | list (element : Ty) (frozen : Bool)
  | set (key : Ty) (frozen : Bool)
  | map (key value : Ty) (frozen : Bool)
  | vector (element : Ty) (count : UInt64) (frozen : Bool)
  | tuple (elements : List Ty) (frozen : Bool)
  | udt (keyspace name : Bytes) (fieldNames : List Bytes) (fieldTypes : List Ty)

@[induction_eliminator]
theorem Ty.induct {P : Ty → Prop} (basic : ∀ b, P (.basic b)) (list : ∀ e frozen, P e → P (.list e frozen))
    (set : ∀ k frozen, P k → P (.set k frozen)) (map : ∀ k v frozen, P k → P v → P (.map k v frozen))
    (vector : ∀ e count frozen, P e → P (.vector e count frozen))
    (tuple : ∀ es frozen, (∀ e ∈ es, P e) → P (.tuple es frozen))
    (udt : ∀ keyspace name names ts, (∀ t ∈ ts, P t) → P (.udt keyspace name names ts)) (t : Ty) : P t :=
  @Ty.rec P (fun es => ∀ e ∈ es, P e) basic list set map vector tuple udt
    (List.forall_mem_nil _) (fun _ _ ht hts => List.forall_mem_cons.mpr ⟨ht, hts⟩) t

/-! ### Values -/

/-- A byte array of fixed length. -/
def Raw (n : Nat) := { bytes : Bytes // bytes.length = n }

instance (n : Nat) : DecidableEq (Raw n) := inferInstanceAs (DecidableEq { _bytes : Bytes // _ })

inductive Inet where
  | v4 (bytes : Raw 4)
  | v6 (bytes : Raw 16)
  deriving DecidableEq

structure VarInt where
  negative : Bool
  magnitude : Bytes
  deriving DecidableEq

structure Decimal where
  scale : BitVec 32
  unscaled : VarInt
  deriving DecidableEq

structure Duration where
  months : BitVec 32
  days : BitVec 32
  nanoseconds : BitVec 64
  deriving DecidableEq

inductive ColumnValue where
  | text (bytes : Bytes)
  | s64 (bits : BitVec 64)
  | s32 (bits : BitVec 32)
  | s16 (bits : BitVec 16)
  | u8 (bits : BitVec 8)
  | f64 (bits : BitVec 64)
  | f32 (bits : BitVec 32)
  | blob (bytes : Bytes)
  | uuid (bytes : Raw 16)
  | inet (address : Inet)
  | varint (value : VarInt)
  | decimal (value : Decimal)
  | duration (value : Duration)
  | array (elements : List ColumnValue)
  | set (keys : List ColumnValue)
  | map (entries : List (ColumnValue × ColumnValue))
  | null

/-! ### Equality -/

/-- IEEE equality of floats with `exp` exponent and `man` mantissa bits: a NaN differs from
everything, and the two zeros are equal. -/
def floatEq (exp man : Nat) (a b : BitVec (1 + exp + man)) : Bool :=
  let isNaN (x : BitVec (1 + exp + man)) : Bool :=
    x.toNat / 2 ^ man % 2 ^ exp == 2 ^ exp - 1 && x.toNat % 2 ^ man != 0
  let isZero (x : BitVec (1 + exp + man)) : Bool := x.toNat % 2 ^ (exp + man) == 0
  !isNaN a && !isNaN b && (a == b || (isZero a && isZero b))

theorem sizeOf_entry (e : ColumnValue × ColumnValue) :
    sizeOf e.1 < sizeOf e ∧ sizeOf e.2 < sizeOf e := by
  obtain ⟨k, v⟩ := e
  simp only [Prod.mk.sizeOf_spec]
  omega

/-- `operator==(NestedColumnValue, NestedColumnValue)`. A key is searched among all entries, not
in one hash slot. -/
def ColumnValue.beq : ColumnValue → ColumnValue → Bool
  | .null, .null => true
  | .text a, .text b => a == b
  | .s64 a, .s64 b => a == b
  | .s32 a, .s32 b => a == b
  | .s16 a, .s16 b => a == b
  | .u8 a, .u8 b => a == b
  | .f64 a, .f64 b => floatEq 11 52 a b
  | .f32 a, .f32 b => floatEq 8 23 a b
  | .blob a, .blob b => a == b
  | .uuid a, .uuid b => a == b
  | .inet a, .inet b => a == b
  | .varint a, .varint b => a == b
  | .decimal a, .decimal b => a == b
  | .duration a, .duration b => a == b
  | .array as, .array bs =>
      as.length == bs.length &&
        (as.zip bs).attach.all fun ⟨(a, b), h⟩ =>
          have := List.sizeOf_lt_of_mem (List.of_mem_zip h).1
          have := List.sizeOf_lt_of_mem (List.of_mem_zip h).2
          ColumnValue.beq a b
  | .set as, .set bs =>
      as.length == bs.length &&
        as.attach.all fun ⟨a, ha⟩ => bs.attach.any fun ⟨b, hb⟩ =>
          have := List.sizeOf_lt_of_mem ha
          have := List.sizeOf_lt_of_mem hb
          ColumnValue.beq b a
  | .map as, .map bs =>
      as.length == bs.length &&
        as.attach.all fun ⟨a, ha⟩ =>
          -- `find` returns the first entry whose key is equal
          match bs.attach.find? fun ⟨b, hb⟩ =>
            have := List.sizeOf_lt_of_mem ha
            have := List.sizeOf_lt_of_mem hb
            ColumnValue.beq b.1 a.1 with
          | none => false
          | some ⟨b, hb⟩ =>
              have := List.sizeOf_lt_of_mem ha
              have := List.sizeOf_lt_of_mem hb
              ColumnValue.beq b.2 a.2
  | _, _ => false
  termination_by a b => sizeOf a + sizeOf b
  decreasing_by
    · simp_all only [ColumnValue.array.sizeOf_spec]
      omega
    · simp_all only [ColumnValue.set.sizeOf_spec]
      omega
    · have := sizeOf_entry a
      have := sizeOf_entry b
      simp_all only [ColumnValue.map.sizeOf_spec]
      omega
    · have := sizeOf_entry a
      have := sizeOf_entry b
      simp_all only [ColumnValue.map.sizeOf_spec]
      omega

end Plexdb.Cql
