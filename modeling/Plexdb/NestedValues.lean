import Plexdb.Buckets
import Plexdb.ColumnEquality
import Plexdb.XxHash

/-! Column values inside collections (`NestedColumnValue` of `cql/engine/column_value.cpp`), with the hash tables that
their sets and maps are, their equality and their hash. `erase` forgets the slots of the tables. -/

namespace Plexdb.Cql

open Wire Buckets

/-! ### Values -/

/-- A value of `ColumnValueBasicTypes`. -/
def BasicValue := { v : ColumnValue // isNative v = true }

inductive NestedColumnValue where
  | null
  | basic (value : BasicValue)
  | array (elements : List NestedColumnValue)
  | set (slots : List (List NestedColumnValue))
  | map (slots : List (List (NestedColumnValue × NestedColumnValue)))

theorem sizeOf_lt_of_mem_flatten {α : Type} [SizeOf α] {a : α} {slots : List (List α)} (h : a ∈ slots.flatten) :
    sizeOf a < sizeOf slots := by
  obtain ⟨bucket, hbucket, ha⟩ := List.mem_flatten.mp h
  exact (List.sizeOf_lt_of_mem ha).trans (List.sizeOf_lt_of_mem hbucket)

theorem sizeOf_nested_entry (e : NestedColumnValue × NestedColumnValue) : sizeOf e.1 < sizeOf e ∧ sizeOf e.2 < sizeOf e := by
  obtain ⟨k, v⟩ := e
  simp only [Prod.mk.sizeOf_spec]
  omega

/-! ### The hash -/

/-- `hash(U64)`. -/
def hashWord (x : UInt64) : UInt64 := 1 + x

def mixHash (h x : UInt64) : UInt64 :=
  let h := (h ^^^ x) * 0x9e3779b97f4a7c15
  h ^^^ (h >>> 32)

/-- The bytes of a float of `n` bytes, with both zeros as the positive one. -/
def normalizedBytes (n exp man : Nat) (x : BitVec (1 + exp + man)) : Bytes :=
  if x.toNat % 2 ^ (exp + man) = 0 then leBytes n 0 else leBytes n x.toNat

def hashVarInt (value : VarInt) : UInt64 := hashString value.magnitude ^^^ (if value.negative then 1 else 0)

/-- `hash` on a value of `ColumnValueBasicTypes`. -/
def hashBasic : ColumnValue → UInt64
  | .text bytes => hashString bytes
  | .s64 bits => hashWord (UInt64.ofBitVec bits)
  | .s32 bits => hashWord (UInt64.ofBitVec (bits.signExtend 64))
  | .s16 bits => hashWord (UInt64.ofBitVec (bits.signExtend 64))
  | .u8 bits => hashWord (UInt64.ofBitVec (bits.setWidth 64))
  | .f64 bits => hashString (normalizedBytes 8 11 52 bits)
  | .f32 bits => hashString (normalizedBytes 4 8 23 bits)
  | .blob bytes => hashString bytes
  | .uuid bytes => hashString bytes.val
  | .inet (.v4 bytes) => hashString bytes.val
  | .inet (.v6 bytes) => hashString bytes.val
  | .varint value => hashVarInt value
  | .decimal value => hashVarInt value.unscaled ^^^ hashString (writeRaw 4 value.scale)
  | .duration value =>
      hashString (writeRaw 4 value.months ++ (writeRaw 4 value.days ++ writeRaw 8 value.nanoseconds))
  | .array _ | .set _ | .map _ | .null => 0

namespace NestedColumnValue

/-- `hash(const NestedColumnValue&)`. Sets and maps add up the hashes of their entries. -/
def hash : NestedColumnValue → UInt64
  | .null => 0x9e3779b97f4a7c15
  | .basic v => hashBasic v.1
  | .array elements =>
      elements.attach.foldl (fun h el =>
        have := List.sizeOf_lt_of_mem el.2
        mixHash h (hash el.1)) 1
  | .set slots =>
      slots.flatten.attach.foldl (fun h key =>
        have := sizeOf_lt_of_mem_flatten key.2
        h + mixHash 2 (hash key.1)) 2
  | .map slots =>
      slots.flatten.attach.foldl (fun h entry =>
        have := sizeOf_lt_of_mem_flatten entry.2
        h + mixHash 3 (mixHash (hash entry.1.1) (hash entry.1.2))) 3
  termination_by v => sizeOf v
  decreasing_by
    · simp_all only [NestedColumnValue.array.sizeOf_spec]
      omega
    · simp_all only [NestedColumnValue.set.sizeOf_spec]
      omega
    · have := sizeOf_nested_entry entry.1
      simp_all only [NestedColumnValue.map.sizeOf_spec]
      omega
    · have := sizeOf_nested_entry entry.1
      simp_all only [NestedColumnValue.map.sizeOf_spec]
      omega

/-! ### Equality -/

/-- The bucket that a key belongs to. -/
def bucketOf {γ : Type} (slots : List (List γ)) (key : NestedColumnValue) : List γ :=
  slots.getD (slotOf hash slots.length key) []

theorem mem_flatten_of_mem_bucketOf {γ : Type} {slots : List (List γ)} {key : NestedColumnValue} {e : γ}
    (h : e ∈ bucketOf slots key) : e ∈ slots.flatten := by
  unfold bucketOf at h
  rw [List.getD_eq_getElem?_getD] at h
  cases hslot : slots[slotOf hash slots.length key]? with
  | none =>
      rw [hslot] at h
      cases h
  | some bucket =>
      rw [hslot] at h
      exact List.mem_flatten.mpr ⟨bucket, List.mem_of_getElem? hslot, h⟩

/-- `operator==(const NestedColumnValue&, const NestedColumnValue&)`. A key of a set or a map is looked for in the
bucket of its hash. -/
def eq : NestedColumnValue → NestedColumnValue → Bool
  | .null, .null => true
  | .basic a, .basic b => ColumnValue.beq a.1 b.1
  | .array as, .array bs =>
      as.length == bs.length &&
        (as.zip bs).attach.all fun ⟨(a, b), h⟩ =>
          have := List.sizeOf_lt_of_mem (List.of_mem_zip h).1
          have := List.sizeOf_lt_of_mem (List.of_mem_zip h).2
          eq a b
  | .set as, .set bs =>
      as.flatten.length == bs.flatten.length &&
        as.flatten.attach.all fun a => ((bucketOf bs a.1).attach.find? fun b =>
          have := sizeOf_lt_of_mem_flatten a.2
          have := sizeOf_lt_of_mem_flatten (mem_flatten_of_mem_bucketOf b.2)
          eq b.1 a.1).isSome
  | .map as, .map bs =>
      as.flatten.length == bs.flatten.length &&
        as.flatten.attach.all fun a =>
          ((bucketOf bs a.1.1).attach.find? fun b =>
            have := sizeOf_lt_of_mem_flatten a.2
            have := sizeOf_lt_of_mem_flatten (mem_flatten_of_mem_bucketOf b.2)
            eq b.1.1 a.1.1).any fun b =>
              have := sizeOf_lt_of_mem_flatten a.2
              have := sizeOf_lt_of_mem_flatten (mem_flatten_of_mem_bucketOf b.2)
              eq b.1.2 a.1.2
  | _, _ => false
  termination_by a b => sizeOf a + sizeOf b
  decreasing_by
    · simp_all only [NestedColumnValue.array.sizeOf_spec]
      omega
    · simp_all only [NestedColumnValue.set.sizeOf_spec]
      omega
    · have := sizeOf_nested_entry a.1
      have := sizeOf_nested_entry b.1
      simp_all only [NestedColumnValue.map.sizeOf_spec]
      omega
    · have := sizeOf_nested_entry a.1
      have := sizeOf_nested_entry b.1
      simp_all only [NestedColumnValue.map.sizeOf_spec]
      omega

/-- The value with the entries of its sets and maps in the order of an iteration. -/
def erase : NestedColumnValue → ColumnValue
  | .null => .null
  | .basic v => v.1
  | .array elements =>
      .array (elements.attach.map fun el =>
        have := List.sizeOf_lt_of_mem el.2
        erase el.1)
  | .set slots =>
      .set (slots.flatten.attach.map fun key =>
        have := sizeOf_lt_of_mem_flatten key.2
        erase key.1)
  | .map slots =>
      .map (slots.flatten.attach.map fun entry =>
        have := sizeOf_lt_of_mem_flatten entry.2
        (erase entry.1.1, erase entry.1.2))
  termination_by v => sizeOf v
  decreasing_by
    · simp_all only [NestedColumnValue.array.sizeOf_spec]
      omega
    · simp_all only [NestedColumnValue.set.sizeOf_spec]
      omega
    · have := sizeOf_nested_entry entry.1
      simp_all only [NestedColumnValue.map.sizeOf_spec]
      omega
    · have := sizeOf_nested_entry entry.1
      simp_all only [NestedColumnValue.map.sizeOf_spec]
      omega

/-! ### The equations, over the operations of the tables -/

theorem hash_array (elements : List NestedColumnValue) :
    hash (.array elements) = elements.foldl (fun h el => mixHash h (hash el)) 1 := by
  simp only [hash]
  conv_rhs => rw [← List.foldl_attach]

theorem hash_set (slots : List (List NestedColumnValue)) :
    hash (.set slots) = slots.flatten.foldl (fun h key => h + mixHash 2 (hash key)) 2 := by
  simp only [hash]
  conv_rhs => rw [← List.foldl_attach]

theorem hash_map (slots : List (List (NestedColumnValue × NestedColumnValue))) :
    hash (.map slots) =
      slots.flatten.foldl (fun h entry => h + mixHash 3 (mixHash (hash entry.1) (hash entry.2))) 3 := by
  simp only [hash]
  conv_rhs => rw [← List.foldl_attach]

theorem eq_array (as bs : List NestedColumnValue) :
    eq (.array as) (.array bs) = (as.length == bs.length && (as.zip bs).all fun p => eq p.1 p.2) := by
  rw [eq]
  congr 1
  conv_rhs => rw [← List.attach_map_subtype_val (as.zip bs), List.all_map]
  rfl

theorem eq_set (as bs : List (List NestedColumnValue)) :
    eq (.set as) (.set bs) = (as.flatten.length == bs.flatten.length &&
      as.flatten.all fun a => (find hash eq id bs a).isSome) := by
  rw [eq]
  congr 1
  conv_rhs => rw [← List.attach_map_subtype_val as.flatten, List.all_map]
  refine congrArg (List.all _) (funext fun a => ?_)
  conv_rhs => rw [Function.comp_apply, find, ← find?_attach, Option.isSome_map]
  rfl

theorem eq_map (as bs : List (List (NestedColumnValue × NestedColumnValue))) :
    eq (.map as) (.map bs) = (as.flatten.length == bs.flatten.length &&
      as.flatten.all fun a => (find hash eq Prod.fst bs a.1).any fun b => eq b.2 a.2) := by
  rw [eq]
  congr 1
  conv_rhs => rw [← List.attach_map_subtype_val as.flatten, List.all_map]
  refine congrArg (List.all _) (funext fun a => ?_)
  conv_rhs => rw [Function.comp_apply, find, ← find?_attach, Option.any_map]
  rfl

theorem erase_array (elements : List NestedColumnValue) : erase (.array elements) = .array (elements.map erase) := by
  rw [erase]
  congr 1
  exact List.attach_map_val

theorem erase_set (slots : List (List NestedColumnValue)) :
    erase (.set slots) = .set (slots.flatten.map erase) := by
  rw [erase]
  congr 1
  exact List.attach_map_val

theorem erase_map (slots : List (List (NestedColumnValue × NestedColumnValue))) :
    erase (.map slots) = .map (slots.flatten.map fun entry => (erase entry.1, erase entry.2)) := by
  rw [erase]
  congr 1
  exact List.attach_map_val (f := fun entry : NestedColumnValue × NestedColumnValue => (erase entry.1, erase entry.2))

end NestedColumnValue

end Plexdb.Cql
