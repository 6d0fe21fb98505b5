import Plexdb.Acyclic
import Plexdb.TypeTree

/-! User types, the types that refer to them, and their serialization (`cql/engine/schema.types.cpp`,
and `type_references_udt` of `cql/engine/schema.cpp`). A `UDT*` is the position of the type in the
deque `Schema.udts`, which only grows. -/

namespace Plexdb.Cql

/-! ### Strings -/

/-- A string in memory. -/
abbrev String8 := { bytes : Bytes // bytes.length < 2 ^ 64 }

/-- `operator==(const char*, String8)`, which also compares a `String8` with a literal on its right:
it stops at the end of either and holds for every prefix of the literal. -/
def literalEq (literal : String) (s : String8) : Bool := s.val.isPrefixOf (ascii literal)

namespace Schema

open Wire

/-- `type::Type`. -/
abbrev Ty := TypeTree Nat

/-- `type::ast::UdtRef`. -/
structure UdtRef where
  keyspace : String8
  name : String8
  frozen : Bool
  deriving DecidableEq

/-- `type::ast::Type`; an array of elements fits in memory. -/
abbrev Ast := { t : TypeTree UdtRef // t.Sized }

/-- `type::UDT`. -/
structure Udt where
  keyspace : String8
  name : String8
  fieldNames : List String8
  fieldTypes : List Ty

/-- What a pointer into the deque points to; the deque holds every pointer ever taken. -/
def fieldTypesAt (udts : List Udt) (p : Nat) : List Ty := (udts[p]?.map Udt.fieldTypes).getD []

/-! ### Search for a user type -/

mutual

/-- The traversal of `type_references_udt`; `visit` answers for a pointer. -/
def typeReferences (visit : Nat → Option Bool) : Ty → Option Bool
  | .basic _ => some false
  | .list e _ => typeReferences visit e
  | .set k _ => typeReferences visit k
  | .map k v _ => do
      let found ← typeReferences visit k
      if found then some true else typeReferences visit v
  | .vector e _ _ => typeReferences visit e
  | .tuple es _ => typesReference visit es
  | .udt p => visit p

def typesReference (visit : Nat → Option Bool) : List Ty → Option Bool
  | [] => some false
  | t :: ts => do
      let found ← typeReferences visit t
      if found then some true else typesReference visit ts

end

/-- `type_references_udt` on a pointer, at most `fuel` pointers deep. -/
def udtReferences (udts : List Udt) (target : Nat) : Nat → Nat → Option Bool
  | 0, p => if p = target then some true else none
  | fuel + 1, p =>
      if p = target then some true
      else typesReference (udtReferences udts target fuel) (fieldTypesAt udts p)

/-- `type_references_udt`, or `none` when it does not return: as many pointers below each other as
there are user types repeat one of them. -/
def typeReferencesUdt (udts : List Udt) (t : Ty) (target : Nat) : Option Bool :=
  typeReferences (udtReferences udts target udts.length) t

/-! ### Expansion -/

mutual

/-- A type with the definitions of its user types written out, as the value codec walks it. -/
def expandWith (definition : Nat → Option Cql.Ty) : Ty → Option Cql.Ty
  | .basic b => some (.basic b)
  | .list e frozen => do
      let e ← expandWith definition e
      some (.list e frozen)
  | .set k frozen => do
      let k ← expandWith definition k
      some (.set k frozen)
  | .map k v frozen => do
      let k ← expandWith definition k
      let v ← expandWith definition v
      some (.map k v frozen)
  | .vector e count frozen => do
      let e ← expandWith definition e
      some (.vector e count frozen)
  | .tuple es frozen => do
      let es ← expandAllWith definition es
      some (.tuple es frozen)
  | .udt p => definition p

def expandAllWith (definition : Nat → Option Cql.Ty) : List Ty → Option (List Cql.Ty)
  | [] => some []
  | t :: ts => do
      let t ← expandWith definition t
      let ts ← expandAllWith definition ts
      some (t :: ts)

end

/-- The definition of a user type, at most `fuel` pointers deep. -/
def expandUdt (udts : List Udt) : Nat → Nat → Option Cql.Ty
  | 0, _ => none
  | fuel + 1, p => do
      let u ← udts[p]?
      let ts ← expandAllWith (expandUdt udts fuel) u.fieldTypes
      some (.udt u.keyspace.val u.name.val (u.fieldNames.map (·.val)) ts)

def expand (udts : List Udt) (t : Ty) : Option Cql.Ty := expandWith (expandUdt udts udts.length) t

/-! ### Serialization -/

def Basic.all : List Basic :=
  [.ascii, .bigint, .blob, .boolean, .counter, .date, .decimal, .double, .duration, .float, .inet,
    .int, .smallint, .text, .time, .timestamp, .timeuuid, .tinyint, .uuid, .varchar, .varint, .hex]

/-- The enumerator's value. -/
def Basic.code (b : Basic) : Nat := Basic.all.idxOf b

/-- `Basic::COUNT`, where the kinds of `TypeKind` begin. -/
def basicCount : Nat := 22

inductive TypeKind where
  | list | set | map | vector | tuple | udt

def TypeKind.code : TypeKind → Nat
  | .list => basicCount
  | .set => basicCount + 1
  | .map => basicCount + 2
  | .vector => basicCount + 3
  | .tuple => basicCount + 4
  | .udt => basicCount + 5

def TypeKind.ofCode (n : Nat) : Option TypeKind :=
  [TypeKind.list, .set, .map, .vector, .tuple, .udt][n - basicCount]?

def writeU8 (n : Nat) : Bytes := writeRaw 1 (BitVec.ofNat 8 n)

def readU8 : Reader Nat := fun s => do
  let (n, s) ← readRaw 1 s
  pure (n.toNat, s)

def writeBool (b : Bool) : Bytes := writeU8 (if b then 1 else 0)

def readBool : Reader Bool := fun s => do
  let (n, s) ← readU8 s
  pure (n != 0, s)

variable {ρ : Type}

mutual

/-- `write_type`, of a type whose references have the names `name`. -/
def writeType (name : ρ → String8) : TypeTree ρ → Bytes
  | .basic b => writeU8 (Basic.code b)
  | .list e frozen => writeU8 TypeKind.list.code ++ writeBool frozen ++ writeType name e
  | .set k frozen => writeU8 TypeKind.set.code ++ writeBool frozen ++ writeType name k
  | .map k v frozen =>
      writeU8 TypeKind.map.code ++ writeBool frozen ++ writeType name k ++ writeType name v
  | .vector e count frozen =>
      writeU8 TypeKind.vector.code ++ writeBool frozen ++ writeRaw 8 count.toBitVec ++ writeType name e
  | .tuple es frozen =>
      writeU8 TypeKind.tuple.code ++ writeBool frozen ++ writeCount es.length ++ writeTypes name es
  | .udt r => writeU8 TypeKind.udt.code ++ writeU8 0 ++ writePrefixed (name r).val

def writeTypes (name : ρ → String8) : List (TypeTree ρ) → Bytes
  | [] => []
  | t :: ts => writeType name t ++ writeTypes name ts

end

def readName : Reader String8 := fun s => do
  let (n, s) ← readCount s
  let (bytes, s) ← take n s
  if h : bytes.length < 2 ^ 64 then pure (⟨bytes, h⟩, s) else none

/-- `read_type`, with `find` for the look-up in the keyspace's user types. `none` is a blob that is
too short, an unknown kind, or a name that is not found: `load` asserts against each. A call reads
at least one byte, so the length of the blob bounds how deep the calls go. -/
def readType (find : String8 → Option ρ) : Nat → Reader (TypeTree ρ)
  | 0, _ => none
  | fuel + 1, s => do
      let (kind, s) ← readU8 s
      match Basic.all[kind]? with
      | some b => pure (.basic b, s)
      | none =>
          match ← TypeKind.ofCode kind with
          | .list => do
              let (frozen, s) ← readBool s
              let (e, s) ← readType find fuel s
              pure (.list e frozen, s)
          | .set => do
              let (frozen, s) ← readBool s
              let (k, s) ← readType find fuel s
              pure (.set k frozen, s)
          | .map => do
              let (frozen, s) ← readBool s
              let (k, s) ← readType find fuel s
              let (v, s) ← readType find fuel s
              pure (.map k v frozen, s)
          | .vector => do
              let (frozen, s) ← readBool s
              let (count, s) ← readRaw 8 s
              let (e, s) ← readType find fuel s
              pure (.vector e ⟨count⟩ frozen, s)
          | .tuple => do
              let (frozen, s) ← readBool s
              let (count, s) ← readCount s
              let (es, s) ← readMany (readType find fuel) count s
              pure (.tuple es frozen, s)
          | .udt => do
              let (_, s) ← readU8 s
              let (name, s) ← readName s
              let r ← find name
              pure (.udt r, s)

/-! ### What was written is read back -/

theorem readU8_writeU8 {n : Nat} (h : n < 256) (rest : Bytes) : readU8 (writeU8 n ++ rest) = some (n, rest) := by
  rw [readU8, writeU8, readRaw_writeRaw]
  simp [Nat.mod_eq_of_lt h]

theorem readBool_writeBool (b : Bool) (rest : Bytes) : readBool (writeBool b ++ rest) = some (b, rest) := by
  cases b <;> simp [readBool, writeBool, readU8_writeU8]

theorem readName_writePrefixed (s : String8) (rest : Bytes) :
    readName (writePrefixed s.val ++ rest) = some (s, rest) := by
  rw [readName, writePrefixed, List.append_assoc, readCount_writeCount s.property]
  simpa [take_append] using s.property

theorem Basic.all_code (b : Basic) : Basic.all[Basic.code b]? = some b ∧ Basic.code b < 256 := by
  cases b <;> exact ⟨rfl, by decide⟩

theorem TypeKind.ofCode_code (k : TypeKind) :
    Basic.all[k.code]? = none ∧ TypeKind.ofCode k.code = some k ∧ k.code < 256 := by
  cases k <;> exact ⟨rfl, rfl, by decide⟩

variable {σ : Type}

theorem writeTypes_eq (name : ρ → String8) (ts : List (TypeTree ρ)) :
    writeTypes name ts = ts.flatMap (writeType name) := by
  induction ts with
  | nil => rfl
  | cons t ts ih => rw [writeTypes, ih, List.flatMap_cons]

theorem writeType_rename (name : σ → String8) (g : ρ → σ) (t : TypeTree ρ) :
    writeType name (t.rename g) = writeType (name ∘ g) t := by
  induction t with
  | basic b => rfl
  | list e frozen ih => rw [TypeTree.rename, writeType, writeType, ih]
  | set k frozen ih => rw [TypeTree.rename, writeType, writeType, ih]
  | map k v frozen ihk ihv => rw [TypeTree.rename, writeType, writeType, ihk, ihv]
  | vector e count frozen ih => rw [TypeTree.rename, writeType, writeType, ih]
  | tuple es frozen ih =>
      simp only [TypeTree.rename, TypeTree.renameAll_eq, writeType, writeTypes_eq, List.length_map,
        List.flatMap_map]
      rw [List.flatMap_congr ih]
  | udt r => rfl

theorem writeType_congr {name name' : ρ → String8} {t : TypeTree ρ}
    (h : ∀ r ∈ t.refs, name r = name' r) : writeType name t = writeType name' t := by
  have hid (f : ρ → String8) : writeType f t = writeType id (t.rename f) := (writeType_rename id f t).symm
  rw [hid name, hid name', TypeTree.rename_congr h]

theorem readMany_readType {find : String8 → Option σ} {name : ρ → String8} {g : ρ → σ} {fuel : Nat}
    {ts : List (TypeTree ρ)} (h : ∀ t ∈ ts, ∀ rest,
      readType find fuel (writeType name t ++ rest) = some (t.rename g, rest)) (rest : Bytes) :
    readMany (readType find fuel) ts.length (writeTypes name ts ++ rest) = some (ts.map (·.rename g), rest) := by
  induction ts with
  | nil => rfl
  | cons t ts ih =>
      obtain ⟨ht, hts⟩ := List.forall_mem_cons.mp h
      rw [List.length_cons, readMany, writeTypes, List.append_assoc, ht]
      simp [ih hts]

/-- `read_type` undoes `write_type` up to what the names are found to be. -/
theorem readType_writeType {find : String8 → Option σ} {name : ρ → String8} {g : ρ → σ}
    {t : TypeTree ρ} (hsized : t.Sized) (hfind : ∀ r ∈ t.refs, find (name r) = some (g r)) {fuel : Nat}
    (hfuel : t.size ≤ fuel) (rest : Bytes) :
    readType find fuel (writeType name t ++ rest) = some (t.rename g, rest) := by
  induction t generalizing fuel rest with
  | basic b =>
      obtain ⟨fuel, rfl⟩ : ∃ n, fuel = n + 1 := ⟨fuel - 1, by rw [TypeTree.size] at hfuel; omega⟩
      obtain ⟨hcode, hlt⟩ := Basic.all_code b
      simp [readType, writeType, readU8_writeU8 hlt, hcode, TypeTree.rename]
  | list e frozen ih =>
      rw [TypeTree.size] at hfuel
      obtain ⟨fuel, rfl⟩ : ∃ n, fuel = n + 1 := ⟨fuel - 1, by omega⟩
      obtain ⟨hbasic, hkind, hlt⟩ := TypeKind.ofCode_code .list
      simp [readType, writeType, readU8_writeU8 hlt, hbasic, hkind, readBool_writeBool,
        ih hsized hfind (by omega : e.size ≤ fuel), TypeTree.rename]
  | set k frozen ih =>
      rw [TypeTree.size] at hfuel
      obtain ⟨fuel, rfl⟩ : ∃ n, fuel = n + 1 := ⟨fuel - 1, by omega⟩
      obtain ⟨hbasic, hkind, hlt⟩ := TypeKind.ofCode_code .set
      simp [readType, writeType, readU8_writeU8 hlt, hbasic, hkind, readBool_writeBool,
        ih hsized hfind (by omega : k.size ≤ fuel), TypeTree.rename]
  | map k v frozen ihk ihv =>
      rw [TypeTree.size] at hfuel
      rw [TypeTree.refs] at hfind
      obtain ⟨fuel, rfl⟩ : ∃ n, fuel = n + 1 := ⟨fuel - 1, by omega⟩
      obtain ⟨hbasic, hkind, hlt⟩ := TypeKind.ofCode_code .map
      have hk := ihk hsized.1 (fun r hr => hfind r (List.mem_append_left _ hr)) (by omega : k.size ≤ fuel)
      have hv := ihv hsized.2 (fun r hr => hfind r (List.mem_append_right _ hr)) (by omega : v.size ≤ fuel)
      simp [readType, writeType, readU8_writeU8 hlt, hbasic, hkind, readBool_writeBool, hk, hv,
        TypeTree.rename]
  | vector e count frozen ih =>
      rw [TypeTree.size] at hfuel
      obtain ⟨fuel, rfl⟩ : ∃ n, fuel = n + 1 := ⟨fuel - 1, by omega⟩
      obtain ⟨hbasic, hkind, hlt⟩ := TypeKind.ofCode_code .vector
      have hcount := readRaw_writeRaw 8 count.toBitVec
      simp [readType, writeType, readU8_writeU8 hlt, hbasic, hkind, readBool_writeBool, hcount,
        ih hsized hfind (by omega : e.size ≤ fuel), TypeTree.rename]
  | tuple es frozen ih =>
      rw [TypeTree.size] at hfuel
      rw [TypeTree.refs, TypeTree.refsAll_eq] at hfind
      rw [TypeTree.Sized, TypeTree.sizedAll_iff] at hsized
      obtain ⟨fuel, rfl⟩ : ∃ n, fuel = n + 1 := ⟨fuel - 1, by omega⟩
      obtain ⟨hbasic, hkind, hlt⟩ := TypeKind.ofCode_code .tuple
      have hes := readMany_readType fun e he => ih e he (hsized.2 e he)
        (fun r hr => hfind r (List.mem_flatMap.mpr ⟨e, he, hr⟩))
        (by have := TypeTree.size_le_sizeAll he; omega : e.size ≤ fuel)
      simp [readType, writeType, readU8_writeU8 hlt, hbasic, hkind, readBool_writeBool,
        readCount_writeCount hsized.1, hes, TypeTree.rename]
  | udt r =>
      obtain ⟨fuel, rfl⟩ : ∃ n, fuel = n + 1 := ⟨fuel - 1, by rw [TypeTree.size] at hfuel; omega⟩
      obtain ⟨hbasic, hkind, hlt⟩ := TypeKind.ofCode_code .udt
      have hr := hfind r (List.mem_singleton.mpr rfl)
      have hzero : ∀ rest, readU8 (writeU8 0 ++ rest) = some (0, rest) := readU8_writeU8 (by decide)
      simp [readType, writeType, readU8_writeU8 hlt, hbasic, hkind, hzero, readName_writePrefixed, hr,
        TypeTree.rename]

/-- Every constructor of a type is at least one byte of its serialization. -/
theorem size_le_length_writeType (name : ρ → String8) (t : TypeTree ρ) :
    t.size ≤ (writeType name t).length := by
  induction t with
  | basic b => exact Nat.le_refl 1
  | list e frozen ih =>
      simp only [TypeTree.size, writeType, writeU8, writeBool, writeRaw, List.length_append, length_leBytes]
      omega
  | set k frozen ih =>
      simp only [TypeTree.size, writeType, writeU8, writeBool, writeRaw, List.length_append, length_leBytes]
      omega
  | map k v frozen ihk ihv =>
      simp only [TypeTree.size, writeType, writeU8, writeBool, writeRaw, List.length_append, length_leBytes]
      omega
  | vector e count frozen ih =>
      simp only [TypeTree.size, writeType, writeU8, writeBool, writeRaw, List.length_append, length_leBytes]
      omega
  | tuple es frozen ih =>
      have hes : TypeTree.sizeAll es ≤ (writeTypes name es).length := by
        induction es with
        | nil => exact Nat.le_refl 0
        | cons e es ihes =>
            obtain ⟨he, hes⟩ := List.forall_mem_cons.mp ih
            have := ihes hes
            simp only [TypeTree.sizeAll, writeTypes, List.length_append]
            omega
      simp only [TypeTree.size, writeType, writeU8, writeBool, writeRaw, List.length_append, length_leBytes]
      omega
  | udt r =>
      simp only [TypeTree.size, writeType, writeU8, writeRaw, List.length_append, length_leBytes]
      omega

end Schema

end Plexdb.Cql
