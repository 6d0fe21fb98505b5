import Mathlib
import Plexdb.SchemaPersisted
import Plexdb.SchemaWellFounded

/-! Which types survive their serialization (`serialized_type_size`, `write_type` and `read_type` of
`cql/engine/schema.types.cpp`). A user type is written by its bare name and looked up again in the one
keyspace that `read_type` is given. -/

namespace Plexdb.Cql.Schema

open Wire

variable {ρ σ : Type}

/-! ### The size of a serialized type -/

mutual

/-- `serialized_type_size`, in the `U64` arithmetic of the source. -/
def serializedTypeSize (name : ρ → String8) : TypeTree ρ → UInt64
  | .basic _ => 1
  | .list e _ => 1 + 1 + serializedTypeSize name e
  | .set k _ => 1 + 1 + serializedTypeSize name k
  | .map k v _ => 1 + 1 + serializedTypeSize name k + serializedTypeSize name v
  | .vector e _ _ => 1 + 1 + 8 + serializedTypeSize name e
  | .tuple es _ => addSerializedSizes name (1 + 1 + 8) es
  | .udt r => 1 + 1 + 8 + UInt64.ofNat (name r).val.length

/-- The loop over the elements of a tuple. -/
def addSerializedSizes (name : ρ → String8) (total : UInt64) : List (TypeTree ρ) → UInt64
  | [] => total
  | e :: es => addSerializedSizes name (total + serializedTypeSize name e) es

end

mutual

/-- The bytes that a type takes in a blob, uncut. -/
def storedLength (name : ρ → String8) : TypeTree ρ → Nat
  | .basic _ => 1
  | .list e _ => 2 + storedLength name e
  | .set k _ => 2 + storedLength name k
  | .map k v _ => 2 + storedLength name k + storedLength name v
  | .vector e _ _ => 10 + storedLength name e
  | .tuple es _ => 10 + storedLengths name es
  | .udt r => 10 + (name r).val.length

def storedLengths (name : ρ → String8) : List (TypeTree ρ) → Nat
  | [] => 0
  | t :: ts => storedLength name t + storedLengths name ts

end

@[simp] theorem length_writeU8 (n : Nat) : (writeU8 n).length = 1 := length_leBytes ..

@[simp] theorem length_writeBool (b : Bool) : (writeBool b).length = 1 := length_writeU8 _

/-- `write_type` emits the bytes that its three kinds of fields take. -/
theorem length_writeType (name : ρ → String8) (t : TypeTree ρ) :
    (writeType name t).length = storedLength name t := by
  induction t with
  | basic b => exact length_writeU8 _
  | list e frozen ih =>
      simp only [writeType, storedLength, List.length_append, length_writeU8, length_writeBool, ih]
  | set k frozen ih =>
      simp only [writeType, storedLength, List.length_append, length_writeU8, length_writeBool, ih]
  | map k v frozen ihk ihv =>
      simp only [writeType, storedLength, List.length_append, length_writeU8, length_writeBool, ihk, ihv]
  | vector e count frozen ih =>
      simp only [writeType, storedLength, List.length_append, length_writeU8, length_writeBool, ih, writeRaw,
        length_leBytes]
  | tuple es frozen ih =>
      have hes : (writeTypes name es).length = storedLengths name es := by
        induction es with
        | nil => rfl
        | cons e es ihes =>
            obtain ⟨he, hes⟩ := List.forall_mem_cons.mp ih
            rw [writeTypes, storedLengths, List.length_append, he, ihes hes]
      simp only [writeType, storedLength, List.length_append, length_writeU8, length_writeBool, hes, writeCount,
        writeRaw, length_leBytes]
  | udt r =>
      simp only [writeType, storedLength, List.length_append, length_writeU8, writePrefixed, writeCount,
        writeRaw, length_leBytes]
      omega

/-- `serialized_type_size` is the number of bytes, cut to a `U64`. -/
theorem serializedTypeSize_eq (name : ρ → String8) (t : TypeTree ρ) :
    serializedTypeSize name t = UInt64.ofNat (storedLength name t) := by
  induction t with
  | basic b => rfl
  | list e frozen ih => rw [serializedTypeSize, storedLength, ih, UInt64.ofNat_add]; rfl
  | set k frozen ih => rw [serializedTypeSize, storedLength, ih, UInt64.ofNat_add]; rfl
  | map k v frozen ihk ihv =>
      rw [serializedTypeSize, storedLength, ihk, ihv, UInt64.ofNat_add, UInt64.ofNat_add]; rfl
  | vector e count frozen ih => rw [serializedTypeSize, storedLength, ih, UInt64.ofNat_add]; rfl
  | tuple es frozen ih =>
      have hes (total : UInt64) :
          addSerializedSizes name total es = total + UInt64.ofNat (storedLengths name es) := by
        induction es generalizing total with
        | nil => simp [addSerializedSizes, storedLengths]
        | cons e es ihes =>
            obtain ⟨he, hes⟩ := List.forall_mem_cons.mp ih
            rw [addSerializedSizes, ihes hes, storedLengths, he, UInt64.ofNat_add, UInt64.add_assoc]
      rw [serializedTypeSize, hes, storedLength, UInt64.ofNat_add]; rfl
  | udt r => rw [serializedTypeSize, storedLength, UInt64.ofNat_add]; rfl

/-- The two agree as long as the serialization has an address in a blob. -/
theorem length_writeType_eq_size_iff (name : ρ → String8) (t : TypeTree ρ) :
    (writeType name t).length = (serializedTypeSize name t).toNat ↔ storedLength name t < 2 ^ 64 := by
  rw [length_writeType, serializedTypeSize_eq, UInt64.toNat_ofNat']
  omega

/-! ### What the names are found to be -/

section Reading

variable (find : String8 → Option σ) (name : ρ → String8) (fuel : Nat) (frozen : Bool) (rest : Bytes)

theorem readType_list (e : TypeTree ρ) : readType find (fuel + 1) (writeType name (.list e frozen) ++ rest) =
    (readType find fuel (writeType name e ++ rest)).bind fun e => some (.list e.1 frozen, e.2) := by
  obtain ⟨hbasic, hkind, hlt⟩ := TypeKind.ofCode_code .list
  simp [readType, writeType, readU8_writeU8 hlt, hbasic, hkind, readBool_writeBool]

theorem readType_set (k : TypeTree ρ) : readType find (fuel + 1) (writeType name (.set k frozen) ++ rest) =
    (readType find fuel (writeType name k ++ rest)).bind fun k => some (.set k.1 frozen, k.2) := by
  obtain ⟨hbasic, hkind, hlt⟩ := TypeKind.ofCode_code .set
  simp [readType, writeType, readU8_writeU8 hlt, hbasic, hkind, readBool_writeBool]

theorem readType_map (k v : TypeTree ρ) : readType find (fuel + 1) (writeType name (.map k v frozen) ++ rest) =
    (readType find fuel (writeType name k ++ (writeType name v ++ rest))).bind fun k =>
      (readType find fuel k.2).bind fun v => some (.map k.1 v.1 frozen, v.2) := by
  obtain ⟨hbasic, hkind, hlt⟩ := TypeKind.ofCode_code .map
  simp [readType, writeType, readU8_writeU8 hlt, hbasic, hkind, readBool_writeBool]

theorem readType_vector (e : TypeTree ρ) (count : UInt64) :
    readType find (fuel + 1) (writeType name (.vector e count frozen) ++ rest) =
      (readType find fuel (writeType name e ++ rest)).bind fun e => some (.vector e.1 count frozen, e.2) := by
  obtain ⟨hbasic, hkind, hlt⟩ := TypeKind.ofCode_code .vector
  have hcount := readRaw_writeRaw 8 count.toBitVec
  simp [readType, writeType, readU8_writeU8 hlt, hbasic, hkind, readBool_writeBool, hcount]

theorem readType_tuple {es : List (TypeTree ρ)} (hlength : es.length < 2 ^ 64) :
    readType find (fuel + 1) (writeType name (.tuple es frozen) ++ rest) =
      (readMany (readType find fuel) es.length (writeTypes name es ++ rest)).bind fun es =>
        some (.tuple es.1 frozen, es.2) := by
  obtain ⟨hbasic, hkind, hlt⟩ := TypeKind.ofCode_code .tuple
  simp [readType, writeType, readU8_writeU8 hlt, hbasic, hkind, readBool_writeBool, readCount_writeCount hlength]

theorem readType_udt (r : ρ) : readType find (fuel + 1) (writeType name (.udt r) ++ rest) =
    (find (name r)).bind fun q => some (.udt q, rest) := by
  obtain ⟨hbasic, hkind, hlt⟩ := TypeKind.ofCode_code .udt
  have hzero : ∀ rest, readU8 (writeU8 0 ++ rest) = some (0, rest) := readU8_writeU8 (by decide)
  simp [readType, writeType, readU8_writeU8 hlt, hbasic, hkind, hzero, readName_writePrefixed]

end Reading

/-- The reader returned, at the end of what was written, a type that refers to what is found for the names. -/
def Found (find : String8 → Option σ) (name : ρ → String8) (t : TypeTree ρ) (rest : Bytes)
    (read : TypeTree σ × Bytes) : Prop :=
  read.2 = rest ∧ t.refs.map (find ∘ name) = read.1.refs.map some

theorem found_of_readMany {find : String8 → Option σ} {name : ρ → String8} {fuel : Nat} {ts : List (TypeTree ρ)}
    (h : ∀ t ∈ ts, ∀ rest read, readType find fuel (writeType name t ++ rest) = some read → Found find name t rest read)
    {rest : Bytes} {read : List (TypeTree σ) × Bytes}
    (hread : readMany (readType find fuel) ts.length (writeTypes name ts ++ rest) = some read) :
    read.2 = rest ∧ (ts.flatMap TypeTree.refs).map (find ∘ name) = (read.1.flatMap TypeTree.refs).map some := by
  induction ts generalizing read with
  | nil =>
      cases hread
      exact ⟨rfl, rfl⟩
  | cons t ts ih =>
      obtain ⟨ht, hts⟩ := List.forall_mem_cons.mp h
      rw [List.length_cons, readMany, writeTypes, List.append_assoc] at hread
      obtain ⟨⟨u, s⟩, hu, hread⟩ := Option.bind_eq_some_iff.mp hread
      obtain ⟨hs, hrefs⟩ := ht _ _ hu
      subst hs
      obtain ⟨⟨us, s'⟩, hus, hread⟩ := Option.bind_eq_some_iff.mp hread
      obtain ⟨hs', hall⟩ := ih hts hus
      cases hread
      refine ⟨hs', ?_⟩
      rw [List.flatMap_cons, List.map_append, hrefs, hall, List.flatMap_cons, List.map_append]

theorem found_of_readType {find : String8 → Option σ} {name : ρ → String8} {t : TypeTree ρ} (hsized : t.Sized)
    {fuel : Nat} {rest : Bytes} {read : TypeTree σ × Bytes}
    (h : readType find fuel (writeType name t ++ rest) = some read) : Found find name t rest read := by
  induction fuel generalizing t rest read with
  | zero => cases h
  | succ fuel ih =>
      cases t with
      | basic b =>
          obtain ⟨hcode, hlt⟩ := Basic.all_code b
          rw [readType, writeType, readU8_writeU8 hlt] at h
          simp only [hcode, Option.bind_eq_bind, Option.bind_some, Option.pure_def, Option.some.injEq] at h
          subst h
          exact ⟨rfl, rfl⟩
      | list e frozen =>
          rw [readType_list] at h
          obtain ⟨e', he, h⟩ := Option.bind_eq_some_iff.mp h
          cases h
          have hfound := ih (show e.Sized from hsized) he
          exact hfound
      | set k frozen =>
          rw [readType_set] at h
          obtain ⟨k', hk, h⟩ := Option.bind_eq_some_iff.mp h
          cases h
          have hfound := ih (show k.Sized from hsized) hk
          exact hfound
      | map k v frozen =>
          rw [readType_map] at h
          obtain ⟨⟨k', s⟩, hk, h⟩ := Option.bind_eq_some_iff.mp h
          obtain ⟨hs, hkrefs⟩ := ih hsized.1 hk
          subst hs
          obtain ⟨v', hv, h⟩ := Option.bind_eq_some_iff.mp h
          obtain ⟨hs, hvrefs⟩ := ih hsized.2 hv
          cases h
          refine ⟨hs, ?_⟩
          rw [TypeTree.refs, List.map_append, hkrefs, hvrefs, TypeTree.refs, List.map_append]
      | vector e count frozen =>
          rw [readType_vector] at h
          obtain ⟨e', he, h⟩ := Option.bind_eq_some_iff.mp h
          cases h
          have hfound := ih (show e.Sized from hsized) he
          exact hfound
      | tuple es frozen =>
          rw [TypeTree.Sized, TypeTree.sizedAll_iff] at hsized
          rw [readType_tuple _ _ _ _ _ hsized.1] at h
          obtain ⟨es', hes, h⟩ := Option.bind_eq_some_iff.mp h
          obtain ⟨hs, hrefs⟩ := found_of_readMany (fun e he rest read => ih (hsized.2 e he)) hes
          cases h
          refine ⟨hs, ?_⟩
          rw [TypeTree.refs, TypeTree.refs, TypeTree.refsAll_eq, TypeTree.refsAll_eq, hrefs]
      | udt r =>
          rw [readType_udt] at h
          obtain ⟨q, hq, h⟩ := Option.bind_eq_some_iff.mp h
          cases h
          exact ⟨rfl, congrArg (fun x => [x]) hq⟩

/-- The type comes back, and nothing else is read, exactly where every name is found. -/
theorem readType_writeType_iff {find : String8 → Option σ} {name : ρ → String8} {g : ρ → σ} {t : TypeTree ρ}
    (hsized : t.Sized) (rest : Bytes) :
    readType find (writeType name t ++ rest).length (writeType name t ++ rest) = some (t.rename g, rest) ↔
      ∀ r ∈ t.refs, find (name r) = some (g r) := by
  constructor
  · intro h
    obtain ⟨-, hrefs⟩ := found_of_readType hsized h
    rw [TypeTree.refs_rename, List.map_map] at hrefs
    exact List.map_inj_left.mp hrefs
  · intro h
    refine readType_writeType hsized h ?_ rest
    rw [List.length_append]
    exact (size_le_length_writeType name t).trans (Nat.le_add_right _ _)

/-! ### Types of a schema -/

/-- The look-up of `read_type` in the keyspace it is given, which may be none. -/
def findUdt (s : Schema) (resolveKs : Option Nat) (name : String8) : Option Nat := do
  let ks ← resolveKs
  s.readUdt ks name

/-- `s'` holds the user types of `s`, the one at `p` in the place `g p`. -/
structure SameUserTypes (s s' : Schema) (g : Nat → Nat) : Prop where
  injective : Function.Injective g
  keyspaces : s'.keyspaces.map (·.name) = s.keyspaces.map (·.name)
  found : ∀ ks name, s'.readUdt ks name = (s.readUdt ks name).map g
  udts : ∀ p u, s.udts[p]? = some u →
    s'.udts[g p]? = some ⟨u.keyspace, u.name, u.fieldNames, u.fieldTypes.map (·.rename g)⟩

/-- `write_type` emits as many bytes as `serialized_type_size` says, and `read_type` makes of them the
same type. -/
def SurvivesIn (s s' : Schema) (g : Nat → Nat) (resolveKs : Option Nat) (t : Ty) (rest : Bytes) : Prop :=
  let bytes := writeType (udtName s.udts) t
  bytes.length = (serializedTypeSize (udtName s.udts) t).toNat ∧
    readType (s'.findUdt resolveKs) (bytes ++ rest).length (bytes ++ rest) = some (t.rename g, rest)

theorem SameUserTypes.findUdt_eq {s s' : Schema} {g : Nat → Nat} (h : SameUserTypes s s' g) (resolveKs : Option Nat)
    (name : String8) : s'.findUdt resolveKs name = (s.findUdt resolveKs name).map g := by
  cases resolveKs with
  | none => rfl
  | some ks => exact h.found ks name

theorem SameUserTypes.refl (s : Schema) : SameUserTypes s s id where
  injective := Function.injective_id
  keyspaces := rfl
  found ks name := by rw [Option.map_id, id]
  udts p u hu := by rw [id, hu, List.map_congr_left fun t _ => TypeTree.rename_id t, List.map_id']

/-- In a schema that is stored, the user types that a type takes from its own keyspace are known there. -/
theorem findUdt_of_own_keyspace {log : UdtLog} {s : Schema} (hstored : TypesStored log s) {defaultKs : String8}
    {ks : Nat} (hks : s.readKeyspace defaultKs = some ks) {ast : Ast} {t : Ty}
    (ht : s.resolveTypeAst defaultKs ast = .ok t)
    (hown : ∀ r ∈ ast.val.refs, r.keyspace.val = [] ∨ r.keyspace = defaultKs) :
    ∀ p ∈ t.refs, s.findUdt (some ks) (udtName s.udts p) = some p := by
  intro p hp
  obtain ⟨r, hr, hfind⟩ := TypeTree.found_of_resolve ht p hp
  have hname : (if r.keyspace.val.length > 0 then r.keyspace else defaultKs) = defaultKs := by
    rcases hown r hr with hempty | hsame
    · rw [hempty]; rfl
    · rw [hsame, ite_self]
  rw [findUdtRef] at hfind
  simp only [hname, hks] at hfind
  split_ifs at hfind
  cases hudt : s.readUdt ks r.name with
  | none => rw [hudt] at hfind; cases hfind
  | some q =>
      rw [hudt] at hfind
      cases hfind
      obtain ⟨k, hk, hbound⟩ := readUdt_eq_some.mp hudt
      obtain ⟨-, u, -, -, -, hu, hat⟩ := hstored.bound ks k _ p hk hbound
      have hudtName : udtName s.udts p = r.name := by rw [udtName, hat, ← hu]; rfl
      rw [hudtName]
      exact hudt

/-- A type of the schema survives exactly where the keyspace it is read with knows each of its user types
by its name. -/
theorem type_serialization_iff {s s' : Schema} {g : Nat → Nat} (hsame : SameUserTypes s s' g) {defaultKs : String8}
    {ast : Ast} {t : Ty} (ht : s.resolveTypeAst defaultKs ast = .ok t) (resolveKs : Option Nat) (rest : Bytes) :
    SurvivesIn s s' g resolveKs t rest ↔
      storedLength (udtName s.udts) t < 2 ^ 64 ∧
        ∀ p ∈ t.refs, s.findUdt resolveKs (udtName s.udts p) = some p := by
  have hsized : t.Sized := TypeTree.sized_of_resolve ht ast.property
  rw [SurvivesIn, length_writeType_eq_size_iff, readType_writeType_iff hsized]
  refine and_congr_right fun _ => forall₂_congr fun p _ => ?_
  rw [hsame.findUdt_eq]
  constructor
  · intro h
    obtain ⟨q, hq, hg⟩ := Option.map_eq_some_iff.mp h
    rw [hq, hsame.injective hg]
  · intro h
    rw [h, Option.map_some]

/-! ### A type of the same and of another keyspace -/

/-- A reference to the user type `name` of a keyspace, the default one where that is empty. -/
def refTo (keyspace name : String8) : Ast := ⟨.udt ⟨keyspace, name, true⟩, trivial⟩

/-- Keyspaces `k` and `j`, both with a type `a`, and `j` with a type `b`. -/
def createThreeTypes (k j a b : String8) : List Request :=
  [request (.createKeyspace ⟨false, k, .ok {}⟩), request (.createKeyspace ⟨false, j, .ok {}⟩),
    request (.createType ⟨some k, a⟩ false [basicField b .int]),
    request (.createType ⟨some j, a⟩ false [basicField b .text]),
    request (.createType ⟨some j, b⟩ false [basicField a .uuid])]

/-- Where the statements put the types. -/
def Placed (k j a b : String8) (s : Schema) : Prop :=
  (s.readKeyspace k = some 0 ∧ s.readKeyspace j = some 1) ∧
    (s.readUdt 0 a = some 0 ∧ s.readUdt 1 a = some 1 ∧ s.readUdt 1 b = some 2 ∧ s.readUdt 0 b = none) ∧
    udtName s.udts 0 = a ∧ udtName s.udts 1 = a ∧ udtName s.udts 2 = b

instance (k j a b : String8) (s : Schema) : Decidable (Placed k j a b s) := inferInstanceAs (Decidable (_ ∧ _))

theorem run_createThreeTypes :
    ∃ s, Run step (fun _ _ => True) {} (createThreeTypes (str "k") (str "j") (str "a") (str "b")) s ∧
      Placed (str "k") (str "j") (str "a") (str "b") s := by
  have hrun : (runAll step (fun _ _ => true) {} (createThreeTypes (str "k") (str "j") (str "a") (str "b"))).any
      (fun s => decide (Placed (str "k") (str "j") (str "a") (str "b") s)) = true := by decide
  obtain ⟨s, hs, hplaced⟩ := (Option.any_eq_true _ _).mp hrun
  exact ⟨s, (Run.of_runAll hs).mono fun _ _ _ => trivial, of_decide_eq_true hplaced⟩

theorem resolve_refTo {s : Schema} {defaultKs keyspace name : String8} {ks p : Nat} (hempty : keyspace.val ≠ [])
    (hks : s.readKeyspace keyspace = some ks) (hp : s.readUdt ks name = some p) :
    s.resolveTypeAst defaultKs (refTo keyspace name) = .ok (.udt p) := by
  have hpos : keyspace.val.length > 0 := List.length_pos_iff.mpr hempty
  have hfind : s.findUdtRef defaultKs ⟨keyspace, name, true⟩ = .ok p := by
    rw [findUdtRef, if_pos hpos, if_neg hpos.ne', hks]
    simp only [hp]
  rw [resolveTypeAst, refTo, TypeTree.resolve, hfind]
  rfl

theorem type_serialization_own :
    ∃ s t, Run step (fun _ _ => True) {} (createThreeTypes (str "k") (str "j") (str "a") (str "b")) s ∧
      s.resolveTypeAst (str "k") (refTo (str "k") (str "a")) = .ok t ∧ SurvivesIn s s id (some 0) t [7] := by
  obtain ⟨s, hrun, ⟨hk, -⟩, ⟨hka, -⟩, hname, -⟩ := run_createThreeTypes
  have ht : s.resolveTypeAst (str "k") (refTo (str "k") (str "a")) = .ok (.udt 0) :=
    resolve_refTo (by decide) hk hka
  refine ⟨s, _, hrun, ht, (type_serialization_iff (.refl s) ht (some 0) [7]).mpr ⟨?_, ?_⟩⟩
  · rw [storedLength, hname]
    decide
  · intro p hp
    rw [TypeTree.refs, List.mem_singleton] at hp
    subst hp
    rw [hname]
    exact hka

/-- In the keyspace `k` the type `j.a` is read back as `k.a`, and `j.b` is not read back. -/
theorem type_serialization_other :
    ∃ s, Run step (fun _ _ => True) {} (createThreeTypes (str "k") (str "j") (str "a") (str "b")) s ∧
      SameUserTypes s s id ∧ s.readKeyspace (str "k") = some 0 ∧
      (s.resolveTypeAst (str "k") (refTo (str "j") (str "a")) = .ok (.udt 1) ∧
        readStoredType (s.findUdt (some 0)) (writeType (udtName s.udts) (.udt 1)) = some (.udt 0)) ∧
      (s.resolveTypeAst (str "k") (refTo (str "j") (str "b")) = .ok (.udt 2) ∧
        readStoredType (s.findUdt (some 0)) (writeType (udtName s.udts) (.udt 2)) = none) ∧
      ¬ SurvivesIn s s id (some 0) (.udt 1) [] ∧ ¬ SurvivesIn s s id (some 0) (.udt 2) [] := by
  obtain ⟨s, hrun, ⟨hk, hj⟩, ⟨hka, hja, hjb, hkb⟩, -, hname, hname'⟩ := run_createThreeTypes
  have hread {p : Nat} (h : udtName s.udts p = str "a" ∨ udtName s.udts p = str "b") :
      readStoredType (s.findUdt (some 0)) (writeType (udtName s.udts) (.udt p)) =
        (s.readUdt 0 (udtName s.udts p)).map .udt := by
    have hlength : (writeType (udtName s.udts) (.udt p)).length = 10 + 1 := by
      rw [length_writeType, storedLength]
      rcases h with h | h <;> rw [h] <;> rfl
    have hudt := readType_udt (s.findUdt (some 0)) (udtName s.udts) 10 [] p
    have hfind : s.findUdt (some 0) (udtName s.udts p) = s.readUdt 0 (udtName s.udts p) := rfl
    rw [List.append_nil, hfind] at hudt
    rw [readStoredType, hlength, hudt]
    cases s.readUdt 0 (udtName s.udts p) <;> rfl
  have hlost {p : Nat} (h : s.readUdt 0 (udtName s.udts p) ≠ some p) : ¬ SurvivesIn s s id (some 0) (.udt p) [] := by
    intro hsurvives
    exact h ((readType_writeType_iff (t := .udt p) trivial []).mp hsurvives.2 p (List.mem_singleton.mpr rfl))
  refine ⟨s, hrun, .refl s, hk, ⟨resolve_refTo (by decide) hj hja, ?_⟩,
    ⟨resolve_refTo (by decide) hj hjb, ?_⟩, hlost ?_, hlost ?_⟩
  · rw [hread (.inl hname), hname, hka]
    rfl
  · rw [hread (.inr hname'), hname', hkb]
    rfl
  · rw [hname, hka]
    decide
  · rw [hname', hkb]
    decide

end Plexdb.Cql.Schema
