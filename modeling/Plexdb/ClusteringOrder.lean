import Plexdb.ColumnOrder
import Plexdb.Schema

/-! The order of full clustering keys (`cql/engine/clustering_compare.cpp`, `cql/engine/key.cpp`): the comparator
decodes the components of two encoded keys one by one. -/

namespace Plexdb.Cql

open Schema (ColumnSpec SortOrder)
open Wire

/-! ### Keys -/

/-- `append_component`: the assertion on durations, then the codec. -/
def appendComponent (out : Bytes) (v : ColumnValue) (dtype : Basic) : Option Bytes :=
  if dtype = .duration then none else (writeColumnValue (.basic dtype) v).map (out ++ ·)

/-- The loop of `encode_clustering_prefix`. -/
def encodeComponents (out : Bytes) : List ColumnSpec → List ColumnValue → Option Bytes
  | spec :: specs, v :: vs => do
      let dtype ← spec.dtype
      let out ← appendComponent out v dtype
      encodeComponents out specs vs
  | _, _ => some out

def encodeClustering (specs : List ColumnSpec) (vs : List ColumnValue) : Option Bytes :=
  if vs.length = specs.length then encodeComponents [] specs vs else none

/-- The `TArrayView` of a key, whose length is a `U16`. -/
structure KeyView where
  bytes : Bytes
  fits : bytes.length < 2 ^ 16

/-- `ClusteringKeyComparator` on what is left of the keys. -/
def compareKeys : List ColumnSpec → Bytes → Bytes → Option Ordering
  | [], _, _ => some .eq
  | spec :: specs, a, b =>
      if a.length = 0 ∨ b.length = 0 then some .eq
      else do
        let dtype ← spec.dtype
        let (va, a) ← readBasic dtype a
        let (vb, b) ← readBasic dtype b
        let cmp ← compareColumnValue va vb dtype
        let cmp := if spec.order = .desc then -cmp else cmp
        if cmp < 0 then some .lt
        else if cmp > 0 then some .gt
        else compareKeys specs a b

def compareClustering (specs : List ColumnSpec) (a b : KeyView) : Option Ordering := compareKeys specs a.bytes b.bytes

/-! ### Stored values -/

/-- The values of a column type that a database holds are well-formed values of the variant of the type. -/
def Wellformed (stored : Basic → ColumnValue → Prop) : Prop :=
  ∀ dtype v, stored dtype v → storedVariant dtype v = true ∧ Representable v

/-- The comparison of the values of a type is a total preorder, its equal classes are the equal values, and it
agrees with the order of the numbers. -/
structure ValueOrder (dtype : Basic) (stored : ColumnValue → Prop) : Prop where
  total : ∀ a b, stored a → stored b → ∃ c, compareColumnValue a b dtype = some c ∧
    compareColumnValue b a dtype = some (-c)
  trans : ∀ a b c, stored a → stored b → stored c → ∀ x y z, compareColumnValue a b dtype = some x →
    compareColumnValue b c dtype = some y → compareColumnValue a c dtype = some z → x ≤ 0 → y ≤ 0 → z ≤ 0
  equal : ∀ a b, stored a → stored b → (compareColumnValue a b dtype = some 0 ↔ SameValue a b)
  numeric : ∀ a b, stored a → stored b → ∀ x y, numericValue dtype a = some x → numericValue dtype b = some y →
    compareColumnValue a b dtype = some (compareScalar x y)

/-- A key with all its components, which are stored values. -/
structure FullKey (specs : List ColumnSpec) (stored : Basic → ColumnValue → Prop) (key : KeyView)
    (vs : List ColumnValue) : Prop where
  encoded : encodeClustering specs vs = some key.bytes
  stored : List.Forall₂ (fun spec v => ∃ dtype, spec.dtype = some dtype ∧ stored dtype v) specs vs

/-- The answer for a component. -/
def towards (order : SortOrder) (c : Int) : Ordering := compare (if order = .desc then -c else c) 0

/-- The comparator is a total order on the full keys, the first component that is not equal decides, reversed on
descending components, and equal keys have equal components. -/
structure KeyOrder (specs : List ColumnSpec) (stored : Basic → ColumnValue → Prop) : Prop where
  total : ∀ ka as kb bs, FullKey specs stored ka as → FullKey specs stored kb bs → ∃ o,
    compareClustering specs ka kb = some o ∧ compareClustering specs kb ka = some o.swap
  trans : ∀ ka as kb bs kc cs, FullKey specs stored ka as → FullKey specs stored kb bs → FullKey specs stored kc cs →
    compareClustering specs ka kb ≠ some .gt → compareClustering specs kb kc ≠ some .gt →
    compareClustering specs ka kc ≠ some .gt
  equal : ∀ ka as kb bs, FullKey specs stored ka as → FullKey specs stored kb bs →
    (compareClustering specs ka kb = some .eq ↔ List.Forall₂ SameValue as bs)
  decided : ∀ ka as kb bs, FullKey specs stored ka as → FullKey specs stored kb bs →
    ∀ pre spec post as₁ a as₂ bs₁ b bs₂ dtype c, specs = pre ++ spec :: post → as = as₁ ++ a :: as₂ →
    bs = bs₁ ++ b :: bs₂ → as₁.length = pre.length → bs₁.length = pre.length → List.Forall₂ SameValue as₁ bs₁ →
    spec.dtype = some dtype → compareColumnValue a b dtype = some c → c ≠ 0 →
    compareClustering specs ka kb = some (towards spec.order c)

/-! ### Values -/

section

variable {stored : Basic → ColumnValue → Prop} (hstored : Wellformed stored)

include hstored

theorem compareColumnValue_stored {dtype : Basic} (hdtype : dtype ≠ .duration) {a b : ColumnValue}
    (ha : stored dtype a) (hb : stored dtype b) :
    compareColumnValue a b dtype = some (compareScalar (orderKey dtype a) (orderKey dtype b)) :=
  compareColumnValue_eq hdtype (hstored _ _ ha).1 (hstored _ _ hb).1

/-- No two stored timeuuids differ in the version alone. -/
def VersionDetermined (stored : Basic → ColumnValue → Prop) : Prop :=
  ∀ a b, stored .timeuuid (.uuid a) → stored .timeuuid (.uuid b) → SameButVersion a b → a = b

omit hstored in
theorem exists_uuid {v : ColumnValue} (h : storedVariant .timeuuid v = true) : ∃ u, v = .uuid u := by
  cases v with
  | uuid u => exact ⟨u, rfl⟩
  | _ => exact absurd h Bool.false_ne_true

theorem orderKey_inj_stored (hversion : VersionDetermined stored) {dtype : Basic} (hdtype : dtype ≠ .duration)
    {a b : ColumnValue} (ha : stored dtype a) (hb : stored dtype b) :
    orderKey dtype a = orderKey dtype b ↔ SameValue a b := by
  have hva := (hstored _ _ ha).1
  have hvb := (hstored _ _ hb).1
  by_cases huuid : dtype = .timeuuid
  · subst huuid
    obtain ⟨u, rfl⟩ := exists_uuid hva
    obtain ⟨w, rfl⟩ := exists_uuid hvb
    rw [orderKey_timeuuid]
    constructor
    · exact fun h => congrArg ColumnValue.uuid (hversion u w ha hb h)
    · intro h
      rw [ColumnValue.uuid.inj h]
      exact ⟨fun _ _ => rfl, rfl⟩
  · exact orderKey_inj hdtype huuid hva hvb

theorem valueOrder (hversion : VersionDetermined stored) {dtype : Basic} (hdtype : dtype ≠ .duration) :
    ValueOrder dtype (stored dtype) where
  total a b ha hb := by
    rw [compareColumnValue_stored hstored hdtype ha hb, compareColumnValue_stored hstored hdtype hb ha,
      compareScalar_swap (orderKey dtype a)]
    exact ⟨_, rfl, rfl⟩
  trans a b c ha hb hc x y z hx hy hz hxle hyle := by
    rw [compareColumnValue_stored hstored hdtype ha hb] at hx
    rw [compareColumnValue_stored hstored hdtype hb hc] at hy
    rw [compareColumnValue_stored hstored hdtype ha hc] at hz
    rw [← Option.some.inj hx, ← not_lt, ← Int.neg_neg_iff_pos, ← compareScalar_swap, compareScalar_neg_iff] at hxle
    rw [← Option.some.inj hy, ← not_lt, ← Int.neg_neg_iff_pos, ← compareScalar_swap, compareScalar_neg_iff] at hyle
    rw [← Option.some.inj hz, ← not_lt, ← Int.neg_neg_iff_pos, ← compareScalar_swap, compareScalar_neg_iff]
    exact not_lt.mpr ((not_lt.mp hxle).trans (not_lt.mp hyle))
  equal a b ha hb := by
    rw [compareColumnValue_stored hstored hdtype ha hb, Option.some.injEq, compareScalar_eq_zero_iff]
    exact orderKey_inj_stored hstored hversion hdtype ha hb
  numeric a b ha hb x y hx hy := by
    rw [compareColumnValue_stored hstored hdtype ha hb, orderKey_of_numericValue hx, orderKey_of_numericValue hy,
      compareScalar_singleton]

/-! ### Encoded keys -/

omit hstored in
theorem canWrite_of_stored {dtype : Basic} {v : ColumnValue} (h : storedVariant dtype v = true) :
    canWriteTypedBasic v dtype = true := by
  cases dtype <;> cases v <;> first | exact absurd h Bool.false_ne_true | rfl

omit hstored in
theorem appendComponent_stored {dtype : Basic} (hdtype : dtype ≠ .duration) {v : ColumnValue}
    (h : storedVariant dtype v = true) (out : Bytes) : appendComponent out v dtype = some (out ++ writeTypedBasic v) := by
  rw [appendComponent, if_neg hdtype, writeColumnValue_basic (canWrite_of_stored h)]
  rfl

omit hstored in
/-- A component takes at least a byte, so no key ends before its last component. -/
theorem writeTypedBasic_pos {dtype : Basic} {v : ColumnValue} (h : storedVariant dtype v = true) :
    0 < (writeTypedBasic v).length := by
  cases v with
  | uuid u => exact u.property.symm ▸ (by decide)
  | inet value => cases value <;> exact Nat.succ_pos _
  | _ =>
      first
        | (cases dtype <;> exact absurd h Bool.false_ne_true)
        | simp [writeTypedBasic, writePrefixed, writeCount, writeRaw, length_leBytes]

/-- A spec of a comparable type, and a stored value of it. -/
def Comparable (stored : Basic → ColumnValue → Prop) (spec : ColumnSpec) (v : ColumnValue) : Prop :=
  ∃ dtype, spec.dtype = some dtype ∧ dtype ≠ .duration ∧ stored dtype v

theorem encodeComponents_comparable {specs : List ColumnSpec} {vs : List ColumnValue}
    (h : List.Forall₂ (Comparable stored) specs vs) (out : Bytes) :
    encodeComponents out specs vs = some (out ++ vs.flatMap writeTypedBasic) := by
  induction h generalizing out with
  | nil => simp [encodeComponents]
  | cons hcomp _ ih =>
      obtain ⟨dtype, hspec, hdtype, hv⟩ := hcomp
      rw [encodeComponents, hspec, Option.bind_eq_bind, Option.bind_some,
        appendComponent_stored hdtype (hstored _ _ hv).1, Option.bind_eq_bind, Option.bind_some, ih,
        List.flatMap_cons, List.append_assoc]

omit hstored in
/-- What is encoded has no duration in it. -/
theorem comparable_of_encodes {specs : List ColumnSpec} {vs : List ColumnValue} {out key : Bytes}
    (henc : encodeComponents out specs vs = some key)
    (h : List.Forall₂ (fun spec v => ∃ dtype, spec.dtype = some dtype ∧ stored dtype v) specs vs) :
    List.Forall₂ (Comparable stored) specs vs := by
  induction h generalizing out with
  | nil => exact List.Forall₂.nil
  | cons hcomp _ ih =>
      obtain ⟨dtype, hspec, hv⟩ := hcomp
      rw [encodeComponents, hspec, Option.bind_eq_bind, Option.bind_some, Option.bind_eq_bind,
        Option.bind_eq_some_iff] at henc
      obtain ⟨out, happend, henc⟩ := henc
      refine List.Forall₂.cons ⟨dtype, hspec, ?_, hv⟩ (ih henc)
      rintro rfl
      exact absurd happend (Option.some_ne_none _).symm

theorem FullKey.comparable {specs : List ColumnSpec} {key : KeyView} {vs : List ColumnValue}
    (h : FullKey specs stored key vs) :
    List.Forall₂ (Comparable stored) specs vs ∧ key.bytes = vs.flatMap writeTypedBasic := by
  obtain ⟨henc, hvs⟩ := h
  rw [encodeClustering, if_pos hvs.length_eq.symm] at henc
  have hcomp := comparable_of_encodes henc hvs
  rw [encodeComponents_comparable hstored hcomp, List.nil_append] at henc
  exact ⟨hcomp, (Option.some.inj henc).symm⟩

/-! ### Comparing keys -/

def isDescending (spec : ColumnSpec) : Bool := spec.order = .desc

def specKey (spec : ColumnSpec) (v : ColumnValue) : List ℚ := (spec.dtype.map fun dtype => orderKey dtype v).getD []

def keysOf (specs : List ColumnSpec) (vs : List ColumnValue) : List (List ℚ) := List.zipWith specKey specs vs

omit hstored in
theorem directed_isDescending (spec : ColumnSpec) (c : Int) :
    directed (isDescending spec) c = if spec.order = .desc then -c else c := by
  exact if_congr decide_eq_true_iff rfl rfl

/-- The comparator on the components of two keys: lexicographic, by their keys. -/
theorem compareKeys_eq {specs : List ColumnSpec} {as bs : List ColumnValue}
    (ha : List.Forall₂ (Comparable stored) specs as) (hb : List.Forall₂ (Comparable stored) specs bs) :
    compareKeys specs (as.flatMap writeTypedBasic) (bs.flatMap writeTypedBasic) =
      some (compare (compareLex (specs.map isDescending) (keysOf specs as) (keysOf specs bs)) 0) := by
  induction ha generalizing bs with
  | nil => rfl
  | @cons spec a specs as hcomp _ ih =>
      rw [List.forall₂_cons_left_iff] at hb
      obtain ⟨b, bs, hcomp', hbs, rfl⟩ := hb
      obtain ⟨dtype, hspec, hdtype, ha⟩ := hcomp
      obtain ⟨dtype', hspec', -, hb⟩ := hcomp'
      obtain rfl : dtype' = dtype := Option.some.inj (hspec'.symm.trans hspec)
      obtain ⟨hva, hra⟩ := hstored _ _ ha
      obtain ⟨hvb, hrb⟩ := hstored _ _ hb
      have hpos : ¬((writeTypedBasic a ++ as.flatMap writeTypedBasic).length = 0 ∨
          (writeTypedBasic b ++ bs.flatMap writeTypedBasic).length = 0) := by
        have hapos := writeTypedBasic_pos hva
        have hbpos := writeTypedBasic_pos hvb
        rw [List.length_append, List.length_append]
        omega
      have hkey : ∀ v vs, keysOf (spec :: specs) (v :: vs) = orderKey dtype' v :: keysOf specs vs := fun v vs => by
        rw [keysOf, List.zipWith_cons_cons, specKey, hspec]
        rfl
      rw [List.flatMap_cons, List.flatMap_cons, compareKeys, if_neg hpos, hspec]
      simp only [Option.bind_eq_bind, Option.bind_some, readBasic_writeTypedBasic hra hva,
        readBasic_writeTypedBasic hrb hvb, compareColumnValue_stored hstored hdtype ha hb, ih hbs]
      rw [hkey, hkey, List.map_cons, compareLex, directed_isDescending]
      generalize (if spec.order = .desc then -compareScalar (orderKey dtype' a) (orderKey dtype' b)
        else compareScalar (orderKey dtype' a) (orderKey dtype' b)) = c
      rcases lt_trichotomy c 0 with hlt | rfl | hgt
      · rw [if_pos hlt, if_pos hlt.ne, compare_lt_iff_lt.mpr hlt]
      · rfl
      · rw [if_neg hgt.not_gt, if_pos hgt, if_pos hgt.ne', compare_gt_iff_gt.mpr hgt]

theorem compareClustering_eq {specs : List ColumnSpec} {ka kb : KeyView} {as bs : List ColumnValue}
    (ha : FullKey specs stored ka as) (hb : FullKey specs stored kb bs) :
    compareClustering specs ka kb =
      some (compare (compareLex (specs.map isDescending) (keysOf specs as) (keysOf specs bs)) 0) := by
  obtain ⟨hca, hka⟩ := ha.comparable hstored
  obtain ⟨hcb, hkb⟩ := hb.comparable hstored
  rw [compareClustering, hka, hkb, compareKeys_eq hstored hca hcb]

omit hstored in
theorem length_keysOf {specs : List ColumnSpec} {vs : List ColumnValue}
    (h : List.Forall₂ (fun spec v => ∃ dtype, spec.dtype = some dtype ∧ stored dtype v) specs vs) :
    (keysOf specs vs).length = (specs.map isDescending).length := by
  rw [keysOf, List.length_zipWith, List.length_map, ← h.length_eq, min_self]

theorem keysOf_inj (hversion : VersionDetermined stored) {specs : List ColumnSpec} {as bs : List ColumnValue}
    (ha : List.Forall₂ (Comparable stored) specs as) (hb : List.Forall₂ (Comparable stored) specs bs) :
    keysOf specs as = keysOf specs bs ↔ List.Forall₂ SameValue as bs := by
  induction ha generalizing bs with
  | nil =>
      rw [List.forall₂_nil_left_iff] at hb
      subst hb
      exact iff_of_true rfl List.Forall₂.nil
  | @cons spec a specs as hcomp _ ih =>
      rw [List.forall₂_cons_left_iff] at hb
      obtain ⟨b, bs, hcomp', hbs, rfl⟩ := hb
      obtain ⟨dtype, hspec, hdtype, ha⟩ := hcomp
      obtain ⟨dtype', hspec', -, hb⟩ := hcomp'
      obtain rfl : dtype' = dtype := Option.some.inj (hspec'.symm.trans hspec)
      rw [keysOf, keysOf, List.zipWith_cons_cons, List.zipWith_cons_cons, List.cons.injEq, specKey, specKey, hspec,
        List.forall₂_cons]
      exact and_congr (orderKey_inj_stored hstored hversion hdtype ha hb) (ih hbs)

omit hstored in
theorem compare_neg_zero (c : Int) : compare (-c) 0 = (compare c 0).swap := by
  rcases lt_trichotomy c 0 with hlt | rfl | hgt
  · rw [compare_lt_iff_lt.mpr hlt, compare_gt_iff_gt.mpr (neg_pos.mpr hlt)]
    rfl
  · rfl
  · rw [compare_gt_iff_gt.mpr hgt, compare_lt_iff_lt.mpr (neg_neg_of_pos hgt)]
    rfl

omit hstored in
theorem compare_ne_gt_iff {c : Int} : some (compare c 0) ≠ some Ordering.gt ↔ c ≤ 0 := by
  rw [ne_eq, Option.some.injEq, compare_gt_iff_gt, not_lt]

omit hstored in
theorem keysOf_append {pre post : List ColumnSpec} {vs ws : List ColumnValue} (h : vs.length = pre.length) :
    keysOf (pre ++ post) (vs ++ ws) = keysOf pre vs ++ keysOf post ws := List.zipWith_append h.symm

omit hstored in
theorem forall₂_split {R : ColumnSpec → ColumnValue → Prop} {pre post : List ColumnSpec} {spec : ColumnSpec}
    {vs ws : List ColumnValue} {v : ColumnValue} (hlen : vs.length = pre.length)
    (h : List.Forall₂ R (pre ++ spec :: post) (vs ++ v :: ws)) : List.Forall₂ R pre vs ∧ R spec v := by
  have htake := List.forall₂_take pre.length h
  have hdrop := List.forall₂_drop pre.length h
  rw [List.take_left' rfl, List.take_left' hlen] at htake
  rw [List.drop_left' rfl, List.drop_left' hlen] at hdrop
  exact ⟨htake, (List.forall₂_cons.mp hdrop).1⟩

theorem keyOrder (hversion : VersionDetermined stored) (specs : List ColumnSpec) : KeyOrder specs stored where
  total ka as kb bs ha hb := by
    rw [compareClustering_eq hstored ha hb, compareClustering_eq hstored hb ha, compareLex_swap _ (keysOf specs as),
      compare_neg_zero]
    exact ⟨_, rfl, rfl⟩
  trans ka as kb bs kc cs ha hb hc hab hbc := by
    rw [compareClustering_eq hstored ha hb, compare_ne_gt_iff] at hab
    rw [compareClustering_eq hstored hb hc, compare_ne_gt_iff] at hbc
    rw [compareClustering_eq hstored ha hc, compare_ne_gt_iff]
    exact compareLex_trans (length_keysOf ha.stored) (length_keysOf hb.stored) (length_keysOf hc.stored) hab hbc
  equal ka as kb bs ha hb := by
    rw [compareClustering_eq hstored ha hb, Option.some.injEq, compare_eq_iff_eq,
      compareLex_eq_zero_iff (length_keysOf ha.stored) (length_keysOf hb.stored)]
    exact keysOf_inj hstored hversion (ha.comparable hstored).1 (hb.comparable hstored).1
  decided ka as kb bs ha hb pre spec post as₁ a as₂ bs₁ b bs₂ dtype c hspecs has hbs hlena hlenb hsame hdtype hc hne := by
    rw [compareClustering_eq hstored ha hb]
    have hca := (ha.comparable hstored).1
    have hcb := (hb.comparable hstored).1
    subst hspecs has hbs
    obtain ⟨hpre, dtype₁, hspec, hnd, hsa⟩ := forall₂_split hlena hca
    obtain ⟨hpre', dtype₂, hspec', -, hsb⟩ := forall₂_split hlenb hcb
    obtain rfl : dtype₁ = dtype := Option.some.inj (hspec.symm.trans hdtype)
    obtain rfl : dtype₂ = dtype₁ := Option.some.inj (hspec'.symm.trans hspec)
    have hkeys := (keysOf_inj hstored hversion hpre hpre').mpr hsame
    have hkeylen : (keysOf pre bs₁).length = (pre.map isDescending).length := by
      rw [keysOf, List.length_zipWith, List.length_map, hlenb, min_self]
    have hspeckey : ∀ v, specKey spec v = orderKey dtype₂ v := fun v => by
      rw [specKey, hspec]
      rfl
    rw [compareColumnValue_stored hstored hnd hsa hsb, Option.some.injEq] at hc
    have hdir : directed (isDescending spec) c ≠ 0 := fun h => hne (directed_eq_zero_iff.mp h)
    rw [keysOf_append hlena, keysOf_append hlenb, hkeys, List.map_append, compareLex_append hkeylen, List.map_cons,
      keysOf, keysOf, List.zipWith_cons_cons, List.zipWith_cons_cons, compareLex, hspeckey, hspeckey, hc, if_pos hdir,
      directed_isDescending, towards]

end

/-! ### When the order is one of the values -/

/-- The order is a total order of the values and of the full keys exactly when no two stored timeuuids differ in
the version alone: their comparison skips the version, and nothing checks it when they are stored. -/
theorem key_order_iff {stored : Basic → ColumnValue → Prop} (hstored : Wellformed stored) :
    ((∀ dtype, dtype ≠ .duration → ValueOrder dtype (stored dtype)) ∧ ∀ specs, KeyOrder specs stored) ↔
      VersionDetermined stored := by
  constructor
  · rintro ⟨hvalues, -⟩ a b ha hb hsame
    have hequal := (hvalues .timeuuid (by decide)).equal _ _ ha hb
    have hcmp : compareColumnValue (.uuid a) (.uuid b) .timeuuid = some 0 := by
      rw [compareColumnValue_stored hstored (by decide) ha hb, orderKey_timeuuid.mpr hsame, compareScalar_self]
    exact ColumnValue.uuid.inj (hequal.mp hcmp)
  · intro hversion
    exact ⟨fun _ hdtype => valueOrder hstored hversion hdtype, keyOrder hstored hversion⟩

/-- The timeuuids of version 1 are a case, with the values of the other types. -/
def storedVersionOne (dtype : Basic) (v : ColumnValue) : Prop :=
  storedVariant dtype v = true ∧ Representable v ∧ ∀ u, dtype = .timeuuid → v = .uuid u → uuidVersion u = 1

theorem key_order_version_one :
    (∀ dtype, dtype ≠ .duration → ValueOrder dtype (storedVersionOne dtype)) ∧ ∀ specs, KeyOrder specs storedVersionOne :=
  (key_order_iff fun _ _ h => ⟨h.1, h.2.1⟩).mpr fun a b ha hb hsame =>
    eq_of_sameButVersion hsame ((ha.2.2 a rfl rfl).trans (hb.2.2 b rfl rfl).symm)

def uuidOfVersion (version : UInt8) : Raw 16 := ⟨[0, 0, 0, 0, 0, 0, version <<< 4, 0, 0, 0, 0, 0, 0, 0, 0, 0], rfl⟩

/-- Of all well-formed values, the timeuuid of timestamp zero and the UUID with version 4 in place of its version 1
compare equal. -/
theorem timeuuids_of_two_versions :
    ¬((∀ dtype, dtype ≠ .duration → ValueOrder dtype fun v => storedVariant dtype v = true ∧ Representable v) ∧
      ∀ specs, KeyOrder specs fun dtype v => storedVariant dtype v = true ∧ Representable v) := by
  rintro ⟨hvalues, -⟩
  have hequal := (hvalues .timeuuid (by decide)).equal (.uuid (uuidOfVersion 1)) (.uuid (uuidOfVersion 4))
    ⟨rfl, trivial⟩ ⟨rfl, trivial⟩
  have hcmp : compareColumnValue (.uuid (uuidOfVersion 1)) (.uuid (uuidOfVersion 4)) .timeuuid = some 0 := by decide
  exact absurd (ColumnValue.uuid.inj (hequal.mp hcmp)) (by decide)

end Plexdb.Cql
