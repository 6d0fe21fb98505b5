import Plexdb.ColumnSync
import Plexdb.RowKeys

/-! The keys of rows and of indexes (`cql/engine/key.cpp`): the bytes of their components one after the other, shown
through views whose length is a `U16`, and decoded from a `U16` position. `none` is a failed assertion. -/

namespace Plexdb.Cql.Key

open Wire
open Schema (ColumnSpec clusteringKeyColIndices clusteringKeySpecs makeIndexKeySpecs)

/-! ### Views -/

/-- The bytes that `TArrayView<const U8, U16>(key.ptr, static_cast<U16>(key.length))` shows. -/
def viewOf (key : Bytes) : Bytes := key.take (key.length % 2 ^ 16)

def viewLength (view : Bytes) : UInt16 := UInt16.ofNat view.length

section

variable (view : Bytes)

/-- The loop of `decode_clustering`: the values, and the position where it stops. -/
def decodeFrom : List ColumnSpec → UInt16 → Option (List ColumnValue × UInt16)
  | [], pos => some ([], pos)
  | spec :: specs, pos =>
      if pos < viewLength view then
        spec.dtype.bind fun dtype =>
          (readColumnValueSync view (viewLength view) dtype pos).bind fun x =>
            (decodeFrom specs x.2).map fun rest => (x.1 :: rest.1, rest.2)
      else some ([], pos)

def decodeClustering (specs : List ColumnSpec) : Option (List ColumnValue × UInt16) := decodeFrom view specs 0

/-- The loop of `index_key_ck_start`. -/
def skipFrom : List ColumnSpec → UInt16 → Option UInt16
  | [], pos => some pos
  | spec :: specs, pos =>
      spec.dtype.bind fun dtype =>
        (readColumnValueSync view (viewLength view) dtype pos).bind fun x => skipFrom specs x.2

def indexKeyCkStart (keySpecs : List ColumnSpec) (ckCount : Nat) : Option UInt16 :=
  skipFrom view (keySpecs.take (keySpecs.length - ckCount)) 0

end

/-- `make_full_index_key`, of a prefix and two views. -/
def makeFullIndexKey (indexPrefix pkBytes ckBytes : Bytes) : Bytes := indexPrefix ++ pkBytes ++ ckBytes

/-! ### Keys of storable values -/

/-- A value that a column of the spec stores. -/
def Storable (spec : ColumnSpec) (v : ColumnValue) : Prop :=
  ∀ dtype, spec.dtype = some dtype → storedVariant dtype v = true ∧ Representable v

/-- A component that the assertions let pass: of a basic type, and no duration. -/
def Encodable (spec : ColumnSpec) : Prop := ∃ dtype, spec.dtype = some dtype ∧ dtype ≠ .duration

/-- A tuple that fits a view is decoded to itself, with all its bytes, and no key is cut off by its view. -/
structure ClusteringSound (specs : List ColumnSpec) (vs : List ColumnValue) : Prop where
  roundTrip : (vs.flatMap writeTypedBasic).length < 2 ^ 16 → ∃ key stop, encodeClustering specs vs = some key ∧
    decodeClustering (viewOf key) specs = some (vs, stop) ∧ stop.toNat = key.length
  whole : ∀ key, encodeClustering specs vs = some key → viewOf key = key

/-- The parts of a key of an index: the specs of the indexed value, of the partition key with its token and of the
clustering key, a storable value for each, and their bytes. -/
structure IndexKey (cols : List Schema.Column) (colIdx : Nat) (kind : Schema.IndexKind) where
  valueSpecs : List ColumnSpec
  pkSpecs : List ColumnSpec
  values : List ColumnValue
  pks : List ColumnValue
  cks : List ColumnValue
  valueBytes : Bytes
  pkBytes : Bytes
  ckBytes : Bytes
  specs : makeIndexKeySpecs cols colIdx kind = some (valueSpecs ++ pkSpecs ++ clusteringKeySpecs cols)
  valueStorable : List.Forall₂ Storable valueSpecs values
  pkStorable : List.Forall₂ Storable pkSpecs pks
  ckStorable : List.Forall₂ Storable (clusteringKeySpecs cols) cks
  valueEncoded : encodeComponents [] valueSpecs values = some valueBytes
  pkEncoded : encodeComponents [] pkSpecs pks = some pkBytes
  ckEncoded : encodeClustering (clusteringKeySpecs cols) cks = some ckBytes

namespace IndexKey

variable {cols : List Schema.Column} {colIdx : Nat} {kind : Schema.IndexKind} (key : IndexKey cols colIdx kind)

def length : Nat := key.valueBytes.length + key.pkBytes.length + key.ckBytes.length

/-- The key of the tree of the index. -/
def stored : Bytes := viewOf (makeFullIndexKey key.valueBytes (viewOf key.pkBytes) (viewOf key.ckBytes))

/-- The start of the clustering key is found in a key that fits a view, and no key is cut off. -/
structure Sound : Prop where
  start : key.length < 2 ^ 16 → ∃ pos,
    indexKeyCkStart key.stored (key.valueSpecs ++ key.pkSpecs ++ clusteringKeySpecs cols)
      (clusteringKeyColIndices cols).length = some pos ∧
    pos.toNat = key.valueBytes.length + key.pkBytes.length ∧ key.stored.drop pos.toNat = key.ckBytes
  whole : key.stored = key.valueBytes ++ key.pkBytes ++ key.ckBytes

end IndexKey

/-! ### Views that show all -/

theorem viewOf_eq_self {key : Bytes} (h : key.length < 2 ^ 16) : viewOf key = key := by
  rw [viewOf, Nat.mod_eq_of_lt h, List.take_length]

theorem length_viewOf_lt (key : Bytes) : (viewOf key).length < 2 ^ 16 := by
  rw [viewOf, List.length_take]
  exact (Nat.min_le_left _ _).trans_lt (Nat.mod_lt _ (Nat.two_pow_pos 16))

theorem viewOf_eq_self_iff {key : Bytes} : viewOf key = key ↔ key.length < 2 ^ 16 :=
  ⟨fun h => h ▸ length_viewOf_lt key, viewOf_eq_self⟩

theorem toNat_viewLength {view : Bytes} (h : view.length < 2 ^ 16) : (viewLength view).toNat = view.length :=
  UInt16.toNat_ofNat_of_lt' h

/-! ### Encoding -/

/-- A key is encoded when the assertions let all its components pass, and is then their bytes. -/
theorem encodeComponents_iff {specs : List ColumnSpec} {vs : List ColumnValue} (h : List.Forall₂ Storable specs vs)
    (out key : Bytes) : encodeComponents out specs vs = some key ↔
      (∀ spec ∈ specs, Encodable spec) ∧ key = out ++ vs.flatMap writeTypedBasic := by
  induction h generalizing out with
  | nil =>
      have hnil : encodeComponents out [] [] = some out := by simp [encodeComponents]
      rw [hnil, Option.some_inj, List.flatMap_nil, List.append_nil]
      exact ⟨fun heq => ⟨List.forall_mem_nil _, heq.symm⟩, fun h => h.2.symm⟩
  | @cons spec v specs vs hv _ ih =>
      rw [encodeComponents, Option.bind_eq_bind]
      cases hdtype : spec.dtype with
      | none =>
          refine iff_of_false (by simp) fun hall => ?_
          obtain ⟨dtype, hsome, -⟩ := hall.1 spec List.mem_cons_self
          rw [hdtype] at hsome
          cases hsome
      | some dtype =>
          rw [Option.bind_some, Option.bind_eq_bind]
          by_cases hduration : dtype = .duration
          · rw [appendComponent, if_pos hduration]
            refine iff_of_false (by simp) fun hall => ?_
            obtain ⟨dtype', hsome, hne⟩ := hall.1 spec List.mem_cons_self
            rw [hdtype, Option.some_inj] at hsome
            exact hne (hsome ▸ hduration)
          · rw [appendComponent_stored hduration (hv dtype hdtype).1, Option.bind_some, ih, List.flatMap_cons,
              List.append_assoc, List.forall_mem_cons]
            exact and_congr_left' (and_iff_right ⟨dtype, hdtype, hduration⟩).symm

theorem encodeClustering_iff {specs : List ColumnSpec} {vs : List ColumnValue} (h : List.Forall₂ Storable specs vs)
    (key : Bytes) : encodeClustering specs vs = some key ↔
      (∀ spec ∈ specs, Encodable spec) ∧ key = vs.flatMap writeTypedBasic := by
  rw [encodeClustering, if_pos h.length_eq.symm, encodeComponents_iff h, List.nil_append]

/-- No two tuples have the same key. -/
theorem encodeClustering_injective {specs : List ColumnSpec} {vs ws : List ColumnValue} {key : Bytes}
    (hvs : List.Forall₂ Storable specs vs) (hws : List.Forall₂ Storable specs ws)
    (hv : encodeClustering specs vs = some key) (hw : encodeClustering specs ws = some key) : vs = ws := by
  obtain ⟨hall, hkey⟩ := (encodeClustering_iff hvs key).mp hv
  obtain ⟨-, hkey'⟩ := (encodeClustering_iff hws key).mp hw
  have heq := hkey.symm.trans hkey'
  clear hv hw hkey hkey'
  induction hvs generalizing ws with
  | nil =>
      rw [List.forall₂_nil_left_iff] at hws
      exact hws.symm
  | @cons spec v specs vs hstored _ ih =>
      rw [List.forall₂_cons_left_iff] at hws
      obtain ⟨w, ws, hstored', hws, rfl⟩ := hws
      obtain ⟨⟨dtype, hdtype, -⟩, hrest⟩ := List.forall_mem_cons.mp hall
      obtain ⟨hv, hrv⟩ := hstored dtype hdtype
      obtain ⟨hw, hrw⟩ := hstored' dtype hdtype
      rw [List.flatMap_cons, List.flatMap_cons] at heq
      have hread := readBasic_writeTypedBasic hrv hv (vs.flatMap writeTypedBasic)
      rw [heq, readBasic_writeTypedBasic hrw hw, Option.some_inj] at hread
      obtain ⟨rfl, htail⟩ := Prod.mk.inj hread
      rw [ih hws hrest htail.symm]

/-! ### Decoding -/

section

variable {view : Bytes} (hview : view.length < 2 ^ 16)

include hview

theorem readColumnValueSync_stored {dtype : Basic} {v : ColumnValue} {pos : UInt16} {rest : Bytes}
    (hv : storedVariant dtype v = true) (hrep : Representable v)
    (hdrop : view.drop pos.toNat = writeTypedBasic v ++ rest) :
    ∃ stop, readColumnValueSync view (viewLength view) dtype pos = some (v, stop) ∧ view.drop stop.toNat = rest ∧
      stop.toNat = pos.toNat + (writeTypedBasic v).length := by
  have hread : readBasic dtype (view.drop pos.toNat) = some (v, rest) := by
    rw [hdrop]
    exact readBasic_writeTypedBasic hrep hv rest
  obtain ⟨stop, hsync, hrest, hstop⟩ := sync_of_read (toNat_viewLength hview).symm hread
  refine ⟨stop, hsync, hrest, ?_⟩
  rw [hstop, hdrop, List.length_append, Nat.add_sub_cancel]

theorem decodeFrom_encoded {specs : List ColumnSpec} {vs : List ColumnValue} (h : List.Forall₂ Storable specs vs)
    (hall : ∀ spec ∈ specs, Encodable spec) {pos : UInt16} (hpos : pos.toNat ≤ view.length)
    (hdrop : view.drop pos.toNat = vs.flatMap writeTypedBasic) :
    ∃ stop, decodeFrom view specs pos = some (vs, stop) ∧ stop.toNat = view.length := by
  induction h generalizing pos with
  | nil =>
      have hend := List.drop_eq_nil_iff.mp hdrop
      exact ⟨pos, rfl, Nat.le_antisymm hpos hend⟩
  | @cons spec v specs vs hstored _ ih =>
      obtain ⟨⟨dtype, hdtype, -⟩, hrest⟩ := List.forall_mem_cons.mp hall
      obtain ⟨hv, hrep⟩ := hstored dtype hdtype
      rw [List.flatMap_cons] at hdrop
      obtain ⟨next, hsync, hdrop', hnext⟩ := readColumnValueSync_stored hview hv hrep hdrop
      have hlen := congrArg List.length hdrop
      rw [List.length_drop, List.length_append] at hlen
      have hbytes := writeTypedBasic_pos hv
      have hlt : pos < viewLength view := by
        rw [UInt16.lt_iff_toNat_lt, toNat_viewLength hview]
        omega
      obtain ⟨stop, hdecode, hstop⟩ := ih hrest (by omega) hdrop'
      refine ⟨stop, ?_, hstop⟩
      rw [decodeFrom, if_pos hlt, hdtype, Option.bind_some, hsync, Option.bind_some, hdecode]
      rfl

theorem skipFrom_encoded {specs : List ColumnSpec} {vs : List ColumnValue} (h : List.Forall₂ Storable specs vs)
    (hall : ∀ spec ∈ specs, Encodable spec) {pos : UInt16} {rest : Bytes}
    (hdrop : view.drop pos.toNat = vs.flatMap writeTypedBasic ++ rest) :
    ∃ stop, skipFrom view specs pos = some stop ∧ view.drop stop.toNat = rest ∧
      stop.toNat = pos.toNat + (vs.flatMap writeTypedBasic).length := by
  induction h generalizing pos with
  | nil => exact ⟨pos, rfl, hdrop, rfl⟩
  | @cons spec v specs vs hstored _ ih =>
      obtain ⟨⟨dtype, hdtype, -⟩, hrest⟩ := List.forall_mem_cons.mp hall
      obtain ⟨hv, hrep⟩ := hstored dtype hdtype
      rw [List.flatMap_cons, List.append_assoc] at hdrop
      obtain ⟨next, hsync, hdrop', hnext⟩ := readColumnValueSync_stored hview hv hrep hdrop
      obtain ⟨stop, hskip, hdrop'', hstop⟩ := ih hrest hdrop'
      refine ⟨stop, ?_, hdrop'', ?_⟩
      · rw [skipFrom, hdtype, Option.bind_some, hsync, Option.bind_some, hskip]
      · rw [hstop, hnext, List.flatMap_cons, List.length_append, Nat.add_assoc]

end

/-! ### The row's reader -/

def keySpec (cols : List Schema.Column) (ci : Nat) : ColumnSpec :=
  ⟨(cols[ci]?).bind fun col => Schema.Ty.basic? col.type, (cols[ci]?).elim .asc (·.clusteringOrder)⟩

theorem decodeFrom_eq (tbl : TableView) {view : Bytes} (hview : view.length < 2 ^ 16) (cis : List Nat) {pos : UInt16}
    (hpos : pos.toNat ≤ view.length) :
    (decodeFrom view (cis.map (keySpec tbl.cols)) pos).map Prod.fst = decodeComponents tbl cis (view.drop pos.toNat) := by
  induction cis generalizing pos with
  | nil => rfl
  | cons ci cis ih =>
      rw [List.map_cons, decodeFrom, decodeComponents, keySpec, List.length_drop]
      by_cases hlt : pos < viewLength view
      · have hlt' : pos.toNat < view.length := by
          rw [← toNat_viewLength hview]
          exact UInt16.lt_iff_toNat_lt.mp hlt
        rw [if_pos hlt, if_neg (by omega)]
        cases tbl.cols[ci]? with
        | none => rfl
        | some col =>
            cases hdtype : Schema.Ty.basic? col.type with
            | none => simp only [Option.bind_some, Option.bind_eq_bind, hdtype, Option.bind_none, Option.map_none]
            | some dtype =>
                obtain ⟨hread, hwithin⟩ := Alike.columnValue (toNat_viewLength hview).symm dtype pos hpos
                simp only [Option.bind_some, Option.bind_eq_bind, hdtype, ← hread]
                cases hsync : readColumnValueSync view (viewLength view) dtype pos with
                | none => rfl
                | some x =>
                    have hnext := ih (hwithin x hsync)
                    simp only [Option.bind_some, Option.map_some, ← hnext, Option.map_map]
                    cases decodeFrom view (cis.map (keySpec tbl.cols)) x.2 with
                    | none => rfl
                    | some rest => rfl
      · have hend : ¬ pos.toNat < view.length := by
          rw [← toNat_viewLength hview]
          exact fun h => hlt (UInt16.lt_iff_toNat_lt.mpr h)
        rw [if_neg hlt, if_pos (by omega)]
        rfl

/-- The values that the iterator of a row decodes out of a key. -/
theorem decodeClustering_eq (tbl : TableView) (ck : KeyView) :
    (decodeClustering ck.bytes (clusteringKeySpecs tbl.cols)).map Prod.fst = Cql.decodeClustering tbl ck := by
  rw [clusteringKeySpecs_eq_map, decodeClustering, Cql.decodeClustering]
  exact decodeFrom_eq tbl ck.fits _ (Nat.zero_le _)

/-! ### Clustering keys -/

/-- A clustering key is sound when the assertions let its columns pass exactly if its bytes fit a view. -/
theorem clusteringSound_iff {specs : List ColumnSpec} {vs : List ColumnValue} (h : List.Forall₂ Storable specs vs) :
    ClusteringSound specs vs ↔ ((∀ spec ∈ specs, Encodable spec) ↔ (vs.flatMap writeTypedBasic).length < 2 ^ 16) := by
  constructor
  · intro hsound
    constructor
    · intro hall
      rw [← viewOf_eq_self_iff]
      exact hsound.whole _ ((encodeClustering_iff h _).mpr ⟨hall, rfl⟩)
    · intro hfits
      obtain ⟨key, stop, hencode, -⟩ := hsound.roundTrip hfits
      exact ((encodeClustering_iff h key).mp hencode).1
  · intro hiff
    refine ⟨fun hfits => ?_, fun key hkey => ?_⟩
    · have hall := hiff.mpr hfits
      have hview := viewOf_eq_self hfits
      have hstart : (0 : UInt16).toNat ≤ (vs.flatMap writeTypedBasic).length := Nat.zero_le _
      obtain ⟨stop, hdecode, hstop⟩ := decodeFrom_encoded hfits h hall hstart List.drop_zero
      refine ⟨vs.flatMap writeTypedBasic, stop, (encodeClustering_iff h _).mpr ⟨hall, rfl⟩, ?_, hstop⟩
      rw [hview]
      exact hdecode
    · obtain ⟨hall, rfl⟩ := (encodeClustering_iff h key).mp hkey
      exact viewOf_eq_self (hiff.mp hall)

/-! ### Keys of indexes -/

theorem length_clusteringKeySpecs (cols : List Schema.Column) :
    (clusteringKeySpecs cols).length = (clusteringKeyColIndices cols).length := by
  rw [clusteringKeySpecs_eq_map, List.length_map]

namespace IndexKey

variable {cols : List Schema.Column} {colIdx : Nat} {kind : Schema.IndexKind} (key : IndexKey cols colIdx kind)

/-- The key that is stored is whole when it fits a view. -/
theorem stored_eq_iff : key.stored = key.valueBytes ++ key.pkBytes ++ key.ckBytes ↔ key.length < 2 ^ 16 := by
  have hlength : key.length = (key.valueBytes ++ key.pkBytes ++ key.ckBytes).length := by
    rw [List.length_append, List.length_append]
    rfl
  constructor
  · intro h
    rw [hlength, ← h]
    exact length_viewOf_lt _
  · intro h
    have hpk : key.pkBytes.length < 2 ^ 16 := by
      rw [length] at h
      omega
    have hck : key.ckBytes.length < 2 ^ 16 := by
      rw [length] at h
      omega
    rw [stored, viewOf_eq_self hpk, viewOf_eq_self hck, makeFullIndexKey]
    exact viewOf_eq_self (hlength ▸ h)

/-- A key of an index is sound when it fits a view. -/
theorem sound_iff : key.Sound ↔ key.length < 2 ^ 16 := by
  refine ⟨fun h => key.stored_eq_iff.mp h.whole, fun h => ⟨fun _ => ?_, key.stored_eq_iff.mpr h⟩⟩
  have hwhole := key.stored_eq_iff.mpr h
  obtain ⟨hvalue, hvalueBytes⟩ := (encodeComponents_iff key.valueStorable [] _).mp key.valueEncoded
  obtain ⟨hpk, hpkBytes⟩ := (encodeComponents_iff key.pkStorable [] _).mp key.pkEncoded
  rw [List.nil_append] at hvalueBytes hpkBytes
  have hview : key.stored.length < 2 ^ 16 := length_viewOf_lt _
  have htake : (key.valueSpecs ++ key.pkSpecs ++ clusteringKeySpecs cols).take
      ((key.valueSpecs ++ key.pkSpecs ++ clusteringKeySpecs cols).length - (clusteringKeyColIndices cols).length) =
        key.valueSpecs ++ key.pkSpecs := by
    rw [List.length_append, length_clusteringKeySpecs, Nat.add_sub_cancel, List.take_left]
  have hfront : (key.values ++ key.pks).flatMap writeTypedBasic = key.valueBytes ++ key.pkBytes := by
    rw [List.flatMap_append, hvalueBytes, hpkBytes]
  have hdrop : key.stored.drop (0 : UInt16).toNat = (key.values ++ key.pks).flatMap writeTypedBasic ++ key.ckBytes := by
    rw [hfront, ← hwhole]
    exact List.drop_zero
  obtain ⟨pos, hskip, hrest, hpos⟩ := skipFrom_encoded hview (List.rel_append key.valueStorable key.pkStorable)
    (List.forall_mem_append.mpr ⟨hvalue, hpk⟩) hdrop
  refine ⟨pos, ?_, ?_, hrest⟩
  · rw [indexKeyCkStart, htake, hskip]
  · rw [hpos, hfront, List.length_append]
    exact Nat.zero_add _

end IndexKey

/-- Clustering keys are sound when they fit the views and no column of theirs trips an assertion, no two tuples have
the same key, and a key of an index is sound when it fits a view. -/
theorem key_codec_iff (cols : List Schema.Column) :
    (∀ vs, List.Forall₂ Storable (clusteringKeySpecs cols) vs → (ClusteringSound (clusteringKeySpecs cols) vs ↔
      ((∀ spec ∈ clusteringKeySpecs cols, Encodable spec) ↔ (vs.flatMap writeTypedBasic).length < 2 ^ 16))) ∧
    (∀ vs ws key, List.Forall₂ Storable (clusteringKeySpecs cols) vs → List.Forall₂ Storable (clusteringKeySpecs cols) ws →
      encodeClustering (clusteringKeySpecs cols) vs = some key →
        encodeClustering (clusteringKeySpecs cols) ws = some key → vs = ws) ∧
    ∀ colIdx kind (key : IndexKey cols colIdx kind), key.Sound ↔ key.length < 2 ^ 16 :=
  ⟨fun _ => clusteringSound_iff, fun _ _ _ => encodeClustering_injective, fun _ _ key => key.sound_iff⟩

/-- A table with one clustering column, a text. -/
def textKeyColumns : List Schema.Column :=
  [⟨false, false, ⟨[99], Nat.lt_of_sub_eq_succ rfl⟩, .basic .text, .clusteringKey, 0, .asc⟩]

theorem textKeySpecs : clusteringKeySpecs textKeyColumns = [⟨some .text, .asc⟩] := rfl

theorem storable_text {bytes : Bytes} (h : bytes.length < 2 ^ 64) :
    List.Forall₂ Storable (clusteringKeySpecs textKeyColumns) [.text bytes] := by
  rw [textKeySpecs]
  refine List.Forall₂.cons ?_ List.Forall₂.nil
  rintro _ ⟨⟩
  exact ⟨rfl, h⟩

theorem encodable_text : ∀ spec ∈ clusteringKeySpecs textKeyColumns, Encodable spec := by
  rw [textKeySpecs]
  intro spec hspec
  rw [List.mem_singleton.mp hspec]
  exact ⟨.text, rfl, by decide⟩

theorem key_codec_text : ClusteringSound (clusteringKeySpecs textKeyColumns) [.text [97]] :=
  ((key_codec_iff textKeyColumns).1 [.text [97]] (storable_text (by decide))).mpr
    (iff_of_true encodable_text (by decide))

theorem length_text_key (bytes : Bytes) :
    ([ColumnValue.text bytes].flatMap writeTypedBasic).length = 8 + bytes.length := by
  simp [writeTypedBasic, writePrefixed, writeCount, writeRaw, length_leBytes]

/-- The key of a text of 65528 bytes is encoded, and its view is empty. -/
theorem key_codec_truncates : ∃ key, encodeClustering (clusteringKeySpecs textKeyColumns)
    [.text (List.replicate 65528 97)] = some key ∧ viewOf key = [] ∧
      ¬ ClusteringSound (clusteringKeySpecs textKeyColumns) [.text (List.replicate 65528 97)] := by
  have hstorable := @storable_text (List.replicate 65528 97) (by rw [List.length_replicate]; decide)
  have hlength : ([ColumnValue.text (List.replicate 65528 97)].flatMap writeTypedBasic).length = 65536 := by
    rw [length_text_key, List.length_replicate]
  have hkey := (encodeClustering_iff hstorable _).mpr ⟨encodable_text, rfl⟩
  have hempty : viewOf ([ColumnValue.text (List.replicate 65528 97)].flatMap writeTypedBasic) = [] := by
    rw [viewOf, hlength]
    rfl
  refine ⟨_, hkey, hempty, fun hsound => ?_⟩
  have hwhole := hsound.whole _ hkey
  rw [hempty] at hwhole
  rw [← hwhole] at hlength
  cases hlength

end Plexdb.Cql.Key
