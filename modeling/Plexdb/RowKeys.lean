import Plexdb.RowLoad
import Plexdb.SchemaColumns

/-! The keys of a row: the partition key in front of a blob and the clustering key of the tree are read back as the
values they were written with, at the places that the key columns name. -/

namespace Plexdb.Cql

open Wire
open Schema (ColumnSpec clusteringKeyColIndices clusteringKeySpecs partitionKeyColIndices)

/-! ### Places of key columns -/

/-- The live columns of each key stand where their key positions say, and none is static. -/
structure KeysPlaced (cols : List Schema.Column) : Prop where
  pk : ∀ (ci : Nat) (col : Schema.Column), cols[ci]? = some col → col.tombstone = false → col.keyKind = .partitionKey →
    (partitionKeyColIndices cols)[col.keyPosition.toNat]? = some ci
  ck : ∀ (ci : Nat) (col : Schema.Column), cols[ci]? = some col → col.tombstone = false → col.keyKind = .clusteringKey →
    (clusteringKeyColIndices cols)[col.keyPosition.toNat]? = some ci
  notStatic : ∀ (ci : Nat) (col : Schema.Column), cols[ci]? = some col → col.keyKind ≠ .none → col.isStatic = false

theorem nodup_clusteringKeyColIndices (cols : List Schema.Column) : (clusteringKeyColIndices cols).Nodup := by
  rw [clusteringKeyColIndices, Schema.sortByKeyPosition, Schema.liveColumns_eq]
  exact (List.perm_insertionSort _ _).nodup_iff.mpr (List.nodup_range.filter _)

theorem KeysPlaced.idxOf_ck {cols : List Schema.Column} (h : KeysPlaced cols) {ci : Nat} {col : Schema.Column}
    (hcol : cols[ci]? = some col) (hlive : col.tombstone = false) (hkind : col.keyKind = .clusteringKey) :
    (clusteringKeyColIndices cols).idxOf ci = col.keyPosition.toNat := by
  obtain ⟨hlt, hget⟩ := List.getElem?_eq_some_iff.mp (h.ck ci col hcol hlive hkind)
  rw [← hget]
  exact (nodup_clusteringKeyColIndices cols).idxOf_getElem _ hlt

/-! ### Tables -/

/-- The second table is the first after changes that leave its keys alone: its columns, perhaps dropped, of types that
have grown, and further columns. -/
structure TableGrown (tbl tbl' : TableView) : Prop where
  column : ∀ (ci : Nat) (col : Schema.Column), tbl.cols[ci]? = some col → ∃ col', tbl'.cols[ci]? = some col' ∧ col'.isStatic = col.isStatic ∧
    col'.keyKind = col.keyKind ∧ col'.type = col.type ∧ (col.tombstone = true → col'.tombstone = true)
  type : ∀ ci t, tbl.columnType ci = some t → ∃ t', tbl'.columnType ci = some t' ∧ Grown t t'
  pk : partitionKeyColIndices tbl'.cols = partitionKeyColIndices tbl.cols
  ck : clusteringKeyColIndices tbl'.cols = clusteringKeyColIndices tbl.cols

theorem TableGrown.hasClusteringKeys {tbl tbl' : TableView} (h : TableGrown tbl tbl') :
    tbl'.hasClusteringKeys = tbl.hasClusteringKeys := by
  rw [TableView.hasClusteringKeys, TableView.hasClusteringKeys, h.ck]

/-! ### The partition key -/

/-- A value of a row under the types of a table. -/
def paddedValue (tbl : TableView) (row : RowArrays) (ci : Nat) : Option ColumnValue := do
  let t ← tbl.columnType ci
  let v ← row.colValues[ci]?
  pure (pad t v)

theorem StoredCell.paddedValue {tbl tbl' : TableView} {ci : Nat} {v : ColumnValue} {t t' : Ty} {row : RowArrays}
    (h : StoredCell tbl tbl' ci v t t') (hv : row.colValues[ci]? = some v) :
    Cql.paddedValue tbl' row ci = some (pad t' v) := by
  rw [Cql.paddedValue, h.type', hv]
  rfl

section

variable {tbl tbl' : TableView} {row : RowArrays}

/-- The partition key is read back, whatever comes behind it. -/
theorem readPkCells_written {cis : List Nat}
    (h : ∀ ci ∈ cis, row.present ci = true ∧ ∃ v t t', row.colValues[ci]? = some v ∧ StoredCell tbl tbl' ci v t t') :
    ∃ bytes vs, writeMany (writePkCell tbl row) cis = some bytes ∧ vs.map some = cis.map (paddedValue tbl' row) ∧
      ∀ rest, readPkCells tbl' cis (bytes ++ rest) = some (vs, rest) := by
  induction cis with
  | nil => exact ⟨[], [], rfl, rfl, fun _ => rfl⟩
  | cons ci cis ih =>
      obtain ⟨⟨hpresent, v, t, t', hv, hstored⟩, hcis⟩ := List.forall_mem_cons.mp h
      obtain ⟨back, vs, hback, hvs, hreadBack⟩ := ih hcis
      obtain ⟨front, hfront, hread⟩ := read_pad t t' v hstored.grown hstored.typed hstored.stored
      have hwrite : writePkCell tbl row ci = some front := by
        rw [writePkCell, hstored.type, hv, hpresent]
        exact hfront
      refine ⟨front ++ back, pad t' v :: vs, ?_, ?_, fun rest => ?_⟩
      · rw [writeMany, hwrite, hback]
        rfl
      · rw [List.map_cons, List.map_cons, hvs, hstored.paddedValue hv]
      · rw [readPkCells, hstored.type', Option.bind_eq_bind, Option.bind_some, List.append_assoc, hread,
          Option.bind_eq_bind, Option.bind_some]
        dsimp only
        rw [hreadBack]
        rfl

/-- The values of the key are of the variants that the reader builds. -/
theorem readAt_of_readPkCells {cis : List Nat} : ∀ {s rest : Bytes} {vs : List ColumnValue},
    readPkCells tbl cis s = some (vs, rest) → ∀ (k ci : Nat) (v : ColumnValue), cis[k]? = some ci → vs[k]? = some v →
      ReadAt tbl ci v := by
  induction cis with
  | nil =>
      intro s rest vs _ k ci v hci
      cases hci
  | cons c cis ih =>
      intro s rest vs h k ci v hci hv
      rw [readPkCells] at h
      obtain ⟨t, ht, h⟩ := Option.bind_eq_some_iff.mp h
      obtain ⟨⟨w, s₁⟩, hread, h⟩ := Option.bind_eq_some_iff.mp h
      obtain ⟨⟨ws, s₂⟩, hws, h⟩ := Option.bind_eq_some_iff.mp h
      obtain ⟨rfl, rfl⟩ := Prod.mk.inj (Option.some.inj h)
      cases k with
      | zero =>
          obtain rfl := Option.some.inj hci
          obtain rfl := Option.some.inj hv
          exact ⟨t, ht, storedAs_of_read t hread⟩
      | succ k => exact ih hws k ci v hci hv

end

/-! ### The clustering key -/

/-- The type of a clustering column. -/
def keyDtype (tbl : TableView) (ci : Nat) : Option Basic := (tbl.cols[ci]?).bind fun col => Schema.Ty.basic? col.type

/-- A value of a clustering column. -/
def KeyTyped (tbl : TableView) (ci : Nat) (v : ColumnValue) : Prop :=
  ∃ dtype, keyDtype tbl ci = some dtype ∧ WellTyped (.basic dtype) v

/-- The variant of the value is the one that is read back. -/
def KeyStored (tbl : TableView) (ci : Nat) (v : ColumnValue) : Prop :=
  ∀ dtype, keyDtype tbl ci = some dtype → storedVariant dtype v = true

theorem columnType_of_keyDtype {tbl : TableView} {ci : Nat} {dtype : Basic} (h : keyDtype tbl ci = some dtype) :
    tbl.columnType ci = some (.basic dtype) := by
  obtain ⟨col, hcol, hbasic⟩ := Option.bind_eq_some_iff.mp h
  rw [TableView.columnType, hcol]
  cases htype : col.type with
  | basic b =>
      rw [htype] at hbasic
      obtain rfl := Option.some.inj hbasic
      simp [htype, Schema.expand, Schema.expandWith]
  | _ =>
      rw [htype] at hbasic
      cases hbasic

theorem clusteringKeySpecs_eq_map (cols : List Schema.Column) :
    clusteringKeySpecs cols = (clusteringKeyColIndices cols).map fun ci =>
      ⟨(cols[ci]?).bind fun col => Schema.Ty.basic? col.type, (cols[ci]?).elim .asc (·.clusteringOrder)⟩ := by
  rw [clusteringKeySpecs, ← List.filterMap_eq_map]
  refine List.filterMap_congr fun ci hci => ?_
  obtain ⟨col, hcol, -⟩ := Schema.mem_clusteringKeyColIndices.mp hci
  simp only [hcol, Option.map_some, Function.comp_apply, Option.bind_some, Option.elim_some]

/-- The bytes of a clustering key decode to its values. -/
theorem decodeComponents_written {tbl : TableView} {cis : List Nat} {vs : List ColumnValue}
    (h : List.Forall₂ (fun ci v => ∃ dtype, keyDtype tbl ci = some dtype ∧ storedVariant dtype v = true ∧
      Representable v) cis vs) : decodeComponents tbl cis (vs.flatMap writeTypedBasic) = some vs := by
  induction h with
  | nil => rfl
  | cons hcomp _ ih =>
      obtain ⟨dtype, hdtype, hstored, hrep⟩ := hcomp
      obtain ⟨col, hcol, hbasic⟩ := Option.bind_eq_some_iff.mp hdtype
      have hpos := writeTypedBasic_pos hstored
      rw [List.flatMap_cons, decodeComponents, if_neg (by rw [List.length_append]; omega), hcol, Option.bind_eq_bind,
        Option.bind_some, hbasic, Option.bind_eq_bind, Option.bind_some, readBasic_writeTypedBasic hrep hstored,
        Option.bind_eq_bind, Option.bind_some]
      dsimp only
      rw [ih]
      rfl

theorem readAt_of_decodeComponents {tbl : TableView} {cis : List Nat} : ∀ {s : Bytes} {vs : List ColumnValue},
    decodeComponents tbl cis s = some vs → ∀ (k ci : Nat) (v : ColumnValue), cis[k]? = some ci → vs[k]? = some v →
      ReadAt tbl ci v := by
  induction cis with
  | nil =>
      intro s vs _ k ci v hci
      cases hci
  | cons c cis ih =>
      intro s vs h k ci v hci hv
      rw [decodeComponents] at h
      split_ifs at h
      · obtain rfl := Option.some.inj h
        cases hv
      obtain ⟨col, hcol, h⟩ := Option.bind_eq_some_iff.mp h
      obtain ⟨dtype, hdtype, h⟩ := Option.bind_eq_some_iff.mp h
      obtain ⟨⟨w, s₁⟩, hread, h⟩ := Option.bind_eq_some_iff.mp h
      obtain ⟨ws, hws, h⟩ := Option.bind_eq_some_iff.mp h
      obtain rfl := Option.some.inj h
      cases k with
      | zero =>
          obtain rfl := Option.some.inj hci
          obtain rfl := Option.some.inj hv
          have hkey : keyDtype tbl c = some dtype := by rw [keyDtype, hcol]; exact hdtype
          refine ⟨_, columnType_of_keyDtype hkey, ?_⟩
          rw [StoredAs]
          exact storedVariant_of_readBasic hread
      | succ k => exact ih hws k ci v hci hv

end Plexdb.Cql
