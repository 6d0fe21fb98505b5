import Plexdb.RowKeys

/-! Rows that were written under earlier schemas, as the column iterator reads them: each live column gives what was
last written of it, as long as the values stand in the variants of their types and every static column that has a
value is older than the blob of the row. -/

namespace Plexdb.Cql

open Wire
open Schema (clusteringKeyColIndices partitionKeyColIndices)

/-! ### What was last written -/

/-- A `write_row_blob` under the table of its time. -/
structure RowWrite where
  tbl : TableView
  row : RowArrays
  metadata : RowMetadata

/-- A `rewrite_static` under the table of its time. -/
structure StaticWrite where
  tbl : TableView
  row : RowArrays

/-- The last writes behind a row, and the clustering key that leads to it. A partition with static values alone is
a row without a blob, and a table without clustering keys has no static blobs. -/
structure StoredRow where
  row : Option RowWrite
  static : Option StaticWrite
  ckValues : List ColumnValue
  ck : KeyView

def RowWrite.blob (r : RowWrite) : Option Bytes := writeRowBlob r.tbl r.row r.metadata

def StaticWrite.blob (s : StaticWrite) : Option Bytes := rewriteStatic s.tbl s.row

/-- The column has a cell in the blob or stands in front of it. -/
def RowWrite.writes (r : RowWrite) (ci : Nat) : Prop :=
  isRowActive r.tbl r.row ci = true ∨ r.tbl.hasClusteringKeys = false ∧ ci ∈ partitionKeyColIndices r.tbl.cols

def StaticWrite.writes (s : StaticWrite) (ci : Nat) : Prop :=
  isStaticActive s.tbl s.row ci = true ∨ ci ∈ partitionKeyColIndices s.tbl.cols

/-- The value of the column is of the variant that is read back for its type. -/
def InVariant (tbl : TableView) (row : RowArrays) (ci : Nat) : Prop :=
  ∀ t v, tbl.columnType ci = some t → row.colValues[ci]? = some v → StoredAs t v

def StoredRow.StoredAt (w : StoredRow) (ci : Nat) : Prop :=
  (∀ r, w.row = some r → r.writes ci → InVariant r.tbl r.row ci) ∧
    ∀ s, w.static = some s → s.writes ci → InVariant s.tbl s.row ci

/-- What a cell holds for the reader: its value under the type of today, and its own metadata or those of the row. -/
def cellOut (tbl : TableView) (row : RowArrays) (metadata : RowMetadata) (ci : Nat) : ColumnValue × CellMetadata :=
  if row.present ci then
    ((paddedValue tbl row ci).getD .null, (row.metaOf ci).getD (deriveCellMetaFromRow metadata))
  else (.null, {})

/-- The arrays that the partition key was written from. -/
def StoredRow.pkArrays (w : StoredRow) (tbl : TableView) : Option RowArrays :=
  if tbl.hasClusteringKeys then w.static.map (·.row) else w.row.map (·.row)

/-- What was last written of a column. -/
def StoredRow.lastWritten (w : StoredRow) (tbl : TableView) (ci : Nat) (col : Schema.Column) :
    ColumnValue × CellMetadata :=
  match col.keyKind with
  | .partitionKey => (((w.pkArrays tbl).bind fun row => paddedValue tbl row ci).getD .null, {})
  | .clusteringKey => (w.ckValues.getD ((clusteringKeyColIndices tbl.cols).idxOf ci) .null, {})
  | .none =>
      if col.isStatic then w.static.elim (.null, {}) fun s => cellOut tbl s.row {} ci
      else w.row.elim (.null, {}) fun r => cellOut tbl r.row r.metadata ci

/-- Whatever columns a walk dereferences, it gives of each live one what was last written. -/
def StoredRow.ReadsBack (w : StoredRow) (tbl : TableView) : Prop :=
  ∃ rowBlob staticBlob it, w.row.map RowWrite.blob = rowBlob.map some ∧
    w.static.map StaticWrite.blob = staticBlob.map some ∧ load tbl rowBlob staticBlob w.ck = some it ∧
    ∀ ds : List Bool, ∃ outs, it.walk tbl ds = some outs ∧ ∀ ci col, tbl.cols[ci]? = some col → col.tombstone = false →
      ds[ci]? = some true → outs[ci]? = some (some (w.lastWritten tbl ci col))

/-! ### Rows under a later table -/

/-- The arrays were written under `tbl`, which has since become `tbl'`. -/
structure WrittenUnder (tbl : TableView) (row : RowArrays) (tbl' : TableView) : Prop where
  grown : TableGrown tbl tbl'
  columns : 0 < tbl.cols.length
  bound : tbl.cols.length < 2 ^ 64
  typed : ∀ ci, row.present ci = true →
    ∃ t v, tbl.columnType ci = some t ∧ row.colValues[ci]? = some v ∧ WellTyped t v
  pk : ∀ ci ∈ partitionKeyColIndices tbl.cols, row.present ci = true
  normal : ∀ ci m, row.metaOf ci = some m → m.Normal

/-- A value of a clustering column in the variant of its type. -/
def KeyComponent (tbl : TableView) (ci : Nat) (v : ColumnValue) : Prop :=
  ∃ dtype, keyDtype tbl ci = some dtype ∧ storedVariant dtype v = true ∧ Representable v

structure StoredRow.Written (w : StoredRow) (tbl : TableView) : Prop where
  keys : KeysPlaced tbl.cols
  columns : tbl.cols.length ≠ 0
  row : ∀ r, w.row = some r → WrittenUnder r.tbl r.row tbl
  static : ∀ s, w.static = some s → WrittenUnder s.tbl s.row tbl
  partition : tbl.hasClusteringKeys = true → w.static.isSome
  single : tbl.hasClusteringKeys = false → w.row.isSome ∧ w.static = none
  ck : List.Forall₂ (KeyComponent tbl) (if w.row.isSome then clusteringKeyColIndices tbl.cols else []) w.ckValues
  ckBytes : w.ck.bytes = w.ckValues.flatMap writeTypedBasic

/-- The values of the live columns are of the variants that are read back, and a row has a blob with a bit for each
live static column that has a value. -/
structure StoredRow.Readable (w : StoredRow) (tbl : TableView) : Prop where
  stored : ∀ ci col, tbl.cols[ci]? = some col → col.tombstone = false → w.StoredAt ci
  known : ∀ ci col, tbl.cols[ci]? = some col → col.tombstone = false → col.isStatic = true → ∀ s r,
    w.static = some s → s.row.present ci = true → w.row = some r → ci < r.tbl.cols.length

/-- The values of the dropped columns are of the variants that a walk skips. -/
def StoredRow.DroppedStored (w : StoredRow) (tbl : TableView) : Prop :=
  ∀ ci col, tbl.cols[ci]? = some col → col.tombstone = true → w.StoredAt ci

section

variable {tbl tbl' : TableView} {row : RowArrays}

theorem columnType_lt {ci : Nat} {t : Ty} (h : tbl.columnType ci = some t) : ci < tbl.cols.length := by
  obtain ⟨col, hcol, -⟩ := Option.bind_eq_some_iff.mp h
  exact (List.getElem?_eq_some_iff.mp hcol).1

theorem TableGrown.length_le (h : TableGrown tbl tbl') : tbl.cols.length ≤ tbl'.cols.length := by
  by_contra hlt
  rw [not_le] at hlt
  obtain ⟨col, hcol, -⟩ := h.column _ _ (List.getElem?_eq_getElem hlt)
  exact absurd (List.getElem?_eq_some_iff.mp hcol).1 (lt_irrefl _)

/-- The column of the later table at a place of the earlier one. -/
theorem TableGrown.column_of (h : TableGrown tbl tbl') {ci : Nat} {col' : Schema.Column}
    (hcol' : tbl'.cols[ci]? = some col') (hlt : ci < tbl.cols.length) :
    ∃ col, tbl.cols[ci]? = some col ∧ col'.isStatic = col.isStatic ∧ col'.keyKind = col.keyKind := by
  have hcol : tbl.cols[ci]? = some tbl.cols[ci] := List.getElem?_eq_getElem hlt
  obtain ⟨col'', hcol'', hstatic, hkind, -⟩ := h.column ci _ hcol
  rw [hcol', Option.some_inj] at hcol''
  subst hcol''
  exact ⟨_, hcol, hstatic, hkind⟩

theorem WrittenUnder.storedCell (h : WrittenUnder tbl row tbl') {ci : Nat} (hpresent : row.present ci = true)
    (hstored : InVariant tbl row ci) :
    ∃ v t t', row.colValues[ci]? = some v ∧ StoredCell tbl tbl' ci v t t' := by
  obtain ⟨t, v, ht, hv, htyped⟩ := h.typed ci hpresent
  obtain ⟨t', ht', hgrown⟩ := h.grown.type ci t ht
  exact ⟨v, t, t', hv, ht, ht', hgrown, htyped, hstored t v ht hv⟩

/-- A column that was written reads as a value other than null. -/
theorem WrittenUnder.padded_ne_null (h : WrittenUnder tbl row tbl') {ci : Nat} (hpresent : row.present ci = true) :
    ∃ v t t', row.colValues[ci]? = some v ∧ tbl.columnType ci = some t ∧ tbl'.columnType ci = some t' ∧
      Grown t t' ∧ WellTyped t v ∧ paddedValue tbl' row ci = some (pad t' v) ∧ pad t' v ≠ .null := by
  obtain ⟨t, v, ht, hv, htyped⟩ := h.typed ci hpresent
  obtain ⟨t', ht', hgrown⟩ := h.grown.type ci t ht
  refine ⟨v, t, t', hv, ht, ht', hgrown, htyped, ?_, ?_⟩
  · rw [paddedValue, ht', hv]
    rfl
  · intro hnull
    have hisNull := isNull_pad t' v
    rw [hnull, isNull_of_wellTyped htyped] at hisNull
    cases hisNull

/-- The partition key in front of a blob is read back. -/
theorem WrittenUnder.pkPreamble (h : WrittenUnder tbl row tbl')
    (hstored : ∀ ci ∈ partitionKeyColIndices tbl.cols, InVariant tbl row ci) :
    ∃ bytes vs, writePkPreamble tbl row = some bytes ∧
      vs.map some = (partitionKeyColIndices tbl'.cols).map (paddedValue tbl' row) ∧
      ∀ rest, readPkPreamble tbl' (bytes ++ rest) = some (vs, rest) := by
  have hcells : ∀ ci ∈ partitionKeyColIndices tbl.cols, row.present ci = true ∧
      ∃ v t t', row.colValues[ci]? = some v ∧ StoredCell tbl tbl' ci v t t' :=
    fun ci hci => ⟨h.pk ci hci, h.storedCell (h.pk ci hci) (hstored ci hci)⟩
  obtain ⟨bytes, vs, hwrite, hvs, hread⟩ := readPkCells_written hcells
  rw [writePkPreamble, h.grown.pk]
  refine ⟨bytes, vs, hwrite, hvs, fun rest => ?_⟩
  rw [readPkPreamble, h.grown.pk]
  exact hread rest

theorem WrittenUnder.cellsStored (h : WrittenUnder tbl row tbl') {isActive : Nat → Bool}
    (hpresent : ∀ ci, isActive ci = true → row.present ci = true)
    (hstored : ∀ ci, isActive ci = true → InVariant tbl row ci) : CellsStored tbl tbl' row isActive where
  cell ci hactive := h.storedCell (hpresent ci hactive) (hstored ci hactive)
  normal := h.normal
  bound ci hactive := by
    obtain ⟨t, v, ht, -⟩ := h.typed ci (hpresent ci hactive)
    exact columnType_lt ht

theorem present_of_isRowActive {ci : Nat} (h : isRowActive tbl row ci = true) : row.present ci = true :=
  (Bool.and_eq_true_iff.mp h).1

theorem present_of_isStaticActive {ci : Nat} (h : isStaticActive tbl row ci = true) : row.present ci = true :=
  (Bool.and_eq_true_iff.mp h).1

end

/-! ### Loading -/

/-- A section without a cell. -/
theorem cellsAt_empty (tbl : TableView) : CellsAt tbl (fun _ => {}) (fun _ => none) where
  bit i := cellBit_nil i
  metaBit i := cellBit_nil i
  absent _ _ := rfl
  read i m v h := by cases h

/-- What a blob of a row gives: its cells, and the partition key in a table without clustering keys. -/
structure RowLoads (tbl : TableView) (r : RowWrite) (bytes : Bytes) (pk : List ColumnValue) (cells : Nat → CellSection) :
    Prop where
  cellsAt : CellsAt tbl cells (cellsOf tbl r.row (isRowActive r.tbl r.row))
  metadataAt : ∀ i, (cells i).metadata = r.metadata
  pkAt : tbl.hasClusteringKeys = false → pk.map some = (partitionKeyColIndices tbl.cols).map (paddedValue tbl r.row)
  load : ∀ it : ColumnIterator, loadRow tbl it bytes = some { it with
    injectedPkValues := if tbl.hasClusteringKeys then it.injectedPkValues else pk
    metadata := r.metadata
    rowColumnCount := r.tbl.cols.length
    row := cells 0 }

theorem RowWrite.loads {tbl : TableView} {r : RowWrite} (h : WrittenUnder r.tbl r.row tbl)
    (hstored : ∀ ci, r.writes ci → InVariant r.tbl r.row ci) :
    ∃ bytes pk cells, r.blob = some bytes ∧ RowLoads tbl r bytes pk cells := by
  have hcells := h.cellsStored (fun ci => present_of_isRowActive) fun ci hactive => hstored ci (Or.inl hactive)
  obtain ⟨bytes, cells, hwrite, -, hheader, hat, hmetadata⟩ := hcells.readBlobHeader r.metadata h.bound
  have hkeys := h.grown.hasClusteringKeys
  cases hck : r.tbl.hasClusteringKeys with
  | true =>
      rw [hck] at hkeys
      refine ⟨bytes, [], cells, ?_, hat, hmetadata, ?_, fun it => ?_⟩
      · rw [RowWrite.blob, writeRowBlob, hck, if_pos rfl, hwrite]
        rfl
      · rw [hkeys]
        exact fun hfalse => Bool.noConfusion hfalse
      · rw [loadRow, hkeys, if_pos rfl, Option.bind_eq_bind, Option.bind_some]
        dsimp only
        rw [hheader, Option.bind_eq_bind, Option.bind_some, hmetadata 0, if_pos rfl]
        rfl
  | false =>
      rw [hck] at hkeys
      obtain ⟨preamble, vs, hpreamble, hvs, hread⟩ := h.pkPreamble fun ci hci => hstored ci (Or.inr ⟨hck, hci⟩)
      refine ⟨preamble ++ bytes, vs, cells, ?_, hat, hmetadata, fun _ => hvs, fun it => ?_⟩
      · rw [RowWrite.blob, writeRowBlob, hck, if_neg Bool.false_ne_true, hpreamble, hwrite]
        rfl
      · rw [loadRow, hkeys, if_neg Bool.false_ne_true, hread, Option.bind_eq_bind, Option.bind_some]
        dsimp only
        rw [hheader, Option.bind_eq_bind, Option.bind_some, hmetadata 0, if_neg Bool.false_ne_true]
        rfl

/-- The columns with a cell in the static blob. -/
def StaticWrite.active (s : StaticWrite) (ci : Nat) : Bool := anyStatic s.tbl s.row && isStaticActive s.tbl s.row ci

/-- What a static blob gives: its cells and the partition key. -/
structure StaticLoads (tbl : TableView) (s : StaticWrite) (bytes : Bytes) (pk : List ColumnValue)
    (cells : Nat → CellSection) : Prop where
  cellsAt : CellsAt tbl cells (cellsOf tbl s.row s.active)
  metadataAt : ∀ i, (cells i).metadata = {}
  pkAt : pk.map some = (partitionKeyColIndices tbl.cols).map (paddedValue tbl s.row)
  load : ∀ it : ColumnIterator, loadStatic tbl it bytes = some { it with injectedPkValues := pk, static := some (cells 0) }

theorem StaticWrite.loads {tbl : TableView} {s : StaticWrite} (h : WrittenUnder s.tbl s.row tbl)
    (hstored : ∀ ci, s.writes ci → InVariant s.tbl s.row ci) :
    ∃ bytes pk cells, s.blob = some bytes ∧ StaticLoads tbl s bytes pk cells := by
  obtain ⟨preamble, vs, hpreamble, hvs, hread⟩ := h.pkPreamble fun ci hci => hstored ci (Or.inr hci)
  cases hany : anyStatic s.tbl s.row with
  | false =>
      have hnone : cellsOf tbl s.row s.active = fun _ => none := by
        funext ci
        rw [cellsOf, StaticWrite.active, hany, Bool.false_and, if_neg Bool.false_ne_true]
      refine ⟨preamble ++ [], vs, fun _ => {}, ?_, hnone ▸ cellsAt_empty tbl, fun _ => rfl, hvs, fun it => ?_⟩
      · rw [StaticWrite.blob, rewriteStatic, hpreamble, hany]
        rfl
      · rw [loadStatic, hread]
        rfl
  | true =>
      have hactive : s.active = isStaticActive s.tbl s.row := by
        funext ci
        rw [StaticWrite.active, hany, Bool.true_and]
      have hcells := h.cellsStored (fun ci => present_of_isStaticActive) fun ci hactive => hstored ci (Or.inl hactive)
      obtain ⟨bytes, cells, hwrite, hne, hheader, hat, hmetadata⟩ := hcells.readBlobHeader {} h.bound
      refine ⟨preamble ++ bytes, vs, cells, ?_, hactive ▸ hat, hmetadata, hvs, fun it => ?_⟩
      · rw [StaticWrite.blob, rewriteStatic, hpreamble, hany, hwrite]
        rfl
      · rw [loadStatic, hread, Option.bind_eq_bind, Option.bind_some]
        dsimp only
        rw [if_pos (List.length_pos_iff.mpr hne), hheader]
        rfl

/-- The cells that the two blobs of the row hold. -/
def StoredRow.cells (w : StoredRow) (tbl : TableView) : Cells where
  row := w.row.elim (fun _ => none) fun r => cellsOf tbl r.row (isRowActive r.tbl r.row)
  hasStatic := tbl.hasClusteringKeys
  static := w.static.elim (fun _ => none) fun s => cellsOf tbl s.row s.active
  metadata := w.row.elim {} (·.metadata)

/-- The columns that a walk visits: those of the table when the row was written. -/
def StoredRow.columnCount (w : StoredRow) (tbl : TableView) : Nat :=
  w.row.elim tbl.cols.length (·.tbl.cols.length)

section

variable {tbl : TableView} {w : StoredRow}

theorem StoredRow.Written.storedAt (hw : w.Written tbl) (hr : w.Readable tbl) (hd : w.DroppedStored tbl) (ci : Nat) :
    w.StoredAt ci := by
  have hall (hci : ci < tbl.cols.length) : w.StoredAt ci := by
    have hcol : tbl.cols[ci]? = some tbl.cols[ci] := List.getElem?_eq_getElem hci
    cases hdead : tbl.cols[ci].tombstone with
    | false => exact hr.stored ci _ hcol hdead
    | true => exact hd ci _ hcol hdead
  have hlt {tbl₀ : TableView} {row : RowArrays} (h : WrittenUnder tbl₀ row tbl) (hpresent : row.present ci = true) :
      ci < tbl.cols.length := by
    obtain ⟨t, v, ht, -⟩ := h.typed ci hpresent
    exact (columnType_lt ht).trans_le h.grown.length_le
  refine ⟨fun r hrow hwrites => ?_, fun s hstatic hwrites => ?_⟩
  · have h := hw.row r hrow
    have hpresent : r.row.present ci = true := by
      rcases hwrites with hactive | ⟨-, hpk⟩
      · exact present_of_isRowActive hactive
      · exact h.pk ci hpk
    exact (hall (hlt h hpresent)).1 r hrow hwrites
  · have h := hw.static s hstatic
    have hpresent : s.row.present ci = true := by
      rcases hwrites with hactive | hpk
      · exact present_of_isStaticActive hactive
      · exact h.pk ci hpk
    exact (hall (hlt h hpresent)).2 s hstatic hwrites

theorem StoredRow.Written.columnCount_pos (hw : w.Written tbl) : 0 < w.columnCount tbl := by
  rw [StoredRow.columnCount]
  cases hrow : w.row with
  | none => exact Nat.pos_of_ne_zero hw.columns
  | some r => exact (hw.row r hrow).columns

theorem StoredRow.Written.columnCount_le (hw : w.Written tbl) : w.columnCount tbl ≤ tbl.cols.length := by
  rw [StoredRow.columnCount]
  cases hrow : w.row with
  | none => exact le_rfl
  | some r => exact (hw.row r hrow).grown.length_le

/-- The clustering key decodes to the values it was made of. -/
theorem StoredRow.Written.decodeClustering (hw : w.Written tbl) : decodeClustering tbl w.ck = some w.ckValues := by
  have hck := hw.ck
  rw [Cql.decodeClustering, hw.ckBytes]
  cases hrow : w.row with
  | some r =>
      rw [hrow, Option.isSome_some, if_pos rfl] at hck
      exact decodeComponents_written hck
  | none =>
      rw [hrow, Option.isSome_none, if_neg Bool.false_ne_true] at hck
      obtain hnil := List.forall₂_nil_left_iff.mp hck
      rw [hnil, List.flatMap_nil]
      cases clusteringKeyColIndices tbl.cols with
      | nil => rfl
      | cons ci cis => rfl

/-- Loading the blob of the row, where there is one. -/
theorem StoredRow.Written.loadsRow (hw : w.Written tbl) (hstored : ∀ ci, w.StoredAt ci) :
    ∃ (rowBlob : Option Bytes) (pk : List ColumnValue) (cells : Nat → CellSection),
      w.row.map RowWrite.blob = rowBlob.map some ∧ CellsAt tbl cells (w.cells tbl).row ∧
      (∀ i, (cells i).metadata = (w.cells tbl).metadata) ∧
      (tbl.hasClusteringKeys = false → pk.map some =
        (partitionKeyColIndices tbl.cols).map fun ci => (w.pkArrays tbl).bind fun row => paddedValue tbl row ci) ∧
      rowBlob.elim (some { rowColumnCount := tbl.cols.length }) (loadRow tbl { rowColumnCount := tbl.cols.length }) =
        some { injectedPkValues := pk, metadata := (w.cells tbl).metadata, rowColumnCount := w.columnCount tbl,
               row := cells 0 } := by
  rw [StoredRow.cells, StoredRow.columnCount, StoredRow.pkArrays]
  cases hrow : w.row with
  | none =>
      refine ⟨none, [], fun _ => {}, rfl, cellsAt_empty tbl, fun _ => rfl, fun hck => ?_, rfl⟩
      have hsome := (hw.single hck).1
      rw [hrow] at hsome
      cases hsome
  | some r =>
      obtain ⟨bytes, pk, cells, hblob, hloads⟩ := RowWrite.loads (hw.row r hrow) fun ci => (hstored ci).1 r hrow
      refine ⟨some bytes, if tbl.hasClusteringKeys then [] else pk, cells, congrArg some hblob, hloads.cellsAt,
        hloads.metadataAt, fun hck => ?_, hloads.load _⟩
      rw [hck, if_neg Bool.false_ne_true, hloads.pkAt hck]
      rfl

/-- Loading the static blob, where there is one. -/
theorem StoredRow.Written.loadsStatic (hw : w.Written tbl) (hstored : ∀ ci, w.StoredAt ci)
    (hck : tbl.hasClusteringKeys = true) :
    ∃ (staticBlob : Option Bytes) (pk : List ColumnValue) (cells : Nat → CellSection),
      w.static.map StaticWrite.blob = staticBlob.map some ∧
      CellsAt tbl cells (w.cells tbl).static ∧ (∀ i, (cells i).metadata = {}) ∧
      (pk.map some =
        (partitionKeyColIndices tbl.cols).map fun ci => (w.pkArrays tbl).bind fun row => paddedValue tbl row ci) ∧
      ∀ it, staticBlob.elim (some it) (loadStatic tbl it) =
        some { it with injectedPkValues := pk, static := some (cells 0) } := by
  obtain ⟨s, hstatic⟩ := Option.isSome_iff_exists.mp (hw.partition hck)
  obtain ⟨bytes, pk, cells, hblob, hloads⟩ := StaticWrite.loads (hw.static s hstatic) fun ci => (hstored ci).2 s hstatic
  rw [StoredRow.cells, StoredRow.pkArrays, hstatic, if_pos hck]
  exact ⟨some bytes, pk, cells, congrArg some hblob, hloads.cellsAt, hloads.metadataAt, hloads.pkAt, hloads.load⟩

/-- A row blob holds no static columns. -/
theorem StoredRow.Written.rowOnly (hw : w.Written tbl) {i : Nat} {col : Schema.Column} (hcol : tbl.cols[i]? = some col)
    (hstatic : col.isStatic = true) : (w.cells tbl).row i = none := by
  rw [StoredRow.cells]
  cases hrow : w.row with
  | none => rfl
  | some r =>
      have hidle : isRowActive r.tbl r.row i = false := by
        rw [isRowActive]
        cases hcol₀ : r.tbl.cols[i]? with
        | none => rw [Option.any_none, Bool.and_false]
        | some col₀ =>
            obtain ⟨col', hcol', hsame, -⟩ := (hw.row r hrow).grown.column i col₀ hcol₀
            rw [hcol, Option.some_inj] at hcol'
            rw [Option.any_some, ← hsame, ← hcol', hstatic, Bool.not_true, Bool.false_and, Bool.and_false]
      exact if_neg (by rw [hidle]; exact Bool.false_ne_true)

/-- A static blob holds static columns only. -/
theorem StoredRow.Written.staticOnly (hw : w.Written tbl) {i : Nat} {col : Schema.Column}
    (hcol : tbl.cols[i]? = some col) (hstatic : col.isStatic = false) : (w.cells tbl).static i = none := by
  rw [StoredRow.cells]
  cases hs : w.static with
  | none => rfl
  | some s =>
      have hidle : s.active i = false := by
        rw [StaticWrite.active, isStaticActive]
        cases hcol₀ : s.tbl.cols[i]? with
        | none => rw [Option.any_none, Bool.and_false, Bool.and_false]
        | some col₀ =>
            obtain ⟨col', hcol', hsame, -⟩ := (hw.static s hs).grown.column i col₀ hcol₀
            rw [hcol, Option.some_inj] at hcol'
            rw [Option.any_some, ← hsame, ← hcol', hstatic, Bool.and_false, Bool.and_false]
      exact if_neg (by rw [hidle]; exact Bool.false_ne_true)

/-- Loading stands before the first column of the cells that the blobs hold. -/
theorem StoredRow.Written.loads (hw : w.Written tbl) (hstored : ∀ ci, w.StoredAt ci) :
    ∃ (rowBlob staticBlob : Option Bytes) (it : ColumnIterator) (pk : List ColumnValue) (b : Sections tbl (w.cells tbl)),
      w.row.map RowWrite.blob = rowBlob.map some ∧ w.static.map StaticWrite.blob = staticBlob.map some ∧
      load tbl rowBlob staticBlob w.ck = some it ∧ b.Before 0 (w.columnCount tbl) pk w.ckValues it ∧
      pk.map some =
        (partitionKeyColIndices tbl.cols).map fun ci => (w.pkArrays tbl).bind fun row => paddedValue tbl row ci := by
  obtain ⟨rowBlob, pkRow, rowCells, hrowBlob, hrowAt, hrowMeta, hrowPk, hrowLoad⟩ := hw.loadsRow hstored
  cases hck : tbl.hasClusteringKeys with
  | true =>
      obtain ⟨staticBlob, pk, staticCells, hstaticBlob, hstaticAt, hstaticMeta, hpk, hstaticLoad⟩ :=
        hw.loadsStatic hstored hck
      let it : ColumnIterator :=
        { injectedPkValues := pk
          injectedCkValues := w.ckValues
          metadata := (w.cells tbl).metadata
          rowColumnCount := w.columnCount tbl
          row := rowCells 0
          static := some (staticCells 0) }
      refine ⟨rowBlob, staticBlob, it, pk, ⟨rowCells, staticCells, hrowAt, hstaticAt, hrowMeta, hstaticMeta,
        fun i col => hw.rowOnly, fun i col => hw.staticOnly⟩, hrowBlob, hstaticBlob, ?_, ?_, hpk⟩
      · rw [load, if_neg hw.columns]
        dsimp only
        rw [hrowLoad, Option.bind_eq_bind, Option.bind_some, if_pos hck, hstaticLoad, Option.bind_eq_bind,
          Option.bind_some, hw.decodeClustering]
        rfl
      · have hhas : (w.cells tbl).hasStatic = true := hck
        exact ⟨⟨rfl, (if_pos hhas).symm⟩, (decide_eq_true hw.columnCount_pos).symm, rfl, fun _ => rfl, rfl, rfl, rfl⟩
  | false =>
      have hstatic := (hw.single hck).2
      have hnone : (w.cells tbl).static = fun _ => none := by rw [StoredRow.cells, hstatic]; rfl
      let it : ColumnIterator :=
        { injectedPkValues := pkRow
          injectedCkValues := w.ckValues
          metadata := (w.cells tbl).metadata
          rowColumnCount := w.columnCount tbl
          row := rowCells 0 }
      refine ⟨rowBlob, none, it, pkRow, ⟨rowCells, fun _ => {}, hrowAt, hnone ▸ cellsAt_empty tbl, hrowMeta,
        fun _ => rfl, fun i col => hw.rowOnly, fun i col => hw.staticOnly⟩, hrowBlob, by rw [hstatic]; rfl, ?_, ?_,
        hrowPk hck⟩
      · rw [load, if_neg hw.columns]
        dsimp only
        rw [hrowLoad, Option.bind_eq_bind, Option.bind_some, hck, if_neg Bool.false_ne_true, Option.bind_eq_bind,
          Option.bind_some, hw.decodeClustering]
        rfl
      · have hhas : ¬ (w.cells tbl).hasStatic = true := fun h => Bool.false_ne_true (hck.symm.trans h)
        exact ⟨⟨rfl, (if_neg hhas).symm⟩, (decide_eq_true hw.columnCount_pos).symm, rfl, fun _ => rfl, rfl, rfl, rfl⟩

/-! ### Columns -/

/-- The key columns are as old as every write. -/
theorem WrittenUnder.key_lt {tbl₀ : TableView} {row : RowArrays} (h : WrittenUnder tbl₀ row tbl) {ci : Nat}
    {col : Schema.Column} (hcol : tbl.cols[ci]? = some col) (hlive : col.tombstone = false) (hkind : col.keyKind ≠ .none) :
    ci < tbl₀.cols.length := by
  have hmem : ci ∈ partitionKeyColIndices tbl₀.cols ∨ ci ∈ clusteringKeyColIndices tbl₀.cols := by
    rw [← h.grown.pk, ← h.grown.ck, Schema.mem_partitionKeyColIndices, Schema.mem_clusteringKeyColIndices]
    cases hk : col.keyKind with
    | none => exact absurd hk hkind
    | partitionKey => exact Or.inl ⟨col, hcol, hlive, hk⟩
    | clusteringKey => exact Or.inr ⟨col, hcol, hlive, hk⟩
  rcases hmem with hmem | hmem
  · obtain ⟨col₀, hcol₀, -⟩ := Schema.mem_partitionKeyColIndices.mp hmem
    exact (List.getElem?_eq_some_iff.mp hcol₀).1
  · obtain ⟨col₀, hcol₀, -⟩ := Schema.mem_clusteringKeyColIndices.mp hmem
    exact (List.getElem?_eq_some_iff.mp hcol₀).1

theorem StoredRow.Written.key_lt (hw : w.Written tbl) {ci : Nat} {col : Schema.Column} (hcol : tbl.cols[ci]? = some col)
    (hlive : col.tombstone = false) (hkind : col.keyKind ≠ .none) : ci < w.columnCount tbl := by
  rw [StoredRow.columnCount]
  cases hrow : w.row with
  | none => exact (List.getElem?_eq_some_iff.mp hcol).1
  | some r => exact (hw.row r hrow).key_lt hcol hlive hkind

/-- A key column has no cell. -/
theorem StoredRow.Written.keyOnly (hw : w.Written tbl) {ci : Nat} {col : Schema.Column} (hcol : tbl.cols[ci]? = some col)
    (hkind : col.keyKind ≠ .none) : (w.cells tbl).cell col ci = none := by
  rw [Cells.cell, Cells.isStatic, hw.keys.notStatic ci col hcol hkind, Bool.and_false, if_neg Bool.false_ne_true,
    StoredRow.cells]
  cases hrow : w.row with
  | none => rfl
  | some r =>
      have hidle : isRowActive r.tbl r.row ci = false := by
        rw [isRowActive]
        cases hcol₀ : r.tbl.cols[ci]? with
        | none => rw [Option.any_none, Bool.and_false]
        | some col₀ =>
            obtain ⟨col', hcol', -, hsame, -⟩ := (hw.row r hrow).grown.column ci col₀ hcol₀
            rw [hcol, Option.some_inj] at hcol'
            have hkind₀ : (col₀.keyKind == .none) = false := by
              rw [← hsame, ← hcol']
              exact beq_eq_false_iff_ne.mpr hkind
            rw [Option.any_some, hkind₀, Bool.and_false, Bool.and_false]
      exact if_neg (by rw [hidle]; exact Bool.false_ne_true)

/-- What a cell gives is what was written in it. -/
theorem WrittenUnder.out_eq {tbl₀ : TableView} {row : RowArrays} (h : WrittenUnder tbl₀ row tbl) {isActive : Nat → Bool}
    {ci : Nat} (hactive : isActive ci = row.present ci) {c : Cells} {col : Schema.Column}
    (hcell : c.cell col ci = cellsOf tbl row isActive ci) :
    c.out none col ci = cellOut tbl row (c.metadataOf col) ci := by
  rw [Cells.out, hcell, cellsOf, hactive, cellOut]
  cases hpresent : row.present ci with
  | false => rfl
  | true =>
      obtain ⟨v, t, t', hv, -, ht', -, -, hpadded, -⟩ := h.padded_ne_null hpresent
      rw [if_pos rfl, if_pos rfl, ht', hv, hpadded]
      rfl

/-- The value of a column of the partition key. -/
theorem StoredRow.Written.pkValue (hw : w.Written tbl) {pk : List ColumnValue}
    (hpk : pk.map some =
      (partitionKeyColIndices tbl.cols).map fun ci => (w.pkArrays tbl).bind fun row => paddedValue tbl row ci)
    {ci : Nat} {col : Schema.Column} (hcol : tbl.cols[ci]? = some col) (hlive : col.tombstone = false)
    (hkind : col.keyKind = .partitionKey) (ck : List ColumnValue) :
    Sections.keyValue pk ck col = (w.pkArrays tbl).bind fun row => paddedValue tbl row ci := by
  have hat := congrArg (·[col.keyPosition.toNat]?) hpk
  simp only [List.getElem?_map, hw.keys.pk ci col hcol hlive hkind, Option.map_some] at hat
  rw [Sections.keyValue, ColumnIterator.injected, hkind]
  obtain ⟨v, hv, hsome⟩ := Option.map_eq_some_iff.mp hat
  exact hv.trans hsome

/-- The value of a column of the clustering key. -/
theorem StoredRow.Written.ckValue (hw : w.Written tbl) {ci : Nat} {col : Schema.Column} (hcol : tbl.cols[ci]? = some col)
    (hlive : col.tombstone = false) (hkind : col.keyKind = .clusteringKey) (pk : List ColumnValue) :
    Sections.keyValue pk w.ckValues col = w.ckValues[(clusteringKeyColIndices tbl.cols).idxOf ci]? := by
  rw [Sections.keyValue, ColumnIterator.injected, hkind, hw.keys.idxOf_ck hcol hlive hkind]

/-- A static column that is live had been live when it was written. -/
theorem WrittenUnder.staticActive {s : StaticWrite} (h : WrittenUnder s.tbl s.row tbl) {ci : Nat} {col : Schema.Column}
    (hcol : tbl.cols[ci]? = some col) (hlive : col.tombstone = false) (hstatic : col.isStatic = true)
    (hkind : col.keyKind = .none) : s.active ci = s.row.present ci := by
  rw [StaticWrite.active, isStaticActive]
  cases hpresent : s.row.present ci with
  | false => rw [Bool.false_and, Bool.and_false]
  | true =>
      obtain ⟨t, v, ht, -⟩ := h.typed ci hpresent
      obtain ⟨col₀, hcol₀, hstatic₀, hkind₀⟩ := h.grown.column_of hcol (columnType_lt ht)
      have hlive₀ : col₀.tombstone = false := by
        obtain ⟨col', hcol', -, -, -, hdead⟩ := h.grown.column ci col₀ hcol₀
        rw [hcol, Option.some_inj] at hcol'
        rw [← hcol', hlive] at hdead
        exact Bool.eq_false_iff.mpr fun htomb => Bool.false_ne_true (hdead htomb)
      have hany : anyStatic s.tbl s.row = true := by
        refine List.any_eq_true.mpr ⟨ci, List.mem_filter.mpr ⟨?_, ?_⟩, hpresent⟩
        · exact Schema.mem_liveColumns.mpr ⟨col₀, hcol₀, hlive₀, hkind₀ ▸ hkind⟩
        · rw [hcol₀, Option.any_some, ← hstatic₀, hstatic]
      rw [hany, hcol₀, Option.any_some, ← hstatic₀, hstatic]
      rfl

theorem WrittenUnder.rowActive {r : RowWrite} (h : WrittenUnder r.tbl r.row tbl) {ci : Nat} {col : Schema.Column}
    (hcol : tbl.cols[ci]? = some col) (hstatic : col.isStatic = false) (hkind : col.keyKind = .none) :
    isRowActive r.tbl r.row ci = r.row.present ci := by
  rw [isRowActive]
  cases hpresent : r.row.present ci with
  | false => rfl
  | true =>
      obtain ⟨t, v, ht, -⟩ := h.typed ci hpresent
      obtain ⟨col₀, hcol₀, hstatic₀, hkind₀⟩ := h.grown.column_of hcol (columnType_lt ht)
      rw [hcol₀, Option.any_some, ← hstatic₀, ← hkind₀, hstatic, hkind]
      rfl

theorem cellOut_absent {row : RowArrays} {metadata : RowMetadata} {ci : Nat} (h : row.present ci = false) :
    cellOut tbl row metadata ci = (.null, {}) := by
  rw [cellOut, h, if_neg Bool.false_ne_true]

/-- A static column gives what the static blob holds. -/
theorem StoredRow.Written.staticOut_eq (hw : w.Written tbl) (hr : w.Readable tbl) {ci : Nat} {col : Schema.Column}
    (hcol : tbl.cols[ci]? = some col) (hlive : col.tombstone = false) (hstatic : col.isStatic = true)
    (hkind : col.keyKind = .none) :
    (if ci < w.columnCount tbl then (w.cells tbl).out none col ci else (.null, {})) =
      w.static.elim (.null, {}) fun s => cellOut tbl s.row {} ci := by
  cases hs : w.static with
  | none =>
      have hcell : (w.cells tbl).cell col ci = none := by
        rw [Cells.cell]
        split_ifs
        · rw [StoredRow.cells, hs]
          rfl
        · exact hw.rowOnly hcol hstatic
      rw [Cells.out, hcell]
      exact ite_self _
  | some s =>
      have h := hw.static s hs
      have hck : tbl.hasClusteringKeys = true := by
        rw [← Bool.not_eq_false]
        intro hck
        rw [(hw.single hck).2] at hs
        cases hs
      have hisStatic : (w.cells tbl).isStatic col = true := by
        rw [Cells.isStatic, hstatic, Bool.and_true]
        exact hck
      have hcell : (w.cells tbl).cell col ci = cellsOf tbl s.row s.active ci := by
        rw [Cells.cell, hisStatic, if_pos rfl, StoredRow.cells, hs]
        rfl
      rw [Option.elim_some]
      split_ifs with hlt
      · rw [h.out_eq (h.staticActive hcol hlive hstatic hkind) hcell, Cells.metadataOf, hisStatic, if_pos rfl]
      · refine (cellOut_absent (Bool.eq_false_iff.mpr fun hpresent => hlt ?_)).symm
        rw [StoredRow.columnCount]
        cases hrow : w.row with
        | none => exact (List.getElem?_eq_some_iff.mp hcol).1
        | some r => exact hr.known ci col hcol hlive hstatic s r hs hpresent hrow

/-- Another column gives what the blob of the row holds; one that is newer than the row is null. -/
theorem StoredRow.Written.rowOut_eq (hw : w.Written tbl) {ci : Nat} {col : Schema.Column}
    (hcol : tbl.cols[ci]? = some col) (hstatic : col.isStatic = false) (hkind : col.keyKind = .none) :
    (if ci < w.columnCount tbl then (w.cells tbl).out none col ci else (.null, {})) =
      w.row.elim (.null, {}) fun r => cellOut tbl r.row r.metadata ci := by
  have hisStatic : (w.cells tbl).isStatic col = false := by rw [Cells.isStatic, hstatic, Bool.and_false]
  cases hrow : w.row with
  | none =>
      have hcell : (w.cells tbl).cell col ci = none := by
        rw [Cells.cell, hisStatic, if_neg Bool.false_ne_true, StoredRow.cells, hrow]
        rfl
      rw [Cells.out, hcell]
      exact ite_self _
  | some r =>
      have h := hw.row r hrow
      have hcell : (w.cells tbl).cell col ci = cellsOf tbl r.row (isRowActive r.tbl r.row) ci := by
        rw [Cells.cell, hisStatic, if_neg Bool.false_ne_true, StoredRow.cells, hrow]
        rfl
      have hmetadata : (w.cells tbl).metadataOf col = r.metadata := by
        rw [Cells.metadataOf, hisStatic, if_neg Bool.false_ne_true, StoredRow.cells, hrow]
        rfl
      rw [StoredRow.columnCount, hrow, Option.elim_some, Option.elim_some]
      split_ifs with hlt
      · rw [h.out_eq (h.rowActive hcol hstatic hkind) hcell, hmetadata]
      · refine (cellOut_absent (Bool.eq_false_iff.mpr fun hpresent => hlt ?_)).symm
        obtain ⟨t, v, ht, -⟩ := h.typed ci hpresent
        exact columnType_lt ht

/-- What the walk gives at a live column is what was last written of it. -/
theorem StoredRow.Written.columnOut_eq (hw : w.Written tbl) (hr : w.Readable tbl) {pk : List ColumnValue}
    (hpk : pk.map some =
      (partitionKeyColIndices tbl.cols).map fun ci => (w.pkArrays tbl).bind fun row => paddedValue tbl row ci)
    {ci : Nat} {col : Schema.Column} (hcol : tbl.cols[ci]? = some col) (hlive : col.tombstone = false) :
    Sections.columnOut tbl (w.cells tbl) (w.columnCount tbl) pk w.ckValues ci = w.lastWritten tbl ci col := by
  rw [StoredRow.lastWritten, Sections.columnOut, hcol, Option.elim_some]
  cases hkind : col.keyKind with
  | partitionKey =>
      have hkey : col.keyKind ≠ .none := by rw [hkind]; exact Schema.KeyKind.noConfusion
      rw [if_pos (hw.key_lt hcol hlive hkey), Cells.out, hw.keyOnly hcol hkey, hw.pkValue hpk hcol hlive hkind]
  | clusteringKey =>
      have hkey : col.keyKind ≠ .none := by rw [hkind]; exact Schema.KeyKind.noConfusion
      rw [if_pos (hw.key_lt hcol hlive hkey), Cells.out, hw.keyOnly hcol hkey, hw.ckValue hcol hlive hkind]
      dsimp only
      rw [List.getD_eq_getElem?_getD]
  | none =>
      have hinjected : Sections.keyValue pk w.ckValues col = none := by
        rw [Sections.keyValue, ColumnIterator.injected, hkind]
      rw [hinjected]
      cases hstatic : col.isStatic with
      | true => exact hw.staticOut_eq hr hcol hlive hstatic hkind
      | false => exact hw.rowOut_eq hcol hstatic hkind

/-- Whatever columns a walk dereferences, it gives of each live one what was last written. -/
theorem StoredRow.Written.readsBack (hw : w.Written tbl) (hr : w.Readable tbl) (hd : w.DroppedStored tbl) :
    w.ReadsBack tbl := by
  obtain ⟨rowBlob, staticBlob, it, pk, b, hrowBlob, hstaticBlob, hload, hbefore, hpk⟩ :=
    hw.loads fun ci => hw.storedAt hr hd ci
  refine ⟨rowBlob, staticBlob, it, hrowBlob, hstaticBlob, hload, fun ds => ⟨_, hbefore.walk hw.columnCount_le ds, ?_⟩⟩
  intro ci col hcol hlive hds
  rw [List.getElem?_mapIdx, hds, Option.map_some, if_pos rfl, Nat.zero_add, hw.columnOut_eq hr hpk hcol hlive]

end

/-! ### A row that is older than a column -/

/-- A table with a partition key and a value. -/
def pointTable : TableView where
  udts := []
  cols := [⟨false, false, ⟨[105], by decide⟩, .basic .int, .partitionKey, 0, .asc⟩,
    ⟨false, false, ⟨[118], by decide⟩, .basic .int, .none, 0, .asc⟩]

/-- The table after a column was added. -/
def pointTableGrown : TableView where
  udts := []
  cols := pointTable.cols ++ [⟨false, false, ⟨[119], by decide⟩, .basic .text, .none, 0, .asc⟩]

def pointRow : StoredRow where
  row := some ⟨pointTable, ⟨[.s32 1, .s32 7], [true, true], []⟩, {}⟩
  static := none
  ckValues := []
  ck := ⟨[], by decide⟩

theorem pointTable_grown : TableGrown pointTable pointTableGrown where
  column ci col hcol := ⟨col, by
    rw [pointTableGrown, List.getElem?_append_left (List.getElem?_eq_some_iff.mp hcol).1, hcol], rfl, rfl, rfl, id⟩
  type ci t ht := by
    obtain ⟨col, hcol, hexpand⟩ := Option.bind_eq_some_iff.mp ht
    have hlt : ci < 2 := (List.getElem?_eq_some_iff.mp hcol).1
    refine ⟨t, ?_, ?_⟩
    · rw [TableView.columnType, pointTableGrown, List.getElem?_append_left hlt]
      exact ht
    · interval_cases ci
      · cases hcol
        cases hexpand
        rfl
      · cases hcol
        cases hexpand
        rfl
  pk := by decide +kernel
  ck := by decide +kernel

/-- The cells of the row are of the type of their columns. -/
theorem pointRow_cell {ci : Nat} (hci : ci < 2) : ∃ v, pointTable.columnType ci = some (.basic .int) ∧
    [ColumnValue.s32 1, .s32 7][ci]? = some v ∧ WellTyped (.basic .int) v ∧ StoredAs (.basic .int) v := by
  interval_cases ci
  · exact ⟨.s32 1, rfl, rfl, ⟨rfl, trivial⟩, rfl⟩
  · exact ⟨.s32 7, rfl, rfl, ⟨rfl, trivial⟩, rfl⟩

/-- A row that was written before a column was added. -/
theorem readsBack_pointRow : pointRow.ReadsBack pointTableGrown ∧ pointTableGrown.cols.length = 3 := by
  have hlt : ∀ ci t, pointTable.columnType ci = some t → ci < 2 := fun ci t ht => columnType_lt ht
  have hstored : ∀ ci, pointRow.StoredAt ci := by
    refine fun ci => ⟨fun r hr _ t v ht hv => ?_, fun s hs => by cases hs⟩
    cases hr
    obtain ⟨v', ht', hv', -, hstored⟩ := pointRow_cell (hlt ci t ht)
    obtain rfl := Option.some.inj (ht.symm.trans ht')
    obtain rfl := Option.some.inj (hv.symm.trans hv')
    exact hstored
  have hunder : ∀ r, pointRow.row = some r → WrittenUnder r.tbl r.row pointTableGrown := by
    intro r hr
    cases hr
    refine ⟨pointTable_grown, by decide, by decide, fun ci hci => ?_, fun ci hci => ?_, fun ci m hm => ?_⟩
    · have hci' : ci < 2 := by
        by_contra hge
        rw [RowArrays.present, List.getD_eq_default _ _ (not_lt.mp hge)] at hci
        cases hci
      obtain ⟨v, ht, hv, htyped, -⟩ := pointRow_cell hci'
      exact ⟨_, v, ht, hv, htyped⟩
    · have hpk : partitionKeyColIndices pointTable.cols = [0] := by decide +kernel
      rw [hpk, List.mem_singleton] at hci
      rw [hci]
      rfl
    · cases hm
  have hkeys : KeysPlaced pointTableGrown.cols := by
    refine ⟨fun ci col hcol _ hkind => ?_, fun ci col hcol _ hkind => ?_, fun ci col hcol _ => ?_⟩
    all_goals
      have hci : ci < 3 := (List.getElem?_eq_some_iff.mp hcol).1
      interval_cases ci <;> cases hcol
    · decide +kernel
    all_goals first
      | rfl
      | cases hkind
  have hwritten : pointRow.Written pointTableGrown := by
    refine ⟨hkeys, by decide, hunder, (fun s hs => by cases hs), fun hck => ?_, fun _ => ⟨rfl, rfl⟩, ?_, rfl⟩
    · exact absurd hck (by decide +kernel)
    · have hnone : clusteringKeyColIndices pointTableGrown.cols = [] := by decide +kernel
      rw [hnone]
      exact .nil
  refine ⟨StoredRow.Written.readsBack hwritten ⟨fun ci col _ _ => hstored ci, ?_⟩ fun ci col _ _ => hstored ci, rfl⟩
  intro ci col _ _ _ s r hs
  cases hs

end Plexdb.Cql
