import Plexdb.ClusteringOrder
import Plexdb.ColumnSkip

/-! Row blobs and static blobs: how `cql/engine/engine.cpp` writes them and how the column iterator of
`cql/engine/it.cpp` walks them. A blob is its bytes and a cursor is what is left of them; `none` is a failed
assertion, in the reader also a blob that is too short. -/

namespace Plexdb.Cql

open Wire

/-! ### Metadata -/

structure RowMetadata where
  flags : BitVec 8 := 0
  expiryUnixMs : BitVec 64 := 0
  deriving DecidableEq

def rowHasTtl (m : RowMetadata) : Bool := m.flags &&& 0x01 != 0

structure CellMetadata where
  flags : BitVec 8 := 0
  expiryUnixMs : BitVec 64 := 0
  writetimeUs : BitVec 64 := 0
  deriving DecidableEq

def cellHasTtl (flags : BitVec 8) : Bool := flags &&& 0x01 != 0

def cellHasWritetime (flags : BitVec 8) : Bool := flags &&& 0x02 != 0

def writeRowMetadata (m : RowMetadata) : Bytes := writeRaw 1 m.flags ++ writeRaw 8 m.expiryUnixMs

def readRowMetadata : Reader RowMetadata := fun s => do
  let (flags, s) ← readRaw 1 s
  let (expiryUnixMs, s) ← readRaw 8 s
  pure (⟨flags, expiryUnixMs⟩, s)

/-- A field that is in the blob when its flag is set, and has its default otherwise. -/
def writeFlagged (flag : Bool) (bits : BitVec 64) : Bytes := if flag then writeRaw 8 bits else []

def readFlagged (flag : Bool) : Reader (BitVec 64) := fun s => if flag then readRaw 8 s else some (0, s)

def writeCellMetadata (m : CellMetadata) : Bytes :=
  writeRaw 1 m.flags ++
    (writeFlagged (cellHasTtl m.flags) m.expiryUnixMs ++ writeFlagged (cellHasWritetime m.flags) m.writetimeUs)

def readCellMetadata : Reader CellMetadata := fun s => do
  let (flags, s) ← readRaw 1 s
  let (expiryUnixMs, s) ← readFlagged (cellHasTtl flags) s
  let (writetimeUs, s) ← readFlagged (cellHasWritetime flags) s
  pure (⟨flags, expiryUnixMs, writetimeUs⟩, s)

def skipCellMetadata (flags : BitVec 8) (s : Bytes) : Bytes :=
  s.drop ((if cellHasTtl flags then 8 else 0) + if cellHasWritetime flags then 8 else 0)

/-! ### Tables -/

/-- The part of a table that its rows are written and read with: the columns, and the user types that the types
of the columns point to. -/
structure TableView where
  udts : List Schema.Udt
  cols : List Schema.Column

namespace TableView

/-- The type of a column, with its user types written out. -/
def columnType (tbl : TableView) (ci : Nat) : Option Ty := do
  let col ← tbl.cols[ci]?
  Schema.expand tbl.udts col.type

def hasClusteringKeys (tbl : TableView) : Bool := 0 < (Schema.clusteringKeyColIndices tbl.cols).length

/-- `static_col_indices`, in the order of the columns. -/
def staticColIndices (tbl : TableView) : List Nat :=
  (Schema.liveColumns tbl.cols .none).filter fun ci => (tbl.cols[ci]?).any (·.isStatic)

end TableView

/-! ### Writing -/

/-- The arrays over the columns of a table that hold a row. -/
structure RowArrays where
  colValues : List ColumnValue
  colPresent : List Bool
  cellMeta : List (Option CellMetadata)

namespace RowArrays

def present (row : RowArrays) (ci : Nat) : Bool := row.colPresent.getD ci false

def metaOf (row : RowArrays) (ci : Nat) : Option CellMetadata := row.cellMeta.getD ci none

end RowArrays

/-- The word loop of `write_mask_bits` from column `idx` on. -/
def writeMaskBitsFrom (isSet : Nat → Bool) (mask : BitVec 64) (idx : Nat) : (left : Nat) → Bytes
  | 0 => if idx % 64 ≠ 0 then writeRaw 8 mask else []
  | left + 1 =>
      let mask := mask ||| (BitVec.ofNat 64 (isSet idx).toNat <<< (idx % 64))
      if idx % 64 = 63 then writeRaw 8 mask ++ writeMaskBitsFrom isSet 0 (idx + 1) left
      else writeMaskBitsFrom isSet mask (idx + 1) left

def writeMaskBits (isSet : Nat → Bool) (columnCount : Nat) : Bytes := writeMaskBitsFrom isSet 0 0 columnCount

def writeColumnMask (isActive : Nat → Bool) (columnCount : Nat) : Bytes :=
  writeCount columnCount ++ writeMaskBits isActive columnCount

section

variable (tbl : TableView) (row : RowArrays)

def writePkCell (ci : Nat) : Option Bytes := do
  let t ← tbl.columnType ci
  let v ← row.colValues[ci]?
  if row.present ci then writeColumnValue t v else none

def writePkPreamble : Option Bytes := writeMany (writePkCell tbl row) (Schema.partitionKeyColIndices tbl.cols)

variable (isActive : Nat → Bool)

def writeCell (ci : Nat) : Option Bytes :=
  if isActive ci then do
    let t ← tbl.columnType ci
    let v ← row.colValues[ci]?
    let bytes ← writeColumnValue t v
    pure ((row.metaOf ci).elim [] writeCellMetadata ++ bytes)
  else some []

/-- The cell loop from column `ci` on. -/
def writeCells (ci : Nat) : (left : Nat) → Option Bytes
  | 0 => some []
  | left + 1 => do
      let front ← writeCell tbl row isActive ci
      let back ← writeCells (ci + 1) left
      pure (front ++ back)

/-- The header and the cells of the active columns. -/
def writeSection (metadata : RowMetadata) : Option Bytes := do
  let cells ← writeCells tbl row isActive 0 tbl.cols.length
  pure (writeRowMetadata metadata ++ (writeColumnMask isActive tbl.cols.length ++
    (writeMaskBits (fun ci => isActive ci && (row.metaOf ci).isSome) tbl.cols.length ++ cells)))

end

def isRowActive (tbl : TableView) (row : RowArrays) (ci : Nat) : Bool :=
  row.present ci && (tbl.cols[ci]?).any fun col => !col.isStatic && col.keyKind == .none

def isStaticActive (tbl : TableView) (row : RowArrays) (ci : Nat) : Bool :=
  row.present ci && (tbl.cols[ci]?).any fun col => col.isStatic

/-- The bytes `write_row_blob` leaves in the page of the row. -/
def writeRowBlob (tbl : TableView) (row : RowArrays) (metadata : RowMetadata) : Option Bytes := do
  let preamble ← if tbl.hasClusteringKeys then some [] else writePkPreamble tbl row
  let cells ← writeSection tbl row (isRowActive tbl row) metadata
  pure (preamble ++ cells)

def anyStatic (tbl : TableView) (row : RowArrays) : Bool := tbl.staticColIndices.any row.present

/-- The bytes `rewrite_static` leaves in the static page. -/
def rewriteStatic (tbl : TableView) (row : RowArrays) : Option Bytes := do
  let preamble ← writePkPreamble tbl row
  let cells ← if anyStatic tbl row then writeSection tbl row (isStaticActive tbl row) {} else some []
  pure (preamble ++ cells)

/-! ### Loading -/

/-- A cursor behind the header of a blob, with what the header said. -/
structure CellSection where
  metadata : RowMetadata := {}
  masks : List (BitVec 64) := []
  cellMetaMask : List (BitVec 64) := []
  cursor : Bytes := []

structure ColumnIterator where
  metadata : RowMetadata := {}
  currentCellMetadata : CellMetadata := {}
  /-- Whether `table` is not null. -/
  live : Bool := true
  row : CellSection := {}
  /-- The static cursor, when it is valid. -/
  static : Option CellSection := none
  rowColumnCount : Nat := 0
  currentColumnIdx : Nat := 0
  injectedPkValues : List ColumnValue := []
  injectedCkValues : List ColumnValue := []
  currentValueConsumed : Bool := false

/-- `read_blob_header`: the column count and the section. -/
def readBlobHeader (s : Bytes) : Option (Nat × CellSection) := do
  let (metadata, s) ← readRowMetadata s
  let (columnCount, s) ← readCount s
  let (masks, s) ← readMask columnCount s
  let (cellMetaMask, s) ← readMask columnCount s
  pure (columnCount, ⟨metadata, masks, cellMetaMask, s⟩)

/-- The loop of `read_pk_preamble`. -/
def readPkCells (tbl : TableView) : List Nat → Reader (List ColumnValue)
  | [], s => some ([], s)
  | ci :: cis, s => do
      let t ← tbl.columnType ci
      let (v, s) ← readColumnValue t s
      let (vs, s) ← readPkCells tbl cis s
      pure (v :: vs, s)

def readPkPreamble (tbl : TableView) : Reader (List ColumnValue) :=
  readPkCells tbl (Schema.partitionKeyColIndices tbl.cols)

/-- The loop of `decode_clustering`. -/
def decodeComponents (tbl : TableView) : List Nat → Bytes → Option (List ColumnValue)
  | [], _ => some []
  | ci :: cis, s =>
      if s.length = 0 then some []
      else do
        let col ← tbl.cols[ci]?
        let dtype ← Schema.Ty.basic? col.type
        let (v, s) ← readBasic dtype s
        let vs ← decodeComponents tbl cis s
        pure (v :: vs)

def decodeClustering (tbl : TableView) (ck : KeyView) : Option (List ColumnValue) :=
  decodeComponents tbl (Schema.clusteringKeyColIndices tbl.cols) ck.bytes

/-- The part of `load` for the row page; a table without clustering keys has its partition key there. -/
def loadRow (tbl : TableView) (it : ColumnIterator) (s : Bytes) : Option ColumnIterator := do
  let (pk, s) ← if tbl.hasClusteringKeys then some (it.injectedPkValues, s) else readPkPreamble tbl s
  let (columnCount, row) ← readBlobHeader s
  pure { it with injectedPkValues := pk, metadata := row.metadata, rowColumnCount := columnCount, row := row }

/-- The part of `load` for the static page, which may end behind the partition key. -/
def loadStatic (tbl : TableView) (it : ColumnIterator) (s : Bytes) : Option ColumnIterator := do
  let (pk, s) ← readPkPreamble tbl s
  let static ← if 0 < s.length then (readBlobHeader s).map (·.2) else some {}
  pure { it with injectedPkValues := pk, static := some static }

/-- `load`, on the blobs of the row page and of the static page, where there are such pages. -/
def load (tbl : TableView) (rowBlob staticBlob : Option Bytes) (ck : KeyView) : Option ColumnIterator :=
  if tbl.cols.length = 0 then none
  else do
    let it : ColumnIterator := { rowColumnCount := tbl.cols.length }
    let it ← rowBlob.elim (some it) (loadRow tbl it)
    let it ← if tbl.hasClusteringKeys then staticBlob.elim (some it) (loadStatic tbl it) else some it
    let injectedCkValues ← decodeClustering tbl ck
    pure { it with injectedCkValues }

/-! ### Walking -/

def cellBit (mask : List (BitVec 64)) (i : Nat) : Bool :=
  i / 64 < mask.length && mask.getD (i / 64) 0 &&& (1#64 <<< (i % 64)) != 0

def deriveCellMetaFromRow (m : RowMetadata) : CellMetadata :=
  if rowHasTtl m then { flags := 0x01, expiryUnixMs := m.expiryUnixMs } else {}

namespace ColumnIterator

def currentIsStatic (it : ColumnIterator) (col : Schema.Column) : Bool := it.static.isSome && col.isStatic

/-- The section that a column is read from. -/
def current (it : ColumnIterator) (col : Schema.Column) : CellSection :=
  if it.currentIsStatic col then it.static.getD {} else it.row

def withCurrent (it : ColumnIterator) (col : Schema.Column) (cells : CellSection) : ColumnIterator :=
  if it.currentIsStatic col then { it with static := some cells } else { it with row := cells }

def currentIsNull (it : ColumnIterator) (col : Schema.Column) : Bool :=
  !cellBit (it.current col).masks it.currentColumnIdx

def currentHasCellMeta (it : ColumnIterator) (col : Schema.Column) : Bool :=
  cellBit (it.current col).cellMetaMask it.currentColumnIdx

/-- The value of a key column, by its position in the key. -/
def injected (it : ColumnIterator) (col : Schema.Column) : Option ColumnValue :=
  match col.keyKind with
  | .partitionKey => it.injectedPkValues[col.keyPosition.toNat]?
  | .clusteringKey => it.injectedCkValues[col.keyPosition.toNat]?
  | .none => none

/-- What `deref` gives for a column that is not in its section. -/
def derefNull (it : ColumnIterator) (col : Schema.Column) : ColumnValue × ColumnIterator :=
  match it.injected col with
  | some v => (v, { it with currentCellMetadata := {}, currentValueConsumed := true })
  | none => (.null, { it with currentCellMetadata := {} })

def readCellMeta (it : ColumnIterator) (col : Schema.Column) : Option (CellMetadata × Bytes) :=
  if it.currentHasCellMeta col then readCellMetadata (it.current col).cursor
  else some (deriveCellMetaFromRow (it.current col).metadata, (it.current col).cursor)

def deref (tbl : TableView) (it : ColumnIterator) : Option (ColumnValue × ColumnIterator) :=
  if !it.live then none
  else if it.rowColumnCount ≤ it.currentColumnIdx then some (.null, { it with currentCellMetadata := {} })
  else do
    let col ← tbl.cols[it.currentColumnIdx]?
    if it.currentIsNull col then some (it.derefNull col)
    else do
      let (cellMetadata, s) ← it.readCellMeta col
      let t ← tbl.columnType it.currentColumnIdx
      let (v, s) ← readColumnValue t s
      let it := it.withCurrent col { it.current col with cursor := s }
      pure (v, { it with currentCellMetadata := cellMetadata, currentValueConsumed := true })

def skipCellMeta (it : ColumnIterator) (col : Schema.Column) : Option Bytes :=
  if it.currentHasCellMeta col then do
    let (flags, s) ← readRaw 1 (it.current col).cursor
    pure (skipCellMetadata flags s)
  else some (it.current col).cursor

/-- The part of `advance` that skips a cell that was not dereferenced. -/
def skipCell (tbl : TableView) (it : ColumnIterator) (col : Schema.Column) : Option ColumnIterator :=
  if !it.currentIsNull col && !it.currentValueConsumed then do
    let s ← it.skipCellMeta col
    let t ← tbl.columnType it.currentColumnIdx
    let s ← skipColumnValue t s
    pure (it.withCurrent col { it.current col with cursor := s })
  else some it

def advance (tbl : TableView) (it : ColumnIterator) : Option ColumnIterator :=
  if !it.live then none
  else if it.rowColumnCount ≤ it.currentColumnIdx then some { it with live := false }
  else do
    let col ← tbl.cols[it.currentColumnIdx]?
    let it ← it.skipCell tbl col
    let next := it.currentColumnIdx + 1
    pure { it with
      currentValueConsumed := false
      currentColumnIdx := next
      live := it.live && next < it.rowColumnCount }

/-- A dereference of the column, or none. -/
def visit (tbl : TableView) (dereferenced : Bool) (it : ColumnIterator) :
    Option (Option (ColumnValue × CellMetadata) × ColumnIterator) :=
  if dereferenced then do
    let (v, it) ← it.deref tbl
    pure (some (v, it.currentCellMetadata), it)
  else some (none, it)

/-- A walk over the columns, of which some are dereferenced. As in `drain_columns`, the columns behind the end are
null. -/
def walk (tbl : TableView) : List Bool → ColumnIterator → Option (List (Option (ColumnValue × CellMetadata)))
  | [], _ => some []
  | d :: ds, it =>
      if it.live then do
        let (out, it) ← it.visit tbl d
        let it ← it.advance tbl
        let outs ← walk tbl ds it
        pure (out :: outs)
      else do
        let outs ← walk tbl ds it
        pure ((if d then some (.null, {}) else none) :: outs)

end ColumnIterator

end Plexdb.Cql
