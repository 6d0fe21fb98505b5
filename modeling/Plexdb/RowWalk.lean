import Plexdb.RowCells

/-! Walks of the column iterator: whichever columns are dereferenced, the cursors are in front of the cell of the
column that comes next, so each dereferenced column gives what its cell holds. -/

namespace Plexdb.Cql

open Wire

/-! ### What a column gives -/

/-- The cells of a row and of its static blob, and the metadata of the row. -/
structure Cells where
  row : CellMap
  /-- Whether there is a static cursor. -/
  hasStatic : Bool
  static : CellMap
  metadata : RowMetadata

namespace Cells

def isStatic (c : Cells) (col : Schema.Column) : Bool := c.hasStatic && col.isStatic

def cell (c : Cells) (col : Schema.Column) : CellMap := if c.isStatic col then c.static else c.row

/-- Static blobs carry no metadata of their own. -/
def metadataOf (c : Cells) (col : Schema.Column) : RowMetadata := if c.isStatic col then {} else c.metadata

/-- What a dereference of the column gives, when the value of a key column is `injected`. -/
def out (c : Cells) (injected : Option ColumnValue) (col : Schema.Column) (i : Nat) : ColumnValue × CellMetadata :=
  match c.cell col i with
  | some (m, v) => (v, m.getD (deriveCellMetaFromRow (c.metadataOf col)))
  | none => (injected.getD .null, {})

end Cells

/-- Two blobs behind their headers, which hold these cells. -/
structure Sections (tbl : TableView) (c : Cells) where
  row : Nat → CellSection
  static : Nat → CellSection
  rowAt : CellsAt tbl row c.row
  staticAt : CellsAt tbl static c.static
  rowMetadata : ∀ i, (row i).metadata = c.metadata
  staticMetadata : ∀ i, (static i).metadata = {}
  rowOnly : ∀ i col, tbl.cols[i]? = some col → col.isStatic = true → c.row i = none
  staticOnly : ∀ i col, tbl.cols[i]? = some col → col.isStatic = false → c.static i = none

namespace Sections

variable {tbl : TableView} {c : Cells} (b : Sections tbl c)

/-- The section of a column when the walk is at column `i`. -/
def of (col : Schema.Column) (i : Nat) : CellSection := if c.isStatic col then b.static i else b.row i

theorem ofAt (col : Schema.Column) : CellsAt tbl (b.of col) (c.cell col) := by
  unfold of Cells.cell
  cases c.isStatic col with
  | true => exact b.staticAt
  | false => exact b.rowAt

theorem metadata_of (col : Schema.Column) (i : Nat) : (b.of col i).metadata = c.metadataOf col := by
  rw [of, Cells.metadataOf]
  split
  · exact b.staticMetadata i
  · exact b.rowMetadata i

/-- The cursors are in front of the cells of column `i`. -/
structure Positioned (i : Nat) (it : ColumnIterator) : Prop where
  row : it.row = b.row i
  static : it.static = if c.hasStatic then some (b.static i) else none

variable {b}

theorem Positioned.currentIsStatic {i : Nat} {it : ColumnIterator} (h : b.Positioned i it) (col : Schema.Column) :
    it.currentIsStatic col = c.isStatic col := by
  rw [ColumnIterator.currentIsStatic, h.static, Cells.isStatic]
  cases c.hasStatic <;> rfl

theorem Positioned.current {i : Nat} {it : ColumnIterator} (h : b.Positioned i it) (col : Schema.Column) :
    it.current col = b.of col i := by
  rw [ColumnIterator.current, h.currentIsStatic, of, h.row, h.static, Cells.isStatic]
  cases c.hasStatic <;> rfl

/-- A column without a cell leaves the cursors where they are. -/
theorem Positioned.absent {i : Nat} {it : ColumnIterator} (h : b.Positioned i it) {col : Schema.Column}
    (hcol : tbl.cols[i]? = some col) (hcell : c.cell col i = none) : b.Positioned (i + 1) it := by
  have hrow : c.row i = none := by
    cases hstatic : col.isStatic with
    | true => exact b.rowOnly i col hcol hstatic
    | false => rwa [Cells.cell, Cells.isStatic, hstatic, Bool.and_false, if_neg Bool.false_ne_true] at hcell
  refine ⟨by rw [h.row, b.rowAt.absent i hrow], ?_⟩
  rw [h.static]
  cases hhas : c.hasStatic with
  | false => rfl
  | true =>
      have hstatic : c.static i = none := by
        cases hstatic : col.isStatic with
        | false => exact b.staticOnly i col hcol hstatic
        | true => rwa [Cells.cell, Cells.isStatic, hstatic, hhas, Bool.true_and, if_pos rfl] at hcell
      rw [b.staticAt.absent i hstatic]

/-- Behind a cell, the cursor of its section stands in front of the next cell, and the other has not moved. -/
theorem Positioned.moved {i : Nat} {it : ColumnIterator} (h : b.Positioned i it) {col : Schema.Column}
    (hcol : tbl.cols[i]? = some col) :
    b.Positioned (i + 1) (it.withCurrent col (b.of col (i + 1))) := by
  rw [ColumnIterator.withCurrent, h.currentIsStatic, of]
  cases hstatic : col.isStatic with
  | false =>
      rw [Cells.isStatic, hstatic, Bool.and_false, if_neg Bool.false_ne_true, if_neg Bool.false_ne_true]
      refine ⟨rfl, ?_⟩
      dsimp only
      rw [h.static, b.staticAt.absent i (b.staticOnly i col hcol hstatic)]
  | true =>
      rw [Cells.isStatic, hstatic, Bool.and_true]
      cases hhas : c.hasStatic with
      | false => exact ⟨rfl, by rw [hhas]; exact h.static.trans (by rw [hhas]; rfl)⟩
      | true =>
          refine ⟨?_, by rw [hhas]; rfl⟩
          exact h.row.trans (b.rowAt.absent i (b.rowOnly i col hcol hstatic)).symm

/-! ### One column -/

/-- The iterator stands before column `i`, or at the end when the row was written with no more columns. -/
structure Before (b : Sections tbl c) (i n : Nat) (pk ck : List ColumnValue) (it : ColumnIterator) : Prop where
  positioned : b.Positioned i it
  live : it.live = decide (i < n)
  count : it.rowColumnCount = n
  idx : i < n → it.currentColumnIdx = i
  idle : it.currentValueConsumed = false
  pk : it.injectedPkValues = pk
  ck : it.injectedCkValues = ck

/-- The value of a key column among the values of the key. -/
def keyValue (pk ck : List ColumnValue) (col : Schema.Column) : Option ColumnValue :=
  ColumnIterator.injected { injectedPkValues := pk, injectedCkValues := ck } col

theorem Before.injected {i n : Nat} {pk ck : List ColumnValue} {it : ColumnIterator} (h : b.Before i n pk ck it)
    (col : Schema.Column) : it.injected col = keyValue pk ck col := by
  rw [ColumnIterator.injected, h.pk, h.ck]
  rfl

section

variable {i n : Nat} {pk ck : List ColumnValue} {it : ColumnIterator} (h : b.Before i n pk ck it) (hi : i < n)
  {col : Schema.Column} (hcol : tbl.cols[i]? = some col)

include h hi

theorem Before.currentIsNull : it.currentIsNull col = !(c.cell col i).isSome := by
  rw [ColumnIterator.currentIsNull, h.positioned.current, h.idx hi, (b.ofAt col).bit]

theorem Before.currentHasCellMeta : it.currentHasCellMeta col = (c.cell col i).any (·.1.isSome) := by
  rw [ColumnIterator.currentHasCellMeta, h.positioned.current, h.idx hi, (b.ofAt col).metaBit]

theorem Before.readCellMeta {m : Option CellMetadata} {v : ColumnValue} (hcell : c.cell col i = some (m, v))
    {s : Bytes} (hs : ReadsMeta m (b.of col i).cursor s) :
    it.readCellMeta col = some (m.getD (deriveCellMetaFromRow (c.metadataOf col)), s) := by
  rw [ColumnIterator.readCellMeta, h.currentHasCellMeta hi, hcell, h.positioned.current, b.metadata_of]
  cases m with
  | none =>
      obtain rfl : s = (b.of col i).cursor := hs
      rfl
  | some m => exact hs

theorem Before.skipCellMeta {m : Option CellMetadata} {v : ColumnValue} (hcell : c.cell col i = some (m, v))
    {s : Bytes} (hs : ReadsMeta m (b.of col i).cursor s) : it.skipCellMeta col = some s := by
  rw [ColumnIterator.skipCellMeta, h.currentHasCellMeta hi, hcell, h.positioned.current]
  cases m with
  | none =>
      obtain rfl : s = (b.of col i).cursor := hs
      rfl
  | some m => exact skip_of_readCellMetadata hs

include hcol

/-- A dereference gives what the column holds and leaves an iterator that has consumed it. -/
theorem Before.deref : ∃ it', it.deref tbl = some ((c.out (keyValue pk ck col) col i).1, it') ∧
    it'.currentCellMetadata = (c.out (keyValue pk ck col) col i).2 ∧ it'.live = it.live ∧
    it'.rowColumnCount = n ∧ it'.currentColumnIdx = i ∧ it'.injectedPkValues = pk ∧ it'.injectedCkValues = ck ∧
    (c.cell col i = none → b.Positioned i it') ∧
    ((c.cell col i).isSome → b.Positioned (i + 1) it' ∧ it'.currentValueConsumed = true) := by
  have hlive : it.live = true := by rw [h.live, decide_eq_true hi]
  have hle : ¬ it.rowColumnCount ≤ it.currentColumnIdx := by rw [h.count, h.idx hi]; omega
  rw [ColumnIterator.deref, hlive, Bool.not_true, if_neg Bool.false_ne_true, if_neg hle, h.idx hi, hcol,
    Option.bind_eq_bind, Option.bind_some, h.currentIsNull hi]
  cases hcell : c.cell col i with
  | none =>
      rw [Option.isSome_none, Bool.not_false, if_pos rfl, ColumnIterator.derefNull, h.injected, Cells.out, hcell]
      cases keyValue pk ck col with
      | none => exact ⟨_, rfl, rfl, hlive, h.count, h.idx hi, h.pk, h.ck, fun _ => ⟨h.positioned.row,
          h.positioned.static⟩, fun hsome => by cases hsome⟩
      | some v => exact ⟨_, rfl, rfl, hlive, h.count, h.idx hi, h.pk, h.ck, fun _ => ⟨h.positioned.row,
          h.positioned.static⟩, fun hsome => by cases hsome⟩
  | some cell =>
      obtain ⟨m, v⟩ := cell
      obtain ⟨t, s, rest, htype, hs, hread, hnext⟩ := (b.ofAt col).read i m v hcell
      have hmoved := h.positioned.moved hcol
      rw [hnext] at hmoved
      rw [Option.isSome_some, Bool.not_true, if_neg Bool.false_ne_true, h.readCellMeta hi hcell hs,
        Option.bind_eq_bind, Option.bind_some, htype]
      dsimp only
      rw [Option.bind_eq_bind, Option.bind_some, hread, Option.bind_eq_bind, Option.bind_some,
        h.positioned.current, Cells.out, hcell]
      refine ⟨_, rfl, rfl, ?_, ?_, ?_, ?_, ?_, fun hnone => absurd hnone (Option.some_ne_none _),
        fun _ => ⟨⟨hmoved.row, hmoved.static⟩, rfl⟩⟩
      all_goals
        rw [ColumnIterator.withCurrent]
        split
        all_goals first | exact hlive | exact h.count | exact h.idx hi | exact h.pk | exact h.ck

theorem Before.skipCell : ∃ it', it.skipCell tbl col = some it' ∧ it'.live = it.live ∧
    it'.rowColumnCount = n ∧ it'.currentColumnIdx = i ∧ it'.injectedPkValues = pk ∧ it'.injectedCkValues = ck ∧
    b.Positioned (i + 1) it' := by
  rw [ColumnIterator.skipCell, h.currentIsNull hi, h.idle, Bool.not_false, Bool.and_true, Bool.not_not]
  cases hcell : c.cell col i with
  | none => exact ⟨it, rfl, rfl, h.count, h.idx hi, h.pk, h.ck, h.positioned.absent hcol hcell⟩
  | some cell =>
      obtain ⟨m, v⟩ := cell
      obtain ⟨t, s, rest, htype, hs, hread, hnext⟩ := (b.ofAt col).read i m v hcell
      have hmoved := h.positioned.moved hcol
      rw [hnext] at hmoved
      rw [Option.isSome_some, if_pos rfl, h.skipCellMeta hi hcell hs, h.idx hi, Option.bind_eq_bind, Option.bind_some,
        htype, Option.bind_eq_bind, Option.bind_some, skips_columnValue t _ _ _ hread, Option.bind_some,
        h.positioned.current]
      refine ⟨_, rfl, ?_, ?_, ?_, ?_, ?_, hmoved⟩
      all_goals
        rw [ColumnIterator.withCurrent]
        split
        all_goals first | rfl | exact h.count | exact h.idx hi | exact h.pk | exact h.ck

omit h in
/-- The iterator moves on once its cursors are in front of the next cell. -/
theorem advance_of_skipCell {it it' : ColumnIterator} (hlive : it.live = true) (hcount : it.rowColumnCount = n)
    (hidx : it.currentColumnIdx = i) (hskip : it.skipCell tbl col = some it') (hlive' : it'.live = it.live)
    (hcount' : it'.rowColumnCount = n) (hidx' : it'.currentColumnIdx = i) (hpk : it'.injectedPkValues = pk)
    (hck : it'.injectedCkValues = ck) (hpositioned : b.Positioned (i + 1) it') :
    ∃ it₂, it.advance tbl = some it₂ ∧ b.Before (i + 1) n pk ck it₂ := by
  rw [ColumnIterator.advance, hlive, Bool.not_true, if_neg Bool.false_ne_true, hcount, hidx, if_neg (by omega), hcol,
    Option.bind_eq_bind, Option.bind_some, hskip]
  refine ⟨_, rfl, ⟨hpositioned.row, hpositioned.static⟩, ?_, hcount', fun _ => congrArg (· + 1) hidx', rfl, hpk, hck⟩
  dsimp only
  rw [hlive', hlive, hcount', hidx', Bool.true_and]

/-- One step of a walk. -/
theorem Before.step (d : Bool) :
    ∃ it₁ it₂, it.visit tbl d = some (if d then some (c.out (keyValue pk ck col) col i) else none, it₁) ∧
      it₁.advance tbl = some it₂ ∧ b.Before (i + 1) n pk ck it₂ := by
  have hlive : it.live = true := by rw [h.live, decide_eq_true hi]
  cases d with
  | false =>
      obtain ⟨it', hskip, hlive', hcount', hidx', hpk, hck, hpositioned⟩ := h.skipCell hi hcol
      obtain ⟨it₂, hadvance, hbefore⟩ :=
        advance_of_skipCell hi hcol hlive h.count (h.idx hi) hskip hlive' hcount' hidx' hpk hck hpositioned
      exact ⟨it, it₂, rfl, hadvance, hbefore⟩
  | true =>
      obtain ⟨it₁, hderef, hmeta, hlive₁, hcount₁, hidx₁, hpk, hck, habsent, hconsumed⟩ := h.deref hi hcol
      have hskip : it₁.skipCell tbl col = some it₁ ∧ b.Positioned (i + 1) it₁ := by
        rw [ColumnIterator.skipCell]
        cases hcell : c.cell col i with
        | none =>
            have hpositioned := habsent hcell
            have hnull : it₁.currentIsNull col = true := by
              rw [ColumnIterator.currentIsNull, hpositioned.current, hidx₁, (b.ofAt col).bit, hcell]
              rfl
            rw [hnull, Bool.not_true, Bool.false_and, if_neg Bool.false_ne_true]
            exact ⟨rfl, hpositioned.absent hcol hcell⟩
        | some cell =>
            obtain ⟨hpositioned, hconsumed⟩ := hconsumed (by rw [hcell]; rfl)
            rw [hconsumed, Bool.not_true, Bool.and_false, if_neg Bool.false_ne_true]
            exact ⟨rfl, hpositioned⟩
      obtain ⟨it₂, hadvance, hbefore⟩ := advance_of_skipCell hi hcol (hlive₁.trans hlive) hcount₁ hidx₁ hskip.1 rfl
        hcount₁ hidx₁ hpk hck hskip.2
      refine ⟨it₁, it₂, ?_, hadvance, hbefore⟩
      rw [ColumnIterator.visit, if_pos rfl, if_pos rfl, hderef, Option.bind_eq_bind, Option.bind_some]
      dsimp only
      rw [hmeta]
      rfl

end

/-! ### All columns -/

/-- What a dereference at column `i` gives; behind the columns of the row it is null. -/
def columnOut (tbl : TableView) (c : Cells) (n : Nat) (pk ck : List ColumnValue) (i : Nat) :
    ColumnValue × CellMetadata :=
  if i < n then (tbl.cols[i]?).elim (.null, {}) fun col => c.out (keyValue pk ck col) col i else (.null, {})

/-- Behind the end every column is null. -/
theorem walk_end {it : ColumnIterator} (hend : it.live = false) (ds : List Bool) :
    it.walk tbl ds = some (ds.map fun d => if d then some (.null, {}) else none) := by
  induction ds with
  | nil => rfl
  | cons d ds ih =>
      rw [ColumnIterator.walk, hend, if_neg Bool.false_ne_true, ih]
      rfl

/-- Every walk gives, at each column it dereferences, what the column holds. -/
theorem Before.walk {n : Nat} (hn : n ≤ tbl.cols.length) {pk ck : List ColumnValue} (ds : List Bool) :
    ∀ {i : Nat} {it : ColumnIterator}, b.Before i n pk ck it →
      it.walk tbl ds = some (ds.mapIdx fun k d => if d then some (columnOut tbl c n pk ck (i + k)) else none) := by
  induction ds with
  | nil =>
      intro i it _
      rfl
  | cons d ds ih =>
      intro i it h
      by_cases hi : i < n
      · obtain ⟨col, hcol⟩ : ∃ col, tbl.cols[i]? = some col := ⟨_, List.getElem?_eq_getElem (by omega)⟩
        obtain ⟨it₁, it₂, hvisit, hadvance, hbefore⟩ := h.step hi hcol d
        have hshift : (fun k (d : Bool) => if d then some (columnOut tbl c n pk ck (i + 1 + k)) else none) =
            fun k (d : Bool) => if d then some (columnOut tbl c n pk ck (i + (k + 1))) else none := by
          funext k d
          rw [Nat.add_right_comm i 1 k, Nat.add_assoc i k 1]
        rw [ColumnIterator.walk, List.mapIdx_cons, h.live, decide_eq_true hi, if_pos rfl, hvisit, Option.bind_eq_bind,
          Option.bind_some]
        dsimp only
        rw [hadvance, Option.bind_eq_bind, Option.bind_some, ih hbefore, hshift, Nat.add_zero, columnOut, if_pos hi,
          hcol]
        rfl
      · have hnull : ((d :: ds).mapIdx fun k d => if d then some (columnOut tbl c n pk ck (i + k)) else none) =
            (d :: ds).map fun d => if d then some (.null, {}) else none := by
          rw [List.mapIdx_eq_iff]
          intro k
          rw [columnOut, if_neg (show ¬ i + k < n by omega), List.getElem?_map]
        rw [walk_end (by rw [h.live, decide_eq_false hi]), hnull]

end Sections

end Plexdb.Cql
