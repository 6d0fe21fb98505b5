import Plexdb.GrownTypes
import Plexdb.RowBlob

/-! What the header and the cells of a blob say to a reader: the bit of a column tells whether it has a cell, and a
cell is read as the metadata and the value that were written, under the types as they are now. -/

namespace Plexdb.Cql

open Wire

/-! ### Masks -/

theorem cellBit_eq (mask : List (BitVec 64)) (i : Nat) :
    cellBit mask i = (mask.getD (i / 64) 0).getLsbD (i % 64) := by
  have hbit (x : BitVec 64) : (x &&& (1#64 <<< (i % 64)) != 0) = x.getLsbD (i % 64) := by
    rw [← BitVec.twoPow_eq, BitVec.and_twoPow]
    cases x.getLsbD (i % 64) with
    | false => rfl
    | true =>
        rw [if_pos rfl, bne_iff_ne, Ne, ← BitVec.toNat_inj, BitVec.toNat_twoPow_of_lt (Nat.mod_lt _ (by decide))]
        exact (Nat.two_pow_pos _).ne'
  rw [cellBit, hbit]
  by_cases hlt : i / 64 < mask.length
  · rw [decide_eq_true hlt, Bool.true_and]
  · rw [decide_eq_false hlt, Bool.false_and, List.getD_eq_default _ _ (Nat.le_of_not_lt hlt)]
    exact BitVec.getLsbD_zero.symm

theorem cellBit_nil (i : Nat) : cellBit [] i = false := by
  rw [cellBit_eq, List.getD_nil]
  exact BitVec.getLsbD_zero

theorem cellBit_cons (w : BitVec 64) (ws : List (BitVec 64)) (i : Nat) :
    cellBit (w :: ws) i = if i < 64 then w.getLsbD i else cellBit ws (i - 64) := by
  rw [cellBit_eq]
  split
  · rename_i h
    rw [Nat.div_eq_of_lt h, Nat.mod_eq_of_lt h, List.getD_cons_zero]
  · rename_i h
    obtain ⟨k, rfl⟩ := Nat.exists_eq_add_of_le (Nat.le_of_not_lt h)
    rw [Nat.add_sub_cancel_left, cellBit_eq, Nat.add_div_left _ (by decide), Nat.add_mod_left, List.getD_cons_succ]

/-- The word under construction holds the bits of its columns before `idx`. -/
theorem getLsbD_setBit {isSet : Nat → Bool} {mask : BitVec 64} {idx : Nat}
    (hmask : ∀ j < 64, mask.getLsbD j = (decide (j < idx % 64) && isSet (idx / 64 * 64 + j))) (j : Nat) (hj : j < 64) :
    (mask ||| (BitVec.ofNat 64 (isSet idx).toNat <<< (idx % 64))).getLsbD j =
      (decide (j < idx % 64 + 1) && isSet (idx / 64 * 64 + j)) := by
  have hone : (BitVec.ofNat 64 (isSet idx).toNat).getLsbD (j - idx % 64) =
      (decide (j - idx % 64 = 0) && isSet idx) := by
    cases isSet idx <;> simp
  rw [BitVec.getLsbD_or, hmask j hj, BitVec.getLsbD_shiftLeft, hone, decide_eq_true hj, Bool.true_and]
  rcases Nat.lt_trichotomy j (idx % 64) with h | h | h
  · simp [h, show j < idx % 64 + 1 by omega]
  · subst h
    simp [Nat.div_add_mod' idx 64]
  · simp [show ¬ j < idx % 64 by omega, show ¬ j < idx % 64 + 1 by omega, show ¬ j - idx % 64 = 0 by omega]

theorem writeMaskBitsFrom_spec (isSet : Nat → Bool) (left : Nat) : ∀ (mask : BitVec 64) (idx : Nat),
    (∀ j < 64, mask.getLsbD j = (decide (j < idx % 64) && isSet (idx / 64 * 64 + j))) →
    ∃ words : List (BitVec 64), writeMaskBitsFrom isSet mask idx left = writeMask words ∧
      words.length = maskWords (idx + left) - idx / 64 ∧
      ∀ k, cellBit words k = (decide (idx / 64 * 64 + k < idx + left) && isSet (idx / 64 * 64 + k)) := by
  induction left with
  | zero =>
      intro mask idx hmask
      rw [writeMaskBitsFrom]
      by_cases hr : idx % 64 = 0
      · refine ⟨[], by rw [if_neg (not_not.mpr hr)]; rfl, by simp [maskWords]; omega, fun k => ?_⟩
        simp [cellBit_nil, show ¬ idx / 64 * 64 + k < idx by omega]
      · refine ⟨[mask], by rw [if_pos hr]; simp [writeMask], by simp [maskWords]; omega, fun k => ?_⟩
        rw [cellBit_cons]
        split
        · rename_i hk
          rw [hmask k hk]
          congr 1
          exact decide_eq_decide.mpr (by omega)
        · simp [cellBit_nil, show ¬ idx / 64 * 64 + k < idx by omega]
  | succ left ih =>
      intro mask idx hmask
      rw [writeMaskBitsFrom]
      have hset := getLsbD_setBit hmask
      generalize (mask ||| (BitVec.ofNat 64 (isSet idx).toNat <<< (idx % 64))) = word at hset ⊢
      have hcount : idx + (left + 1) = idx + 1 + left := by omega
      rw [hcount]
      by_cases hr : idx % 64 = 63
      · obtain ⟨words, hwords, hlength, hbits⟩ := ih 0 (idx + 1) fun j _ => by
          simp [show (idx + 1) % 64 = 0 by omega]
        have hblock : (idx + 1) / 64 = idx / 64 + 1 := by omega
        rw [hblock] at hlength hbits
        refine ⟨word :: words, ?_, ?_, fun k => ?_⟩
        · rw [if_pos hr, hwords]
          exact (List.flatMap_cons ..).symm
        · rw [List.length_cons, hlength]
          simp only [maskWords]
          omega
        · rw [cellBit_cons]
          split
          · rename_i hk
            rw [hset k hk, decide_eq_true (show k < idx % 64 + 1 by omega),
              decide_eq_true (show idx / 64 * 64 + k < idx + 1 + left by omega)]
          · rename_i hk
            rw [hbits, show (idx / 64 + 1) * 64 + (k - 64) = idx / 64 * 64 + k by omega]
      · have hblock : (idx + 1) / 64 = idx / 64 := by omega
        have hmod : (idx + 1) % 64 = idx % 64 + 1 := by omega
        obtain ⟨words, hwords, hlength, hbits⟩ := ih word (idx + 1) fun j hj => by
          rw [hblock, hmod]
          exact hset j hj
        rw [hblock] at hlength hbits
        exact ⟨words, by rw [if_neg hr, hwords], hlength, hbits⟩

theorem writeMaskBits_spec (isSet : Nat → Bool) (n : Nat) :
    ∃ words : List (BitVec 64), writeMaskBits isSet n = writeMask words ∧ words.length = maskWords n ∧
      ∀ i, cellBit words i = (decide (i < n) && isSet i) := by
  obtain ⟨words, hwords, hlength, hbits⟩ := writeMaskBitsFrom_spec isSet n 0 0 fun j _ => by simp
  exact ⟨words, hwords, by simpa using hlength, fun i => by simpa using hbits i⟩

/-! ### Metadata -/

theorem readRowMetadata_append (m : RowMetadata) (rest : Bytes) :
    readRowMetadata (writeRowMetadata m ++ rest) = some (m, rest) := by
  rw [readRowMetadata, writeRowMetadata, List.append_assoc, readRaw_writeRaw 1 m.flags]
  simp [readRaw_writeRaw 8 m.expiryUnixMs]

/-- The fields without their flag have their defaults. -/
structure CellMetadata.Normal (m : CellMetadata) : Prop where
  ttl : cellHasTtl m.flags = false → m.expiryUnixMs = 0
  writetime : cellHasWritetime m.flags = false → m.writetimeUs = 0

theorem readFlagged_append {flag : Bool} {bits : BitVec 64} (h : flag = false → bits = 0) (rest : Bytes) :
    readFlagged flag (writeFlagged flag bits ++ rest) = some (bits, rest) := by
  cases flag with
  | true => exact readRaw_writeRaw 8 bits rest
  | false =>
      rw [h rfl]
      rfl

theorem readCellMetadata_append {m : CellMetadata} (h : m.Normal) (rest : Bytes) :
    readCellMetadata (writeCellMetadata m ++ rest) = some (m, rest) := by
  rw [readCellMetadata, writeCellMetadata, List.append_assoc, List.append_assoc, readRaw_writeRaw 1 m.flags,
    Option.bind_eq_bind, Option.bind_some]
  dsimp only
  rw [readFlagged_append h.ttl, Option.bind_eq_bind, Option.bind_some]
  dsimp only
  rw [readFlagged_append h.writetime]
  rfl

theorem drop_of_readFlagged {flag : Bool} {s rest : Bytes} {bits : BitVec 64}
    (h : readFlagged flag s = some (bits, rest)) : s.drop (if flag then 8 else 0) = rest := by
  cases flag with
  | true => exact drop_of_readRaw h
  | false =>
      obtain ⟨-, rfl⟩ := Prod.mk.inj (Option.some.inj h)
      rfl

/-- The skip of `advance` is a read whose metadata is dropped. -/
theorem skip_of_readCellMetadata {s rest : Bytes} {m : CellMetadata} (h : readCellMetadata s = some (m, rest)) :
    (readRaw 1 s).bind (fun x => some (skipCellMetadata x.1 x.2)) = some rest := by
  obtain ⟨⟨flags, s₁⟩, hflags, h⟩ := Option.bind_eq_some_iff.mp h
  obtain ⟨⟨expiryUnixMs, s₂⟩, hexpiry, h⟩ := Option.bind_eq_some_iff.mp h
  obtain ⟨⟨writetimeUs, s₃⟩, hwritetime, h⟩ := Option.bind_eq_some_iff.mp h
  obtain ⟨-, rfl⟩ := Prod.mk.inj (Option.some.inj h)
  rw [hflags, Option.bind_some, skipCellMetadata, ← List.drop_drop, drop_of_readFlagged hexpiry,
    drop_of_readFlagged hwritetime]

/-! ### Cells -/

/-- The metadata and the value of a column, if it has a cell. -/
abbrev CellMap := Nat → Option (Option CellMetadata × ColumnValue)

/-- The metadata of a cell is read from `s`, if the cell has its own. -/
def ReadsMeta (m : Option CellMetadata) (s rest : Bytes) : Prop :=
  match m with
  | none => rest = s
  | some m => readCellMetadata s = some (m, rest)

/-- `cells i` is the section when the walk is at column `i`: its bits tell what `cell` says, and behind a cell that
was read or skipped it is `cells (i + 1)`. -/
structure CellsAt (tbl : TableView) (cells : Nat → CellSection) (cell : CellMap) : Prop where
  bit : ∀ i, cellBit (cells i).masks i = (cell i).isSome
  metaBit : ∀ i, cellBit (cells i).cellMetaMask i = (cell i).any (·.1.isSome)
  absent : ∀ i, cell i = none → cells (i + 1) = cells i
  read : ∀ i m v, cell i = some (m, v) → ∃ t s rest, tbl.columnType i = some t ∧
    ReadsMeta m (cells i).cursor s ∧ readColumnValue t s = some (v, rest) ∧
    cells (i + 1) = { cells i with cursor := rest }

/-- The value of a column was written under `t`, in the variants that are read back, and the type of the column has
since grown to `t'`. -/
structure StoredCell (tbl tbl' : TableView) (ci : Nat) (v : ColumnValue) (t t' : Ty) : Prop where
  type : tbl.columnType ci = some t
  type' : tbl'.columnType ci = some t'
  grown : Grown t t'
  typed : WellTyped t v
  stored : StoredAs t v

/-- What a reader makes of the active cells of a row. -/
def cellsOf (tbl : TableView) (row : RowArrays) (isActive : Nat → Bool) : CellMap := fun ci =>
  if isActive ci then do
    let t ← tbl.columnType ci
    let v ← row.colValues[ci]?
    pure (row.metaOf ci, pad t v)
  else none

section

variable {tbl tbl' : TableView} {row : RowArrays} {isActive : Nat → Bool}

/-- The active cells are stored, and their metadata has no field without its flag. -/
structure CellsStored (tbl tbl' : TableView) (row : RowArrays) (isActive : Nat → Bool) : Prop where
  cell : ∀ ci, isActive ci = true → ∃ v t t', row.colValues[ci]? = some v ∧ StoredCell tbl tbl' ci v t t'
  normal : ∀ ci m, row.metaOf ci = some m → m.Normal
  bound : ∀ ci, isActive ci = true → ci < tbl.cols.length

/-- The bytes of a column, and what is behind them. -/
theorem CellsStored.writeCell (h : CellsStored tbl tbl' row isActive) (ci : Nat) :
    ∃ front, Cql.writeCell tbl row isActive ci = some front ∧
      (isActive ci = false → front = []) ∧
      ∀ m v, cellsOf tbl' row isActive ci = some (m, v) → ∃ t, tbl'.columnType ci = some t ∧ ∀ rest,
        ∃ s, ReadsMeta m (front ++ rest) s ∧ readColumnValue t s = some (v, rest) := by
  cases hactive : isActive ci with
  | false =>
      refine ⟨[], by rw [Cql.writeCell, hactive]; rfl, fun _ => rfl, fun m v hcell => ?_⟩
      rw [cellsOf, hactive] at hcell
      cases hcell
  | true =>
      obtain ⟨v, t, t', hv, hstored⟩ := h.cell ci hactive
      obtain ⟨bytes, hwrite, hread⟩ := read_pad t t' v hstored.grown hstored.typed hstored.stored
      refine ⟨(row.metaOf ci).elim [] writeCellMetadata ++ bytes, ?_, fun hfalse => Bool.noConfusion hfalse, ?_⟩
      · rw [Cql.writeCell, hactive, if_pos rfl, hstored.type, hv]
        simp [hwrite]
      · intro m w hcell
        rw [cellsOf, hactive, if_pos rfl, hstored.type', hv] at hcell
        obtain ⟨rfl, rfl⟩ := Prod.mk.inj (Option.some.inj hcell)
        refine ⟨t', hstored.type', fun rest => ⟨bytes ++ rest, ?_, hread rest⟩⟩
        cases hmeta : row.metaOf ci with
        | none => rfl
        | some m =>
            rw [ReadsMeta, Option.elim_some, List.append_assoc]
            exact readCellMetadata_append (h.normal ci m hmeta) (bytes ++ rest)

theorem CellsStored.writeCells (h : CellsStored tbl tbl' row isActive) (ci left : Nat) :
    ∃ bytes, Cql.writeCells tbl row isActive ci left = some bytes := by
  induction left generalizing ci with
  | zero => exact ⟨[], rfl⟩
  | succ left ih =>
      obtain ⟨front, hfront, -⟩ := h.writeCell ci
      obtain ⟨back, hback⟩ := ih (ci + 1)
      exact ⟨front ++ back, by rw [Cql.writeCells, hfront, Option.bind_eq_bind, Option.bind_some, hback]; rfl⟩

/-- The bytes of the cells from column `ci` on. -/
def cellsFrom (tbl : TableView) (row : RowArrays) (isActive : Nat → Bool) (ci : Nat) : Bytes :=
  (Cql.writeCells tbl row isActive ci (tbl.cols.length - ci)).getD []

theorem CellsStored.cellsFrom_eq (h : CellsStored tbl tbl' row isActive) {ci : Nat} {front : Bytes}
    (hfront : Cql.writeCell tbl row isActive ci = some front) :
    cellsFrom tbl row isActive ci = front ++ cellsFrom tbl row isActive (ci + 1) := by
  by_cases hci : ci < tbl.cols.length
  · obtain ⟨back, hback⟩ := h.writeCells (ci + 1) (tbl.cols.length - (ci + 1))
    rw [cellsFrom, cellsFrom, show tbl.cols.length - ci = tbl.cols.length - (ci + 1) + 1 by omega, Cql.writeCells,
      hfront, hback]
    rfl
  · have hidle : isActive ci = false := by
      rw [← Bool.not_eq_true]
      exact fun hactive => hci (h.bound ci hactive)
    rw [Cql.writeCell, hidle] at hfront
    obtain rfl := Option.some.inj hfront
    rw [cellsFrom, cellsFrom, Nat.sub_eq_zero_of_le (by omega), Nat.sub_eq_zero_of_le (by omega)]
    rfl

theorem readBlobHeader_append {metadata : RowMetadata} {n : Nat} {masks cellMetaMask : List (BitVec 64)}
    (hn : n < 2 ^ 64) (hmasks : masks.length = maskWords n) (hmeta : cellMetaMask.length = maskWords n)
    (cells : Bytes) :
    Cql.readBlobHeader (writeRowMetadata metadata ++ ((writeCount n ++ writeMask masks) ++
      (writeMask cellMetaMask ++ cells))) = some (n, ⟨metadata, masks, cellMetaMask, cells⟩) := by
  rw [Cql.readBlobHeader, readRowMetadata_append, Option.bind_eq_bind, Option.bind_some, List.append_assoc]
  dsimp only
  rw [readCount_writeCount hn, Option.bind_eq_bind, Option.bind_some]
  dsimp only
  rw [readMask_writeMask hmasks, Option.bind_eq_bind, Option.bind_some]
  dsimp only
  rw [readMask_writeMask hmeta]
  rfl

/-- The header of a section that was written gives the column count, whatever its cells are. -/
theorem readBlobHeader_writeSection {metadata : RowMetadata} {bytes : Bytes} (hcols : tbl.cols.length < 2 ^ 64)
    (h : writeSection tbl row isActive metadata = some bytes) :
    ∃ cells, Cql.readBlobHeader bytes = some (tbl.cols.length, cells) := by
  obtain ⟨words, hwords, hlength, -⟩ := writeMaskBits_spec isActive tbl.cols.length
  obtain ⟨metaWords, hmetaWords, hmetaLength, -⟩ :=
    writeMaskBits_spec (fun ci => isActive ci && (row.metaOf ci).isSome) tbl.cols.length
  obtain ⟨cells, -, h⟩ := Option.bind_eq_some_iff.mp h
  obtain rfl := Option.some.inj h
  rw [writeColumnMask, hwords, hmetaWords]
  exact ⟨_, readBlobHeader_append hcols hlength hmetaLength cells⟩

/-- Loading a section that was written: the count and the cells. -/
theorem CellsStored.readBlobHeader (h : CellsStored tbl tbl' row isActive) (metadata : RowMetadata)
    (hcols : tbl.cols.length < 2 ^ 64) :
    ∃ bytes cells, writeSection tbl row isActive metadata = some bytes ∧ bytes ≠ [] ∧
      Cql.readBlobHeader bytes = some (tbl.cols.length, cells 0) ∧
      CellsAt tbl' cells (cellsOf tbl' row isActive) ∧ ∀ i, (cells i).metadata = metadata := by
  obtain ⟨words, hwords, hlength, hbits⟩ := writeMaskBits_spec isActive tbl.cols.length
  obtain ⟨metaWords, hmetaWords, hmetaLength, hmetaBits⟩ :=
    writeMaskBits_spec (fun ci => isActive ci && (row.metaOf ci).isSome) tbl.cols.length
  obtain ⟨bytes, hbytes⟩ := h.writeCells 0 tbl.cols.length
  have hfrom : cellsFrom tbl row isActive 0 = bytes := by rw [cellsFrom, Nat.sub_zero, hbytes]; rfl
  have hinside (i : Nat) : (decide (i < tbl.cols.length) && isActive i) = isActive i := by
    cases hactive : isActive i with
    | false => rw [Bool.and_false]
    | true => rw [decide_eq_true (h.bound i hactive), Bool.true_and]
  have hcell (i : Nat) (hactive : isActive i = true) :
      ∃ v, cellsOf tbl' row isActive i = some (row.metaOf i, v) := by
    obtain ⟨v, t, t', hv, hstored⟩ := h.cell i hactive
    exact ⟨pad t' v, by rw [cellsOf, hactive, if_pos rfl, hstored.type', hv]; rfl⟩
  have hidle (i : Nat) (hactive : isActive i = false) : cellsOf tbl' row isActive i = none := by
    rw [cellsOf, hactive]
    rfl
  refine ⟨writeRowMetadata metadata ++ ((writeCount tbl.cols.length ++ writeMask words) ++
    (writeMask metaWords ++ bytes)), fun i => ⟨metadata, words, metaWords, cellsFrom tbl row isActive i⟩,
    ?_, ?_, ?_, ⟨?_, ?_, ?_, ?_⟩, fun _ => rfl⟩
  · rw [writeSection, hbytes, writeColumnMask, hwords, hmetaWords]
    rfl
  · simp [writeRowMetadata, writeRaw, leBytes]
  · rw [readBlobHeader_append hcols hlength hmetaLength, ← hfrom]
  · intro i
    rw [hbits, hinside]
    cases hactive : isActive i with
    | false => rw [hidle i hactive]; rfl
    | true =>
        obtain ⟨v, hv⟩ := hcell i hactive
        rw [hv]
        rfl
  · intro i
    rw [hmetaBits, ← Bool.and_assoc, hinside]
    cases hactive : isActive i with
    | false => rw [hidle i hactive]; rfl
    | true =>
        obtain ⟨v, hv⟩ := hcell i hactive
        rw [hv, Bool.true_and]
        rfl
  · intro i hnone
    have hactive : isActive i = false := by
      rw [← Bool.not_eq_true]
      intro hactive
      obtain ⟨v, hv⟩ := hcell i hactive
      rw [hv] at hnone
      cases hnone
    obtain ⟨front, hfront, hempty, -⟩ := h.writeCell i
    rw [h.cellsFrom_eq hfront, hempty hactive, List.nil_append]
  · intro i m v hsome
    obtain ⟨front, hfront, -, hread⟩ := h.writeCell i
    obtain ⟨t, ht, hread⟩ := hread m v hsome
    obtain ⟨s, hmeta, hvalue⟩ := hread (cellsFrom tbl row isActive (i + 1))
    rw [← h.cellsFrom_eq hfront] at hmeta
    exact ⟨t, s, _, ht, hmeta, hvalue, rfl⟩

end

end Plexdb.Cql
