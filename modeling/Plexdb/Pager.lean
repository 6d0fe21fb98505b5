import Plexdb.PagerFiles

/-! The pager (`core/pager/pager.cpp`, `core/pager/pager.wal.cpp`). A failed assertion gives
`none`. The WAL is optional; without it `pager.wal` is none and a commit writes the main file. -/

namespace Plexdb

variable {W : Nat}

namespace Pager

/-- A `DynamicMap`; its hash layout only decides the order of iteration. -/
abbrev DynamicMap (κ α : Type) := AList fun _ : κ => α

structure PageCacheEntry (W : Nat) where
  data : Page W
  dirty : Bool

/-- `Wal`: the fields of its header that change or are read, and `wal_index`. -/
structure Wal where
  salt : BitVec 64
  frameCount : Nat
  walIndex : DynamicMap PageRef Nat

end Pager

open Pager in
/-- `Pager`, with the files behind its handles and the I/O operations issued on them so far. -/
structure Pager (W : Nat) where
  files : Files W
  issued : List (IoOp W)
  header : Header
  savedHeader : Header
  headerInWriteSet : Bool
  transactionActive : Bool
  checkpointInterval : Nat
  walTransactionCount : Nat
  pageCache : DynamicMap Nat (PageCacheEntry W)
  wal : Option Wal

namespace Pager

/-! ### Access to the files -/

def issue (p : Pager W) (op : IoOp W) : Pager W :=
  { p with files := op.apply p.files, issued := p.issued ++ [op] }

def issueAll (p : Pager W) (ops : List (IoOp W)) : Pager W := ops.foldl issue p

def insertCache (p : Pager W) (idx : Nat) (data : Page W) (dirty : Bool) : Pager W :=
  { p with pageCache := p.pageCache.insert idx ⟨data, dirty⟩ }

def readFrame (p : Pager W) (wal : Wal) (frameIdx : Nat) : Option (Frame W) :=
  if frameIdx < wal.frameCount then p.files.wal.readFrame wal.salt frameIdx else none

/-- The page of a frame; a header frame has none. -/
def readFramePage (p : Pager W) (wal : Wal) (frameIdx : Nat) : Option (Page W) :=
  match p.readFrame wal frameIdx with
  | some ⟨_, _, .page data⟩ => some data
  | _ => none

/-- The frame `wal_index` gives for a page. -/
def frameOf (p : Pager W) (idx : Nat) : Option (Wal × Nat) :=
  match p.wal with
  | some wal => (wal.walIndex.lookup (.page idx)).map (wal, ·)
  | none => none

/-- What a cache miss loads: the latest frame of the page, else the main file. -/
def load (p : Pager W) (idx : Nat) : Option (Page W) :=
  match p.frameOf idx with
  | some (wal, frameIdx) => p.readFramePage wal frameIdx
  | none => p.files.main.readPage idx

def InRange (p : Pager W) (idx : Nat) : Prop := 0 < idx ∧ idx < p.header.pageCount

instance (p : Pager W) (idx : Nat) : Decidable (p.InRange idx) := inferInstanceAs (Decidable (_ ∧ _))

def rpage (p : Pager W) (idx : Nat) : Option (Pager W × Page W) :=
  if p.transactionActive ∧ p.InRange idx then
    match p.pageCache.lookup idx with
    | some entry => some (p, entry.data)
    | none => do
        let data ← p.load idx
        pure (p.insertCache idx data false, data)
  else none

/-- `rwpage`: the caller may go on to write through the pointer, see `writePage`. -/
def rwpage (p : Pager W) (idx : Nat) : Option (Pager W × Page W) :=
  if p.transactionActive ∧ p.InRange idx then
    match p.pageCache.lookup idx with
    | some entry => some (p.insertCache idx entry.data true, entry.data)
    | none => do
        let data ← p.load idx
        pure (p.insertCache idx data true, data)
  else none

/-- A caller of `rwpage` leaves `data` in the page. -/
def writePage (p : Pager W) (idx : Nat) (data : Page W) : Option (Pager W) := do
  let (p, _) ← p.rwpage idx
  pure (p.insertCache idx data true)

/-! ### Allocation -/

/-- `BITSET_PAGE_STRIDE`: a bitset page and the pages its bits stand for. -/
def stride (W : Nat) : Nat := W * 64 + 1

/-- Also what `delete_page` does to the page it frees. -/
def ensurePageZeroed (p : Pager W) (idx : Nat) : Pager W := p.insertCache idx Page.zero true

/-- The bitset pages below the page count. -/
def bitsetCount (p : Pager W) : Nat := (p.header.pageCount - 1 + W * 64) / stride W

/-- The loop over bitset pages in `new_page`, `n` of them left: the bitset page with a clear bit,
what it holds, and the bit. -/
def findFree (p : Pager W) : (n bitsetPage : Nat) → Option (Pager W × Option (Nat × Page W × Nat))
  | 0, _ => some (p, none)
  | n + 1, bitsetPage => do
      let (p, bitset) ← p.rwpage bitsetPage
      match bitset.firstFree W 0 with
      | some bitIdx => pure (p, some (bitsetPage, bitset, bitIdx))
      | none => findFree p n (bitsetPage + stride W)

/-- Set the page count and resize the file at once, before any commit. -/
def grow (p : Pager W) (pageCount : Nat) : Pager W :=
  { p with header := { p.header with pageCount := pageCount }, headerInWriteSet := true }.issue
    (.main (.resize pageCount))

def newPage (p : Pager W) : Option (Pager W × Nat) :=
  if p.transactionActive then do
    let (p, slot) ← p.findFree p.bitsetCount 1
    match slot with
    | some (bitsetPage, bitset, bitIdx) =>
        let p := p.insertCache bitsetPage (bitset.setBit bitIdx) true
        let freePage := bitsetPage + 1 + bitIdx
        let p := if p.header.pageCount ≤ freePage then p.grow (freePage + 1) else p
        pure (p.ensurePageZeroed freePage, freePage)
    | none =>
        if (p.header.pageCount - 1) % stride W = 0 then do
          let bitsetPage := p.header.pageCount
          let freePage := bitsetPage + 1
          let p := p.grow (freePage + 1)
          let (p, bitset) ← p.rwpage bitsetPage
          let p := p.insertCache bitsetPage (bitset.setBit 0) true
          pure (p.ensurePageZeroed freePage, freePage)
        else none
  else none

/-- The trimming loop of `delete_page` at bitset group `group`, whose bitset page holds `bitset`;
`entryIdx` is where its search starts. -/
def trim (p : Pager W) : (group entryIdx : Nat) → Page W → Option (Pager W)
  | 0, entryIdx, bitset =>
      match bitset.occupied entryIdx with
      | some n => some { p with header := { p.header with pageCount := 2 + n } }
      | none => some { p with header := { p.header with pageCount := 1 } }
  | group + 1, entryIdx, bitset =>
      let bitsetPage := (group + 1) * stride W + 1
      match bitset.occupied entryIdx with
      | some n => some { p with header := { p.header with pageCount := bitsetPage + 1 + n } }
      | none => do
          let p := { p with header := { p.header with pageCount := bitsetPage } }
          let (p, bitset) ← p.rpage (group * stride W + 1)
          p.trim group (W - 1) bitset

def deletePage (p : Pager W) (idx : Nat) : Option (Pager W) :=
  if p.transactionActive ∧ p.InRange idx then do
    let group := (idx - 1) / stride W
    let bitsetPage := group * stride W + 1
    if idx = bitsetPage then none
    else do
      let (p, bitset) ← p.rwpage bitsetPage
      let bitIdx := idx - bitsetPage - 1
      if bitset.bit bitIdx then do
        let bitset := bitset.clearBit bitIdx
        let p := p.insertCache bitsetPage bitset true
        let p := p.ensurePageZeroed idx
        if idx = p.header.pageCount - 1 then do
          let p ← p.trim group (bitIdx / 64) bitset
          pure { p with headerInWriteSet := true }
        else pure p
      else none
  else none

/-! ### Transactions -/

def setRoot (p : Pager W) (page : Nat) : Option (Pager W) :=
  if p.transactionActive then
    some { p with header := { p.header with rootPage := page }, headerInWriteSet := true }
  else none

/-- `begin_transaction`, once no other transaction is active. -/
def begin (p : Pager W) : Option (Pager W) :=
  if p.transactionActive then none
  else some { p with savedHeader := p.header, transactionActive := true }

def rollback (p : Pager W) : Pager W :=
  { p with
    header := p.savedHeader
    headerInWriteSet := false
    pageCache := ∅
    transactionActive := false }

/-- The dirty pages a commit writes: those a trim has not cut off. -/
def dirtyPages (p : Pager W) : List (Nat × Page W) :=
  p.pageCache.entries.filterMap fun ⟨idx, entry⟩ =>
    if entry.dirty ∧ idx < p.header.pageCount then some (idx, entry.data) else none

/-- The writes a commit gathers. -/
def pageWrites (p : Pager W) : List (PageRef × Payload W) :=
  p.dirtyPages.map (fun w => (.page w.1, .page w.2)) ++
    if p.headerInWriteSet then [(.header, .header p.header)] else []

/-- The main file write of a gathered write, without a WAL. -/
def flushOp (p : Pager W) : PageRef × Payload W → MainOp W
  | (.page idx, .page data) => .writePage idx data
  | _ => .writeHeader p.header

def commitNoWal (p : Pager W) : Pager W :=
  { p.issueAll ((p.pageWrites.map p.flushOp).map .main ++
      [.main (.resize p.header.pageCount), .syncMain]) with
    headerInWriteSet := false
    pageCache := ∅ }

/-- The frames `append_frames` writes, from frame `base` on. -/
def frameWrites (salt : BitVec 64) (base : Nat) : List (PageRef × Payload W) → List (WalOp W)
  | [] => []
  | w :: writes =>
      .writeFrame base ⟨w.1, frameChecksum salt w.1 w.2, w.2⟩ :: frameWrites salt (base + 1) writes

/-- `wal::append_frames`: make room, then write the frames. -/
def appendOps (wal : Wal) (writes : List (PageRef × Payload W)) : List (WalOp W) :=
  .resize (wal.frameCount + writes.length) :: frameWrites wal.salt wal.frameCount writes

/-- `wal_index` after the writes went to the frames from `base` on. -/
def indexWrites (index : DynamicMap PageRef Nat) (base : Nat) :
    List (PageRef × Payload W) → DynamicMap PageRef Nat
  | [] => index
  | w :: writes => indexWrites (index.insert w.1 base) (base + 1) writes

/-- Append what the commit gathers to the WAL, and index it. -/
def logWrites (p : Pager W) (wal : Wal) : Pager W × Wal :=
  let writes := p.pageWrites
  if writes = [] then (p, wal)
  else
    let wal' := { wal with
      frameCount := wal.frameCount + writes.length
      walIndex := indexWrites wal.walIndex wal.frameCount writes }
    ({ p.issueAll ((appendOps wal writes).map .wal) with headerInWriteSet := false, wal := some wal' }, wal')

/-- `wal::commit`, and the transaction counted. -/
def counted (p : Pager W) (wal : Wal) : Pager W :=
  { p.issueAll [.syncWal, .wal (.writeCount wal.frameCount), .syncWal] with
    walTransactionCount := p.walTransactionCount + 1 }

/-- The main file write of one `wal_index` entry at a checkpoint. -/
def checkpointWrite (p : Pager W) (wal : Wal) (pageIdx : PageRef) (frameIdx : Nat) :
    Option (MainOp W) :=
  match pageIdx with
  | .header => some (.writeHeader p.header)
  | .page idx =>
      match p.pageCache.lookup idx with
      | some entry => some (.writePage idx entry.data)
      | none => (p.readFramePage wal frameIdx).map (.writePage idx)

def checkpoint (p : Pager W) : Option (Pager W) :=
  match p.wal with
  | none => none
  | some wal => do
      let writes ← wal.walIndex.entries.mapM fun ⟨pageIdx, frameIdx⟩ =>
        p.checkpointWrite wal pageIdx frameIdx
      let p := p.issueAll (writes.map .main ++
        [.main (.resize p.header.pageCount), .syncMain, .wal (.writeCount 0), .syncWal])
      pure { p with
        wal := some { wal with frameCount := 0, walIndex := ∅ }
        walTransactionCount := 0 }

def checkpointIfDue (p : Pager W) : Option (Pager W) :=
  if p.checkpointInterval ≤ p.walTransactionCount then p.checkpoint else some p

def finishTransaction (p : Pager W) : Pager W := { p with pageCache := ∅, transactionActive := false }

def commit (p : Pager W) : Option (Pager W) :=
  if p.transactionActive then
    match p.wal with
    | none => some p.commitNoWal.finishTransaction
    | some wal =>
        let (p, wal) := p.logWrites wal
        if 0 < wal.frameCount then (p.counted wal).checkpointIfDue.map finishTransaction
        else some p.finishTransaction
  else none

/-! ### Opening -/

/-- The main file write of a recovered frame. -/
def replayOp (f : Frame W) : Option (MainOp W) :=
  match f with
  | ⟨.page idx, _, .page data⟩ => some (.writePage idx data)
  | ⟨.header, _, .header h⟩ => some (.writeHeader h)
  | _ => none

/-- The replay loop of `maybe_recover_wal`, frames `i` to `i + n`. -/
def replay (p : Pager W) (wal : Wal) : (n i : Nat) → Option (Pager W)
  | 0, _ => some p
  | n + 1, i => do
      let frame ← p.readFrame wal i
      let op ← replayOp frame
      replay (p.issue (.main op)) wal n (i + 1)

def maybeRecoverWal (p : Pager W) : Option (Pager W) :=
  match p.wal with
  | none => some p
  | some wal =>
      if wal.frameCount = 0 then some p
      else do
        let p ← p.replay wal wal.frameCount 0
        let p := p.issueAll [.syncMain, .wal (.writeCount 0), .syncWal]
        let p := { p with wal := some { wal with frameCount := 0 }, header := p.files.main.header }
        pure (p.issue (.main (.resize p.header.pageCount)))

/-- A pager on files that exist, its header read; `withWal` says whether a WAL file is given. -/
def opened (files : Files W) (withWal : Bool) (checkpointInterval : Nat) : Pager W where
  files := files
  issued := []
  header := files.main.header
  savedHeader := ⟨0, 0⟩
  headerInWriteSet := false
  transactionActive := false
  checkpointInterval := checkpointInterval
  walTransactionCount := 0
  pageCache := ∅
  wal := if withWal then some ⟨files.wal.salt, files.wal.frameCount, ∅⟩ else none

/-- `init`. -/
def init (files : Files W) (withWal : Bool) (checkpointInterval : Nat) : Option (Pager W) :=
  (opened files withWal checkpointInterval).maybeRecoverWal

/-- The files `create` and `wal::create` make; `MAX_U64` stands for no root page. -/
def createdFiles (salt : BitVec 64) : Files W where
  main := ⟨1, ⟨1, 2 ^ 64 - 1⟩, fun _ => Page.zero⟩
  wal := ⟨salt, 0, 0, fun _ => WalFile.zeroFrame⟩

end Pager

end Plexdb
