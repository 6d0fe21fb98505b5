import Plexdb.PagerReads
import Plexdb.WalFrames

/-! The pager over the bytes of its WAL file. The header of the WAL in memory is the one of the file only where
`try_load` answers true; before that it is empty, and so is the page size that commits and checkpoints go by. -/

namespace Plexdb.WalBytes

open Plexdb.Pager (MainFile MainOp PageRef Payload PageCacheEntry DynamicMap)

variable {W : Nat}

/-! ### Pages and headers as bytes -/

/-- `page_size` of a pager whose pages have `W` words. -/
def pageBytes (W : Nat) : Nat := 8 * W

def pageMemory (page : Page W) : Memory := Memory.ofWords page.word

def pageOf (m : Memory) : Page W := fun i => m.word (8 * i)

/-- The header of a pager, as it stands in memory before the saved header. -/
def headerMemory (W : Nat) (h : Pager.Header) : Memory := Memory.ofWords fun
  | 1 => BitVec.ofNat 64 (pageBytes W)
  | 2 => BitVec.ofNat 64 h.pageCount
  | 3 => BitVec.ofNat 64 h.rootPage
  | _ => Pager.headerWord

/-- None for what is not a header of a pager with this page size. -/
def headerOf (W : Nat) (m : Memory) : Option Pager.Header :=
  if m.word 0 = Pager.headerWord ∧ m.word 8 = BitVec.ofNat 64 (pageBytes W) then
    some ⟨(m.word 16).toNat, (m.word 24).toNat⟩
  else none

/-- The write that a commit gathers for `append_frames`. -/
def pageWrite : PageRef × Payload W → PageWrite
  | (.page idx, .page data) => ⟨BitVec.ofNat 64 idx, pageMemory data⟩
  | (_, .header h) => ⟨headerFrameIdx, headerMemory W h⟩
  | (.header, .page data) => ⟨headerFrameIdx, pageMemory data⟩

/-! ### The pager -/

/-- `Pager` with a WAL, on files that are read through `io`. -/
structure BytePager (W : Nat) where
  io : Io
  main : MainFile W
  header : Pager.Header
  savedHeader : Pager.Header
  headerInWriteSet : Bool
  transactionActive : Bool
  checkpointInterval : Nat
  walTransactionCount : Nat
  pageCache : DynamicMap Nat (PageCacheEntry W)
  wal : Wal
  walIndex : DynamicMap PageRef Nat

namespace BytePager

/-- A frame as the page operations see it: what `read_frame` leaves in a page of zeros. They read no header frame,
and a frame that fails an assertion has a checksum that does not match. -/
def seenFrame (s : BytePager W) (frameIdx : Nat) : Pager.Frame W :=
  let salt := s.wal.header.salt
  match s.wal.file.read (s.wal.header.frameOffset frameIdx) frameBytes Memory.zero s.io with
  | some m =>
      if (Frame.ofMemory m).pageIdx = headerFrameIdx then
        ⟨.header, Pager.frameChecksum salt .header (.header (W := W) ⟨0, 0⟩), .header ⟨0, 0⟩⟩
      else
        match s.wal.readFrame s.io frameIdx Memory.zero with
        | some (frame, data) => ⟨.page frame.pageIdx.toNat, frame.checksum, .page (pageOf data)⟩
        | none => ⟨.page 0, ~~~ Pager.frameChecksum salt (.page 0) (.page (Page.zero : Page W)), .page Page.zero⟩
  | none => ⟨.page 0, ~~~ Pager.frameChecksum salt (.page 0) (.page (Page.zero : Page W)), .page Page.zero⟩

/-- The pager as the page operations see it. -/
def view (s : BytePager W) : Plexdb.Pager W where
  files := ⟨s.main, ⟨s.wal.header.salt, s.wal.header.frameCount, s.wal.header.frameCount, s.seenFrame⟩⟩
  issued := []
  header := s.header
  savedHeader := s.savedHeader
  headerInWriteSet := s.headerInWriteSet
  transactionActive := s.transactionActive
  checkpointInterval := s.checkpointInterval
  walTransactionCount := s.walTransactionCount
  pageCache := s.pageCache
  wal := some ⟨s.wal.header.salt, s.wal.header.frameCount, s.walIndex⟩

/-- What a page operation leaves; a file is not resized to 2^63 bytes. -/
def absorb (s : BytePager W) (p : Plexdb.Pager W) : Option (BytePager W) :=
  if p.header.pageCount * pageBytes W < 2 ^ 63 then
    some { s with
      main := p.files.main
      header := p.header
      savedHeader := p.savedHeader
      headerInWriteSet := p.headerInWriteSet
      transactionActive := p.transactionActive
      pageCache := p.pageCache }
  else none

/-! ### Commits and checkpoints -/

/-- `append_frames` of what the commit gathers, and the index of the frames. -/
def logWrites (s : BytePager W) (buffer : Memory) : Option (BytePager W) :=
  let writes := s.view.pageWrites
  if writes = [] then some s
  else do
    let wal ← s.wal.appendFrames (writes.map pageWrite) buffer
    some { s with
      headerInWriteSet := false
      wal := wal
      walIndex := Pager.indexWrites s.walIndex s.wal.header.frameCount writes }

/-- A write of `page_size` bytes to the main file. The synchronous context asserts that they are some. -/
def mainWrite (s : BytePager W) (idx : Nat) (data : Page W) : Option (List (MainOp W)) :=
  if 0 < s.wal.header.pageSize then some [.writePage idx data]
  else match s.io with
    | .sync => none
    | .async => some []

/-- The main file write of one `wal_index` entry; `scratch` is what the read buffer holds. -/
def checkpointWrite (s : BytePager W) (scratch : Memory) (pageIdx : PageRef) (frameIdx : Nat) :
    Option (List (MainOp W)) :=
  match pageIdx with
  | .header => some [.writeHeader s.header]
  | .page idx =>
      match s.pageCache.lookup idx with
      | some entry => s.mainWrite idx entry.data
      | none => (s.wal.readFrame s.io frameIdx scratch).bind fun r => s.mainWrite idx (pageOf r.2)

/-- The main file is resized by the page size of the WAL. -/
def checkpoint (s : BytePager W) (scratch : Memory) : Option (BytePager W) := do
  let writes ← s.walIndex.entries.mapM fun ⟨pageIdx, frameIdx⟩ => s.checkpointWrite scratch pageIdx frameIdx
  let main := writes.flatten.foldl MainOp.apply s.main
  some { s with
    main := main.resize (s.header.pageCount * s.wal.header.pageSize / pageBytes W)
    wal := s.wal.reset
    walIndex := ∅
    walTransactionCount := 0 }

def checkpointIfDue (s : BytePager W) (scratch : Memory) : Option (BytePager W) :=
  if s.checkpointInterval ≤ s.walTransactionCount then s.checkpoint scratch else some s

def finishTransaction (s : BytePager W) : BytePager W := { s with pageCache := ∅, transactionActive := false }

def counted (s : BytePager W) : BytePager W :=
  { s with wal := s.wal.writeFrameCount, walTransactionCount := s.walTransactionCount + 1 }

/-- `buffer` and `scratch` are what the arena holds where the frames are put together and where a checkpoint reads. -/
def commit (s : BytePager W) (buffer scratch : Memory) : Option (BytePager W) :=
  if s.transactionActive then
    (s.logWrites buffer).bind fun s =>
      if 0 < s.wal.header.frameCount then (s.counted.checkpointIfDue scratch).map finishTransaction
      else some s.finishTransaction
  else none

/-! ### Opening -/

/-- The replay loop, `n` frames from `i` on; `buf` is the buffer they are read into. -/
def replay (s : BytePager W) : (n i : Nat) → Memory → Option (BytePager W)
  | 0, _, _ => some s
  | n + 1, i, buf => do
      let (frame, buf) ← s.wal.readFrame s.io i buf
      if frame.pageIdx = headerFrameIdx then
        let h ← headerOf W buf
        replay { s with main := s.main.writeHeader h } n (i + 1) buf
      else replay { s with main := s.main.writePage frame.pageIdx.toNat (pageOf buf) } n (i + 1) buf

def maybeRecoverWal (s : BytePager W) (buf : Memory) : Option (BytePager W) :=
  match Wal.tryLoad s.wal.file (pageBytes W) with
  | none => some s
  | some wal =>
      let s := { s with wal := wal }
      if wal.header.frameCount = 0 then some s
      else do
        let s ← s.replay wal.header.frameCount 0 buf
        let s := { s with wal := s.wal.reset, header := s.main.header }
        some { s with main := s.main.resize s.header.pageCount }

def opened (io : Io) (main : MainFile W) (file : File) (checkpointInterval : Nat) : BytePager W where
  io := io
  main := main
  header := main.header
  savedHeader := ⟨0, 0⟩
  headerInWriteSet := false
  transactionActive := false
  checkpointInterval := checkpointInterval
  walTransactionCount := 0
  pageCache := ∅
  wal := ⟨file, Header.empty⟩
  walIndex := ∅

/-- `init` on a database and whatever WAL file is there. -/
def init (io : Io) (main : MainFile W) (file : File) (checkpointInterval : Nat) (buf : Memory) : Option (BytePager W) :=
  (opened io main file checkpointInterval).maybeRecoverWal buf

end BytePager

/-! ### Runs -/

/-- A pager, the pages that are allocated, what the last commit left and what was last written to each page. -/
structure Session (W : Nat) where
  pager : BytePager W
  live : Finset Nat
  committed : Pager.Snapshot W
  last : Nat → Page W

namespace Session

def written (s : Session W) : Pager.Written W := ⟨⟨s.pager.view, s.live, s.committed⟩, s.last⟩

/-- A step, and what the scratch arena holds at the time. -/
def step (s : Session W) : Pager.Op W × Memory × Memory → Option (Session W)
  | (.commit, buffer, scratch) => (s.pager.commit buffer scratch).map fun p =>
      { s with pager := p, committed := ⟨s.pager.header, s.live, s.pager.view.content⟩ }
  | (.checkpoint, _, scratch) =>
      if s.pager.transactionActive then none
      else (s.pager.checkpoint scratch).map fun p => { s with pager := p }
  | (op, _) => do
      let w ← s.written.step op
      let p ← s.pager.absorb w.sys.pager
      some ⟨p, w.sys.live, w.sys.committed, w.last⟩

/-- A session on a pager after `init`. -/
def start (p : BytePager W) (live : Finset Nat) (last : Nat → Page W) : Session W :=
  ⟨p, live, ⟨p.header, live, p.view.content⟩, last⟩

/-- What `start` needs of the database: the bits of its pages are set, and it is not over 2^63 bytes. -/
structure Database (p : BytePager W) (live : Finset Nat) (last : Nat → Page W) : Prop where
  covered : Pager.Covered p.view live
  content : ∀ i ∈ live, p.view.content i = some (last i)
  fits : p.header.pageCount * pageBytes W < 2 ^ 63

/-- In a transaction, every live page reads as what was last written to it. -/
def ReadsLive (s : Session W) : Prop :=
  s.pager.transactionActive = true → ∀ idx ∈ s.live,
    (∃ p, s.pager.view.rpage idx = some (p, s.last idx)) ∧ ∃ p, s.pager.view.rwpage idx = some (p, s.last idx)

/-- A transaction can be committed; a file is not resized to 2^63 bytes. -/
def Commits (s : Session W) : Prop :=
  s.pager.transactionActive = true →
    s.pager.wal.header.frameOffset (s.pager.wal.header.frameCount + s.pager.view.pageWrites.length) < 2 ^ 63 →
    ∀ buffer scratch, ∃ p, s.pager.commit buffer scratch = some p

end Session

end Plexdb.WalBytes
