import Plexdb.Page

/-! The main file and the WAL file of a pager, and the I/O operations it issues on them. The files
here are what reads see; `Media` is what a crash leaves of them: a write is durable once a later
sync of its file has completed, and any of the others may be lost. -/

namespace Plexdb.Pager

variable {W : Nat}

/-- `pager::Header`. Its magic, version and page size never change. -/
structure Header where
  pageCount : Nat
  rootPage : Nat
  deriving DecidableEq, Repr

/-- What a WAL frame or a flushed write is about: `MAX_U64` stands for the header. -/
inductive PageRef where
  | header
  | page (idx : Nat)
  deriving DecidableEq, Repr

inductive Payload (W : Nat) where
  | header (h : Header)
  | page (data : Page W)

/-- `wal::Frame` and the data after it. -/
structure Frame (W : Nat) where
  pageIdx : PageRef
  checksum : BitVec 64
  data : Payload W

/-- The magic and version bytes, first in every header. -/
def headerWord : BitVec 64 := 0x01000c0162445870#64

def PageRef.toU64 : PageRef → BitVec 64
  | .header => BitVec.allOnes 64
  | .page idx => BitVec.ofNat 64 idx

def Payload.firstWord : Payload W → BitVec 64
  | .header _ => headerWord
  | .page data => data.word 0

def frameChecksum (salt : BitVec 64) (pageIdx : PageRef) (data : Payload W) : BitVec 64 :=
  salt ^^^ pageIdx.toU64 ^^^ data.firstWord

/-! ### Files -/

/-- `size` pages, the first of which holds the header. -/
structure MainFile (W : Nat) where
  size : Nat
  header : Header
  pages : Nat → Page W

namespace MainFile

/-- `os::file_resize_zero`. -/
def resize (m : MainFile W) (n : Nat) : MainFile W :=
  { m with size := n, pages := fun i => if i < n ∧ i < m.size then m.pages i else Page.zero }

def writePage (m : MainFile W) (idx : Nat) (data : Page W) : MainFile W :=
  { m with
    size := max m.size (idx + 1)
    pages := fun i =>
      if i = idx then data else if i < m.size then m.pages i else Page.zero }

def writeHeader (m : MainFile W) (h : Header) : MainFile W := { m with size := max m.size 1, header := h }

/-- Reading past the end of the file fails an assertion. -/
def readPage (m : MainFile W) (idx : Nat) : Option (Page W) :=
  if idx < m.size then some (m.pages idx) else none

end MainFile

/-- A file made by `wal::create`, with room for `size` frames. -/
structure WalFile (W : Nat) where
  salt : BitVec 64
  frameCount : Nat
  size : Nat
  frames : Nat → Frame W

namespace WalFile

def zeroFrame : Frame W := ⟨.page 0, 0, .page Page.zero⟩

def resize (w : WalFile W) (n : Nat) : WalFile W :=
  { w with size := n, frames := fun i => if i < n ∧ i < w.size then w.frames i else zeroFrame }

def writeFrame (w : WalFile W) (idx : Nat) (f : Frame W) : WalFile W :=
  { w with
    size := max w.size (idx + 1)
    frames := fun i =>
      if i = idx then f else if i < w.size then w.frames i else zeroFrame }

/-- `wal::read_frame`, once the index is known to be below the frame count. -/
def readFrame (w : WalFile W) (salt : BitVec 64) (idx : Nat) : Option (Frame W) :=
  if idx < w.size ∧
      (w.frames idx).checksum = frameChecksum salt (w.frames idx).pageIdx (w.frames idx).data then
    some (w.frames idx)
  else none

end WalFile

/-! ### I/O operations -/

inductive MainOp (W : Nat) where
  | resize (n : Nat)
  | writePage (idx : Nat) (data : Page W)
  | writeHeader (h : Header)

inductive WalOp (W : Nat) where
  | resize (n : Nat)
  | writeFrame (idx : Nat) (f : Frame W)
  | writeCount (n : Nat)

inductive IoOp (W : Nat) where
  | main (op : MainOp W)
  | wal (op : WalOp W)
  | syncMain
  | syncWal

def MainOp.apply (m : MainFile W) : MainOp W → MainFile W
  | .resize n => m.resize n
  | .writePage idx data => m.writePage idx data
  | .writeHeader h => m.writeHeader h

def WalOp.apply (w : WalFile W) : WalOp W → WalFile W
  | .resize n => w.resize n
  | .writeFrame idx f => w.writeFrame idx f
  | .writeCount n => { w with frameCount := n }

structure Files (W : Nat) where
  main : MainFile W
  wal : WalFile W

def IoOp.apply (f : Files W) : IoOp W → Files W
  | .main op => { f with main := op.apply f.main }
  | .wal op => { f with wal := op.apply f.wal }
  | .syncMain | .syncWal => f

/-! ### Crashes -/

/-- The durable files and the writes since the last completed sync of each. -/
structure Media (W : Nat) where
  main : MainFile W
  wal : WalFile W
  pendingMain : List (MainOp W)
  pendingWal : List (WalOp W)

namespace Media

def ofFiles (f : Files W) : Media W := ⟨f.main, f.wal, [], []⟩

def step (m : Media W) : IoOp W → Media W
  | .main op => { m with pendingMain := m.pendingMain ++ [op] }
  | .wal op => { m with pendingWal := m.pendingWal ++ [op] }
  | .syncMain => { m with main := m.pendingMain.foldl MainOp.apply m.main, pendingMain := [] }
  | .syncWal => { m with wal := m.pendingWal.foldl WalOp.apply m.wal, pendingWal := [] }

def run (m : Media W) (ops : List (IoOp W)) : Media W := ops.foldl step m

/-- What is read as long as nothing crashes. -/
def files (m : Media W) : Files W :=
  ⟨m.pendingMain.foldl MainOp.apply m.main, m.pendingWal.foldl WalOp.apply m.wal⟩

/-- `f` may be left by a crash: any of the unsynced writes may be lost. -/
def Crash (m : Media W) (f : Files W) : Prop :=
  (∃ ops : List (MainOp W), ops.Sublist m.pendingMain ∧ f.main = ops.foldl MainOp.apply m.main) ∧
    ∃ ops : List (WalOp W), ops.Sublist m.pendingWal ∧ f.wal = ops.foldl WalOp.apply m.wal

theorem files_step (m : Media W) (op : IoOp W) : (m.step op).files = op.apply m.files := by
  cases op <;> simp [step, files, IoOp.apply]

theorem files_run (m : Media W) (ops : List (IoOp W)) :
    (m.run ops).files = ops.foldl IoOp.apply m.files := by
  induction ops generalizing m with
  | nil => rfl
  | cons op ops ih =>
      rw [run, List.foldl_cons, List.foldl_cons, ← files_step]
      exact ih (m.step op)

end Media

/-! ### Reading after writing -/

/-- A page the file is resized over reads as it did, as zeros if it did not exist. -/
theorem MainFile.readPage_resize (m : MainFile W) (n i : Nat) :
    (m.resize n).readPage i = if i < n then some ((m.readPage i).getD Page.zero) else none := by
  unfold MainFile.readPage MainFile.resize
  split_ifs <;> simp_all

theorem MainFile.readPage_writePage (m : MainFile W) (idx : Nat) (data : Page W) (i : Nat) :
    (m.writePage idx data).readPage i =
      if i = idx then some data
      else if i < m.size then m.readPage i
      else if i < idx then some Page.zero else none := by
  unfold MainFile.readPage MainFile.writePage
  split_ifs <;> simp_all <;> omega

end Plexdb.Pager
