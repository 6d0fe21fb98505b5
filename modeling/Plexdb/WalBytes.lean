import Plexdb.Runs

/-! The bytes of the WAL file (`core/pager/pager.wal.cpp`): frames stand at a uniform stride that comes from the
page size of the header in memory, and the frame of a pager header is not as long as that of a page. -/

namespace Plexdb.WalBytes

/-- What a pointer points at. -/
abbrev Memory := Nat → BitVec 8

namespace Memory

def zero : Memory := fun _ => 0

/-- `os::memory_copy` of `n` bytes to `off`. -/
def copy (dst : Memory) (off n : Nat) (src : Memory) : Memory := fun i =>
  if off ≤ i ∧ i < off + n then src (i - off) else dst i

/-- The U64 at `off`. -/
def word (m : Memory) (off : Nat) : BitVec 64 := BitVec.ofFnLE fun j => (m (off + j / 8)).getLsbD (j % 8)

def ofWords (words : Nat → BitVec 64) : Memory := fun i => (words (i / 8)).extractLsb' (8 * (i % 8)) 8

theorem word_congr {m m' : Memory} {off off' : Nat} (h : ∀ k < 8, m (off + k) = m' (off' + k)) :
    m.word off = m'.word off' := by
  unfold word
  congr 1
  funext j
  rw [h (j / 8) (by omega)]

theorem word_ofWords (words : Nat → BitVec 64) (i : Nat) : (ofWords words).word (8 * i) = words i := by
  apply BitVec.eq_of_getLsbD_eq
  intro j hj
  have hdiv : (8 * i + j / 8) / 8 = i := by omega
  have hmod : 8 * ((8 * i + j / 8) % 8) + j % 8 = j := by omega
  simp only [word, BitVec.getLsbD_ofFnLE, hj, dite_true, ofWords, BitVec.getLsbD_extractLsb', hdiv, hmod]
  simp [Nat.mod_lt]

theorem copy_of_lt {dst src : Memory} {off n i : Nat} (h : i < off) : dst.copy off n src i = dst i :=
  if_neg (by omega)

theorem copy_of_mem {dst src : Memory} {off n k : Nat} (h : k < n) : dst.copy off n src (off + k) = src k := by
  rw [copy, if_pos (by omega), Nat.add_sub_cancel_left]

theorem copy_zero_of_lt {dst src : Memory} {n k : Nat} (h : k < n) : dst.copy 0 n src k = src k :=
  if_pos (by omega)

end Memory

/-! ### Files -/

structure File where
  size : Nat
  byte : Memory

/-- The context files are read through: the synchronous one asserts that a read is whole. -/
inductive Io where
  | sync
  | async
  deriving DecidableEq

namespace File

/-- `os::file_resize_zero`. -/
def resize (f : File) (n : Nat) : Option File :=
  if n < 2 ^ 63 then some ⟨n, fun i => if i < n ∧ i < f.size then f.byte i else 0⟩ else none

def write (f : File) (off n : Nat) (src : Memory) : File where
  size := max f.size (off + n)
  byte i := if off ≤ i ∧ i < off + n then src (i - off) else if i < f.size then f.byte i else 0

/-- What a read of `n` bytes leaves in `dst`. -/
def read (f : File) (off n : Nat) (dst : Memory) : Io → Option Memory
  | .sync => if 0 < n ∧ off + n ≤ f.size then some (dst.copy 0 n fun k => f.byte (off + k)) else none
  | .async => some (dst.copy 0 (min n (f.size - off)) fun k => f.byte (off + k))

theorem read_eq_some {f : File} {off n : Nat} (hn : 0 < n) (h : off + n ≤ f.size) (dst : Memory) (io : Io) :
    f.read off n dst io = some (dst.copy 0 n fun k => f.byte (off + k)) := by
  cases io with
  | sync => exact if_pos ⟨hn, h⟩
  | async => rw [read, Nat.min_eq_left (by omega)]

theorem byte_write_of_mem {f : File} {off n k : Nat} {src : Memory} (h : k < n) :
    (f.write off n src).byte (off + k) = src k := by
  rw [write]
  dsimp only
  rw [if_pos (by omega), Nat.add_sub_cancel_left]

theorem byte_write_of_lt {f : File} {off n i : Nat} {src : Memory} (h : i < off) (hsize : i < f.size) :
    (f.write off n src).byte i = f.byte i := by
  rw [write]
  dsimp only
  rw [if_neg (by omega), if_pos hsize]

end File

/-! ### The WAL -/

/-- `MAX_U64`, the page index of a header frame. -/
def headerFrameIdx : BitVec 64 := BitVec.allOnes 64

/-- `wal::Header`. -/
structure Header where
  magic : BitVec 64
  version : BitVec 16
  pageSize : Nat
  salt : BitVec 64
  frameCount : Nat
  deriving DecidableEq

/-- `wal::MAGIC`. -/
def magic : BitVec 64 := 0x0000014c41575870#64

/-- `wal::CURRENT_VERSION`. -/
def currentVersion : BitVec 16 := 0x0100#16

/-- `sizeof(wal::Header)`, `sizeof(wal::Frame)` and `sizeof(pager::Header)`. -/
def headerBytes : Nat := 40
def frameBytes : Nat := 16
def pagerHeaderBytes : Nat := 32

/-- `offsetof(wal::Header, frame_count)`. -/
def frameCountOffset : Nat := 32

structure Frame where
  pageIdx : BitVec 64
  checksum : BitVec 64
  deriving DecidableEq

def Frame.memory (f : Frame) : Memory := Memory.ofWords fun i => if i = 0 then f.pageIdx else f.checksum

def Frame.ofMemory (m : Memory) : Frame := ⟨m.word 0, m.word 8⟩

structure PageWrite where
  pageIdx : BitVec 64
  data : Memory

structure Wal where
  file : File
  header : Header

namespace Header

/-- The header a `Wal` starts with. -/
def empty : Header := ⟨0, 0, 0, 0, 0⟩

def memory (h : Header) : Memory := Memory.ofWords fun
  | 0 => h.magic
  | 1 => h.version.setWidth 64
  | 2 => BitVec.ofNat 64 h.pageSize
  | 3 => h.salt
  | _ => BitVec.ofNat 64 h.frameCount

def ofMemory (m : Memory) : Header where
  magic := m.word 0
  version := (m.word 8).setWidth 16
  pageSize := (m.word 16).toNat
  salt := m.word 24
  frameCount := (m.word 32).toNat

def stride (h : Header) : Nat := frameBytes + h.pageSize

def frameOffset (h : Header) (frameIdx : Nat) : Nat := headerBytes + frameIdx * h.stride

def dataSize (h : Header) (pageIdx : BitVec 64) : Nat := if pageIdx = headerFrameIdx then headerBytes else h.pageSize

def frameChecksum (h : Header) (pageIdx : BitVec 64) (data : Memory) : BitVec 64 := h.salt ^^^ pageIdx ^^^ data.word 0

def frameOf (h : Header) (w : PageWrite) : Frame := ⟨w.pageIdx, h.frameChecksum w.pageIdx w.data⟩

/-- The loop of `append_frames` from the write `idx` on. -/
def fillFrames (h : Header) (buffer : Memory) (idx : Nat) : List PageWrite → Memory
  | [] => buffer
  | w :: writes =>
      let buffer := buffer.copy (idx * h.stride) frameBytes (h.frameOf w).memory
      let buffer := buffer.copy (idx * h.stride + frameBytes) (h.dataSize w.pageIdx) w.data
      h.fillFrames buffer (idx + 1) writes

end Header

namespace Wal

/-- `wal::create`; `salt` is drawn from the clock. -/
def create (pageSize : Nat) (salt : BitVec 64) : Wal :=
  let header : Header := ⟨WalBytes.magic, currentVersion, pageSize, salt, 0⟩
  ⟨File.write ⟨headerBytes, Memory.zero⟩ 0 headerBytes header.memory, header⟩

/-- `try_load`: the WAL with the header of the file, or none where it answers false. -/
def tryLoad (file : File) (expectedPageSize : Nat) : Option Wal :=
  if file.size < headerBytes then none
  else
    let h := Header.ofMemory file.byte
    if h.magic ≠ WalBytes.magic then none
    else if h.pageSize ≠ expectedPageSize then none
    else some ⟨file, h⟩

/-- `append_frames`; `buffer` is what the scratch arena holds where the frames are put together. -/
def appendFrames (wal : Wal) (writes : List PageWrite) (buffer : Memory) : Option Wal :=
  if writes = [] then some wal
  else if writes.length ≤ 2 ^ 64 - 1 - wal.header.frameCount then do
    let h := wal.header
    let file ← wal.file.resize (h.frameOffset (h.frameCount + writes.length))
    let buffer := h.fillFrames buffer 0 writes
    let file := file.write (h.frameOffset h.frameCount) (writes.length * h.stride) buffer
    some ⟨file, { h with frameCount := h.frameCount + writes.length }⟩
  else none

def writeFrameCount (wal : Wal) : Wal :=
  { wal with file := wal.file.write frameCountOffset 8 (Memory.ofWords fun _ => BitVec.ofNat 64 wal.header.frameCount) }

def commit (wal : Wal) : Option Wal := if 0 < wal.header.frameCount then some wal.writeFrameCount else none

def readFrame (wal : Wal) (io : Io) (frameIdx : Nat) (dataOut : Memory) : Option (Frame × Memory) :=
  if frameIdx < wal.header.frameCount then do
    let h := wal.header
    let offset := h.frameOffset frameIdx
    let frame := Frame.ofMemory (← wal.file.read offset frameBytes Memory.zero io)
    let data ← wal.file.read (offset + frameBytes) (h.dataSize frame.pageIdx) dataOut io
    if frame.checksum = h.frameChecksum frame.pageIdx data then some (frame, data) else none
  else none

def reset (wal : Wal) : Wal := writeFrameCount { wal with header := { wal.header with frameCount := 0 } }

end Wal

end Plexdb.WalBytes
