import Plexdb.PageProgram
import Plexdb.PageBytes

/-! Dynamic blobs (`core/blob`). The first data page holds the size in its first word and the first
header page in its last word; the header pages are a linked list, each holding the numbers of data
pages and, in its last word, the next header page. A pointer into a page, once got, is valid for the
rest of the transaction; an access through it is written as another `rpage` or `rwpage` here. -/

namespace Plexdb.Blob

/-! ### Unsigned 64-bit arithmetic -/

def u64 (n : Nat) : Nat := n % 2 ^ 64

def u64Sub (a b : Nat) : Nat := u64 (a + 2 ^ 64 - b)

/-- `ceil_div`, for `0 < b`. -/
def ceilDiv (a b : Nat) : Nat := u64 (a + (b - 1)) / b

/-! ### Layout -/

/-- The bytes of a page of `W` words. -/
def pageSize (W : Nat) : Nat := 8 * W

def entryCountPerPage (W : Nat) : Nat := pageSize W / 8 - 1

def nextPageEntryIdx (W : Nat) : Nat := pageSize W / 8 - 1

def sizeEntryIdx : Nat := 0

structure BlobDynamicPaged where
  sizeBytes : Nat
  headerPages : List Nat
  dataPages : List Nat
  deriving DecidableEq

abbrev BlobProgram (W : Nat) : Type → Type := PageProgram (Page W)

variable {W : Nat}

open PageProgram (assert ofOption)

def newPage : BlobProgram W Nat := .newPage pure

def deletePage (idx : Nat) : BlobProgram W Unit := .deletePage idx (pure ())

def rpage (idx : Nat) : BlobProgram W (Page W) := .rpage idx pure

/-- `rwpage`, and what the caller writes through the pointer. -/
def rwpage (idx : Nat) (write : Page W → Page W) : BlobProgram W Unit :=
  .rwpage idx write fun _ => pure ()

def readEntry (page entryIdx : Nat) : BlobProgram W Nat := do
  let data ← rpage page
  pure (data.word entryIdx).toNat

def writeEntry (page entryIdx value : Nat) : BlobProgram W Unit :=
  rwpage page (·.modifyWord entryIdx fun _ => BitVec.ofNat 64 value)

/-- The page counts a size needs. -/
def dataPageCount (W sizeBytes : Nat) : Nat := ceilDiv (u64 (sizeBytes + 16)) (pageSize W)

def headerPageCount (W dataPageCount : Nat) : Nat :=
  ceilDiv (u64Sub dataPageCount 1) (entryCountPerPage W)

/-- The entries in use in the last of `headerPageCount` header pages. -/
def lastEntryCount (W dataPageCount headerPageCount : Nat) : Nat :=
  u64Sub dataPageCount (u64 (1 + u64Sub headerPageCount 1 * entryCountPerPage W))

/-! ### `load` -/

/-- The first `n` entries of a header page. -/
def entries (data : Page W) (n : Nat) : List Nat := (List.range n).map fun e => (data.word e).toNat

/-- The loop of `load` at `headerPage`, the last of `headerPages`, with `n` more to come. -/
def loadHeaders (dataPageCount : Nat) :
    (n headerPage : Nat) → (headerPages dataPages : List Nat) →
      BlobProgram W (List Nat × List Nat)
  | 0, headerPage, headerPages, dataPages => do
      let data ← rpage headerPage
      let entryCount := u64Sub dataPageCount dataPages.length
      assert (0 < entryCount)
      pure (headerPages, dataPages ++ entries data entryCount)
  | n + 1, headerPage, headerPages, dataPages => do
      let data ← rpage headerPage
      assert (0 < entryCountPerPage W)
      let nextPage := (data.word (nextPageEntryIdx W)).toNat
      loadHeaders dataPageCount n nextPage (headerPages ++ [nextPage])
        (dataPages ++ entries data (entryCountPerPage W))

def load (inPage : Nat) : BlobProgram W BlobDynamicPaged := do
  assert (nextPageEntryIdx W ≠ sizeEntryIdx)
  let data ← rpage inPage
  let sizeBytes := (data.word sizeEntryIdx).toNat
  let dataCount := dataPageCount W sizeBytes
  let headerCount := headerPageCount W dataCount
  assert (0 < u64 (dataCount + headerCount))
  if headerCount = 0 then pure ⟨sizeBytes, [], [inPage]⟩
  else do
    let first := (data.word (nextPageEntryIdx W)).toNat
    let (headerPages, dataPages) ← loadHeaders dataCount (headerCount - 1) first [first] [inPage]
    assert (headerPages.length = headerCount)
    assert (dataPages.length = dataCount)
    pure ⟨sizeBytes, headerPages, dataPages⟩

/-! ### `resize_impl` -/

structure PageCounts where
  data : Nat
  header : Nat

/-- Fill `n` entries of a header page, from `entryIdx` on, with new data pages. -/
def addDataPages (headerPage : Nat) :
    (n entryIdx : Nat) → (dataPages : List Nat) → BlobProgram W (List Nat)
  | 0, _, dataPages => pure dataPages
  | n + 1, entryIdx, dataPages => do
      let dataPage ← newPage
      writeEntry headerPage entryIdx dataPage
      addDataPages headerPage n (entryIdx + 1) (dataPages ++ [dataPage])

/-- The entries of the `idx`-th header page, counted from one, that are in use at the given counts. -/
def usedEntries (W : Nat) (counts : PageCounts) (idx otherwise : Nat) : BlobProgram W Nat :=
  if idx = counts.header then do
    let n := lastEntryCount W counts.data counts.header
    assert (n ≠ 0)
    pure n
  else pure otherwise

/-- The growing loop at the last of `headerPages`, with `n` header pages to add. -/
def growHeaders (old new : PageCounts) :
    (n headerPage : Nat) → (headerPages dataPages : List Nat) →
      BlobProgram W (List Nat × List Nat)
  | n, headerPage, headerPages, dataPages => do
      rwpage headerPage id
      let firstEntryIdx ← usedEntries W old headerPages.length 0
      let lastEntryCount ← usedEntries W new headerPages.length (entryCountPerPage W)
      assert (firstEntryIdx ≤ lastEntryCount)
      let dataPages ← addDataPages headerPage (lastEntryCount - firstEntryIdx) firstEntryIdx dataPages
      match n with
      | 0 => pure (headerPages, dataPages)
      | n + 1 => do
          let nextPage ← newPage
          writeEntry headerPage (nextPageEntryIdx W) nextPage
          growHeaders old new n nextPage (headerPages ++ [nextPage]) dataPages

def deleteEntries (headerPage : Nat) : (n entryIdx : Nat) → BlobProgram W Unit
  | 0, _ => pure ()
  | n + 1, entryIdx => do
      let dataPage ← readEntry headerPage entryIdx
      deletePage dataPage
      deleteEntries headerPage n (entryIdx + 1)

/-- The shrinking loop from header page `headerIdx` on, `n` of them left. -/
def shrinkHeaders (old new : PageCounts) (headerPages : List Nat) :
    (n headerIdx : Nat) → BlobProgram W Unit
  | 0, _ => pure ()
  | n + 1, headerIdx => do
      let headerPage ← ofOption headerPages[headerIdx]?
      rwpage headerPage id
      let firstEntryIdx ← usedEntries W new (headerIdx + 1) 0
      let lastEntryCount ← usedEntries W old (headerIdx + 1) (entryCountPerPage W)
      assert (firstEntryIdx ≤ lastEntryCount)
      deleteEntries headerPage (lastEntryCount - firstEntryIdx) firstEntryIdx
      if new.header < headerIdx + 1 then deletePage headerPage else pure ()
      shrinkHeaders old new headerPages n (headerIdx + 1)

/-- The lists a growing resize starts from, with the first header page when there was none. -/
def growRoot (blob : BlobDynamicPaged) (firstDataPage : Nat) : BlobProgram W (List Nat × List Nat) :=
  if blob.dataPages.length = 1 then do
    let firstHeaderPage ← newPage
    writeEntry firstDataPage (nextPageEntryIdx W) firstHeaderPage
    pure ([firstHeaderPage], [firstDataPage])
  else pure (blob.headerPages, blob.dataPages)

/-- The page lists at the new counts, when they are higher. -/
def growPages (blob : BlobDynamicPaged) (firstDataPage : Nat) (old new : PageCounts) :
    BlobProgram W (List Nat × List Nat) := do
  let (headerPages, dataPages) ← growRoot blob firstDataPage
  if headerPages.length ≤ new.header then do
    let headerPage ← ofOption headerPages.getLast?
    growHeaders old new (new.header - headerPages.length) headerPage headerPages dataPages
  else pure (headerPages, dataPages)

/-- The page lists at the new counts, when they are lower. -/
def shrinkPages (blob : BlobDynamicPaged) (old new : PageCounts) :
    BlobProgram W (List Nat × List Nat) := do
  let lastHeaderIdx := max new.header 1 - 1
  shrinkHeaders old new blob.headerPages (old.header - lastHeaderIdx) lastHeaderIdx
  pure (blob.headerPages.take new.header, blob.dataPages.take new.data)

def PageCounts.total (counts : PageCounts) : Nat := u64 (counts.data + counts.header)

def resizePages (blob : BlobDynamicPaged) (firstDataPage : Nat) (old new : PageCounts) :
    BlobProgram W (List Nat × List Nat) :=
  if old.total < new.total then growPages blob firstDataPage old new else shrinkPages blob old new

def resizeImpl (blob : BlobDynamicPaged) (newSize : Nat) : BlobProgram W BlobDynamicPaged := do
  let firstDataPage ← ofOption blob.dataPages.head?
  if newSize = blob.sizeBytes then pure blob
  else do
    assert (nextPageEntryIdx W ≠ sizeEntryIdx)
    let old : PageCounts := ⟨blob.dataPages.length, blob.headerPages.length⟩
    let newData := dataPageCount W newSize
    let new : PageCounts := ⟨newData, headerPageCount W newData⟩
    writeEntry firstDataPage sizeEntryIdx newSize
    if new.total = old.total then pure { blob with sizeBytes := newSize }
    else do
      assert (0 < new.total)
      let (headerPages, dataPages) ← resizePages blob firstDataPage old new
      assert (dataPages.length = new.data)
      assert (headerPages.length = new.header)
      pure ⟨newSize, headerPages, dataPages⟩

/-! ### Blocks -/

/-- `r_or_rw_block` up to the page access: the data page, where in it the block starts, and its
length. -/
def blockAt (W offset : Nat) : BlobProgram W (Nat × Nat × Nat) := do
  let address := u64 (offset + 8)
  let address := if pageSize W ≤ u64 (address + 8) then u64 (address + 8) else address
  let pageIdx := address / pageSize W
  let offsetInPage := address % pageSize W
  assert (offsetInPage < pageSize W)
  let length := pageSize W - offsetInPage
  if pageIdx = 0 then do
    -- without the first header page in the last word
    assert (8 < length)
    pure (pageIdx, offsetInPage, length - 8)
  else pure (pageIdx, offsetInPage, length)

/-! ### The untyped interface -/

/-- The loop of `update`, for at most `n` blocks. -/
def updateLoop (blob : BlobDynamicPaged) : (n offset : Nat) → (value : Bytes) → BlobProgram W Unit
  | _, _, [] => pure ()
  | 0, _, _ :: _ => .fail
  | n + 1, offset, value@(_ :: _) => do
      let (pageIdx, offsetInPage, length) ← blockAt W offset
      let page ← ofOption blob.dataPages[pageIdx]?
      rwpage page (·.setBytes offsetInPage (value.take length))
      updateLoop blob n (u64 (offset + length)) (value.drop length)

def update (blob : BlobDynamicPaged) (value : Bytes) (offset : Nat) : BlobProgram W Unit := do
  assert (u64 (offset + value.length) ≤ blob.sizeBytes)
  updateLoop blob value.length offset value

/-- The loop of `get` for `size` more bytes, in at most `n` blocks. -/
def getLoop (blob : BlobDynamicPaged) : (n offset size : Nat) → BlobProgram W Bytes
  | _, _, 0 => pure []
  | 0, _, _ + 1 => .fail
  | n + 1, offset, size@(_ + 1) => do
      let (pageIdx, offsetInPage, length) ← blockAt W offset
      let page ← ofOption blob.dataPages[pageIdx]?
      let data ← rpage page
      let rest ← getLoop blob n (u64 (offset + length)) (size - length)
      pure (data.getBytes offsetInPage (min length size) ++ rest)

def get (blob : BlobDynamicPaged) (size offset : Nat) : BlobProgram W Bytes := do
  assert (u64 (offset + size) ≤ blob.sizeBytes)
  getLoop blob size offset size

def append (blob : BlobDynamicPaged) (value : Bytes) : BlobProgram W BlobDynamicPaged := do
  let offset := blob.sizeBytes
  let blob ← resizeImpl blob (u64 (blob.sizeBytes + value.length))
  update blob value offset
  pure blob

def deletePages : List Nat → BlobProgram W Unit
  | [] => pure ()
  | page :: pages => do
      deletePage page
      deletePages pages

def removeImpl (blob : BlobDynamicPaged) : BlobProgram W Unit := do
  deletePages blob.dataPages
  deletePages blob.headerPages

def createPagedDynamic (initialSize : Nat) : BlobProgram W Nat := do
  assert (2 * 8 < pageSize W)
  let page ← newPage
  writeEntry page sizeEntryIdx 0
  if initialSize ≠ 0 then do
    let blob ← load page
    let _ ← resizeImpl blob initialSize
    pure page
  else pure page

end Plexdb.Blob
