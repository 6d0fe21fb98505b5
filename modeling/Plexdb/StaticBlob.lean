import Mathlib.Data.Rat.Floor
import Plexdb.BlobPaged

/-! Static blobs (`core/blob`). The pages of a blob are one run of bytes: the header, which lists every page after the
first, and the body. The size of the header is the sum of a geometric series over exact rationals. What a program reads
past an array in the scratch arena is a parameter. -/

namespace Plexdb.Blob.Static

open PageProgram (assert ofOption)

structure BlobStaticPaged where
  sizeBytes : Nat
  headerBytes : Nat
  pages : List Nat
  deriving DecidableEq

/-- The header bytes for `x` data bytes behind the first page. -/
def calculateHeaderBytes (x p : Nat) : Nat :=
  let g : Rat := 8 / p
  u64 (8 * (g / (1 - g) * x).ceil.toNat)

variable {W : Nat}

/-! ### `load` -/

/-- The loop of `load` that copies the header, page by page; `pages` is what has been copied. -/
def loadHeader (h : Nat) :
    (n hOffset hPageIdx hPage : Nat) → (pages : List Nat) → BlobProgram W (List Nat)
  | 0, _, _, _, _ => .fail
  | n + 1, hOffset, hPageIdx, hPage, pages => do
      let data ← rpage hPage
      if u64 (hOffset + pageSize W) < h then do
        let pages := pages ++ entries data W
        let hPage ← ofOption pages[hPageIdx]?
        loadHeader h n (hOffset + pageSize W) (hPageIdx + 1) hPage pages
      else pure (pages ++ entries data ((h - hOffset) / 8))

def load (inPage inSize : Nat) : BlobProgram W BlobStaticPaged :=
  if inSize ≤ pageSize W then pure ⟨inSize, 0, [inPage]⟩
  else do
    let h := calculateHeaderBytes (inSize - pageSize W) (pageSize W)
    assert (h % 8 = 0)
    let pages ← loadHeader h (h / pageSize W + 1) 0 1 inPage [inPage]
    pure ⟨inSize, h, pages⟩

/-! ### `create_paged_static` -/

def newPages : (n : Nat) → (pages : List Nat) → BlobProgram W (List Nat)
  | 0, pages => pure pages
  | n + 1, pages => do
      let page ← newPage
      newPages n (pages ++ [page])

/-- `memory_copy` of `count` entries, from `first` on, to the front of a page. -/
def copyEntries (entry : Nat → Nat) (first count : Nat) (data : Page W) : Page W := fun e =>
  if e.val < count then BitVec.ofNat 64 (entry (first + e.val)) else data e

/-- The loop that writes the header; `entry` is the array of pages. -/
def storeHeader (entry : Nat → Nat) (h : Nat) : (n hOffset hPageIdx : Nat) → BlobProgram W Unit
  | 0, _, _ => .fail
  | n + 1, hOffset, hPageIdx =>
      if u64 (hOffset + pageSize W) < h then do
        rwpage (entry hPageIdx) (copyEntries entry (1 + hOffset / 8) W)
        storeHeader entry h n (hOffset + pageSize W) (hPageIdx + 1)
      else rwpage (entry hPageIdx) (copyEntries entry (1 + hOffset / 8) ((h - hOffset) / 8))

def totalPageCount (W size : Nat) : Nat :=
  ceilDiv (u64 (size + calculateHeaderBytes (size - pageSize W) (pageSize W))) (pageSize W)

/-- `stale` is what lies in the arena behind the array of pages. -/
def createPagedStatic (stale : Nat → Nat) (size : Nat) : BlobProgram W Nat := do
  assert (2 * 8 ≤ pageSize W)
  if size ≤ pageSize W then newPage
  else do
    let h := calculateHeaderBytes (size - pageSize W) (pageSize W)
    assert (0 < totalPageCount W size)
    let pages ← newPages (totalPageCount W size) []
    let entry (i : Nat) : Nat := pages.getD i (stale i)
    storeHeader entry h (h / pageSize W + 1) 0 0
    pure (entry 0)

/-! ### Access -/

/-- `r_or_rw_block` up to the page access: the page, where in it the block starts, and its length. -/
def blockAt (W : Nat) (blob : BlobStaticPaged) (offset : Nat) : Nat × Nat × Nat :=
  let address := u64 (offset + blob.headerBytes)
  (address / pageSize W, address % pageSize W, pageSize W - address % pageSize W)

/-- The loop of `update`, for at most `n` blocks. -/
def updateLoop (blob : BlobStaticPaged) : (n offset : Nat) → (value : Bytes) → BlobProgram W Unit
  | _, _, [] => pure ()
  | 0, _, _ :: _ => .fail
  | n + 1, offset, value@(_ :: _) => do
      let (pageIdx, offsetInPage, length) := blockAt W blob offset
      let page ← ofOption blob.pages[pageIdx]?
      rwpage page (·.setBytes offsetInPage (value.take length))
      updateLoop blob n (u64 (offset + length)) (value.drop length)

def update (blob : BlobStaticPaged) (value : Bytes) (offset : Nat) : BlobProgram W Unit := do
  assert (u64 (offset + value.length) ≤ blob.sizeBytes)
  updateLoop blob value.length offset value

/-- The loop of `get` for `size` more bytes, in at most `n` blocks. -/
def getLoop (blob : BlobStaticPaged) : (n offset size : Nat) → BlobProgram W Bytes
  | _, _, 0 => pure []
  | 0, _, _ + 1 => .fail
  | n + 1, offset, size@(_ + 1) => do
      let (pageIdx, offsetInPage, length) := blockAt W blob offset
      let page ← ofOption blob.pages[pageIdx]?
      let data ← rpage page
      let rest ← getLoop blob n (u64 (offset + length)) (size - length)
      pure (data.getBytes offsetInPage (min length size) ++ rest)

def get (blob : BlobStaticPaged) (size offset : Nat) : BlobProgram W Bytes := do
  assert (u64 (offset + size) ≤ blob.sizeBytes)
  getLoop blob size offset size

def removeImpl (blob : BlobStaticPaged) : BlobProgram W Unit := deletePages blob.pages

/-! ### Page counts -/

/-- The rational the header bytes are rounded from is `8 x / (p - 8)`. -/
theorem calculateHeaderBytes_eq (x : Nat) {p : Nat} (hp : 8 < p) :
    calculateHeaderBytes x p = u64 (8 * ((8 * x + (p - 9)) / (p - 8))) := by
  obtain ⟨q, rfl⟩ := Nat.exists_eq_add_of_lt hp
  have hq : 8 + q + 1 - 8 = q + 1 := by omega
  have hg : (8 / ((8 + q + 1 : Nat) : Rat)) / (1 - 8 / ((8 + q + 1 : Nat) : Rat)) * x =
      ((8 * x : Nat) : Rat) / ((q + 1 : Nat) : Rat) := by
    have h₁ : ((8 + q + 1 : Nat) : Rat) ≠ 0 := by positivity
    have h₂ : ((q + 1 : Nat) : Rat) ≠ 0 := by positivity
    have h₃ : 1 - 8 / ((8 + q + 1 : Nat) : Rat) = ((q + 1 : Nat) : Rat) / ((8 + q + 1 : Nat) : Rat) := by
      rw [eq_div_iff h₁, sub_mul, div_mul_cancel₀ _ h₁]
      push_cast
      ring
    rw [h₃, div_div_div_cancel_right₀ h₁]
    push_cast
    ring
  have hq' : 0 < q + 1 := Nat.succ_pos q
  have hceil (a : Nat) : ((a : Rat) / ((q + 1 : Nat) : Rat)).ceil.toNat = (a + q) / (q + 1) := by
    have hle (n : Nat) : ((a : Rat) / ((q + 1 : Nat) : Rat)).ceil ≤ (n : Int) ↔ a ≤ (q + 1) * n := by
      rw [Rat.ceil_le_iff, div_le_iff₀ (by positivity), mul_comm]
      exact_mod_cast Iff.rfl
    refine le_antisymm (Int.toNat_le.mpr ((hle _).mpr ?_)) ?_
    · have := Nat.div_add_mod (a + q) (q + 1)
      have := Nat.mod_lt (a + q) hq'
      omega
    · have := (hle _).mp (Int.self_le_toNat _)
      rw [Nat.div_le_iff_le_mul_add_pred hq']
      omega
  unfold calculateHeaderBytes
  dsimp only
  rw [hg, hceil, hq, show 8 + q + 1 - 9 = q by omega]

/-- The header of a blob, whose first page is its only one below the page size. -/
def headerBytes (W size : Nat) : Nat :=
  if size ≤ pageSize W then 0 else calculateHeaderBytes (size - pageSize W) (pageSize W)

/-- The header has an entry for every page after the first, and no other. -/
def HeaderExact (W size : Nat) : Prop :=
  size ≤ pageSize W ∨ headerBytes W size / 8 + 1 = totalPageCount W size

theorem headerBytes_mod (hW : 1 < W) (size : Nat) : headerBytes W size % 8 = 0 := by
  rw [headerBytes]
  split
  · rfl
  · rw [calculateHeaderBytes_eq _ (show 8 < pageSize W by rw [pageSize]; omega), u64]
    omega

/-- The pages hold the header and the body, and no sum has wrapped. -/
theorem HeaderExact.fits (hW : 1 < W) {size : Nat} (hsize : size < 2 ^ 64) (hlarge : ¬ size ≤ pageSize W)
    (h : HeaderExact W size) : size + headerBytes W size < 2 ^ 64 ∧
      size + headerBytes W size ≤ (headerBytes W size / 8 + 1) * pageSize W := by
  have hcount := h.resolve_left hlarge
  have hmod := headerBytes_mod hW size
  have hdef : headerBytes W size = calculateHeaderBytes (size - pageSize W) (pageSize W) := if_neg hlarge
  have hlt : headerBytes W size < 2 ^ 64 := by
    rw [hdef]
    exact Nat.mod_lt _ (by norm_num)
  rw [totalPageCount, ← hdef] at hcount
  generalize headerBytes W size = hb at *
  have hp : 16 ≤ pageSize W := by rw [pageSize]; omega
  generalize pageSize W = p at *
  rw [ceilDiv, u64] at hcount
  -- a count of zero pages has no header entry
  have hnowrap : u64 (size + hb) + (p - 1) < 2 ^ 64 := by
    by_contra hge
    have hsmall : (u64 (size + hb) + (p - 1)) % 2 ^ 64 < p := by
      have : u64 (size + hb) < 2 ^ 64 := Nat.mod_lt _ (by norm_num)
      omega
    rw [Nat.div_eq_of_lt hsmall] at hcount
    omega
  rw [Nat.mod_eq_of_lt hnowrap] at hcount
  have hfits : size + hb < 2 ^ 64 := by
    by_contra hge
    have hu : u64 (size + hb) = size + hb - 2 ^ 64 := by
      rw [u64]
      omega
    rw [hu] at hcount
    have hle := Nat.div_mul_le_self (size + hb - 2 ^ 64 + (p - 1)) p
    rw [← hcount] at hle
    have hmul : (hb / 8 + 1) * 16 ≤ (hb / 8 + 1) * p := Nat.mul_le_mul_left _ hp
    have hexpand : (hb / 8 + 1) * p = hb / 8 * p + p := Nat.succ_mul _ _
    have hmul' : hb / 8 * 16 ≤ hb / 8 * p := Nat.mul_le_mul_left _ hp
    omega
  refine ⟨hfits, ?_⟩
  rw [u64, Nat.mod_eq_of_lt hfits] at hcount
  have hdiv := Nat.div_add_mod (size + hb + (p - 1)) p
  have hrem := Nat.mod_lt (size + hb + (p - 1)) (show 0 < p by omega)
  rw [← hcount, Nat.mul_comm] at hdiv
  omega

end Plexdb.Blob.Static
