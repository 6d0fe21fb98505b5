import Plexdb.WalPager

/-! A pager whose WAL was loaded reads back what its transactions wrote: over the bytes of the WAL it does what the
pager over frames does. -/

namespace Plexdb.WalBytes

open Plexdb.Pager (MainFile MainOp PageRef Payload PageCacheEntry DynamicMap ValidFrame WalOk)

variable {W : Nat}

/-! ### Pages as bytes -/

theorem word_pageOf (m : Memory) (hW : 0 < W) : (pageOf m : Page W).word 0 = m.word 0 := by
  rw [Page.word, dif_pos hW, pageOf, Nat.mul_zero]

theorem pageOf_congr {m m' : Memory} (h : ∀ k < pageBytes W, m k = m' k) : (pageOf m : Page W) = pageOf m' := by
  funext i
  refine Memory.word_congr fun k hk => h _ ?_
  have := i.isLt
  rw [pageBytes]
  omega

theorem pageOf_pageMemory (page : Page W) : pageOf (pageMemory page) = page := by
  funext i
  rw [pageOf, pageMemory, Memory.word_ofWords, Page.word, dif_pos i.isLt]

theorem ofNat_ne_headerFrameIdx {idx : Nat} (h : idx < 2 ^ 64 - 1) : BitVec.ofNat 64 idx ≠ headerFrameIdx := by
  intro heq
  have := congrArg BitVec.toNat heq
  rw [BitVec.toNat_ofNat, headerFrameIdx, BitVec.toNat_allOnes] at this
  omega

/-! ### The frames that the page operations see -/

namespace BytePager

variable {s : BytePager W} {frames : List PageWrite}

/-- What is seen of the frame of `w`. -/
def seenOf (s : BytePager W) (w : PageWrite) : Pager.Frame W :=
  if w.pageIdx = headerFrameIdx then
    ⟨.header, Pager.frameChecksum s.wal.header.salt .header (.header (W := W) ⟨0, 0⟩), .header ⟨0, 0⟩⟩
  else ⟨.page w.pageIdx.toNat, s.wal.header.frameChecksum w.pageIdx w.data, .page (pageOf w.data)⟩

theorem seenOf_valid (hW : 0 < W) (w : PageWrite) : ValidFrame s.wal.header.salt (s.seenOf w) := by
  rw [seenOf]
  split
  · exact ⟨rfl, _, rfl⟩
  · refine ⟨?_, pageOf w.data, rfl⟩
    rw [Header.frameChecksum, Pager.frameChecksum, PageRef.toU64, Payload.firstWord, word_pageOf _ hW,
      BitVec.ofNat_toNat, BitVec.setWidth_eq]

/-- The WAL has the page size of the pager and holds these frames. -/
structure Serving (s : BytePager W) (frames : List PageWrite) : Prop where
  log : Log.Holds ⟨s.wal, frames⟩
  pageSize : s.wal.header.pageSize = pageBytes W

theorem Serving.read_page (h : s.Serving frames) (hW : 4 ≤ W) {i : Nat} {w : PageWrite} (hw : frames[i]? = some w)
    (hpage : w.pageIdx ≠ headerFrameIdx) (dst : Memory) :
    ∃ out, s.wal.readFrame s.io i dst = some (s.wal.header.frameOf w, out) ∧
      (pageOf out : Page W) = pageOf w.data := by
  have hsize : pagerHeaderBytes ≤ s.wal.header.pageSize := by
    rw [h.pageSize, pagerHeaderBytes, pageBytes]
    omega
  obtain ⟨out, hout, hbytes⟩ := (h.log.readsBack_iff hsize hw s.io dst).mpr fun heq => absurd heq hpage
  refine ⟨out, hout, pageOf_congr fun k hk => hbytes k ?_⟩
  rw [Header.contentSize, if_neg hpage]
  exact hk.trans_eq h.pageSize.symm

theorem Serving.seenFrame_eq (h : s.Serving frames) (hW : 4 ≤ W) {i : Nat} {w : PageWrite}
    (hw : frames[i]? = some w) : s.seenFrame i = s.seenOf w := by
  obtain ⟨m, hm, hframe⟩ := h.log.read_frame hw s.io
  rw [seenFrame, seenOf]
  simp only [hm, hframe]
  by_cases hheader : w.pageIdx = headerFrameIdx
  · rw [if_pos hheader]
    exact if_pos hheader
  · obtain ⟨out, hout, hpage⟩ := h.read_page hW hw hheader Memory.zero
    rw [if_neg hheader]
    refine (if_neg hheader).trans ?_
    simp only [hout, hpage]
    rfl

theorem Serving.exists_frame (h : s.Serving frames) {k : Nat} (hk : k < s.wal.header.frameCount) :
    ∃ w, frames[k]? = some w := by
  have hlt : k < frames.length := h.log.count ▸ hk
  exact ⟨_, List.getElem?_eq_getElem hlt⟩

theorem Serving.valid (h : s.Serving frames) (hW : 4 ≤ W) {k : Nat} (hk : k < s.wal.header.frameCount) :
    ValidFrame s.wal.header.salt (s.seenFrame k) := by
  obtain ⟨w, hw⟩ := h.exists_frame hk
  rw [h.seenFrame_eq hW hw]
  exact seenOf_valid (by omega) w

/-! ### The pager over frames that does the same -/

/-- `p` is what `s` looks like, but for what its frames hold about headers and past the last frame. -/
structure Shows (p : Plexdb.Pager W) (s : BytePager W) : Prop where
  view : s.view = { p with issued := [], files := ⟨p.files.main, s.view.files.wal⟩ }
  frame : ∀ k < s.wal.header.frameCount, (s.seenFrame k).pageIdx = (p.files.wal.frames k).pageIdx ∧
    (s.seenFrame k).data.page? = (p.files.wal.frames k).data.page?
  valid : ∀ k < s.wal.header.frameCount, ValidFrame s.wal.header.salt (s.seenFrame k)

theorem lastFrame_of_pageIdx {f g : Nat → Pager.Frame W} {n : Nat} (h : ∀ k < n, (f k).pageIdx = (g k).pageIdx)
    (ref : PageRef) : Pager.lastFrame f n ref = Pager.lastFrame g n ref := by
  induction n with
  | zero => rfl
  | succ n ih =>
      rw [Pager.lastFrame, Pager.lastFrame, h n (Nat.lt_succ_self n), ih fun k hk => h k (Nat.lt_succ_of_lt hk)]

variable {p : Plexdb.Pager W}

theorem Shows.refl (h : s.Serving frames) (hW : 4 ≤ W) : Shows s.view s :=
  ⟨rfl, fun _ _ => ⟨rfl, rfl⟩, fun _ hk => h.valid hW hk⟩

theorem Shows.wal_eq (h : Shows p s) :
    p.wal = some ⟨s.wal.header.salt, s.wal.header.frameCount, s.walIndex⟩ :=
  (congrArg Plexdb.Pager.wal h.view).symm

theorem Shows.ok (h : Shows p s) (hok : p.StorageOk) : s.view.StorageOk := by
  intro wal hwal
  cases hwal
  refine ⟨le_rfl, h.valid, fun ref => ?_⟩
  exact ((hok _ h.wal_eq).index ref).trans (lastFrame_of_pageIdx (fun k hk => (h.frame k hk).1) ref).symm

theorem Shows.load (h : Shows p s) (hok : p.StorageOk) (i : Nat) : s.view.load i = p.load i := by
  have hcount : p.frameCount = s.wal.header.frameCount := by rw [Pager.frameCount, h.wal_eq]
  have hmain : s.main = p.files.main := congrArg (·.files.main) h.view
  rw [Pager.load_eq_stored (h.ok hok), Pager.load_eq_stored hok, hcount]
  have hlast := lastFrame_of_pageIdx (fun k hk => (h.frame k hk).1) (.page i)
  have hseen : s.view.frameCount = s.wal.header.frameCount := rfl
  have hframes : s.view.files.wal.frames = s.seenFrame := rfl
  have hviewMain : s.view.files.main = s.main := rfl
  rw [hseen, Pager.Files.stored, Pager.Files.stored, hframes, hviewMain, hlast, hmain]
  cases hk : Pager.lastFrame p.files.wal.frames s.wal.header.frameCount (.page i) with
  | none => rfl
  | some k => exact (h.frame k (Pager.lastFrame_lt hk).1).2

end BytePager

end Plexdb.WalBytes
