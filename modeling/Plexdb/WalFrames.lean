import Plexdb.WalBytes

/-! Frames that were appended since the last reset of a WAL read back. The bytes of a header frame past the page size
are lost to the next frame, or lie past the end of the file. -/

namespace Plexdb.WalBytes

/-! ### Frames put together -/

/-- The frame of `w` stands at `off`, as far as the stride reaches. -/
structure Laid (h : Header) (m : Memory) (off : Nat) (w : PageWrite) : Prop where
  frame : ∀ k < frameBytes, m (off + k) = (h.frameOf w).memory k
  data : ∀ k < h.dataSize w.pageIdx, k < h.pageSize → m (off + frameBytes + k) = w.data k

theorem Laid.congr {h : Header} {m m' : Memory} {off off' : Nat} {w : PageWrite} (hlaid : Laid h m off w)
    (heq : ∀ k < h.stride, m' (off' + k) = m (off + k)) : Laid h m' off' w := by
  constructor
  · intro k hk
    exact (heq k (by rw [Header.stride]; omega)).trans (hlaid.frame k hk)
  · intro k hk hpage
    have := heq (frameBytes + k) (by rw [Header.stride]; omega)
    rw [Nat.add_assoc, this, ← Nat.add_assoc]
    exact hlaid.data k hk hpage

namespace Header

variable {h : Header}

theorem fillFrames_of_lt {writes : List PageWrite} {buffer : Memory} {idx i : Nat} (hi : i < idx * h.stride) :
    h.fillFrames buffer idx writes i = buffer i := by
  induction writes generalizing buffer idx with
  | nil => rfl
  | cons w writes ih =>
      have hnext : i < (idx + 1) * h.stride := hi.trans_le (Nat.mul_le_mul_right _ (Nat.le_succ idx))
      rw [fillFrames, ih hnext, Memory.copy_of_lt (by omega), Memory.copy_of_lt hi]

theorem laid_copies (buffer : Memory) (off : Nat) (w : PageWrite) :
    Laid h ((buffer.copy off frameBytes (h.frameOf w).memory).copy (off + frameBytes) (h.dataSize w.pageIdx) w.data)
      off w := by
  constructor
  · intro k hk
    rw [Memory.copy_of_lt (by omega), Memory.copy_of_mem hk]
  · intro k hk _
    rw [Memory.copy_of_mem hk]

theorem laid_fillFrames {writes : List PageWrite} {buffer : Memory} {idx k : Nat} {w : PageWrite}
    (hk : writes[k]? = some w) : Laid h (h.fillFrames buffer idx writes) ((idx + k) * h.stride) w := by
  induction writes generalizing buffer idx k with
  | nil => cases hk
  | cons v writes ih =>
      cases k with
      | zero =>
          cases hk
          refine (laid_copies buffer (idx * h.stride) w).congr fun k hk => ?_
          rw [fillFrames, Nat.add_zero]
          refine fillFrames_of_lt ?_
          rw [Nat.succ_mul]
          exact Nat.add_lt_add_left hk _
      | succ k =>
          have hlaid : Laid h (h.fillFrames buffer idx (v :: writes)) ((idx + 1 + k) * h.stride) w := ih hk
          rw [Nat.add_right_comm, Nat.add_assoc] at hlaid
          exact hlaid

theorem frameOffset_add (n m : Nat) : h.frameOffset (n + m) = h.frameOffset n + m * h.stride := by
  rw [frameOffset, frameOffset, Nat.add_mul, Nat.add_assoc]

theorem frameOffset_le {n m : Nat} (hle : n ≤ m) : h.frameOffset n ≤ h.frameOffset m :=
  Nat.add_le_add_left (Nat.mul_le_mul_right _ hle) _

end Header

/-! ### Logs -/

/-- A WAL and what was appended to it since the last reset. -/
structure Log where
  wal : Wal
  frames : List PageWrite

inductive LogOp where
  | append (writes : List PageWrite) (buffer : Memory)
  | commit
  | reset

def Log.step (l : Log) : LogOp → Option Log
  | .append writes buffer => (l.wal.appendFrames writes buffer).map (⟨·, l.frames ++ writes⟩)
  | .commit => l.wal.commit.map (⟨·, l.frames⟩)
  | .reset => some ⟨l.wal.reset, []⟩

structure Log.Holds (l : Log) : Prop where
  count : l.frames.length = l.wal.header.frameCount
  size : l.frames ≠ [] → l.wal.file.size = l.wal.header.frameOffset l.frames.length
  laid : ∀ i w, l.frames[i]? = some w → Laid l.wal.header l.wal.file.byte (l.wal.header.frameOffset i) w

theorem Log.holds_of_empty {wal : Wal} (h : wal.header.frameCount = 0) : Log.Holds ⟨wal, []⟩ :=
  ⟨h.symm, fun hne => absurd rfl hne, fun _ _ h => nomatch h⟩

/-- What the frames and the file are after an append. -/
theorem appendFrames_eq_some {wal wal' : Wal} {writes : List PageWrite} {buffer : Memory} (hne : writes ≠ [])
    (h : wal.appendFrames writes buffer = some wal') :
    wal'.header = { wal.header with frameCount := wal.header.frameCount + writes.length } ∧
      wal'.file.size = wal.header.frameOffset (wal.header.frameCount + writes.length) ∧
      (∀ i < wal.header.frameOffset wal.header.frameCount, i < wal.file.size → wal'.file.byte i = wal.file.byte i) ∧
      ∀ i < writes.length * wal.header.stride, wal'.file.byte (wal.header.frameOffset wal.header.frameCount + i) =
        wal.header.fillFrames buffer 0 writes i := by
  rw [Wal.appendFrames, if_neg hne] at h
  by_cases hcount : writes.length ≤ 2 ^ 64 - 1 - wal.header.frameCount
  · rw [if_pos hcount] at h
    obtain ⟨file, hfile, h⟩ : ∃ file, wal.file.resize _ = some file ∧ _ := Option.bind_eq_some_iff.mp h
    cases h
    rw [File.resize] at hfile
    split at hfile
    · cases hfile
      have hoff := Header.frameOffset_add (h := wal.header) wal.header.frameCount writes.length
      refine ⟨rfl, ?_, fun i hi hsize => ?_, fun i hi => File.byte_write_of_mem hi⟩
      · simp only [File.write]
        omega
      · rw [File.byte_write_of_lt hi (by dsimp only; omega)]
        dsimp only
        rw [if_pos ⟨by omega, hsize⟩]
    · cases hfile
  · rw [if_neg hcount] at h
    cases h

theorem Log.Holds.append {l l' : Log} {writes : List PageWrite} {buffer : Memory} (hl : l.Holds)
    (h : l.step (.append writes buffer) = some l') : l'.Holds := by
  obtain ⟨wal, hwal, rfl⟩ := Option.map_eq_some_iff.mp h
  by_cases hne : writes = []
  · rw [hne, Wal.appendFrames, if_pos rfl] at hwal
    cases hwal
    rw [hne, List.append_nil]
    exact hl
  · obtain ⟨hheader, hsize, hold, hnew⟩ := appendFrames_eq_some hne hwal
    have hoffset (n : Nat) : wal.header.frameOffset n = l.wal.header.frameOffset n := by
      rw [hheader]
      rfl
    refine ⟨?_, fun _ => ?_, fun i w hw => ?_⟩
    · rw [hheader, List.length_append, hl.count]
    · dsimp only
      rw [hsize, hoffset, List.length_append, hl.count]
    · dsimp only at hw ⊢
      have hlaid : Laid l.wal.header wal.file.byte (l.wal.header.frameOffset i) w := by
        rcases Nat.lt_or_ge i l.frames.length with hi | hi
        · rw [List.getElem?_append_left hi] at hw
          refine (hl.laid i w hw).congr fun k hk => hold _ ?_ ?_
          · have hle : l.wal.header.frameOffset (i + 1) ≤ l.wal.header.frameOffset l.wal.header.frameCount :=
              Header.frameOffset_le (hl.count ▸ hi)
            rw [Header.frameOffset_add] at hle
            omega
          · have hle : l.wal.header.frameOffset (i + 1) ≤ l.wal.header.frameOffset l.frames.length :=
              Header.frameOffset_le hi
            rw [Header.frameOffset_add] at hle
            rw [hl.size (List.ne_nil_of_length_pos (Nat.zero_lt_of_lt hi))]
            omega
        · rw [List.getElem?_append_right hi] at hw
          have hlt := (List.getElem?_eq_some_iff.mp hw).1
          have heq : l.wal.header.frameOffset i = l.wal.header.frameOffset l.wal.header.frameCount +
              (0 + (i - l.frames.length)) * l.wal.header.stride := by
            rw [← Header.frameOffset_add, ← hl.count]
            congr 1
            omega
          have hlaid : Laid l.wal.header (l.wal.header.fillFrames buffer 0 writes)
              ((0 + (i - l.frames.length)) * l.wal.header.stride) w := Header.laid_fillFrames hw
          refine hlaid.congr fun k hk => ?_
          rw [heq, Nat.add_assoc]
          refine hnew _ ?_
          have hmul : (i - l.frames.length + 1) * l.wal.header.stride ≤ writes.length * l.wal.header.stride :=
            Nat.mul_le_mul_right _ hlt
          rw [Nat.add_mul] at hmul
          rw [Nat.zero_add]
          omega
      rw [hoffset, hheader]
      exact ⟨hlaid.frame, hlaid.data⟩

theorem byte_writeFrameCount (wal : Wal) {i : Nat} (hi : headerBytes ≤ i) (hsize : i < wal.file.size) :
    wal.writeFrameCount.file.byte i = wal.file.byte i := by
  have hoff : frameCountOffset + 8 = headerBytes := rfl
  rw [Wal.writeFrameCount, File.write]
  dsimp only
  rw [if_neg (by omega), if_pos hsize]

theorem Log.Holds.step {l l' : Log} {op : LogOp} (hl : l.Holds) (h : l.step op = some l') : l'.Holds := by
  cases op with
  | append writes buffer => exact hl.append h
  | commit =>
      obtain ⟨wal, hwal, rfl⟩ := Option.map_eq_some_iff.mp h
      rw [Wal.commit] at hwal
      split at hwal
      · cases hwal
        refine ⟨hl.count, fun hne => ?_, fun i w hw => ?_⟩
        · have hsize := hl.size hne
          have hle := Header.frameOffset_le (h := l.wal.header) (Nat.zero_le l.frames.length)
          have hoff : frameCountOffset + 8 = l.wal.header.frameOffset 0 := by
            rw [Header.frameOffset, Nat.zero_mul]
            rfl
          change max l.wal.file.size (frameCountOffset + 8) = l.wal.header.frameOffset l.frames.length
          omega
        · have hi : i < l.frames.length := (List.getElem?_eq_some_iff.mp hw).1
          have hsize := hl.size (List.ne_nil_of_length_pos (Nat.zero_lt_of_lt hi))
          have hle : l.wal.header.frameOffset (i + 1) ≤ l.wal.header.frameOffset l.frames.length :=
            Header.frameOffset_le hi
          rw [Header.frameOffset_add] at hle
          have hlow : headerBytes ≤ l.wal.header.frameOffset i := Nat.le_add_right _ _
          refine (hl.laid i w hw).congr fun k hk => byte_writeFrameCount l.wal ?_ ?_
          · exact hlow.trans (Nat.le_add_right _ _)
          · change l.wal.header.frameOffset i + k < _
            omega
      · cases hwal
  | reset =>
      cases h
      exact Log.holds_of_empty rfl

/-! ### Reading -/

/-- What a frame carries: a page, or the header of the pager. -/
def Header.contentSize (h : Header) (pageIdx : BitVec 64) : Nat :=
  if pageIdx = headerFrameIdx then pagerHeaderBytes else h.pageSize

/-- `read_frame` gives the page index and the content of `w`, with a matching checksum. -/
def ReadsBack (wal : Wal) (io : Io) (i : Nat) (w : PageWrite) (dst : Memory) : Prop :=
  ∃ out, wal.readFrame io i dst = some (wal.header.frameOf w, out) ∧
    ∀ k < wal.header.contentSize w.pageIdx, out k = w.data k

theorem Frame.ofMemory_memory {f : Frame} {m : Memory} (h : ∀ k < frameBytes, m k = f.memory k) :
    Frame.ofMemory m = f := by
  have hfirst : m.word 0 = f.memory.word (8 * 0) :=
    Memory.word_congr fun k hk => by simpa using h k (by rw [frameBytes]; omega)
  have hsecond : m.word 8 = f.memory.word (8 * 1) :=
    Memory.word_congr fun k hk => h (8 + k) (by rw [frameBytes]; omega)
  rw [Frame.ofMemory, hfirst, hsecond, Frame.memory, Memory.word_ofWords, Memory.word_ofWords]
  rfl

theorem Log.Holds.read_frame {l : Log} (hl : l.Holds) {i : Nat} {w : PageWrite} (hw : l.frames[i]? = some w) (io : Io) :
    ∃ m, l.wal.file.read (l.wal.header.frameOffset i) frameBytes Memory.zero io = some m ∧
      Frame.ofMemory m = l.wal.header.frameOf w := by
  have hi : i < l.frames.length := (List.getElem?_eq_some_iff.mp hw).1
  have hnext : l.wal.header.frameOffset (i + 1) ≤ l.wal.file.size :=
    hl.size (List.ne_nil_of_length_pos (Nat.zero_lt_of_lt hi)) ▸ Header.frameOffset_le hi
  rw [Header.frameOffset_add, Nat.one_mul, Header.stride] at hnext
  refine ⟨_, File.read_eq_some (by decide) (by omega) _ _, Frame.ofMemory_memory fun k hk => ?_⟩
  exact (Memory.copy_zero_of_lt hk).trans ((hl.laid i w hw).frame k hk)

theorem Log.Holds.readsBack_iff {l : Log} (hl : l.Holds) (hpage : pagerHeaderBytes ≤ l.wal.header.pageSize) {i : Nat}
    {w : PageWrite} (hw : l.frames[i]? = some w) (io : Io) (dst : Memory) :
    ReadsBack l.wal io i w dst ↔ (w.pageIdx = headerFrameIdx → i + 1 < l.frames.length ∨
      headerBytes ≤ l.wal.header.pageSize ∨ io = .async) := by
  have hi : i < l.frames.length := (List.getElem?_eq_some_iff.mp hw).1
  have hsize := hl.size (List.ne_nil_of_length_pos (Nat.zero_lt_of_lt hi))
  have hlaid := hl.laid i w hw
  have hnext : l.wal.header.frameOffset (i + 1) ≤ l.wal.file.size := hsize ▸ Header.frameOffset_le hi
  have hstride : l.wal.header.frameOffset (i + 1) =
      l.wal.header.frameOffset i + (frameBytes + l.wal.header.pageSize) := by
    rw [Header.frameOffset_add, Nat.one_mul, Header.stride]
  obtain ⟨m, hframe, hof⟩ := hl.read_frame hw io
  have hread : l.wal.readFrame io i dst = (l.wal.file.read (l.wal.header.frameOffset i + frameBytes)
      (l.wal.header.dataSize w.pageIdx) dst io).bind fun data =>
        if l.wal.header.frameChecksum w.pageIdx w.data = l.wal.header.frameChecksum w.pageIdx data then
          some (l.wal.header.frameOf w, data) else none := by
    rw [Wal.readFrame, if_pos (hl.count ▸ hi)]
    simp only [Option.bind_eq_bind, hframe, Option.bind_some, hof]
    rfl
  have h8 : 8 ≤ pagerHeaderBytes := by decide
  -- a read of at least the first `n` bytes gives the frame
  have hback (n : Nat) (hn : l.wal.header.contentSize w.pageIdx ≤ n) (hdata : n ≤ l.wal.header.dataSize w.pageIdx)
      (hsome : l.wal.file.read (l.wal.header.frameOffset i + frameBytes) (l.wal.header.dataSize w.pageIdx) dst io =
        some (dst.copy 0 n fun k => l.wal.file.byte (l.wal.header.frameOffset i + frameBytes + k))) :
      ReadsBack l.wal io i w dst := by
    have hcontent : pagerHeaderBytes ≤ l.wal.header.contentSize w.pageIdx ∧
        l.wal.header.contentSize w.pageIdx ≤ l.wal.header.pageSize := by
      rw [Header.contentSize]
      split <;> omega
    have hbytes : ∀ k < l.wal.header.contentSize w.pageIdx,
        dst.copy 0 n (fun k => l.wal.file.byte (l.wal.header.frameOffset i + frameBytes + k)) k = w.data k := by
      intro k hk
      rw [Memory.copy_zero_of_lt (by omega)]
      exact hlaid.data k (by omega) (by omega)
    have hword : (dst.copy 0 n fun k => l.wal.file.byte (l.wal.header.frameOffset i + frameBytes + k)).word 0 =
        w.data.word 0 := Memory.word_congr fun k hk => by
      rw [Nat.zero_add]
      exact hbytes k (by omega)
    refine ⟨_, ?_, hbytes⟩
    rw [hread, hsome, Option.bind_some, if_pos]
    rw [Header.frameChecksum, Header.frameChecksum, hword]
  by_cases hheader : w.pageIdx = headerFrameIdx
  · have hdata : l.wal.header.dataSize w.pageIdx = headerBytes := if_pos hheader
    have hcontent : l.wal.header.contentSize w.pageIdx = pagerHeaderBytes := if_pos hheader
    have hsizes : headerBytes = pagerHeaderBytes + 8 := rfl
    have hframeBytes : 8 ≤ frameBytes := by decide
    constructor
    · rintro ⟨out, hout, -⟩ -
      by_contra hnot
      rw [not_or, not_or] at hnot
      obtain ⟨hlast, hsmall, hasync⟩ := hnot
      have hsync : io = .sync := by
        cases io with
        | sync => rfl
        | async => exact absurd rfl hasync
      have hend : l.wal.file.size = l.wal.header.frameOffset (i + 1) := by
        rw [hsize]
        congr 1
        omega
      rw [hread, hdata, hsync, File.read, if_neg (by omega)] at hout
      cases hout
    · intro hcond
      rw [hheader, eq_self, forall_const] at hcond
      cases io with
      | async =>
          refine hback (min headerBytes (l.wal.file.size - (l.wal.header.frameOffset i + frameBytes))) ?_ ?_ ?_
          · omega
          · omega
          · rw [hdata]
            rfl
      | sync =>
          refine hback headerBytes (by omega) hdata.ge ?_
          rw [hdata]
          refine File.read_eq_some (by decide) ?_ _ _
          rcases hcond with hmore | hlarge | hasync
          · have hle : l.wal.header.frameOffset (i + 1 + 1) ≤ l.wal.file.size := hsize ▸ Header.frameOffset_le hmore
            rw [Header.frameOffset_add, Nat.one_mul, Header.stride] at hle
            omega
          · omega
          · cases hasync
  · refine iff_of_true ?_ fun h => absurd h hheader
    have hdata : l.wal.header.dataSize w.pageIdx = l.wal.header.pageSize := if_neg hheader
    have hcontent : l.wal.header.contentSize w.pageIdx = l.wal.header.pageSize := if_neg hheader
    refine hback l.wal.header.pageSize hcontent.le hdata.ge ?_
    rw [hdata]
    exact File.read_eq_some (by omega) (by omega) _ _

end Plexdb.WalBytes
