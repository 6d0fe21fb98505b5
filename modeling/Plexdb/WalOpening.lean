import Plexdb.PagerRecovery
import Plexdb.WalServes

/-! `init` on a database and the WAL file that is there. -/

namespace Plexdb.WalBytes

open Plexdb.Pager (MainFile MainOp PageRef Payload PageCacheEntry DynamicMap ValidFrame)

variable {W : Nat}

/-! ### Loaded frames -/

/-- What a frame that was read says: a page, or a header of a pager with this page size. -/
def decodeFrame (W : Nat) (frame : Frame) (data : Memory) : Option (Pager.Frame W) :=
  if frame.pageIdx = headerFrameIdx then
    (headerOf W data).map fun h => ⟨.header, frame.checksum, .header h⟩
  else some ⟨.page frame.pageIdx.toNat, frame.checksum, .page (pageOf data)⟩

theorem valid_of_decodeFrame {h : Header} {frame : Frame} {data : Memory} {f : Pager.Frame W} (hW : 0 < W)
    (hdecode : decodeFrame W frame data = some f) (hsum : frame.checksum = h.frameChecksum frame.pageIdx data) :
    ValidFrame h.salt f := by
  rw [decodeFrame] at hdecode
  split at hdecode
  · rename_i hheader
    obtain ⟨g, hg, rfl⟩ := Option.map_eq_some_iff.mp hdecode
    rw [headerOf] at hg
    split at hg
    · rename_i hwords
      refine ⟨?_, g, rfl⟩
      rw [hsum, hheader, Header.frameChecksum, hwords.1]
      rfl
    · cases hg
  · cases hdecode
    refine ⟨?_, pageOf data, rfl⟩
    rw [hsum, Header.frameChecksum, Pager.frameChecksum, PageRef.toU64, Payload.firstWord, word_pageOf _ hW,
      BitVec.ofNat_toNat, BitVec.setWidth_eq]

/-- `try_load` answers true for the file, and its frames read as these. -/
structure Loads (W : Nat) (io : Io) (file : File) (wal : Wal) (frames : Nat → Pager.Frame W) : Prop where
  load : Wal.tryLoad file (pageBytes W) = some wal
  frame : ∀ i < wal.header.frameCount, ∀ dst, ∃ frame data, wal.readFrame io i dst = some (frame, data) ∧
    decodeFrame W frame data = some (frames i)

theorem checksum_of_readFrame {wal : Wal} {io : Io} {i : Nat} {dst data : Memory} {frame : Frame}
    (h : wal.readFrame io i dst = some (frame, data)) :
    frame.checksum = wal.header.frameChecksum frame.pageIdx data := by
  rw [Wal.readFrame] at h
  split at h
  · obtain ⟨m, -, h⟩ : ∃ m, wal.file.read (wal.header.frameOffset i) frameBytes Memory.zero io = some m ∧ _ :=
      Option.bind_eq_some_iff.mp h
    obtain ⟨out, -, h⟩ := Option.bind_eq_some_iff.mp h
    split at h
    · cases h
      assumption
    · cases h
  · cases h

variable {io : Io} {file : File} {wal : Wal} {frames : Nat → Pager.Frame W}

theorem Loads.valid (h : Loads W io file wal frames) (hW : 0 < W) {k : Nat} (hk : k < wal.header.frameCount) :
    ValidFrame wal.header.salt (frames k) := by
  obtain ⟨frame, data, hread, hdecode⟩ := h.frame k hk Memory.zero
  exact valid_of_decodeFrame hW hdecode (checksum_of_readFrame hread)

theorem pageSize_of_tryLoad {n : Nat} (h : Wal.tryLoad file n = some wal) :
    wal.header.pageSize = n ∧ wal.file = file := by
  rw [Wal.tryLoad] at h
  by_cases hsize : file.size < headerBytes
  · rw [if_pos hsize] at h
    cases h
  · rw [if_neg hsize] at h
    dsimp only at h
    by_cases hmagic : (Header.ofMemory file.byte).magic ≠ magic
    · rw [if_pos hmagic] at h
      cases h
    · rw [if_neg hmagic] at h
      by_cases hpage : (Header.ofMemory file.byte).pageSize ≠ n
      · rw [if_pos hpage] at h
        cases h
      · rw [if_neg hpage] at h
        cases h
        exact ⟨not_not.mp hpage, rfl⟩

namespace BytePager

/-- The replay loop writes what the frames say to the main file. -/
theorem replay_eq_some (h : Loads W io file wal frames) {s : BytePager W} {main : MainFile W} {n i : Nat} {buf : Memory}
    (hn : i + n ≤ wal.header.frameCount) (hwal : s.wal = wal) (hio : s.io = io)
    (hmain : s.main = Pager.replayed main frames i) :
    s.replay n i buf = some { s with main := Pager.replayed main frames (i + n) } := by
  induction n generalizing s i buf with
  | zero =>
      rw [replay, Nat.add_zero, ← hmain]
  | succ n ih =>
      obtain ⟨frame, data, hread, hdecode⟩ := h.frame i (by omega) buf
      rw [← hwal, ← hio] at hread
      rw [replay, hread, Option.bind_eq_bind, Option.bind_some, Nat.add_comm n, ← Nat.add_assoc]
      rw [decodeFrame] at hdecode
      dsimp only
      by_cases hheader : frame.pageIdx = headerFrameIdx
      · rw [if_pos hheader] at hdecode ⊢
        obtain ⟨g, hg, hframe⟩ := Option.map_eq_some_iff.mp hdecode
        rw [hg, Option.bind_eq_bind, Option.bind_some]
        refine ih (by omega) hwal hio ?_
        rw [Pager.replayed, ← hframe, ← hmain]
        rfl
      · rw [if_neg hheader] at hdecode ⊢
        refine ih (by omega) hwal hio ?_
        rw [Pager.replayed, ← Option.some.inj hdecode, ← hmain]
        rfl

/-- A pager that `init` has just opened. -/
structure Idle (s : BytePager W) : Prop where
  serving : s.Serving []
  inactive : s.transactionActive = false
  unwritten : s.headerInWriteSet = false
  cache : s.pageCache = ∅
  index : s.walIndex = ∅

end BytePager

/-- The files as frames. -/
def loadedFiles (main : MainFile W) (wal : Wal) (frames : Nat → Pager.Frame W) : Pager.Files W :=
  ⟨main, ⟨wal.header.salt, wal.header.frameCount, wal.header.frameCount, frames⟩⟩

theorem MainFile.readPage_resize_of_lt {m : MainFile W} {n i : Nat} {data : Page W} (hi : i < n)
    (h : m.readPage i = some data) : (m.resize n).readPage i = some data := by
  rw [Pager.MainFile.readPage_resize, if_pos hi, h, Option.getD_some]

/-- Where the file loads, `init` leaves an idle pager that stores what the main file and the frames store. -/
theorem Loads.exists_init (h : Loads W io file wal frames) (hW : 0 < W) (main : MainFile W) (checkpointInterval : Nat)
    (buf : Memory) : ∃ s, BytePager.init io main file checkpointInterval buf = some s ∧ s.Idle ∧
      (loadedFiles main wal frames).storedHeader wal.header.frameCount = some s.header ∧
      ∀ i < s.header.pageCount, ∀ data, (loadedFiles main wal frames).stored wal.header.frameCount i = some data →
        s.view.content i = some data := by
  obtain ⟨hpage, hfile⟩ := pageSize_of_tryLoad h.load
  have hload : Wal.tryLoad (BytePager.opened io main file checkpointInterval).wal.file (pageBytes W) = some wal := h.load
  rw [BytePager.init, BytePager.maybeRecoverWal, hload]
  by_cases hcount : wal.header.frameCount = 0
  · refine ⟨_, if_pos hcount, ⟨⟨Log.holds_of_empty hcount, hpage⟩, rfl, rfl, rfl, rfl⟩, ?_, ?_⟩
    · rw [hcount]
      rfl
    · intro i _ data hdata
      rw [hcount] at hdata
      exact hdata
  · have hvalid := fun k (hk : k < wal.header.frameCount) => h.valid hW hk
    have hreplay : BytePager.replay { BytePager.opened io main file checkpointInterval with wal := wal }
        wal.header.frameCount 0 buf = some _ := BytePager.replay_eq_some h (Nat.zero_add _).le rfl rfl rfl
    rw [Nat.zero_add] at hreplay
    have hheader : ∀ g, (loadedFiles main wal frames).storedHeader wal.header.frameCount = some g →
        (Pager.replayed main frames wal.header.frameCount).header = g :=
      fun g hg => Pager.header_replayed (f := loadedFiles main wal frames) hvalid hg
    refine ⟨{ BytePager.opened io main file checkpointInterval with
      main := (Pager.replayed main frames wal.header.frameCount).resize
        (Pager.replayed main frames wal.header.frameCount).header.pageCount
      header := (Pager.replayed main frames wal.header.frameCount).header
      wal := wal.reset }, ?_, ⟨⟨Log.holds_of_empty rfl, hpage⟩, rfl, rfl, rfl, rfl⟩, ?_, ?_⟩
    · dsimp only
      rw [if_neg hcount, hreplay]
      rfl
    · cases hstored : (loadedFiles main wal frames).storedHeader wal.header.frameCount with
      | some g => rw [hheader g hstored]
      | none =>
          rw [Pager.Files.storedHeader] at hstored
          split at hstored
          · rename_i k hk
            obtain ⟨hlt, hidx⟩ := Pager.lastFrame_lt hk
            obtain ⟨g, hg⟩ : Payload.Fits _ PageRef.header := hidx ▸ (hvalid k hlt).fits
            have hstored' : (frames k).data.header? = none := hstored
            rw [hg] at hstored'
            cases hstored'
          · cases hstored
    · intro i hi data hdata
      exact MainFile.readPage_resize_of_lt hi (Pager.readPage_replayed (f := loadedFiles main wal frames) hvalid hdata)

/-! ### A file that a committed log leaves -/

/-- The first words of the file are those of the header, but for the frame count. -/
structure Log.Named (l : Log) : Prop where
  size : headerBytes ≤ l.wal.file.size
  byte : ∀ k < frameCountOffset, l.wal.file.byte k = l.wal.header.memory k
  count : l.wal.header.frameCount < 2 ^ 64

theorem Header.memory_frameCount (h : Header) (n : Nat) {k : Nat} (hk : k < frameCountOffset) :
    ({ h with frameCount := n } : Header).memory k = h.memory k := by
  have hlt : k / 8 < 4 := by
    rw [frameCountOffset] at hk
    omega
  rw [Header.memory, Header.memory, Memory.ofWords, Memory.ofWords]
  interval_cases k / 8 <;> rfl

theorem Log.named_create (salt : BitVec 64) (pageSize : Nat) : Log.Named ⟨Wal.create pageSize salt, []⟩ := by
  refine ⟨le_max_left _ _, fun k hk => ?_, Nat.two_pow_pos 64⟩
  have hlt : k < headerBytes := hk.trans (by decide)
  exact (if_pos ⟨Nat.zero_le k, by omega⟩).trans rfl

theorem Log.Named.writeFrameCount {l : Log} (h : l.Named) (frames : List PageWrite) :
    Log.Named ⟨l.wal.writeFrameCount, frames⟩ := by
  refine ⟨h.size.trans (le_max_left _ _), fun k hk => ?_, h.count⟩
  refine (File.byte_write_of_lt hk (hk.trans ?_)).trans (h.byte k hk)
  exact (by decide : frameCountOffset < headerBytes).trans_le h.size

theorem Log.Named.step {l l' : Log} {op : LogOp} (h : l.Named) (hstep : l.step op = some l') : l'.Named := by
  cases op with
  | append writes buffer =>
      obtain ⟨wal, hwal, rfl⟩ := Option.map_eq_some_iff.mp hstep
      by_cases hne : writes = []
      · rw [hne, Wal.appendFrames, if_pos rfl] at hwal
        cases hwal
        exact ⟨h.size, h.byte, h.count⟩
      · obtain ⟨hheader, hsize, hold, -⟩ := appendFrames_eq_some hne hwal
        have hcount : writes.length ≤ 2 ^ 64 - 1 - l.wal.header.frameCount := by
          by_contra hcount
          rw [Wal.appendFrames, if_neg hne, if_neg hcount] at hwal
          cases hwal
        have hlow (n : Nat) : headerBytes ≤ l.wal.header.frameOffset n := Nat.le_add_right _ _
        have hoff : frameCountOffset < headerBytes := by decide
        refine ⟨?_, fun k hk => ?_, ?_⟩
        · dsimp only
          rw [hsize]
          exact hlow _
        · dsimp only
          rw [hheader, Header.memory_frameCount _ _ hk, hold k]
          · exact h.byte k hk
          · exact (hk.trans hoff).trans_le (hlow _)
          · exact (hk.trans hoff).trans_le h.size
        · dsimp only
          rw [hheader]
          dsimp only
          have := h.count
          omega
  | commit =>
      obtain ⟨wal, hwal, rfl⟩ := Option.map_eq_some_iff.mp hstep
      rw [Wal.commit] at hwal
      split at hwal
      · cases hwal
        exact h.writeFrameCount _
      · cases hwal
  | reset =>
      cases hstep
      have hzero : Log.Named ⟨{ l.wal with header := { l.wal.header with frameCount := 0 } }, []⟩ := by
        refine ⟨h.size, fun k hk => ?_, Nat.two_pow_pos 64⟩
        exact (h.byte k hk).trans (Header.memory_frameCount _ _ hk).symm
      exact hzero.writeFrameCount []

/-- The fields that a log keeps from its creation. -/
theorem Log.step_header {l l' : Log} {op : LogOp} (hstep : l.step op = some l') :
    l'.wal.header = { l.wal.header with frameCount := l'.wal.header.frameCount } := by
  cases op with
  | append writes buffer =>
      obtain ⟨wal, hwal, rfl⟩ := Option.map_eq_some_iff.mp hstep
      by_cases hne : writes = []
      · rw [hne, Wal.appendFrames, if_pos rfl] at hwal
        cases hwal
        rfl
      · dsimp only
        rw [(appendFrames_eq_some hne hwal).1]
  | commit =>
      obtain ⟨wal, hwal, rfl⟩ := Option.map_eq_some_iff.mp hstep
      rw [Wal.commit] at hwal
      split at hwal
      · cases hwal
        rfl
      · cases hwal
  | reset =>
      cases hstep
      rfl

theorem Header.ofMemory_of_bytes {h : Header} {m : Memory} (hpage : h.pageSize < 2 ^ 64) (hcount : h.frameCount < 2 ^ 64)
    (hbyte : ∀ k < headerBytes, m k = h.memory k) : Header.ofMemory m = h := by
  have hword (i : Nat) (hi : i < 5) : m.word (8 * i) = h.memory.word (8 * i) :=
    Memory.word_congr fun k hk => hbyte _ (by rw [headerBytes]; omega)
  simp only [Header.memory, Memory.word_ofWords] at hword
  have h0 : m.word 0 = h.magic := hword 0 (by omega)
  have h1 : m.word 8 = h.version.setWidth 64 := hword 1 (by omega)
  have h2 : m.word 16 = BitVec.ofNat 64 h.pageSize := hword 2 (by omega)
  have h3 : m.word 24 = h.salt := hword 3 (by omega)
  have h4 : m.word 32 = BitVec.ofNat 64 h.frameCount := hword 4 (by omega)
  have hversion : (h.version.setWidth 64).setWidth 16 = h.version := by simp
  rw [Header.ofMemory, h0, h1, h2, h3, h4, hversion, BitVec.toNat_ofNat, BitVec.toNat_ofNat, Nat.mod_eq_of_lt hpage,
    Nat.mod_eq_of_lt hcount]

end Plexdb.WalBytes
