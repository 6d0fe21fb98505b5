import Plexdb.PagerLaw

/-! Opening a pager on files that hold a committed state: the replay of `maybe_recover_wal` puts
every committed frame into the main file, and the header and the allocated pages read as they were
committed. -/

namespace Plexdb

open Pager

variable {W : Nat}

namespace Pager

/-! ### What a committed state holds -/

/-- An allocated page, or the bitset page of one. -/
def Holds (live : Finset Nat) (i : Nat) : Prop :=
  i ∈ live ∨ ∃ k ∈ live, i = bitsetPage W (groupOf W k)

/-- Every live page is readable and below the page count, and its bit is set. -/
def Tracks (content : Nat → Option (Page W)) (pageCount : Nat) (live : Finset Nat) : Prop :=
  ∀ k ∈ live, k < pageCount ∧ (∃ data, content k = some data) ∧
    ∃ g j bitset, j < 64 * W ∧ k = freePage W g j ∧ content (bitsetPage W g) = some bitset ∧
      bitset.bit j = true

theorem Tracks.holds {content : Nat → Option (Page W)} {pageCount : Nat} {live : Finset Nat}
    (h : Tracks content pageCount live) {i : Nat} (hi : Holds (W := W) live i) :
    0 < i ∧ i < pageCount ∧ ∃ data, content i = some data := by
  rcases hi with hi | ⟨k, hk, rfl⟩
  · obtain ⟨hlt, hdata, g, j, -, -, rfl, -⟩ := h i hi
    exact ⟨by rw [freePage]; omega, hlt, hdata⟩
  · obtain ⟨hlt, -, g, j, bitset, hj, rfl, hbitset, -⟩ := h k hk
    rw [groupOf_freePage hj]
    refine ⟨Nat.succ_pos _, ?_, bitset, hbitset⟩
    rw [freePage] at hlt
    omega

/-- The files store the snapshot: the header, and every allocated page with its bitset page. -/
structure Consistent (f : Files W) (snap : Snapshot W) : Prop where
  size : f.wal.frameCount ≤ f.wal.size
  valid : ∀ k < f.wal.frameCount, ValidFrame f.wal.salt (f.wal.frames k)
  header : f.storedHeader f.wal.frameCount = some snap.header
  page : ∀ i, Holds (W := W) snap.live i →
    ∃ data, snap.page i = some data ∧ f.stored f.wal.frameCount i = some data

/-- Reopening the pager on the files yields the header and the pages of the snapshot. -/
def Recovers (f : Files W) (snap : Snapshot W) (checkpointInterval : Nat) : Prop :=
  ∃ p, init f true checkpointInterval = some p ∧ p.header = snap.header ∧
    ∀ i, Holds (W := W) snap.live i → (∃ data, snap.page i = some data) ∧ p.readBack i = snap.page i

/-! ### Replay -/

/-- The main file write of a valid frame. -/
def frameOp (f : Frame W) : MainOp W :=
  match f with
  | ⟨.page idx, _, .page data⟩ => .writePage idx data
  | ⟨_, _, .header h⟩ => .writeHeader h
  | ⟨.header, _, .page _⟩ => .writeHeader ⟨0, 0⟩

/-- The main file after the first `n` frames. -/
def replayed (m : MainFile W) (frames : Nat → Frame W) : Nat → MainFile W
  | 0 => m
  | n + 1 => (frameOp (frames n)).apply (replayed m frames n)

theorem replayOp_of_valid {salt : BitVec 64} {f : Frame W} (h : ValidFrame salt f) :
    replayOp f = some (frameOp f) := by
  obtain ⟨ref, checksum, data⟩ := f
  have hfits := h.fits
  cases ref with
  | header =>
      obtain ⟨g, hg⟩ := hfits
      rw [show data = _ from hg]
      rfl
  | page idx =>
      obtain ⟨page, hpage⟩ := hfits
      rw [show data = _ from hpage]
      rfl

theorem replay_spec {f : Files W} {wal : Wal} (hsize : wal.frameCount ≤ f.wal.size)
    (hvalid : ∀ k < wal.frameCount, ValidFrame wal.salt (f.wal.frames k)) {p : Pager W}
    {n i : Nat} (hn : i + n ≤ wal.frameCount) (hwal : p.files.wal = f.wal)
    (hmain : p.files.main = replayed f.main f.wal.frames i) :
    ∃ ops : List (MainOp W), p.replay wal n i = some (p.issueAll (ops.map .main)) ∧
      (p.issueAll (ops.map .main)).files = ⟨replayed f.main f.wal.frames (i + n), f.wal⟩ := by
  induction n generalizing p i with
  | zero =>
      refine ⟨[], rfl, ?_⟩
      rw [issueAll_files, Nat.add_zero, ← hmain, ← hwal]
      rfl
  | succ n ih =>
      have hk : i < wal.frameCount := by omega
      have hframe : p.readFrame wal i = some (f.wal.frames i) := by
        rw [readFrame_of_valid hk (by rw [hwal]; omega) (by rw [hwal]; exact hvalid i hk), hwal]
      have hop := replayOp_of_valid (hvalid i hk)
      obtain ⟨ops, hreplay, hfiles⟩ := @ih (p.issue (.main (frameOp (f.wal.frames i)))) (i + 1)
        (by omega) hwal (by
          rw [replayed, ← hmain]
          rfl)
      refine ⟨frameOp (f.wal.frames i) :: ops, ?_, ?_⟩
      · rw [replay, hframe]
        change (replayOp (f.wal.frames i)).bind _ = _
        rw [hop]
        exact hreplay
      · rw [show i + (n + 1) = i + 1 + n by omega]
        exact hfiles

theorem readPage_replayed {f : Files W} {n : Nat}
    (hvalid : ∀ k < n, ValidFrame f.wal.salt (f.wal.frames k)) {i : Nat} {data : Page W}
    (h : f.stored n i = some data) : (replayed f.main f.wal.frames n).readPage i = some data := by
  induction n with
  | zero => exact h
  | succ n ih =>
      have hfits := (hvalid n (Nat.lt_succ_self n)).fits
      rw [Files.stored, lastFrame] at h
      rw [replayed]
      generalize hframe : f.wal.frames n = frame at h hfits
      obtain ⟨ref, checksum, x⟩ := frame
      by_cases href : ref = .page i
      · subst href
        rw [if_pos rfl] at h
        dsimp only at h
        rw [hframe] at h
        obtain ⟨page, rfl⟩ := hfits
        cases h
        rw [frameOp, MainOp.apply, MainFile.readPage_writePage, if_pos rfl]
      · rw [if_neg href] at h
        have hold := ih (fun k hk => hvalid k (Nat.lt_succ_of_lt hk)) h
        refine @readPage_of_spares _ _ _ _ [_] hold ?_
        rw [List.forall_mem_singleton]
        cases ref with
        | header =>
            obtain ⟨g, rfl⟩ := hfits
            trivial
        | page idx =>
            obtain ⟨page, rfl⟩ := hfits
            exact fun heq => absurd (by rw [heq]) href

theorem header_replayed {f : Files W} {n : Nat}
    (hvalid : ∀ k < n, ValidFrame f.wal.salt (f.wal.frames k)) {h : Header}
    (hstored : f.storedHeader n = some h) : (replayed f.main f.wal.frames n).header = h := by
  induction n with
  | zero => exact Option.some.inj hstored
  | succ n ih =>
      have hfits := (hvalid n (Nat.lt_succ_self n)).fits
      rw [Files.storedHeader, lastFrame] at hstored
      rw [replayed]
      generalize hframe : f.wal.frames n = frame at hstored hfits
      obtain ⟨ref, checksum, x⟩ := frame
      cases ref with
      | header =>
          rw [if_pos rfl] at hstored
          dsimp only at hstored
          rw [hframe] at hstored
          obtain ⟨g, rfl⟩ := hfits
          exact Option.some.inj hstored
      | page idx =>
          rw [if_neg PageRef.noConfusion] at hstored
          obtain ⟨page, rfl⟩ := hfits
          exact ih (fun k hk => hvalid k (Nat.lt_succ_of_lt hk)) hstored

/-! ### Opening -/

theorem load_opened (files : Files W) (checkpointInterval i : Nat) :
    (opened files true checkpointInterval).load i = files.main.readPage i := rfl

theorem recovers_of_consistent {f : Files W} {snap : Snapshot W} (h : Consistent f snap)
    (htracks : Tracks snap.page snap.header.pageCount snap.live) (checkpointInterval : Nat) :
    Recovers f snap checkpointInterval := by
  have hpages : ∀ p : Pager W, p.transactionActive = false → p.pageCache = ∅ →
      p.header = snap.header →
      (∀ i data, i < snap.header.pageCount → f.stored f.wal.frameCount i = some data →
        p.load i = some data) →
      ∀ i, Holds (W := W) snap.live i →
        (∃ data, snap.page i = some data) ∧ p.readBack i = snap.page i := by
    intro p hinactive hempty hheader hload i hi
    obtain ⟨data, hdata, hstored⟩ := h.page i hi
    obtain ⟨hpos, hlt, -⟩ := htracks.holds hi
    refine ⟨⟨data, hdata⟩, ?_⟩
    rw [readBack_eq_load hinactive hempty ⟨hpos, hheader ▸ hlt⟩, hload i data hlt hstored, hdata]
  rw [Recovers, init, maybeRecoverWal]
  by_cases hzero : f.wal.frameCount = 0
  · have hheader := h.header
    rw [hzero] at hheader
    refine ⟨opened f true checkpointInterval, if_pos hzero, Option.some.inj hheader,
      hpages _ rfl rfl (Option.some.inj hheader) fun i data _ hstored => ?_⟩
    rw [hzero] at hstored
    exact hstored
  · obtain ⟨ops, hreplay, hfiles⟩ := @replay_spec _ f ⟨f.wal.salt, f.wal.frameCount, ∅⟩ h.size
      h.valid (opened f true checkpointInterval) f.wal.frameCount 0 (by simp) rfl rfl
    rw [Nat.zero_add] at hfiles
    have hmain : (replayed f.main f.wal.frames f.wal.frameCount).header = snap.header :=
      header_replayed h.valid h.header
    change ∃ p, (if f.wal.frameCount = 0 then _ else _) = some p ∧ _
    rw [if_neg hzero, hreplay]
    have hidle : ((opened f true checkpointInterval).issueAll (ops.map .main)).transactionActive =
        false ∧ ((opened f true checkpointInterval).issueAll (ops.map .main)).pageCache = ∅ := by
      rw [issueAll_files]
      exact ⟨rfl, rfl⟩
    generalize (opened f true checkpointInterval).issueAll (ops.map .main) = q at hfiles hidle
    have hreset : (q.issueAll [.syncMain, .wal (.writeCount 0), .syncWal]).files.main =
        replayed f.main f.wal.frames f.wal.frameCount := by
      rw [issueAll_files, hfiles]
      rfl
    have hrest : (q.issueAll [.syncMain, .wal (.writeCount 0), .syncWal]).transactionActive = false ∧
        (q.issueAll [.syncMain, .wal (.writeCount 0), .syncWal]).pageCache = ∅ := by
      rw [issueAll_files]
      exact hidle
    have hheader : (q.issueAll [.syncMain, .wal (.writeCount 0), .syncWal]).files.main.header =
        snap.header := by rw [hreset, hmain]
    refine ⟨_, rfl, hheader, hpages _ hrest.1 hrest.2 hheader fun i data hi hstored => ?_⟩
    change ((q.issueAll [.syncMain, .wal (.writeCount 0), .syncWal]).files.main.resize
      (q.issueAll [.syncMain, .wal (.writeCount 0), .syncWal]).files.main.header.pageCount).readPage i =
      some data
    rw [hheader, hreset, MainFile.readPage_resize, if_pos hi, readPage_replayed h.valid hstored]
    rfl

end Pager

end Plexdb
