import Plexdb.WalSessions

/-! Commits and checkpoints over the bytes of the WAL do what they do over frames, once the WAL was loaded. -/

namespace Plexdb.WalBytes

open Plexdb.Pager (MainFile MainOp WalOp PageRef Payload PageCacheEntry DynamicMap)

variable {W : Nat}

namespace BytePager

variable {s s' : BytePager W} {frames : List PageWrite} {p : Plexdb.Pager W}

/-! ### Appending -/

/-- The WAL as the pager over frames holds it. -/
def seenWal (s : BytePager W) : Plexdb.Pager.Wal := ⟨s.wal.header.salt, s.wal.header.frameCount, s.walIndex⟩

theorem view_wal (s : BytePager W) : s.view.wal = some s.seenWal := rfl

/-- A frame that was appended is seen as the frame of the write. -/
theorem seenOf_pageWrite (s : BytePager W) {q : Plexdb.Pager W} {w : PageRef × Payload W} (hw : w ∈ q.pageWrites)
    (hfits : q.header.pageCount < 2 ^ 64) (salt : BitVec 64) :
    (s.seenOf (pageWrite w)).pageIdx = (Plexdb.Pager.frameOfWrite salt w).pageIdx ∧
      (s.seenOf (pageWrite w)).data.page? = (Plexdb.Pager.frameOfWrite salt w).data.page? := by
  rcases Plexdb.Pager.mem_pageWrites.mp hw with ⟨idx, data, rfl, -, hidx⟩ | ⟨-, rfl⟩
  · have hne : BitVec.ofNat 64 idx ≠ headerFrameIdx := ofNat_ne_headerFrameIdx (by omega)
    have hidx' : (BitVec.ofNat 64 idx).toNat = idx := by
      rw [BitVec.toNat_ofNat, Nat.mod_eq_of_lt (by omega)]
    rw [seenOf, pageWrite, if_neg hne, hidx', pageOf_pageMemory]
    exact ⟨rfl, rfl⟩
  · rw [seenOf, pageWrite, if_pos rfl]
    exact ⟨rfl, rfl⟩

theorem Serving.logWrites (h : s.Serving frames) (hW : 4 ≤ W) (hfits : s.header.pageCount < 2 ^ 64)
    (hok : s.view.StorageOk) {buffer : Memory} (hs : s.logWrites buffer = some s') :
    (∃ frames', s'.Serving frames') ∧ (s.view.logWrites s.seenWal).2 = s'.seenWal ∧
      Shows (s.view.logWrites s.seenWal).1 s' := by
  rw [BytePager.logWrites] at hs
  rw [Plexdb.Pager.logWrites]
  by_cases hnil : s.view.pageWrites = []
  · rw [if_pos hnil] at hs ⊢
    cases hs
    exact ⟨⟨frames, h⟩, rfl, .refl h hW⟩
  · rw [if_neg hnil] at hs ⊢
    obtain ⟨wal, hwal, hs⟩ : ∃ wal, s.wal.appendFrames (s.view.pageWrites.map pageWrite) buffer = some wal ∧ _ :=
      Option.bind_eq_some_iff.mp hs
    cases hs
    have hheader := (appendFrames_eq_some (mt List.map_eq_nil_iff.mp hnil) hwal).1
    rw [List.length_map] at hheader
    have hserving : Serving { s with
        headerInWriteSet := false
        wal := wal
        walIndex := Plexdb.Pager.indexWrites s.walIndex s.wal.header.frameCount s.view.pageWrites }
        (frames ++ s.view.pageWrites.map pageWrite) := by
      have hstep : Log.step ⟨s.wal, frames⟩ (.append (s.view.pageWrites.map pageWrite) buffer) =
          some ⟨wal, frames ++ s.view.pageWrites.map pageWrite⟩ := by
        rw [Log.step, hwal]
        rfl
      refine ⟨h.log.step hstep, ?_⟩
      dsimp only
      rw [hheader]
      exact h.pageSize
    obtain ⟨hsize, hold, hnew⟩ := Plexdb.Pager.appendOps_apply (hok _ s.view_wal).size s.view.pageWrites
    have hissue (ops : List (WalOp W)) : (s.view.issueAll (ops.map .wal)).files =
        { s.view.files with wal := ops.foldl WalOp.apply s.view.files.wal } := by
      rw [Plexdb.Pager.issueAll_files, Plexdb.Pager.foldl_walOps]
    refine ⟨⟨_, hserving⟩, ?_, ?_, fun k hk => ?_, fun k hk => hserving.valid hW hk⟩
    · rw [seenWal, seenWal]
      dsimp only
      rw [hheader]
    · rw [Plexdb.Pager.issueAll_files, Plexdb.Pager.foldl_walOps, seenWal, view]
      dsimp only
      rw [hheader]
      rfl
    · obtain ⟨w, hw⟩ := hserving.exists_frame hk
      rw [hserving.seenFrame_eq hW hw]
      dsimp only at hk ⊢
      rw [hissue]
      dsimp only
      rw [hheader] at hk
      dsimp only at hk
      have hcount := h.log.count
      dsimp only at hcount
      by_cases hlt : k < s.wal.header.frameCount
      · rw [hold k hlt]
        rw [List.getElem?_append_left (by omega)] at hw
        change _ = (s.seenFrame k).pageIdx ∧ _ = (s.seenFrame k).data.page?
        rw [h.seenFrame_eq hW hw, seenOf, seenOf]
        split <;> exact ⟨rfl, rfl⟩
      · obtain ⟨j, rfl⟩ := Nat.exists_eq_add_of_le (Nat.le_of_not_lt hlt)
        have hj : j < s.view.pageWrites.length := by omega
        rw [List.getElem?_append_right (by omega), List.getElem?_map] at hw
        have hidx : s.wal.header.frameCount + j - frames.length = j := by omega
        rw [hidx, List.getElem?_eq_getElem hj] at hw
        cases hw
        have hframe := hnew j hj
        change _ = (Plexdb.Pager.WalFile.frames _ (s.seenWal.frameCount + j)).pageIdx ∧
          _ = (Plexdb.Pager.WalFile.frames _ (s.seenWal.frameCount + j)).data.page?
        rw [hframe]
        exact seenOf_pageWrite _ (List.getElem_mem hj) hfits _

/-! ### Checkpoints -/

theorem Serving.counted (h : s.Serving frames) (hcount : 0 < s.wal.header.frameCount) : s.counted.Serving frames := by
  have hstep : Log.step ⟨s.wal, frames⟩ .commit = some ⟨s.wal.writeFrameCount, frames⟩ := by
    rw [Log.step, Wal.commit, if_pos hcount]
    rfl
  exact ⟨h.log.step hstep, h.pageSize⟩

theorem Shows.counted (h : s.Serving frames) (hW : 4 ≤ W) (hcount : 0 < s.wal.header.frameCount) (hp : Shows p s) :
    Shows (p.counted s.seenWal) s.counted := by
  have hserving := h.counted hcount
  refine ⟨?_, fun k hk => ?_, fun k hk => hserving.valid hW hk⟩
  · have hview : s.counted.view = { s.view with
        files := ⟨s.view.files.main, s.counted.view.files.wal⟩
        walTransactionCount := s.view.walTransactionCount + 1 } := rfl
    rw [hview, hp.view, Plexdb.Pager.counted_eq]
  · obtain ⟨w, hw⟩ := h.exists_frame hk
    rw [Plexdb.Pager.counted_eq, hserving.seenFrame_eq hW hw]
    have := hp.frame k hk
    rw [h.seenFrame_eq hW hw] at this
    exact this

/-- The WAL after a reset has no frames. -/
theorem Serving.reset (h : s.Serving frames) : Log.Holds ⟨s.wal.reset, []⟩ ∧ s.wal.reset.header.pageSize = pageBytes W :=
  ⟨Log.holds_of_empty rfl, h.pageSize⟩

/-- The write of an index entry is that of the pager over frames. -/
theorem Serving.checkpointWrite (h : s.Serving frames) (hW : 4 ≤ W) (hp : Shows p s) (hok : p.StorageOk)
    {scratch : Memory} {ref : PageRef} {k : Nat} (hk : s.walIndex.lookup ref = some k) :
    ∃ op, s.checkpointWrite scratch ref k = some [op] ∧ p.checkpointWrite s.seenWal ref k = some op := by
  have hwal := hok _ hp.wal_eq
  have hlast := (hwal.index ref).symm.trans hk
  obtain ⟨hlt, hidx⟩ := Plexdb.Pager.lastFrame_lt hlast
  have hheader : s.header = p.header := congrArg (·.header) hp.view
  have hcache : s.pageCache = p.pageCache := congrArg (·.pageCache) hp.view
  have hmain (idx : Nat) (data : Page W) : s.mainWrite idx data = some [.writePage idx data] := by
    rw [mainWrite, if_pos]
    rw [h.pageSize, pageBytes]
    omega
  cases ref with
  | header => exact ⟨.writeHeader p.header, by rw [BytePager.checkpointWrite, hheader], rfl⟩
  | page idx =>
      rw [BytePager.checkpointWrite, Plexdb.Pager.checkpointWrite, hcache]
      cases hlookup : p.pageCache.lookup idx with
      | some entry => exact ⟨_, hmain _ _, rfl⟩
      | none =>
          obtain ⟨w, hw⟩ := h.exists_frame hlt
          obtain ⟨hpage, hdata⟩ := hp.frame k hlt
          rw [h.seenFrame_eq hW hw] at hpage hdata
          have hne : w.pageIdx ≠ headerFrameIdx := by
            intro heq
            rw [seenOf, if_pos heq] at hpage
            cases hpage.trans hidx
          obtain ⟨out, hout, hof⟩ := h.read_page hW hw hne scratch
          rw [seenOf, if_neg hne] at hdata
          have hread := Plexdb.Pager.readFrame_of_valid hlt (hlt.trans_le hwal.size) (hwal.valid k hlt)
          refine ⟨.writePage idx (pageOf w.data), ?_, ?_⟩
          · dsimp only
            rw [hout, Option.bind_some, hmain, hof]
          · dsimp only
            rw [Plexdb.Pager.readFramePage, seenWal, hread]
            cases hframe : p.files.wal.frames k with
            | mk pageIdx checksum data =>
                rw [hframe] at hdata
                cases data with
                | header hd => cases hdata
                | page data =>
                    cases hdata
                    rfl

/-- Two traversals that agree, but for one giving its results as singletons. -/
theorem mapM_singletons {α β : Type} {f : α → Option (List β)} {g : α → Option β} {xs : List α}
    (h : ∀ x ∈ xs, ∃ y, f x = some [y] ∧ g x = some y) :
    ∃ ys, xs.mapM f = some (ys.map ([·])) ∧ xs.mapM g = some ys := by
  induction xs with
  | nil => exact ⟨[], rfl, rfl⟩
  | cons x xs ih =>
      obtain ⟨y, hf, hg⟩ := h x List.mem_cons_self
      obtain ⟨ys, hfs, hgs⟩ := ih fun x hx => h x (List.mem_cons_of_mem _ hx)
      refine ⟨y :: ys, ?_, ?_⟩
      · rw [List.mapM_cons, hf, hfs]
        rfl
      · rw [List.mapM_cons, hg, hgs]
        rfl

/-- What a checkpoint that made these writes leaves. -/
def checkpointed (s : BytePager W) (writes : List (MainOp W)) : BytePager W :=
  { s with
    main := (writes.foldl MainOp.apply s.main).resize s.header.pageCount
    wal := s.wal.reset
    walIndex := ∅
    walTransactionCount := 0 }

theorem view_checkpointed (s : BytePager W) (writes : List (MainOp W)) :
    (s.checkpointed writes).view = { s.view with
      files := ⟨(writes.foldl MainOp.apply s.view.files.main).resize s.view.header.pageCount,
        (s.checkpointed writes).view.files.wal⟩
      wal := some ⟨s.wal.header.salt, 0, ∅⟩
      walTransactionCount := 0 } := rfl

theorem Serving.checkpoint (h : s.Serving frames) (hW : 4 ≤ W) (hp : Shows p s) (hok : p.StorageOk) (scratch : Memory) :
    ∃ s' q, s.checkpoint scratch = some s' ∧ p.checkpoint = some q ∧ Shows q s' ∧ s'.Serving [] := by
  obtain ⟨writes, hs, hq⟩ : ∃ writes : List (MainOp W),
      (s.walIndex.entries.mapM fun e => s.checkpointWrite scratch e.1 e.2) = some (writes.map ([·])) ∧
      (s.walIndex.entries.mapM fun e => p.checkpointWrite s.seenWal e.1 e.2) = some writes :=
    mapM_singletons fun e he => h.checkpointWrite hW hp hok (AList.mem_lookup_iff.mpr he)
  have hcheckpoint : s.checkpoint scratch = some (s.checkpointed writes) := by
    have hpages : s.header.pageCount * pageBytes W / pageBytes W = s.header.pageCount :=
      Nat.mul_div_cancel _ (by rw [pageBytes]; omega)
    have hflat : (writes.map ([·])).flatten = writes := by
      rw [← List.flatMap_def, List.flatMap_singleton']
    rw [BytePager.checkpoint, hs, Option.bind_eq_bind, Option.bind_some, hflat, h.pageSize, hpages]
    rfl
  obtain ⟨q, hcheckpoint', hq'⟩ : ∃ q, p.checkpoint = some q ∧ q = { p with
      issued := q.issued
      files := ⟨(writes.foldl MainOp.apply p.files.main).resize p.header.pageCount, q.files.wal⟩
      wal := some ⟨s.wal.header.salt, 0, ∅⟩
      walTransactionCount := 0 } := by
    rw [Plexdb.Pager.checkpoint, hp.wal_eq]
    change ∃ q, (s.walIndex.entries.mapM (fun e => p.checkpointWrite s.seenWal e.1 e.2) >>= _) = some q ∧ _
    rw [hq, Option.bind_eq_bind, Option.bind_some]
    refine ⟨_, rfl, ?_⟩
    rw [Plexdb.Pager.issueAll_files, List.foldl_append, Plexdb.Pager.foldl_mainOps]
    rfl
  refine ⟨_, q, hcheckpoint, hcheckpoint', ⟨?_, fun k hk => absurd hk (Nat.not_lt_zero k),
    fun k hk => absurd hk (Nat.not_lt_zero k)⟩, h.reset.1, h.reset.2⟩
  rw [view_checkpointed, hp.view, hq']

/-! ### Commits -/

theorem Shows.finishTransaction (hp : Shows p s) : Shows p.finishTransaction s.finishTransaction := by
  refine ⟨?_, hp.frame, hp.valid⟩
  have hview : s.finishTransaction.view = { s.view with pageCache := ∅, transactionActive := false } := rfl
  rw [hview, hp.view]
  rfl

/-- The rest of a commit, once the frames are appended. -/
theorem Serving.checkpointIfDue (h : s.Serving frames) (hW : 4 ≤ W) (hp : Shows p s) (hok : p.StorageOk)
    (hcount : 0 < s.wal.header.frameCount) (scratch : Memory) :
    ∃ s' q, s.counted.checkpointIfDue scratch = some s' ∧ (p.counted s.seenWal).checkpointIfDue = some q ∧
      Shows q s' ∧ ∃ frames', s'.Serving frames' := by
  have hcounted := h.counted hcount
  have hshows := hp.counted h hW hcount
  have hok' : (p.counted s.seenWal).StorageOk := by
    rw [Plexdb.Pager.counted_eq]
    intro wal hwal
    exact ⟨(hok wal hwal).size, (hok wal hwal).valid, (hok wal hwal).index⟩
  have hinterval : s.counted.checkpointInterval = (p.counted s.seenWal).checkpointInterval :=
    congrArg (·.checkpointInterval) hshows.view
  have htransactions : s.counted.walTransactionCount = (p.counted s.seenWal).walTransactionCount :=
    congrArg (·.walTransactionCount) hshows.view
  rw [BytePager.checkpointIfDue, Plexdb.Pager.checkpointIfDue, hinterval, htransactions]
  split
  · obtain ⟨s', q, hs, hq, hshows', hserving⟩ := hcounted.checkpoint hW hshows hok' scratch
    exact ⟨s', q, hs, hq, hshows', [], hserving⟩
  · exact ⟨_, _, rfl, rfl, hshows, frames, hcounted⟩

theorem Serving.commit (h : s.Serving frames) (hW : 4 ≤ W) (hfits : s.header.pageCount < 2 ^ 64)
    (hok : s.view.StorageOk) (hactive : s.transactionActive = true) {buffer : Memory} {s₁ : BytePager W}
    (hs₁ : s.logWrites buffer = some s₁) (scratch : Memory) :
    ∃ s' q, s.commit buffer scratch = some s' ∧ s.view.commit = some q ∧ Shows q s' ∧
      ∃ frames', s'.Serving frames' := by
  obtain ⟨⟨frames₁, hserving⟩, hwal, hshows⟩ := h.logWrites hW hfits hok hs₁
  obtain ⟨ops, hlogged⟩ := Plexdb.Pager.logWrites_spec s.view_wal hok
  have hactive' : s.view.transactionActive = true := hactive
  have hok₁ : (s.view.logWrites s.seenWal).1.StorageOk := by
    intro wal hwal'
    have heq : some wal = some (s.view.logWrites s.seenWal).2 := by
      rw [← hwal', hwal]
      exact hshows.wal_eq
    cases heq
    exact hlogged.ok
  have hcommit : s.view.commit = if 0 < s₁.wal.header.frameCount then
      (((s.view.logWrites s.seenWal).1.counted s₁.seenWal).checkpointIfDue).map Plexdb.Pager.finishTransaction
      else some (s.view.logWrites s.seenWal).1.finishTransaction := by
    rw [Plexdb.Pager.commit, if_pos hactive', view_wal]
    dsimp only
    rw [hwal]
    rfl
  rw [hcommit, BytePager.commit, if_pos hactive, hs₁, Option.bind_some]
  by_cases hcount : 0 < s₁.wal.header.frameCount
  · obtain ⟨s₂, q, hs₂, hq, hshows₂, frames₂, hserving₂⟩ :=
      hserving.checkpointIfDue hW hshows hok₁ hcount scratch
    rw [if_pos hcount, if_pos hcount, hs₂, hq]
    exact ⟨_, _, rfl, rfl, hshows₂.finishTransaction, frames₂, hserving₂.log, hserving₂.pageSize⟩
  · rw [if_neg hcount, if_neg hcount]
    exact ⟨_, _, rfl, rfl, hshows.finishTransaction, frames₁, hserving.log, hserving.pageSize⟩

/-- Frames are appended as long as the file stays below 2^63 bytes. -/
theorem exists_logWrites (s : BytePager W) (buffer : Memory)
    (hroom : s.wal.header.frameOffset (s.wal.header.frameCount + s.view.pageWrites.length) < 2 ^ 63) :
    ∃ s₁, s.logWrites buffer = some s₁ := by
  rw [BytePager.logWrites]
  by_cases hnil : s.view.pageWrites = []
  · exact ⟨s, if_pos hnil⟩
  · have hcount : (s.view.pageWrites.map pageWrite).length ≤ 2 ^ 64 - 1 - s.wal.header.frameCount := by
      rw [Header.frameOffset, Header.stride] at hroom
      have hmul : (s.wal.header.frameCount + s.view.pageWrites.length) * 1 ≤
          (s.wal.header.frameCount + s.view.pageWrites.length) * (frameBytes + s.wal.header.pageSize) :=
        Nat.mul_le_mul_left _ (by rw [frameBytes]; omega)
      rw [List.length_map]
      omega
    have hresize : ∃ file, s.wal.file.resize (s.wal.header.frameOffset
        (s.wal.header.frameCount + (s.view.pageWrites.map pageWrite).length)) = some file := by
      rw [List.length_map, File.resize, if_pos hroom]
      exact ⟨_, rfl⟩
    obtain ⟨file, hfile⟩ := hresize
    rw [if_neg hnil, Wal.appendFrames, if_neg (mt List.map_eq_nil_iff.mp hnil), if_pos hcount]
    dsimp only
    rw [hfile]
    exact ⟨_, rfl⟩

end BytePager

end Plexdb.WalBytes
