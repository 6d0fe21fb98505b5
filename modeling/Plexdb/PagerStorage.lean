import Plexdb.PagerAllocation

/-! Where committed pages are stored: the latest WAL frame of a page, else the main file. A commit
appends frames and a checkpoint moves them, and both leave every page stored as the transaction
read it. -/

namespace Plexdb

open Pager

variable {W : Nat}

namespace Pager

/-! ### Frames -/

/-- The latest of the first `n` frames about `ref`. -/
def lastFrame (frames : Nat → Frame W) : Nat → PageRef → Option Nat
  | 0, _ => none
  | n + 1, ref => if (frames n).pageIdx = ref then some n else lastFrame frames n ref

def Payload.page? : Payload W → Option (Page W)
  | .page data => some data
  | .header _ => none

def Payload.header? : Payload W → Option Header
  | .page _ => none
  | .header h => some h

def Payload.Fits (data : Payload W) : PageRef → Prop
  | .header => ∃ h, data = .header h
  | .page _ => ∃ page, data = .page page

/-- The checksum matches, and the data is what the frame is about. -/
structure ValidFrame (salt : BitVec 64) (f : Frame W) : Prop where
  checksum : f.checksum = frameChecksum salt f.pageIdx f.data
  fits : f.data.Fits f.pageIdx

theorem lastFrame_lt {frames : Nat → Frame W} {n k : Nat} {ref : PageRef}
    (h : lastFrame frames n ref = some k) : k < n ∧ (frames k).pageIdx = ref := by
  induction n with
  | zero => cases h
  | succ n ih =>
      rw [lastFrame] at h
      split at h
      · cases h
        exact ⟨Nat.lt_succ_self _, ‹_›⟩
      · exact ⟨Nat.lt_succ_of_lt (ih h).1, (ih h).2⟩

theorem lastFrame_congr {frames frames' : Nat → Frame W} {n : Nat}
    (h : ∀ k < n, frames k = frames' k) (ref : PageRef) :
    lastFrame frames n ref = lastFrame frames' n ref := by
  induction n with
  | zero => rfl
  | succ n ih =>
      rw [lastFrame, lastFrame, h n (Nat.lt_succ_self n), ih fun k hk => h k (Nat.lt_succ_of_lt hk)]

/-- The page as stored when the first `n` frames are committed. -/
def Files.stored (f : Files W) (n idx : Nat) : Option (Page W) :=
  match lastFrame f.wal.frames n (.page idx) with
  | some k => (f.wal.frames k).data.page?
  | none => f.main.readPage idx

/-- The header as stored when the first `n` frames are committed. -/
def Files.storedHeader (f : Files W) (n : Nat) : Option Header :=
  match lastFrame f.wal.frames n .header with
  | some k => (f.wal.frames k).data.header?
  | none => some f.main.header

/-- The committed frames are valid, and `wal_index` gives the latest frame of every page. -/
structure WalOk (wal : Wal) (f : WalFile W) : Prop where
  size : wal.frameCount ≤ f.size
  valid : ∀ k < wal.frameCount, ValidFrame wal.salt (f.frames k)
  index : ∀ ref, wal.walIndex.lookup ref = lastFrame f.frames wal.frameCount ref

theorem readFrame_of_valid {p : Pager W} {wal : Wal} {k : Nat} (hk : k < wal.frameCount)
    (hsize : k < p.files.wal.size) (hvalid : ValidFrame wal.salt (p.files.wal.frames k)) :
    p.readFrame wal k = some (p.files.wal.frames k) := by
  rw [readFrame, if_pos hk, WalFile.readFrame, if_pos ⟨hsize, hvalid.checksum⟩]

/-- The number of committed frames, zero without a WAL. -/
def frameCount (p : Pager W) : Nat :=
  match p.wal with
  | some wal => wal.frameCount
  | none => 0

def StorageOk (p : Pager W) : Prop := ∀ wal, p.wal = some wal → WalOk wal p.files.wal

theorem load_eq_stored {p : Pager W} (h : p.StorageOk) (idx : Nat) :
    p.load idx = p.files.stored p.frameCount idx := by
  rw [load, frameOf, Files.stored, frameCount]
  cases hwal : p.wal with
  | none => rfl
  | some wal =>
      have hok := h wal hwal
      dsimp only
      rw [hok.index]
      cases hlast : lastFrame p.files.wal.frames wal.frameCount (.page idx) with
      | none => rfl
      | some k =>
          obtain ⟨hk, -⟩ := lastFrame_lt hlast
          rw [Option.map_some]
          dsimp only
          rw [readFramePage, readFrame_of_valid hk (by have := hok.size; omega) (hok.valid k hk)]
          obtain ⟨pageIdx, checksum, data⟩ := p.files.wal.frames k
          cases data <;> rfl

/-! ### Appending frames -/

def frameOfWrite (salt : BitVec 64) (w : PageRef × Payload W) : Frame W :=
  ⟨w.1, frameChecksum salt w.1 w.2, w.2⟩

@[simp] theorem pageIdx_frameOfWrite (salt : BitVec 64) (w : PageRef × Payload W) :
    (frameOfWrite salt w).pageIdx = w.1 := rfl

theorem frameWrites_apply {salt : BitVec 64} {base : Nat} {writes : List (PageRef × Payload W)}
    {f : WalFile W} (h : base ≤ f.size) :
    let f' := (frameWrites salt base writes).foldl WalOp.apply f
    f'.salt = f.salt ∧ f'.frameCount = f.frameCount ∧ base + writes.length ≤ f'.size ∧
      (∀ k < base, f'.frames k = f.frames k) ∧
      ∀ k (hk : k < writes.length), f'.frames (base + k) = frameOfWrite salt writes[k] := by
  induction writes generalizing base f with
  | nil => exact ⟨rfl, rfl, h, fun _ _ => rfl, fun k hk => absurd hk (Nat.not_lt_zero k)⟩
  | cons w writes ih =>
      have hsize : base + 1 ≤ (f.writeFrame base (frameOfWrite salt w)).size :=
        le_max_right _ _
      obtain ⟨hsalt, hcount, hlen, hold, hnew⟩ := ih hsize
      refine ⟨hsalt, hcount, by rw [List.length_cons]; exact (by omega : _ ≤ _) |>.trans hlen, ?_, ?_⟩
      · intro k hk
        refine (hold k (by omega)).trans ?_
        simp only [WalFile.writeFrame]
        rw [if_neg (by omega), if_pos (by omega)]
      · intro k hk
        cases k with
        | zero =>
            refine (hold base (by omega)).trans ?_
            simp [WalFile.writeFrame]
        | succ k =>
            have := hnew k (by simpa using hk)
            rw [show base + (k + 1) = base + 1 + k by omega]
            exact this

theorem lookup_indexWrites {frames : Nat → Frame W} {salt : BitVec 64} {base : Nat}
    {writes : List (PageRef × Payload W)} {index : DynamicMap PageRef Nat}
    (hindex : ∀ ref, index.lookup ref = lastFrame frames base ref)
    (hframes : ∀ k (hk : k < writes.length), frames (base + k) = frameOfWrite salt writes[k])
    (ref : PageRef) :
    (indexWrites index base writes).lookup ref = lastFrame frames (base + writes.length) ref := by
  induction writes generalizing base index with
  | nil => exact hindex ref
  | cons w writes ih =>
      rw [indexWrites, List.length_cons, show base + (writes.length + 1) = base + 1 + writes.length by
        omega]
      refine ih (fun ref => ?_) fun k hk => ?_
      · have hhead := hframes 0 (by simp)
        rw [lastFrame, show frames base = frameOfWrite salt w by simpa using hhead]
        by_cases href : w.1 = ref
        · subst href
          rw [AList.lookup_insert, frameOfWrite, if_pos rfl]
        · rw [AList.lookup_insert_ne (Ne.symm href), hindex, frameOfWrite, if_neg href]
      · have := hframes (k + 1) (by simpa using hk)
        rw [show base + 1 + k = base + (k + 1) by omega]
        simpa using this

/-- The latest frame of a page among frames written for distinct pages. -/
theorem lastFrame_writes {frames : Nat → Frame W} {salt : BitVec 64} {base : Nat}
    {writes : List (PageRef × Payload W)} (hnodup : (writes.map Prod.fst).Nodup)
    (hframes : ∀ k (hk : k < writes.length), frames (base + k) = frameOfWrite salt writes[k])
    (ref : PageRef) :
    (∀ w ∈ writes, w.1 = ref → ∃ k, lastFrame frames (base + writes.length) ref = some k ∧
      frames k = frameOfWrite salt w) ∧
    ((∀ w ∈ writes, w.1 ≠ ref) →
      lastFrame frames (base + writes.length) ref = lastFrame frames base ref) := by
  induction writes using List.reverseRecOn with
  | nil => simp
  | append_singleton writes w ih =>
      have hlast : frames (base + writes.length) = frameOfWrite salt w := by
        simpa using hframes writes.length (by simp)
      rw [List.map_append, List.nodup_append] at hnodup
      obtain ⟨hold, hnone⟩ := ih hnodup.1 fun k hk => by
        have := hframes k (by simp; omega)
        rwa [List.getElem_append_left hk] at this
      rw [List.length_append, List.length_singleton, ← Nat.add_assoc, lastFrame, hlast,
        pageIdx_frameOfWrite]
      constructor
      · intro v hv href
        rcases List.mem_append.mp hv with hv | hv
        · have hne : w.1 ≠ ref := fun hw => hnodup.2.2 v.1 (List.mem_map_of_mem hv) w.1 (by simp)
            (href.trans hw.symm)
          rw [if_neg hne]
          exact hold v hv href
        · rw [List.mem_singleton] at hv
          subst hv
          rw [if_pos href]
          exact ⟨_, rfl, hlast⟩
      · intro hne
        rw [if_neg (hne w (by simp))]
        exact hnone fun v hv => hne v (by simp [hv])

/-! ### What a commit gathers -/

/-- If the page has a clean cache entry, that holds what is stored. -/
def CleanAt (p : Pager W) (i : Nat) : Prop :=
  ∀ entry, p.pageCache.lookup i = some entry → entry.dirty = false → p.load i = some entry.data

theorem mem_dirtyPages {p : Pager W} {idx : Nat} {data : Page W} :
    (idx, data) ∈ p.dirtyPages ↔
      p.pageCache.lookup idx = some ⟨data, true⟩ ∧ idx < p.header.pageCount := by
  rw [dirtyPages, List.mem_filterMap]
  constructor
  · rintro ⟨⟨i, ⟨data', dirty⟩⟩, hmem, h⟩
    dsimp only at h
    split at h
    · rename_i hcond
      cases h
      obtain rfl : dirty = true := hcond.1
      exact ⟨AList.mem_lookup_iff.mpr hmem, hcond.2⟩
    · cases h
  · rintro ⟨hlookup, hlt⟩
    refine ⟨⟨idx, ⟨data, true⟩⟩, AList.mem_lookup_iff.mp hlookup, ?_⟩
    dsimp only
    rw [if_pos ⟨rfl, hlt⟩]

theorem nodup_dirtyPages (p : Pager W) : (p.dirtyPages.map Prod.fst).Nodup := by
  have hsub : ∀ entries : List (Sigma fun _ : Nat => PageCacheEntry W),
      ((entries.filterMap fun e => if e.2.dirty ∧ e.1 < p.header.pageCount then
        some (e.1, e.2.data) else none).map Prod.fst).Sublist (entries.map Sigma.fst) := by
    intro entries
    induction entries with
    | nil => exact List.Sublist.slnil
    | cons e entries ih =>
        rw [List.filterMap_cons]
        split
        · exact ih.cons _
        · rename_i heq
          split at heq
          · cases heq
            exact ih.cons_cons _
          · cases heq
  exact (hsub p.pageCache.entries).nodup p.pageCache.nodupKeys

theorem mem_pageWrites {p : Pager W} {w : PageRef × Payload W} :
    w ∈ p.pageWrites ↔
      (∃ idx data, w = (.page idx, .page data) ∧ p.pageCache.lookup idx = some ⟨data, true⟩ ∧
        idx < p.header.pageCount) ∨
      (p.headerInWriteSet = true ∧ w = (.header, .header p.header)) := by
  rw [pageWrites, List.mem_append, List.mem_map]
  refine or_congr ?_ ?_
  · constructor
    · rintro ⟨⟨idx, data⟩, hmem, rfl⟩
      exact ⟨idx, data, rfl, mem_dirtyPages.mp hmem⟩
    · rintro ⟨idx, data, rfl, h⟩
      exact ⟨(idx, data), mem_dirtyPages.mpr h, rfl⟩
  · split <;> simp [*]

theorem nodup_pageWrites (p : Pager W) : (p.pageWrites.map Prod.fst).Nodup := by
  rw [pageWrites, List.map_append, List.map_map]
  refine List.nodup_append.mpr ⟨?_, ?_, ?_⟩
  · have : (Prod.fst ∘ fun w : Nat × Page W => ((PageRef.page w.1, Payload.page w.2) :
        PageRef × Payload W)) = PageRef.page ∘ Prod.fst := rfl
    rw [this, ← List.map_map]
    exact p.nodup_dirtyPages.map fun a b h => by cases h; rfl
  · split <;> simp
  · intro a ha b hb
    obtain ⟨w, -, rfl⟩ := List.mem_map.mp ha
    split at hb
    · obtain rfl : b = .header := by simpa using hb
      exact nofun
    · cases hb

/-! ### Appending what is gathered -/

/-- The operation leaves the first `n` frames and the frame count alone. -/
def WalOp.Beyond (n : Nat) : WalOp W → Prop
  | .resize k => n ≤ k
  | .writeFrame k _ => n ≤ k
  | .writeCount _ => False

theorem frameWrites_beyond (salt : BitVec 64) {base n : Nat} (h : n ≤ base)
    (writes : List (PageRef × Payload W)) : ∀ op ∈ frameWrites salt base writes, op.Beyond n := by
  induction writes generalizing base with
  | nil => exact nofun
  | cons w writes ih =>
      rw [frameWrites, List.forall_mem_cons]
      exact ⟨h, ih (Nat.le_succ_of_le h)⟩

theorem appendOps_apply {wal : Wal} {f : WalFile W} (h : wal.frameCount ≤ f.size)
    (writes : List (PageRef × Payload W)) :
    let f' := (appendOps wal writes).foldl WalOp.apply f
    wal.frameCount + writes.length ≤ f'.size ∧
      (∀ k < wal.frameCount, f'.frames k = f.frames k) ∧
      ∀ k (hk : k < writes.length), f'.frames (wal.frameCount + k) = frameOfWrite wal.salt writes[k] := by
  have hroom : wal.frameCount ≤ (f.resize (wal.frameCount + writes.length)).size :=
    Nat.le_add_right _ _
  obtain ⟨-, -, hsize, hold, hnew⟩ := @frameWrites_apply _ wal.salt wal.frameCount writes _ hroom
  refine ⟨hsize, fun k hk => (hold k hk).trans ?_, hnew⟩
  simp only [WalFile.resize]
  rw [if_pos ⟨by omega, by omega⟩]

theorem fits_pageWrites {p : Pager W} {w : PageRef × Payload W} (h : w ∈ p.pageWrites) :
    w.2.Fits w.1 := by
  rcases mem_pageWrites.mp h with ⟨idx, data, rfl, -⟩ | ⟨-, rfl⟩
  · exact ⟨data, rfl⟩
  · exact ⟨p.header, rfl⟩

/-- What `logWrites` does: `ops` are the operations it issues on the WAL file. -/
structure Logged (p : Pager W) (wal : Wal) (q : Pager W) (wal' : Wal) (ops : List (WalOp W)) :
    Prop where
  eq : q = { p.issueAll (ops.map .wal) with headerInWriteSet := false, wal := some wal' }
  beyond : ∀ op ∈ ops, op.Beyond wal.frameCount
  salt : wal'.salt = wal.salt
  ok : WalOk wal' q.files.wal
  page : ∀ i < p.header.pageCount, p.CleanAt i → ∀ data, p.content i = some data →
    q.files.stored wal'.frameCount i = some data
  header : q.files.storedHeader wal'.frameCount =
    if p.headerInWriteSet then some p.header else p.files.storedHeader wal.frameCount
  /-- What has no frame afterwards had none before and is not gathered. -/
  unlogged : ∀ ref, lastFrame q.files.wal.frames wal'.frameCount ref = none →
    lastFrame p.files.wal.frames wal.frameCount ref = none ∧ ∀ w ∈ p.pageWrites, w.1 ≠ ref
  idle : wal'.frameCount = 0 → wal.frameCount = 0 ∧ ops = []

theorem logWrites_spec {p : Pager W} {wal : Wal} (hwal : p.wal = some wal) (hok : p.StorageOk) :
    ∃ ops, Logged p wal (p.logWrites wal).1 (p.logWrites wal).2 ops := by
  have hwok := hok wal hwal
  have hload := load_eq_stored hok
  have hcount : p.frameCount = wal.frameCount := by rw [frameCount, hwal]
  rw [hcount] at hload
  -- a page that is not gathered is stored as it is read
  have hkept : ∀ i < p.header.pageCount, p.CleanAt i → ∀ data, p.content i = some data →
      (∀ w ∈ p.pageWrites, w.1 ≠ .page i) → p.files.stored wal.frameCount i = some data := by
    intro i hi hclean data hdata hnot
    rw [← hload]
    rw [content] at hdata
    cases hlookup : p.pageCache.lookup i with
    | none => rwa [hlookup] at hdata
    | some entry =>
        rw [hlookup] at hdata
        cases hdata
        obtain ⟨data, dirty⟩ := entry
        cases dirty with
        | false => exact hclean _ hlookup rfl
        | true =>
            exact absurd rfl (hnot (.page i, .page data)
              (mem_pageWrites.mpr (.inl ⟨i, data, rfl, hlookup, hi⟩)))
  rw [logWrites]
  by_cases hnil : p.pageWrites = []
  · have hset : p.headerInWriteSet = false := by
      by_contra hset
      have := mem_pageWrites.mpr (.inr ⟨by simpa using hset, rfl⟩ : _ ∨ _)
      rw [hnil] at this
      cases this
    rw [if_pos hnil]
    refine ⟨[], ?_, List.forall_mem_nil _, rfl, hwok, ?_, ?_,
      fun ref href => ⟨href, by rw [hnil]; exact List.forall_mem_nil _⟩,
      fun hzero => ⟨hzero, rfl⟩⟩
    · cases p
      simp_all [issueAll]
    · intro i hi hclean data hdata
      exact hkept i hi hclean data hdata (by rw [hnil]; exact List.forall_mem_nil _)
    · rw [hset]
      rfl
  · rw [if_neg hnil]
    obtain ⟨hsize, hold, hnew⟩ := appendOps_apply hwok.size p.pageWrites
    have hlast := lastFrame_writes p.nodup_pageWrites hnew
    have hbase : ∀ ref, lastFrame _ wal.frameCount ref =
        lastFrame p.files.wal.frames wal.frameCount ref := lastFrame_congr hold
    have hfiles : (p.issueAll ((appendOps wal p.pageWrites).map .wal)).files =
        { p.files with wal := (appendOps wal p.pageWrites).foldl WalOp.apply p.files.wal } := by
      rw [issueAll_files, foldl_walOps]
    refine ⟨appendOps wal p.pageWrites, rfl, ?_, rfl, ?_, ?_, ?_, ?_, ?_⟩
    · exact List.forall_mem_cons.mpr ⟨Nat.le_add_right _ _, frameWrites_beyond _ le_rfl _⟩
    · dsimp only
      rw [hfiles]
      refine ⟨hsize, fun k hk => ?_, fun ref => ?_⟩
      · by_cases hlt : k < wal.frameCount
        · exact (hold k hlt).symm ▸ hwok.valid k hlt
        · obtain ⟨j, rfl⟩ := Nat.exists_eq_add_of_le (Nat.le_of_not_lt hlt)
          have hj : j < p.pageWrites.length := by
            dsimp only at hk
            omega
          exact (hnew j hj).symm ▸ ⟨rfl, fits_pageWrites (List.getElem_mem hj)⟩
      · exact lookup_indexWrites (fun ref => (hwok.index ref).trans (hbase ref).symm) hnew ref
    · intro i hi hclean data hdata
      dsimp only
      rw [hfiles, Files.stored]
      by_cases hmem : ∃ w ∈ p.pageWrites, w.1 = .page i
      · obtain ⟨w, hw, href⟩ := hmem
        obtain ⟨k, hk, hframe⟩ := (hlast (.page i)).1 w hw href
        dsimp only
        rw [hk]
        dsimp only
        rw [hframe]
        rcases mem_pageWrites.mp hw with ⟨idx, data', rfl, hlookup, -⟩ | ⟨-, rfl⟩
        · cases href
          rw [content_of_cached hlookup] at hdata
          exact hdata
        · cases href
      · push Not at hmem
        have hnone := ((hlast (.page i)).2 hmem).trans (hbase (.page i))
        have := hkept i hi hclean data hdata hmem
        rw [Files.stored] at this
        dsimp only
        rw [hnone]
        cases hk : lastFrame p.files.wal.frames wal.frameCount (.page i) with
        | none =>
            rw [hk] at this
            exact this
        | some k =>
            rw [hk] at this
            dsimp only at this ⊢
            rw [hold k (lastFrame_lt hk).1]
            exact this
    · dsimp only
      rw [hfiles, Files.storedHeader, Files.storedHeader]
      cases hset : p.headerInWriteSet with
      | true =>
          obtain ⟨k, hk, hframe⟩ :=
            (hlast .header).1 _ (mem_pageWrites.mpr (.inr ⟨hset, rfl⟩)) rfl
          dsimp only
          rw [hk]
          dsimp only
          rw [hframe]
          rfl
      | false =>
          have hnot : ∀ w ∈ p.pageWrites, w.1 ≠ .header := by
            intro w hw
            rcases mem_pageWrites.mp hw with ⟨idx, data, rfl, -⟩ | ⟨hset', -⟩
            · exact PageRef.noConfusion
            · rw [hset] at hset'
              cases hset'
          have hnone := ((hlast .header).2 hnot).trans (hbase .header)
          dsimp only
          rw [hnone]
          cases hk : lastFrame p.files.wal.frames wal.frameCount .header with
          | none => rfl
          | some k =>
              dsimp only
              rw [hold k (lastFrame_lt hk).1]
              rfl
    · intro ref href
      dsimp only at href
      rw [hfiles] at href
      have hnot : ∀ w ∈ p.pageWrites, w.1 ≠ ref := by
        intro w hw heq
        obtain ⟨k, hk, -⟩ := (hlast ref).1 w hw heq
        exact Option.some_ne_none k (hk.symm.trans href)
      exact ⟨(hbase ref).symm.trans (((hlast ref).2 hnot).symm.trans href), hnot⟩
    · intro hzero
      exact absurd (List.length_eq_zero_iff.mp (Nat.eq_zero_of_add_eq_zero hzero).2) hnil

end Pager

end Plexdb
