import Plexdb.WalOpening

/-! Every file that commits of frames leave is loaded, and a file that is not loaded costs the database. -/

namespace Plexdb.WalBytes

open Plexdb.Pager (MainFile MainOp PageRef Payload PageCacheEntry DynamicMap ValidFrame)

variable {W : Nat}

/-! ### The file of a committed log -/

theorem headerOf_congr {m m' : Memory} (h : ∀ k < pagerHeaderBytes, m k = m' k) : headerOf W m = headerOf W m' := by
  have hword {i : Nat} (hi : i < 4) : m.word (8 * i) = m'.word (8 * i) :=
    Memory.word_congr fun k hk => h _ (by rw [pagerHeaderBytes]; omega)
  have h0 : m.word 0 = m'.word 0 := hword (i := 0) (by omega)
  have h1 : m.word 8 = m'.word 8 := hword (i := 1) (by omega)
  have h2 : m.word 16 = m'.word 16 := hword (i := 2) (by omega)
  have h3 : m.word 24 = m'.word 24 := hword (i := 3) (by omega)
  rw [headerOf, headerOf, h0, h1, h2, h3]

theorem decodeFrame_congr {h : Header} {frame : Frame} {m m' : Memory} (hpage : h.pageSize = pageBytes W)
    (heq : ∀ k < h.contentSize frame.pageIdx, m k = m' k) : decodeFrame W frame m = decodeFrame W frame m' := by
  rw [decodeFrame, decodeFrame]
  rw [Header.contentSize, hpage] at heq
  by_cases hheader : frame.pageIdx = headerFrameIdx
  · rw [if_pos hheader] at heq ⊢
    rw [if_pos hheader, headerOf_congr heq]
  · rw [if_neg hheader] at heq ⊢
    rw [if_neg hheader, pageOf_congr heq]

/-- The frame of a write, as it is loaded. -/
def loadedFrame (W : Nat) (h : Header) (w : PageWrite) : Pager.Frame W :=
  (decodeFrame W (h.frameOf w) w.data).getD ⟨.page 0, 0, .page Page.zero⟩

/-- A header frame that can be read back: it carries a header of the pager, and its bytes are all in the file. -/
def HeaderReadable (W : Nat) (io : Io) (frames : List PageWrite) (i : Nat) (w : PageWrite) : Prop :=
  (headerOf W w.data).isSome ∧ (i + 1 < frames.length ∨ headerBytes ≤ pageBytes W ∨ io = .async)

/-- The frames of a log, as they are loaded. -/
def Log.loaded (W : Nat) (l : Log) (i : Nat) : Pager.Frame W :=
  loadedFrame W l.wal.header (l.frames.getD i ⟨0, Memory.zero⟩)

theorem Loads.of_log {l : Log} {io : Io} {wal : Wal} (hW : 4 ≤ W) (hbound : pageBytes W < 2 ^ 64) (hl : l.Holds)
    (hn : l.Named) (hmagic : l.wal.header.magic = magic) (hpage : l.wal.header.pageSize = pageBytes W)
    (hcommit : l.wal.commit = some wal)
    (hheaders : ∀ i w, l.frames[i]? = some w → w.pageIdx = headerFrameIdx → HeaderReadable W io l.frames i w) :
    Loads W io wal.file wal (l.loaded W) := by
  have hstep : l.step .commit = some ⟨wal, l.frames⟩ := by
    rw [Log.step, hcommit]
    rfl
  have hl' := hl.step hstep
  have hn' := hn.step hstep
  rw [Wal.commit] at hcommit
  split at hcommit
  swap
  · cases hcommit
  cases hcommit
  have hofMemory : Header.ofMemory l.wal.writeFrameCount.file.byte = l.wal.header := by
    refine Header.ofMemory_of_bytes (hpage ▸ hbound) hn.count fun k hk => ?_
    by_cases hlow : k < frameCountOffset
    · exact hn'.byte k hlow
    · have hoff : frameCountOffset + 8 = headerBytes := rfl
      obtain ⟨j, rfl⟩ := Nat.exists_eq_add_of_le (Nat.le_of_not_lt hlow)
      have hj : j < 8 := by omega
      refine (File.byte_write_of_mem hj).trans ?_
      have hdiv' : (frameCountOffset + j) / 8 = 4 := by
        rw [frameCountOffset]
        omega
      have hmod : (frameCountOffset + j) % 8 = j % 8 := by
        rw [frameCountOffset]
        omega
      rw [Header.memory, Memory.ofWords, Memory.ofWords, hdiv', hmod]
      rfl
  constructor
  · rw [Wal.tryLoad, if_neg (Nat.not_lt.mpr hn'.size)]
    dsimp only
    rw [hofMemory, if_neg (not_not.mpr hmagic), if_neg (not_not.mpr hpage)]
    rfl
  · intro i hi dst
    have hlt : i < l.frames.length := hl.count ▸ hi
    have hw := List.getElem?_eq_getElem hlt
    have hsize : pagerHeaderBytes ≤ l.wal.header.pageSize := by
      rw [hpage, pagerHeaderBytes, pageBytes]
      omega
    obtain ⟨out, hout, hbytes⟩ := (hl'.readsBack_iff hsize hw io dst).mpr fun hheader =>
      hpage ▸ (hheaders i _ hw hheader).2
    refine ⟨_, out, hout, ?_⟩
    have hdecode : decodeFrame W (l.wal.header.frameOf l.frames[i]) out =
        decodeFrame W (l.wal.header.frameOf l.frames[i]) l.frames[i].data :=
      decodeFrame_congr hpage hbytes
    have hsome : (decodeFrame W (l.wal.header.frameOf l.frames[i]) l.frames[i].data).isSome := by
      rw [decodeFrame]
      by_cases hheader : l.frames[i].pageIdx = headerFrameIdx
      · have hhead : (l.wal.header.frameOf l.frames[i]).pageIdx = headerFrameIdx := hheader
        rw [if_pos hhead, Option.isSome_map]
        exact (hheaders i _ hw hheader).1
      · have hhead : (l.wal.header.frameOf l.frames[i]).pageIdx ≠ headerFrameIdx := hheader
        rw [if_neg hhead]
        rfl
    obtain ⟨f, hf⟩ := Option.isSome_iff_exists.mp hsome
    have hloaded : l.loaded W i = f := by
      rw [Log.loaded, List.getD_eq_getElem _ _ hlt, loadedFrame, hf, Option.getD_some]
    rw [hloaded]
    exact hdecode.trans hf

/-! ### A file that is not loaded -/

/-- With the empty header of the WAL, a checkpoint of a header resizes the main file to nothing. -/
theorem BytePager.checkpoint_empties {s : BytePager W} (hpage : s.wal.header.pageSize = 0)
    (hindex : ∀ e ∈ s.walIndex.entries, e.1 = PageRef.header) (scratch : Memory) :
    ∃ s', s.checkpoint scratch = some s' ∧ s'.main.size = 0 ∧ s'.wal.header.pageSize = 0 ∧ s'.walIndex = ∅ := by
  have hwrite : ∀ e ∈ s.walIndex.entries, ∃ op : MainOp W,
      s.checkpointWrite scratch e.1 e.2 = some [op] ∧ some op = some op := by
    intro e he
    refine ⟨.writeHeader s.header, ?_, rfl⟩
    rw [hindex e he]
    rfl
  obtain ⟨writes, hwrites⟩ : ∃ writes,
      (s.walIndex.entries.mapM fun e => s.checkpointWrite scratch e.1 e.2) = some writes := by
    obtain ⟨ops, hops, -⟩ : ∃ ops : List (MainOp W),
        (s.walIndex.entries.mapM fun e => s.checkpointWrite scratch e.1 e.2) = some (ops.map ([·])) ∧
        (s.walIndex.entries.mapM fun _ => some (MainOp.writeHeader s.header)) = some ops :=
      mapM_singletons fun e he => ⟨.writeHeader s.header, by rw [hindex e he]; rfl, rfl⟩
    exact ⟨_, hops⟩
  refine ⟨{ s with
    main := (writes.flatten.foldl MainOp.apply s.main).resize 0
    wal := s.wal.reset
    walIndex := ∅
    walTransactionCount := 0 }, ?_, rfl, hpage, rfl⟩
  rw [checkpoint, hwrites, hpage, Nat.mul_zero, Nat.zero_div]
  rfl

theorem BytePager.logWrites_eq_some {s s' : BytePager W} {buffer : Memory} (h : s.logWrites buffer = some s') :
    s'.wal.header = { s.wal.header with frameCount := s.wal.header.frameCount + s.view.pageWrites.length } ∧
      s'.walIndex = Pager.indexWrites s.walIndex s.wal.header.frameCount s.view.pageWrites := by
  rw [logWrites] at h
  by_cases hnil : s.view.pageWrites = []
  · rw [if_pos hnil] at h
    cases h
    rw [hnil]
    exact ⟨rfl, rfl⟩
  · rw [if_neg hnil] at h
    obtain ⟨wal, hwal, h⟩ : ∃ wal, s.wal.appendFrames (s.view.pageWrites.map pageWrite) buffer = some wal ∧ _ :=
      Option.bind_eq_some_iff.mp h
    cases h
    have hheader := (appendFrames_eq_some (mt List.map_eq_nil_iff.mp hnil) hwal).1
    rw [List.length_map] at hheader
    exact ⟨hheader, rfl⟩

/-- A commit of nothing but the header, with the empty header of the WAL. -/
theorem BytePager.commit_header {s : BytePager W} (hactive : s.transactionActive = true)
    (hwrites : s.view.pageWrites = [(.header, .header s.header)]) (hheader : s.wal.header = Header.empty)
    (hindex : s.walIndex = ∅) (buffer scratch : Memory) :
    ∃ s', s.commit buffer scratch = some s' ∧ s'.transactionActive = false ∧ s'.wal.header.pageSize = 0 ∧
      ∀ e ∈ s'.walIndex.entries, e.1 = PageRef.header := by
  have hroom : s.wal.header.frameOffset (s.wal.header.frameCount + s.view.pageWrites.length) < 2 ^ 63 := by
    rw [hwrites, hheader, List.length_singleton]
    decide
  obtain ⟨s₁, hs₁⟩ := s.exists_logWrites buffer hroom
  obtain ⟨hwal, hidx⟩ := logWrites_eq_some hs₁
  rw [hwrites, hheader, List.length_singleton] at hwal
  rw [hwrites, hindex] at hidx
  have hcount : 0 < s₁.wal.header.frameCount := by
    rw [hwal]
    decide
  have hpage : s₁.counted.wal.header.pageSize = 0 := by
    change s₁.wal.header.pageSize = 0
    rw [hwal]
    rfl
  have hentries : ∀ e ∈ s₁.counted.walIndex.entries, e.1 = PageRef.header := by
    intro e he
    change e ∈ s₁.walIndex.entries at he
    rw [hidx] at he
    exact congrArg Sigma.fst (List.mem_singleton.mp he)
  rw [commit, if_pos hactive, hs₁, Option.bind_some, if_pos hcount, checkpointIfDue]
  by_cases hdue : s₁.counted.checkpointInterval ≤ s₁.counted.walTransactionCount
  · obtain ⟨s₂, hs₂, -, hpage₂, hindex₂⟩ := checkpoint_empties hpage hentries scratch
    rw [if_pos hdue, hs₂]
    refine ⟨_, rfl, rfl, hpage₂, fun e he => ?_⟩
    change e ∈ s₂.walIndex.entries at he
    rw [hindex₂] at he
    cases he
  · rw [if_neg hdue]
    exact ⟨_, rfl, rfl, hpage, hentries⟩

namespace BytePager

def begun (p : BytePager W) : BytePager W := { p with savedHeader := p.header, transactionActive := true }

def rooted (p : BytePager W) (root : Nat) : BytePager W :=
  { p with header := { p.header with rootPage := root }, headerInWriteSet := true }

end BytePager

theorem Session.step_begin {s : Session W} (hidle : s.pager.transactionActive = false)
    (hfits : s.pager.header.pageCount * pageBytes W < 2 ^ 63) (scratch : Memory × Memory) :
    s.step (.begin, scratch) = some { s with pager := s.pager.begun } := by
  have hbegin : s.pager.view.begin = some s.pager.begun.view := by
    have hidle' : ¬ s.pager.view.transactionActive = true := Bool.eq_false_iff.mp hidle
    rw [Plexdb.Pager.begin, if_neg hidle']
    rfl
  have hstep : s.written.step .begin = some ⟨⟨s.pager.begun.view, s.live, s.committed⟩, s.last⟩ := by
    change ((s.pager.view.begin.map fun p =>
      { s.written.sys with pager := p }).map fun sys => (⟨sys, s.last⟩ : Plexdb.Pager.Written W)) = _
    rw [hbegin]
    rfl
  have habsorb : s.pager.absorb s.pager.begun.view = some s.pager.begun := if_pos hfits
  change ((s.written.step .begin).bind fun w => (s.pager.absorb w.sys.pager).bind fun p => _) = _
  rw [hstep, Option.bind_some, habsorb]
  rfl

theorem Session.step_setRoot {s : Session W} (hactive : s.pager.transactionActive = true)
    (hfits : s.pager.header.pageCount * pageBytes W < 2 ^ 63) (root : Nat) (scratch : Memory × Memory) :
    s.step (.tx (.setRoot root), scratch) = some { s with pager := s.pager.rooted root } := by
  have hroot : s.pager.view.setRoot root = some (s.pager.rooted root).view := by
    have hactive' : s.pager.view.transactionActive = true := hactive
    rw [Plexdb.Pager.setRoot, if_pos hactive']
    rfl
  have hstep : s.written.step (.tx (.setRoot root)) =
      some ⟨⟨(s.pager.rooted root).view, s.live, s.committed⟩, s.last⟩ := by
    change (((s.pager.view.setRoot root).map fun p =>
      { s.written.sys with pager := p }).map fun sys => (⟨sys, s.last⟩ : Plexdb.Pager.Written W)) = _
    rw [hroot]
    rfl
  have habsorb : s.pager.absorb (s.pager.rooted root).view = some (s.pager.rooted root) := if_pos hfits
  change ((s.written.step (.tx (.setRoot root))).bind fun w => (s.pager.absorb w.sys.pager).bind fun p => _) = _
  rw [hstep, Option.bind_some, habsorb]
  rfl

theorem Session.step_commit {s : Session W} {buffer scratch : Memory} {p : BytePager W}
    (hp : s.pager.commit buffer scratch = some p) : s.step (.commit, buffer, scratch) =
      some { s with pager := p, committed := ⟨s.pager.header, s.live, s.pager.view.content⟩ } := by
  rw [Session.step, hp]
  rfl

theorem Session.step_checkpoint {s : Session W} {buffer scratch : Memory} {p : BytePager W}
    (hidle : s.pager.transactionActive = false) (hp : s.pager.checkpoint scratch = some p) :
    s.step (.checkpoint, buffer, scratch) = some { s with pager := p } := by
  rw [Session.step, if_neg (Bool.eq_false_iff.mp hidle), hp]
  rfl

/-- Where `try_load` answers false, setting the root and a checkpoint leave no page of the database. -/
theorem loses_database {main : MainFile W} {file : File} (hload : Wal.tryLoad file (pageBytes W) = none)
    (hfits : main.header.pageCount * pageBytes W < 2 ^ 63) (io : Io) (checkpointInterval : Nat) (buf : Memory)
    (live : Finset Nat) (last : Nat → Page W) (root : Nat) (scratch : Memory) :
    ∃ s, BytePager.init io main file checkpointInterval buf = some s ∧
      ∃ t, Run Session.step (fun _ op => op.1.noRollback = true) (Session.start s live last)
        [(.begin, scratch, scratch), (.tx (.setRoot root), scratch, scratch), (.commit, scratch, scratch),
          (.checkpoint, scratch, scratch)] t ∧ t.pager.main.size = 0 := by
  have hinit : BytePager.init io main file checkpointInterval buf =
      some (BytePager.opened io main file checkpointInterval) := by
    rw [BytePager.init, BytePager.maybeRecoverWal]
    have hload' : Wal.tryLoad (BytePager.opened io main file checkpointInterval).wal.file (pageBytes W) = none := hload
    rw [hload']
  refine ⟨_, hinit, ?_⟩
  have hbegin := Session.step_begin (s := Session.start (BytePager.opened io main file checkpointInterval) live last)
    rfl hfits (scratch, scratch)
  have hroot := Session.step_setRoot
    (s := { Session.start (BytePager.opened io main file checkpointInterval) live last with
      pager := (BytePager.opened io main file checkpointInterval).begun })
    rfl hfits root (scratch, scratch)
  obtain ⟨p, hp, hinactive, hpage, hindex⟩ :=
    BytePager.commit_header (s := (BytePager.opened io main file checkpointInterval).begun.rooted root)
      rfl rfl rfl rfl scratch scratch
  obtain ⟨q, hq, hsize, -, -⟩ := BytePager.checkpoint_empties hpage hindex scratch
  exact ⟨_, .cons rfl hbegin (.cons rfl hroot (.cons rfl (Session.step_commit hp)
    (.single rfl (Session.step_checkpoint hinactive hq)))), hsize⟩

end Plexdb.WalBytes
