import Plexdb.PagerStorage

/-! Checkpoints and commits: every page below the page count is stored afterwards as the transaction
read it, and the header as it was left. -/

namespace Plexdb

open Pager

variable {W : Nat}

namespace Pager

/-! ### Writes to the main file -/

/-- The operation does not take the content `data` from page `idx`. -/
def MainOp.Spares (idx : Nat) (data : Page W) : MainOp W → Prop
  | .resize n => idx < n
  | .writePage j x => j = idx → x = data
  | .writeHeader _ => True

theorem readPage_of_spares {m : MainFile W} {idx : Nat} {data : Page W} {ops : List (MainOp W)}
    (h : m.readPage idx = some data) (hops : ∀ op ∈ ops, op.Spares idx data) :
    (ops.foldl MainOp.apply m).readPage idx = some data := by
  induction ops generalizing m with
  | nil => exact h
  | cons op ops ih =>
      obtain ⟨hop, hops⟩ := List.forall_mem_cons.mp hops
      refine ih ?_ hops
      cases op with
      | resize n =>
          have hlt : idx < n := hop
          rw [MainOp.apply, MainFile.readPage_resize, h, if_pos hlt]
          rfl
      | writePage j x =>
          rw [MainOp.apply, MainFile.readPage_writePage]
          have hlt : idx < m.size := by
            by_contra hge
            rw [MainFile.readPage, if_neg hge] at h
            cases h
          by_cases hj : idx = j
          · rw [if_pos hj, hop hj.symm]
          · rw [if_neg hj, if_pos hlt, h]
      | writeHeader g =>
          rw [MainFile.readPage] at h
          split at h
          · rename_i hlt
            cases h
            rw [MainOp.apply, MainFile.readPage, MainFile.writeHeader, if_pos (by dsimp only; omega)]
          · cases h

theorem readPage_of_written {m : MainFile W} {idx : Nat} {data : Page W} {ops : List (MainOp W)}
    (h : .writePage idx data ∈ ops) (hops : ∀ op ∈ ops, op.Spares idx data) :
    (ops.foldl MainOp.apply m).readPage idx = some data := by
  induction ops generalizing m with
  | nil => cases h
  | cons op ops ih =>
      obtain ⟨-, htail⟩ := List.forall_mem_cons.mp hops
      rcases List.mem_cons.mp h with heq | hmem
      · rw [List.foldl_cons]
        refine readPage_of_spares ?_ htail
        rw [← heq, MainOp.apply, MainFile.readPage_writePage, if_pos rfl]
      · exact ih hmem htail

/-- The operation writes no other header than `h`. -/
def MainOp.KeepsHeader (h : Header) : MainOp W → Prop
  | .writeHeader g => g = h
  | _ => True

theorem header_of_keeps {m : MainFile W} {h : Header} {ops : List (MainOp W)}
    (hops : ∀ op ∈ ops, op.KeepsHeader h) (hm : m.header = h ∨ .writeHeader h ∈ ops) :
    (ops.foldl MainOp.apply m).header = h := by
  induction ops generalizing m with
  | nil => simpa using hm
  | cons op ops ih =>
      obtain ⟨hop, htail⟩ := List.forall_mem_cons.mp hops
      refine ih htail ?_
      cases op with
      | resize n => exact hm.imp id fun hm => by simpa using hm
      | writePage j x => exact hm.imp id fun hm => by simpa using hm
      | writeHeader g => exact .inl hop

/-! ### Checkpoints -/

theorem mem_of_mapM {α β : Type} {f : α → Option β} {xs : List α} {ys : List β}
    (h : xs.mapM f = some ys) :
    (∀ y ∈ ys, ∃ x ∈ xs, f x = some y) ∧ ∀ x ∈ xs, ∃ y ∈ ys, f x = some y := by
  induction xs generalizing ys with
  | nil =>
      cases h
      exact ⟨nofun, nofun⟩
  | cons x xs ih =>
      rw [List.mapM_cons] at h
      obtain ⟨y, hy, h⟩ := Option.bind_eq_some_iff.mp h
      obtain ⟨ys, hys, h⟩ := Option.bind_eq_some_iff.mp h
      cases h
      obtain ⟨hback, hforth⟩ := ih hys
      refine ⟨List.forall_mem_cons.mpr ⟨⟨x, List.mem_cons_self, hy⟩, fun b hb => ?_⟩,
        List.forall_mem_cons.mpr ⟨⟨y, List.mem_cons_self, hy⟩, fun a ha => ?_⟩⟩
      · obtain ⟨a, ha, hab⟩ := hback b hb
        exact ⟨a, List.mem_cons_of_mem _ ha, hab⟩
      · obtain ⟨b, hb, hab⟩ := hforth a ha
        exact ⟨b, List.mem_cons_of_mem _ hb, hab⟩

/-- The I/O of a checkpoint whose page and header writes are `writes`. -/
def checkpointOps (writes : List (MainOp W)) (pageCount : Nat) : List (IoOp W) :=
  writes.map .main ++ [.main (.resize pageCount), .syncMain, .wal (.writeCount 0), .syncWal]

/-- What a checkpoint does: `writes` are its page and header writes. -/
structure Checkpointed (p : Pager W) (wal : Wal) (q : Pager W) (writes : List (MainOp W)) : Prop where
  eq : q = { p.issueAll (checkpointOps writes p.header.pageCount) with
    wal := some { wal with frameCount := 0, walIndex := ∅ }, walTransactionCount := 0 }
  spares : ∀ op ∈ writes, ∀ i data, p.load i = some data →
    (∀ entry, p.pageCache.lookup i = some entry → entry.data = data) → op.Spares i data
  keeps : ∀ op ∈ writes, op.KeepsHeader p.header
  page : ∀ i data, (wal.walIndex.lookup (.page i)).isSome → p.load i = some data →
    (∀ entry, p.pageCache.lookup i = some entry → entry.data = data) → .writePage i data ∈ writes
  header : (wal.walIndex.lookup .header).isSome → .writeHeader p.header ∈ writes

theorem checkpointWrite_page {p : Pager W} {wal : Wal} (hwal : p.wal = some wal) {i frameIdx : Nat}
    {op : MainOp W} (hindex : wal.walIndex.lookup (.page i) = some frameIdx)
    (h : p.checkpointWrite wal (.page i) frameIdx = some op) :
    ∃ data, op = .writePage i data ∧ (p.content i = some data) := by
  rw [checkpointWrite] at h
  cases hlookup : p.pageCache.lookup i with
  | some entry =>
      rw [hlookup] at h
      cases h
      exact ⟨_, rfl, content_of_cached hlookup⟩
  | none =>
      rw [hlookup] at h
      obtain ⟨data, hdata, rfl⟩ := Option.map_eq_some_iff.mp h
      refine ⟨data, rfl, ?_⟩
      rw [content_of_not_cached hlookup, load, frameOf, hwal]
      dsimp only
      rw [hindex]
      exact hdata

theorem content_of_agrees {p : Pager W} {i : Nat} {data : Page W} (hload : p.load i = some data)
    (hcache : ∀ entry, p.pageCache.lookup i = some entry → entry.data = data) :
    p.content i = some data := by
  cases hlookup : p.pageCache.lookup i with
  | some entry => rw [content_of_cached hlookup, hcache entry hlookup]
  | none => rw [content_of_not_cached hlookup, hload]

theorem checkpoint_spec {p q : Pager W} (h : p.checkpoint = some q) :
    ∃ wal writes, p.wal = some wal ∧ Checkpointed p wal q writes := by
  rw [checkpoint] at h
  cases hwal : p.wal with
  | none =>
      rw [hwal] at h
      cases h
  | some wal =>
      rw [hwal] at h
      obtain ⟨writes, hwrites, h⟩ := Option.bind_eq_some_iff.mp h
      obtain ⟨hback, hforth⟩ := mem_of_mapM hwrites
      have hentry : ∀ op ∈ writes, op = .writeHeader p.header ∨
          ∃ i data, op = .writePage i data ∧ p.content i = some data := by
        intro op hop
        obtain ⟨⟨ref, frameIdx⟩, hmem, hop⟩ := hback op hop
        cases ref with
        | header =>
            cases hop
            exact .inl rfl
        | page i =>
            obtain ⟨data, rfl, hdata⟩ :=
              checkpointWrite_page hwal (AList.mem_lookup_iff.mpr hmem) hop
            exact .inr ⟨i, data, rfl, hdata⟩
      refine ⟨wal, writes, rfl, ?_, ?_, ?_, ?_, ?_⟩
      · cases h
        rfl
      · intro op hop i data hload hcache
        rcases hentry op hop with rfl | ⟨j, x, rfl, hx⟩
        · trivial
        · rintro rfl
          rw [content_of_agrees hload hcache] at hx
          exact (Option.some.inj hx).symm
      · intro op hop
        rcases hentry op hop with rfl | ⟨j, x, rfl, -⟩
        · rfl
        · trivial
      · intro i data hsome hload hcache
        obtain ⟨frameIdx, hindex⟩ := Option.isSome_iff_exists.mp hsome
        obtain ⟨op, hop, hwrite⟩ := hforth ⟨.page i, frameIdx⟩ (AList.mem_lookup_iff.mp hindex)
        obtain ⟨x, rfl, hx⟩ := checkpointWrite_page hwal hindex hwrite
        rw [content_of_agrees hload hcache] at hx
        cases hx
        exact hop
      · intro hsome
        obtain ⟨frameIdx, hindex⟩ := Option.isSome_iff_exists.mp hsome
        obtain ⟨op, hop, hwrite⟩ := hforth ⟨.header, frameIdx⟩ (AList.mem_lookup_iff.mp hindex)
        cases hwrite
        exact hop

/-- The pager after `checkpoint` stores every page below the page count as before. -/
theorem Checkpointed.load_eq {p q : Pager W} {wal : Wal} {writes : List (MainOp W)}
    (h : Checkpointed p wal q writes) (hwal : p.wal = some wal) {i : Nat} {data : Page W}
    (hi : i < p.header.pageCount) (hload : p.load i = some data)
    (hcache : ∀ entry, p.pageCache.lookup i = some entry → entry.data = data) :
    q.load i = some data := by
  have hmain : q.files.main =
      (writes ++ [MainOp.resize p.header.pageCount]).foldl MainOp.apply p.files.main := by
    rw [h.eq, issueAll_files, checkpointOps, List.foldl_append, foldl_mainOps, List.foldl_append]
    rfl
  have hspares : ∀ op ∈ writes ++ [.resize p.header.pageCount], op.Spares i data := by
    intro op hop
    rcases List.mem_append.mp hop with hop | hop
    · exact h.spares op hop i data hload hcache
    · rw [List.mem_singleton.mp hop]
      exact hi
  have hframe : q.frameOf i = none := by
    rw [h.eq]
    rfl
  rw [load, hframe]
  dsimp only
  rw [hmain]
  cases hindex : wal.walIndex.lookup (.page i) with
  | some k =>
      refine readPage_of_written (List.mem_append_left _ ?_) hspares
      exact h.page i data (by rw [hindex]; rfl) hload hcache
  | none =>
      refine readPage_of_spares ?_ hspares
      rw [load, frameOf, hwal] at hload
      dsimp only at hload
      rw [hindex] at hload
      exact hload

/-! ### Commits -/

theorem commit_cases {p p' : Pager W} (h : p.commit = some p') (hok : p.StorageOk) :
    p.transactionActive = true ∧
      ((p.wal = none ∧ p' = p.commitNoWal.finishTransaction) ∨
        ∃ wal q wal' ops, p.wal = some wal ∧ Logged p wal q wal' ops ∧
          ((wal'.frameCount = 0 ∧ p' = q.finishTransaction) ∨
            (0 < wal'.frameCount ∧ p' = (q.counted wal').finishTransaction) ∨
            (0 < wal'.frameCount ∧ ∃ r writes, Checkpointed (q.counted wal') wal' r writes ∧
              p' = r.finishTransaction))) := by
  rw [commit] at h
  split at h
  · rename_i hactive
    refine ⟨hactive, ?_⟩
    cases hwal : p.wal with
    | none =>
        rw [hwal] at h
        cases h
        exact .inl ⟨rfl, rfl⟩
    | some wal =>
        rw [hwal] at h
        obtain ⟨ops, hlogged⟩ := logWrites_spec hwal hok
        refine .inr ⟨wal, _, _, ops, rfl, hlogged, ?_⟩
        dsimp only at h
        split at h
        · rename_i hpos
          obtain ⟨r, hr, rfl⟩ := Option.map_eq_some_iff.mp h
          rw [checkpointIfDue] at hr
          split at hr
          · obtain ⟨wal'', writes, hwal'', hcheck⟩ := checkpoint_spec hr
            have hq : ((p.logWrites wal).1.counted (p.logWrites wal).2).wal =
                some (p.logWrites wal).2 := by
              rw [hlogged.eq, counted, issueAll_files]
            obtain rfl := Option.some.inj (hq.symm.trans hwal'')
            exact .inr (.inr ⟨hpos, r, writes, hcheck, rfl⟩)
          · cases hr
            exact .inr (.inl ⟨hpos, rfl⟩)
        · cases h
          exact .inl ⟨by omega, rfl⟩
  · cases h

theorem load_commitNoWal {p : Pager W} (hwal : p.wal = none) {i : Nat} {data : Page W}
    (hi : i < p.header.pageCount) (hclean : p.CleanAt i) (hdata : p.content i = some data) :
    p.commitNoWal.load i = some data := by
  have hmain : p.commitNoWal.files.main =
      (p.pageWrites.map p.flushOp ++ [MainOp.resize p.header.pageCount]).foldl MainOp.apply
        p.files.main := by
    rw [commitNoWal, issueAll_files, List.foldl_append, foldl_mainOps, List.foldl_append]
    rfl
  have hspares : ∀ op ∈ p.pageWrites.map p.flushOp ++ [MainOp.resize p.header.pageCount],
      op.Spares i data := by
    intro op hop
    rcases List.mem_append.mp hop with hop | hop
    · obtain ⟨w, hw, rfl⟩ := List.mem_map.mp hop
      rcases mem_pageWrites.mp hw with ⟨idx, x, rfl, hlookup, -⟩ | ⟨-, rfl⟩
      · rintro rfl
        rw [content_of_cached hlookup] at hdata
        exact Option.some.inj hdata
      · trivial
    · rw [List.mem_singleton.mp hop]
      exact hi
  have hframe : ∀ q : Pager W, q.wal = none → q.load i = q.files.main.readPage i := by
    intro q hq
    rw [load, frameOf, hq]
  rw [hframe _ (by rw [commitNoWal, issueAll_files]; exact hwal), hmain]
  cases hlookup : p.pageCache.lookup i with
  | none =>
      rw [content_of_not_cached hlookup, hframe p hwal] at hdata
      exact readPage_of_spares hdata hspares
  | some entry =>
      obtain ⟨x, dirty⟩ := entry
      rw [content_of_cached hlookup] at hdata
      cases hdata
      cases dirty with
      | false => exact readPage_of_spares (hframe p hwal ▸ hclean _ hlookup rfl) hspares
      | true =>
          refine readPage_of_written (List.mem_append_left _ ?_) hspares
          exact List.mem_map.mpr ⟨(.page i, .page x),
            mem_pageWrites.mpr (.inl ⟨i, x, rfl, hlookup, hi⟩), rfl⟩

/-- The I/O of a commit that appends frames by `ops` and leaves `n` of them. -/
def commitOps (ops : List (WalOp W)) (n : Nat) : List (IoOp W) :=
  ops.map .wal ++ [.syncWal, .wal (.writeCount n), .syncWal]

theorem counted_eq (p : Pager W) (wal : Wal) :
    p.counted wal = { p with
      files := { p.files with wal := { p.files.wal with frameCount := wal.frameCount } }
      issued := p.issued ++ [.syncWal, .wal (.writeCount wal.frameCount), .syncWal]
      walTransactionCount := p.walTransactionCount + 1 } := by
  rw [counted, issueAll_files]
  rfl

/-- What a commit comes to. -/
structure CommitDone (p p' : Pager W) : Prop where
  inactive : p'.transactionActive = false
  empty : p'.pageCache = ∅
  header_written : p'.headerInWriteSet = false
  header_eq : p'.header = p.header
  ok : p'.StorageOk
  page : ∀ i < p.header.pageCount, p.CleanAt i → ∀ data, p.content i = some data →
    p'.load i = some data

theorem Logged.load_eq {p q : Pager W} {wal wal' : Wal} {ops : List (WalOp W)}
    (h : Logged p wal q wal' ops) {i : Nat} {data : Page W} (hi : i < p.header.pageCount)
    (hclean : p.CleanAt i) (hdata : p.content i = some data) : q.load i = some data := by
  have hq : q.wal = some wal' := by rw [h.eq]
  have hok : q.StorageOk := by
    intro w hw
    obtain rfl := Option.some.inj (hq.symm.trans hw)
    exact h.ok
  have hcount : q.frameCount = wal'.frameCount := by rw [frameCount, hq]
  rw [load_eq_stored hok, hcount]
  exact h.page i hi hclean data hdata

theorem Logged.pageCache_eq {p q : Pager W} {wal wal' : Wal} {ops : List (WalOp W)}
    (h : Logged p wal q wal' ops) : q.pageCache = p.pageCache := by
  rw [h.eq, issueAll_files]

theorem Logged.cache_agrees {p q : Pager W} {wal wal' : Wal} {ops : List (WalOp W)}
    (h : Logged p wal q wal' ops) {i : Nat} {data : Page W} (hdata : p.content i = some data) :
    ∀ entry, q.pageCache.lookup i = some entry → entry.data = data := by
  intro entry hlookup
  rw [h.pageCache_eq] at hlookup
  rw [content_of_cached hlookup] at hdata
  exact Option.some.inj hdata

theorem commit_spec {p p' : Pager W} (h : p.commit = some p') (hok : p.StorageOk) :
    CommitDone p p' := by
  obtain ⟨-, ⟨hwal, rfl⟩ | ⟨wal, q, wal', ops, hwal, hlogged, hcases⟩⟩ := commit_cases h hok
  · refine ⟨rfl, rfl, rfl, ?_, ?_, fun i hi hclean data hdata =>
      load_commitNoWal hwal hi hclean hdata⟩
    · rw [finishTransaction, commitNoWal, issueAll_files]
    · intro w hw
      rw [finishTransaction, commitNoWal, issueAll_files] at hw
      exact absurd (hwal.symm.trans hw) nofun
  · have hq : q.wal = some wal' := by rw [hlogged.eq]
    have hheader : q.header = p.header := by rw [hlogged.eq, issueAll_files]
    have hset : q.headerInWriteSet = false := by rw [hlogged.eq]
    have hstorage : ∀ r : Pager W, r.wal = q.wal → r.files.wal.size = q.files.wal.size →
        r.files.wal.frames = q.files.wal.frames → r.StorageOk := by
      intro r hr hsize hframes w hw
      obtain rfl := Option.some.inj ((hr.trans hq).symm.trans hw)
      refine ⟨hsize ▸ hlogged.ok.size, ?_, ?_⟩
      · rw [hframes]
        exact hlogged.ok.valid
      · rw [hframes]
        exact hlogged.ok.index
    rcases hcases with ⟨-, rfl⟩ | ⟨-, rfl⟩ | ⟨-, r, writes, hcheck, rfl⟩
    · exact ⟨rfl, rfl, hset, hheader, hstorage _ rfl rfl rfl,
        fun i hi hclean data hdata => hlogged.load_eq hi hclean hdata⟩
    · rw [counted_eq]
      exact ⟨rfl, rfl, hset, hheader, hstorage _ rfl rfl rfl,
        fun i hi hclean data hdata => hlogged.load_eq hi hclean hdata⟩
    · have hfields := hcheck.eq
      rw [counted_eq, issueAll_files] at hfields
      refine ⟨rfl, rfl, ?_, ?_, ?_, fun i hi hclean data hdata => ?_⟩
      · rw [finishTransaction, hfields]
        exact hset
      · rw [finishTransaction, hfields]
        exact hheader
      · intro w hw
        rw [finishTransaction, hfields] at hw
        cases hw
        exact ⟨Nat.zero_le _, nofun, fun _ => rfl⟩
      · refine hcheck.load_eq (by rw [counted_eq, hq]) ?_ ?_ ?_
        · rw [counted_eq, hheader]
          exact hi
        · rw [counted_eq]
          exact hlogged.load_eq hi hclean hdata
        · rw [counted_eq]
          exact hlogged.cache_agrees hdata

end Pager

end Plexdb
