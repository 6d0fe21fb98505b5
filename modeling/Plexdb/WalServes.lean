import Plexdb.WalCommits

/-! Runs of a pager after `init`. Where `try_load` answered true every transaction commits and reads back; where it
did not, the first checkpoint empties the main file. -/

namespace Plexdb.WalBytes

open Plexdb.Pager (MainFile MainOp PageRef Payload PageCacheEntry DynamicMap)

variable {W : Nat}

/-! ### What a session does over frames -/

theorem BytePager.Shows.kept {p : Plexdb.Pager W} {s : BytePager W} {live : Finset Nat}
    {committed : Plexdb.Pager.Snapshot W} {last : Nat → Page W} (hp : Shows p s)
    (h : Plexdb.Pager.Written.Kept ⟨⟨p, live, committed⟩, last⟩) :
    Plexdb.Pager.Written.Kept ⟨⟨s.view, live, committed⟩, last⟩ := by
  have hheader : s.view.header = p.header := congrArg (·.header) hp.view
  have hcache : s.view.pageCache = p.pageCache := congrArg (·.pageCache) hp.view
  have hactive : s.view.transactionActive = p.transactionActive := congrArg (·.transactionActive) hp.view
  have hload := hp.load h.ok
  have hcontent (i : Nat) : s.view.content i = p.content i := by
    rw [Plexdb.Pager.content, Plexdb.Pager.content, hcache, hload]
  have hclean {i : Nat} (hi : p.CleanAt i) : s.view.CleanAt i := by
    intro entry hlookup hdirty
    rw [hcache] at hlookup
    exact (hload i).trans (hi entry hlookup hdirty)
  refine ⟨⟨hp.ok h.ok, fun ht => ?_, fun ht => ?_⟩, ?_, ?_, ?_, ?_⟩
  · have hsaved : s.view.savedHeader = p.savedHeader := congrArg (·.savedHeader) hp.view
    exact hsaved.trans (h.saved (hactive.symm.trans ht))
  · obtain ⟨hh, hl, hc, hw⟩ := h.idle (hactive.symm.trans ht)
    have hset : s.view.headerInWriteSet = p.headerInWriteSet := congrArg (·.headerInWriteSet) hp.view
    exact ⟨hheader.trans hh, hl, hcache.trans hc, hset.trans hw⟩
  · refine h.covered.congr (congrArg (·.pageCount) hheader) fun i _ data hdata => ?_
    exact (hcontent i).trans hdata
  · intro i hi
    exact (hcontent i).trans (h.content i hi)
  · intro i hi
    exact hclean (h.clean i hi)
  · intro i hi
    exact hclean (h.cleanBits i hi)

theorem txStep_wal {p p' : Plexdb.Pager W} {op : Plexdb.Pager.TxOp W} (h : p.txStep op = some p') :
    p' = { p with
      files := ⟨p'.files.main, p.files.wal⟩
      issued := p'.issued
      header := p'.header
      headerInWriteSet := p'.headerInWriteSet
      pageCache := p'.pageCache } := by
  have hin := Plexdb.Pager.txStep_inTx h
  rw [Plexdb.Pager.InTx] at hin
  rw [Plexdb.Pager.resized, Plexdb.Pager.issueAll_files] at hin
  rw [hin]
  have hmain : ∀ (ns : List Nat) (f : Plexdb.Pager.Files W),
      ((ns.map fun n => Plexdb.Pager.IoOp.main (.resize n)).foldl Plexdb.Pager.IoOp.apply f).wal = f.wal := by
    intro ns
    induction ns with
    | nil => exact fun _ => rfl
    | cons n ns ih => exact fun f => ih _
  rw [← hmain _ p.files]

theorem BytePager.absorb_eq_some {s s' : BytePager W} {p : Plexdb.Pager W} (h : s.absorb p = some s') :
    p.header.pageCount * pageBytes W < 2 ^ 63 ∧ s' = { s with
      main := p.files.main
      header := p.header
      savedHeader := p.savedHeader
      headerInWriteSet := p.headerInWriteSet
      transactionActive := p.transactionActive
      pageCache := p.pageCache } := by
  rw [absorb] at h
  split at h
  · cases h
    exact ⟨‹_›, rfl⟩
  · cases h

/-- A pager that agrees with what `s` is seen as, but for the fields that a page operation changes. -/
theorem BytePager.Serving.absorb {s s' : BytePager W} {frames : List PageWrite} {p : Plexdb.Pager W}
    (h : s.Serving frames) (hW : 4 ≤ W) (hwal : p.files.wal = s.view.files.wal) (hp : p.wal = s.view.wal)
    (hinterval : p.checkpointInterval = s.checkpointInterval)
    (hcount : p.walTransactionCount = s.walTransactionCount) (hs : s.absorb p = some s') :
    Shows p s' ∧ s'.Serving frames ∧ s'.header.pageCount * pageBytes W < 2 ^ 63 := by
  obtain ⟨hfits, rfl⟩ := absorb_eq_some hs
  refine ⟨⟨?_, fun k _ => ?_, fun k hk => h.valid hW hk⟩, ⟨h.log, h.pageSize⟩, hfits⟩
  · rw [view, ← hinterval, ← hcount]
    have hp' : p.wal = some ⟨s.wal.header.salt, s.wal.header.frameCount, s.walIndex⟩ := hp
    rw [← hp']
  · rw [hwal]
    exact ⟨rfl, rfl⟩

/-! ### The invariant -/

structure Session.Kept (s : Session W) : Prop where
  written : s.written.Kept
  serving : ∃ frames, s.pager.Serving frames
  fits : s.pager.header.pageCount * pageBytes W < 2 ^ 63

theorem lt_of_fits {n : Nat} (hW : 4 ≤ W) (h : n * pageBytes W < 2 ^ 63) : n < 2 ^ 64 := by
  have : n * 1 ≤ n * pageBytes W := Nat.mul_le_mul_left n (by rw [pageBytes]; omega)
  omega

/-- A step over bytes is a step over frames, and the pagers after it look the same. -/
theorem Session.Kept.simulates {s s' : Session W} {op : Plexdb.Pager.Op W} {buffer scratch : Memory} (hW : 4 ≤ W)
    (h : s.Kept) (hop : op.noRollback = true) (hstep : s.step (op, buffer, scratch) = some s') :
    ∃ w, s.written.step op = some w ∧ BytePager.Shows w.sys.pager s'.pager ∧
      w = ⟨⟨w.sys.pager, s'.live, s'.committed⟩, s'.last⟩ ∧ (∃ frames, s'.pager.Serving frames) ∧
      s'.pager.header.pageCount * pageBytes W < 2 ^ 63 := by
  obtain ⟨frames, hserving⟩ := h.serving
  have hok : s.pager.view.StorageOk := h.written.ok
  cases op with
  | begin =>
      obtain ⟨w, hw, hstep⟩ := Option.bind_eq_some_iff.mp hstep
      obtain ⟨p, hp, hstep⟩ := Option.bind_eq_some_iff.mp hstep
      cases hstep
      obtain ⟨sys, hsys, rfl⟩ := Option.map_eq_some_iff.mp hw
      obtain ⟨q, hbegin, rfl⟩ := Option.map_eq_some_iff.mp hsys
      have hq := (Plexdb.Pager.begin_eq_some hbegin).2
      obtain ⟨hshows, hserving', hfits⟩ := hserving.absorb hW (congrArg (·.files.wal) hq) (congrArg (·.wal) hq)
        (congrArg (·.checkpointInterval) hq) (congrArg (·.walTransactionCount) hq) hp
      exact ⟨_, hw, hshows, rfl, ⟨frames, hserving'⟩, hfits⟩
  | tx op =>
      obtain ⟨w, hw, hstep⟩ := Option.bind_eq_some_iff.mp hstep
      obtain ⟨p, hp, hstep⟩ := Option.bind_eq_some_iff.mp hstep
      cases hstep
      obtain ⟨sys, hsys, rfl⟩ := Option.map_eq_some_iff.mp hw
      have hq := txStep_wal (Plexdb.Pager.Sys.txStep_pager hsys).1
      obtain ⟨hshows, hserving', hfits⟩ := hserving.absorb hW (congrArg (·.files.wal) hq) (congrArg (·.wal) hq)
        (congrArg (·.checkpointInterval) hq) (congrArg (·.walTransactionCount) hq) hp
      exact ⟨_, hw, hshows, rfl, ⟨frames, hserving'⟩, hfits⟩
  | commit =>
      obtain ⟨p, hp, rfl⟩ := Option.map_eq_some_iff.mp hstep
      have hcommit := hp
      rw [BytePager.commit] at hcommit
      split at hcommit
      swap
      · cases hcommit
      rename_i hactive
      obtain ⟨s₁, hs₁, -⟩ := Option.bind_eq_some_iff.mp hcommit
      obtain ⟨p', q, hp', hq, hshows, hserving'⟩ := hserving.commit hW (lt_of_fits hW h.fits) hok hactive hs₁ scratch
      cases hp.symm.trans hp'
      refine ⟨⟨⟨q, s.live, ⟨s.pager.header, s.live, s.pager.view.content⟩⟩, s.last⟩, ?_, hshows, rfl, hserving', ?_⟩
      · have hq' : s.written.sys.pager.commit = some q := hq
        rw [Plexdb.Pager.Written.step, Plexdb.Pager.Sys.step, hq']
        rfl
      · have hheader : p.header = q.header := congrArg (·.header) hshows.view
        have hsame : q.header = s.pager.header := (Plexdb.Pager.commit_spec hq hok).header_eq
        dsimp only
        rw [hheader, hsame]
        exact h.fits
  | rollback => cases hop
  | checkpoint =>
      rw [Session.step] at hstep
      split at hstep
      · cases hstep
      · rename_i hidle
        obtain ⟨p, hp, rfl⟩ := Option.map_eq_some_iff.mp hstep
        obtain ⟨p', q, hp', hq, hshows, hserving'⟩ := hserving.checkpoint hW (.refl hserving hW) hok scratch
        cases hp.symm.trans hp'
        refine ⟨⟨⟨q, s.live, s.committed⟩, s.last⟩, ?_, hshows, rfl, ⟨[], hserving'⟩, ?_⟩
        · have hidle' : ¬ s.written.sys.pager.transactionActive = true := hidle
          have hq' : s.written.sys.pager.checkpoint = some q := hq
          rw [Plexdb.Pager.Written.step, Plexdb.Pager.Sys.step, if_neg hidle', hq']
          rfl
        · have hheader : p.header = s.pager.header := by
            rw [BytePager.checkpoint] at hp
            obtain ⟨writes, -, hp⟩ := Option.bind_eq_some_iff.mp hp
            cases hp
            rfl
          dsimp only
          rw [hheader]
          exact h.fits

theorem Session.Kept.step {s s' : Session W} {op : Plexdb.Pager.Op W × Memory × Memory} (hW : 4 ≤ W) (h : s.Kept)
    (hop : op.1.noRollback = true) (hstep : s.step op = some s') : s'.Kept := by
  obtain ⟨w, hw, hshows, heq, hserving, hfits⟩ := h.simulates hW hop hstep
  have hkept := h.written.step (by omega) hop hw
  rw [heq] at hkept
  exact ⟨hshows.kept hkept, hserving, hfits⟩

/-- A transaction commits, as long as the WAL file stays below 2^63 bytes. -/
theorem Session.Kept.commits {s : Session W} (hW : 4 ≤ W) (h : s.Kept) : s.Commits := by
  intro hactive hroom buffer scratch
  obtain ⟨frames, hserving⟩ := h.serving
  obtain ⟨s₁, hs₁⟩ := s.pager.exists_logWrites buffer hroom
  obtain ⟨p, -, hp, -⟩ := hserving.commit hW (lt_of_fits hW h.fits) h.written.ok hactive hs₁ scratch
  exact ⟨p, hp⟩

theorem Session.Kept.readsLive {s : Session W} (h : s.Kept) : s.ReadsLive :=
  fun hactive _ hidx => h.written.reads hidx hactive

end Plexdb.WalBytes
