import Plexdb.WalRecovery

/-! Frames round trip, and what `init` makes of whatever WAL file it finds. -/

namespace Plexdb.WalBytes

open Plexdb.Pager (MainFile PageRef)

variable {W : Nat}

theorem BytePager.Idle.kept {s : BytePager W} (h : s.Idle) {live : Finset Nat} {last : Nat → Page W}
    (hdb : Session.Database s live last) : (Session.start s live last).Kept := by
  have hcount : s.wal.header.frameCount = 0 := h.serving.log.count.symm
  have hcache : s.view.pageCache = ∅ := h.cache
  refine ⟨⟨⟨?_, fun hactive => ?_, fun _ => ⟨rfl, rfl, hcache, h.unwritten⟩⟩, hdb.covered, hdb.content,
    fun i _ => Plexdb.Pager.cleanAt_of_empty hcache i, fun i _ => Plexdb.Pager.cleanAt_of_empty hcache _⟩,
    ⟨[], h.serving⟩, hdb.fits⟩
  · intro wal hwal
    cases hwal
    refine ⟨le_rfl, fun k hk => ?_, fun ref => ?_⟩
    · change k < s.wal.header.frameCount at hk
      omega
    · change s.walIndex.lookup ref = Plexdb.Pager.lastFrame s.seenFrame s.wal.header.frameCount ref
      rw [h.index, hcount]
      rfl
  · exact absurd (hactive.symm.trans h.inactive) nofun

theorem Log.run_header {l l' : Log} {ops : List LogOp} (h : Run Log.step (fun _ _ => True) l ops l') :
    ∃ n, l'.wal.header = { l.wal.header with frameCount := n } := by
  induction h with
  | nil l => exact ⟨l.wal.header.frameCount, rfl⟩
  | cons _ hstep _ ih =>
      obtain ⟨n, hn⟩ := ih
      exact ⟨n, by rw [hn, Log.step_header hstep]⟩

/-- Frames read back but for a header frame at the end of a file of small pages. A file that loads, and so every
file that commits left, serves transactions; a file that does not load costs the database. -/
theorem wal_round_trip (hW : 4 ≤ W) (io : Io) :
    (∀ wal ops l, wal.header.frameCount = 0 → pagerHeaderBytes ≤ wal.header.pageSize →
      Run Log.step (fun _ _ => True) ⟨wal, []⟩ ops l → ∀ i w, l.frames[i]? = some w → ∀ dst,
        (ReadsBack l.wal io i w dst ↔ (w.pageIdx = headerFrameIdx →
          i + 1 < l.frames.length ∨ headerBytes ≤ wal.header.pageSize ∨ io = .async))) ∧
    (∀ (main : MainFile W) file checkpointInterval buf wal frames, Loads W io file wal frames →
      ∃ s, BytePager.init io main file checkpointInterval buf = some s ∧
        (loadedFiles main wal frames).storedHeader wal.header.frameCount = some s.header ∧
        (∀ i < s.header.pageCount, ∀ data, (loadedFiles main wal frames).stored wal.header.frameCount i = some data →
          s.view.content i = some data) ∧
        ∀ live last, Session.Database s live last → ∀ ops t,
          Run Session.step (fun _ op => op.1.noRollback = true) (Session.start s live last) ops t →
            t.ReadsLive ∧ t.Commits) ∧
    (∀ salt ops l wal, pageBytes W < 2 ^ 64 →
      Run Log.step (fun _ _ => True) ⟨Wal.create (pageBytes W) salt, []⟩ ops l → l.wal.commit = some wal →
      (∀ i w, l.frames[i]? = some w → w.pageIdx = headerFrameIdx → HeaderReadable W io l.frames i w) →
        Loads W io wal.file wal (l.loaded W)) ∧
    ∀ (main : MainFile W) file checkpointInterval buf live last root scratch,
      Wal.tryLoad file (pageBytes W) = none → main.header.pageCount * pageBytes W < 2 ^ 63 →
        ∃ s, BytePager.init io main file checkpointInterval buf = some s ∧
          ∃ t, Run Session.step (fun _ op => op.1.noRollback = true) (Session.start s live last)
            [(.begin, scratch, scratch), (.tx (.setRoot root), scratch, scratch), (.commit, scratch, scratch),
              (.checkpoint, scratch, scratch)] t ∧ t.pager.main.size = 0 := by
  refine ⟨fun wal ops l hcount hpage hrun i w hw dst => ?_, fun main file interval buf wal frames hload => ?_,
    fun salt ops l wal hbound hrun hcommit hheaders => ?_, fun main file interval buf live last root scratch hload hfits =>
      loses_database hload hfits io interval buf live last root scratch⟩
  · have hholds : l.Holds := hrun.invariant (fun _ _ _ h _ hstep => h.step hstep) (Log.holds_of_empty hcount)
    obtain ⟨n, hn⟩ := Log.run_header hrun
    have hsize : l.wal.header.pageSize = wal.header.pageSize := by rw [hn]
    rw [hholds.readsBack_iff (hsize ▸ hpage) hw io dst, hsize]
  · obtain ⟨s, hinit, hidle, hheader, hpages⟩ := hload.exists_init (by omega) main interval buf
    refine ⟨s, hinit, hheader, hpages, fun live last hdb ops t hrun => ?_⟩
    have hkept : t.Kept := hrun.invariant (fun _ _ _ h hop hstep => h.step hW hop hstep) (hidle.kept hdb)
    exact ⟨hkept.readsLive, hkept.commits hW⟩
  · have hholds : l.Holds := hrun.invariant (fun _ _ _ h _ hstep => h.step hstep) (Log.holds_of_empty rfl)
    have hnamed : l.Named :=
      hrun.invariant (fun _ _ _ h _ hstep => h.step hstep) (Log.named_create salt (pageBytes W))
    obtain ⟨n, hn⟩ := Log.run_header hrun
    exact .of_log hW hbound hholds hnamed (by rw [hn]; rfl) (by rw [hn]; rfl) hcommit hheaders

/-- A header between two pages reads back from a WAL of 32-byte pages. -/
theorem wal_round_trip_small :
    ∃ wal, (Wal.create 32 0).appendFrames
        [⟨1, Memory.zero⟩, ⟨headerFrameIdx, Memory.zero⟩, ⟨2, Memory.zero⟩] Memory.zero = some wal ∧
      ReadsBack wal .sync 1 ⟨headerFrameIdx, Memory.zero⟩ Memory.zero := by
  obtain ⟨wal, hwal⟩ : ∃ wal, (Wal.create 32 0).appendFrames
      [⟨1, Memory.zero⟩, ⟨headerFrameIdx, Memory.zero⟩, ⟨2, Memory.zero⟩] Memory.zero = some wal := ⟨_, rfl⟩
  have hrun : Run Log.step (fun _ _ => True) ⟨Wal.create 32 0, []⟩
      [.append [⟨1, Memory.zero⟩, ⟨headerFrameIdx, Memory.zero⟩, ⟨2, Memory.zero⟩] Memory.zero]
      ⟨wal, [⟨1, Memory.zero⟩, ⟨headerFrameIdx, Memory.zero⟩, ⟨2, Memory.zero⟩]⟩ :=
    .single trivial (by rw [Log.step, hwal]; rfl)
  refine ⟨wal, hwal, ?_⟩
  exact ((wal_round_trip (W := 4) le_rfl .sync).1 (Wal.create 32 0) _ _ rfl (Nat.le_refl 32) hrun 1 _ rfl _).mpr
    fun _ => .inl (Nat.lt_succ_self 2)

/-- The WAL file is absent: the page that a transaction commits cannot be read by the next one. -/
theorem absent_wal_loses_page :
    ∃ (s : BytePager 4) (t : Session 4),
      BytePager.init .sync ⟨1, ⟨1, 2 ^ 64 - 1⟩, fun _ => Page.zero⟩ ⟨0, Memory.zero⟩ 2 Memory.zero = some s ∧
      Session.Database s ∅ (fun _ => Page.zero) ∧
      Run Session.step (fun _ op => op.1.noRollback = true) (Session.start s ∅ fun _ => Page.zero)
        ([.begin, .tx .newPage, .tx (.write 2 (Page.zero.setBit 5)), .commit, .begin].map
          fun op => (op, Memory.zero, Memory.zero)) t ∧ ¬ t.ReadsLive := by
  have hsome : (runAll Session.step (fun _ op => op.1.noRollback) (Session.start
      (BytePager.opened .sync (⟨1, ⟨1, 2 ^ 64 - 1⟩, fun _ => Page.zero⟩ : MainFile 4) ⟨0, Memory.zero⟩ 2) ∅
        fun _ => Page.zero)
      ([.begin, .tx .newPage, .tx (.write 2 (Page.zero.setBit 5)), .commit, .begin].map
        fun op => (op, Memory.zero, Memory.zero))).map
        (fun t => (t.pager.transactionActive, decide (2 ∈ t.live), (t.pager.view.rpage 2).isNone)) =
      some (true, true, true) := by
    decide +kernel
  obtain ⟨t, ht, hstate⟩ := Option.map_eq_some_iff.mp hsome
  obtain ⟨hactive, hlive, hread⟩ :
      t.pager.transactionActive = true ∧ decide (2 ∈ t.live) = true ∧ (t.pager.view.rpage 2).isNone = true := by
    simpa only [Prod.mk.injEq] using hstate
  refine ⟨_, t, rfl, ⟨⟨Nat.one_pos, fun _ hi => absurd hi (Finset.notMem_empty _),
    fun _ hi => absurd hi (Finset.notMem_empty _)⟩, fun _ hi => absurd hi (Finset.notMem_empty _), by decide⟩,
    Run.of_runAll ht, fun h => ?_⟩
  obtain ⟨⟨p, hp⟩, -⟩ := h hactive 2 (of_decide_eq_true hlive)
  rw [hp] at hread
  cases hread

end Plexdb.WalBytes
