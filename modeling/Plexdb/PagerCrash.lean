import Plexdb.PagerRecovery

/-! Crashes. Between two I/O operations the disk holds a committed state whichever of the unsynced
writes are lost: appended frames lie beyond the frame count, the frame count is written between two
syncs, and a checkpoint is repeated by the replay until the count is reset. Only a `new_page` that
cuts the main file below a committed page breaks this. -/

namespace Plexdb

open Pager

variable {W : Nat}

namespace Pager

/-! ### Media that hold a snapshot -/

/-- Whatever the unsynced writes do, the files store the snapshot. -/
structure Safe (m : Media W) (snap : Snapshot W) : Prop where
  size : m.wal.frameCount ≤ m.wal.size
  valid : ∀ k < m.wal.frameCount, ValidFrame m.wal.salt (m.wal.frames k)
  beyond : ∀ op ∈ m.pendingWal, op.Beyond m.wal.frameCount
  header : Files.storedHeader ⟨m.main, m.wal⟩ m.wal.frameCount = some snap.header
  keeps : lastFrame m.wal.frames m.wal.frameCount .header = none →
    ∀ op ∈ m.pendingMain, op.KeepsHeader snap.header
  page : ∀ i, Holds (W := W) snap.live i → ∃ data, snap.page i = some data ∧
    Files.stored ⟨m.main, m.wal⟩ m.wal.frameCount i = some data ∧
    (lastFrame m.wal.frames m.wal.frameCount (.page i) = none →
      ∀ op ∈ m.pendingMain, op.Spares i data)

theorem apply_beyond {w : WalFile W} {n : Nat} {ops : List (WalOp W)} (hsize : n ≤ w.size)
    (hops : ∀ op ∈ ops, op.Beyond n) :
    (ops.foldl WalOp.apply w).salt = w.salt ∧ (ops.foldl WalOp.apply w).frameCount = w.frameCount ∧
      n ≤ (ops.foldl WalOp.apply w).size ∧
      ∀ k < n, (ops.foldl WalOp.apply w).frames k = w.frames k := by
  induction ops generalizing w with
  | nil => exact ⟨rfl, rfl, hsize, fun _ _ => rfl⟩
  | cons op ops ih =>
      obtain ⟨hop, hops⟩ := List.forall_mem_cons.mp hops
      have hone : (op.apply w).salt = w.salt ∧ (op.apply w).frameCount = w.frameCount ∧
          n ≤ (op.apply w).size ∧ ∀ k < n, (op.apply w).frames k = w.frames k := by
        cases op with
        | resize j =>
            have hj : n ≤ j := hop
            refine ⟨rfl, rfl, hj, fun k hk => ?_⟩
            rw [WalOp.apply, WalFile.resize]
            dsimp only
            rw [if_pos ⟨by omega, by omega⟩]
        | writeFrame j f =>
            have hj : n ≤ j := hop
            refine ⟨rfl, rfl, le_trans hsize (le_max_left _ _), fun k hk => ?_⟩
            rw [WalOp.apply, WalFile.writeFrame]
            dsimp only
            rw [if_neg (by omega), if_pos (by omega)]
        | writeCount j => exact hop.elim
      obtain ⟨hsalt, hcount, hsize', hframes⟩ := ih hone.2.2.1 hops
      exact ⟨hsalt.trans hone.1, hcount.trans hone.2.1, hsize',
        fun k hk => (hframes k hk).trans (hone.2.2.2 k hk)⟩

theorem stored_of_apply {f f' : Files W} {n i : Nat} {data : Page W}
    (hframes : ∀ k < n, f'.wal.frames k = f.wal.frames k) (h : f.stored n i = some data)
    (hmain : lastFrame f.wal.frames n (.page i) = none → f.main.readPage i = some data →
      f'.main.readPage i = some data) : f'.stored n i = some data := by
  rw [Files.stored] at h ⊢
  rw [lastFrame_congr hframes]
  cases hlast : lastFrame f.wal.frames n (.page i) with
  | none =>
      rw [hlast] at h
      exact hmain hlast h
  | some k =>
      rw [hlast] at h
      dsimp only at h ⊢
      rw [hframes k (lastFrame_lt hlast).1]
      exact h

theorem storedHeader_of_apply {f f' : Files W} {n : Nat} {h : Header}
    (hframes : ∀ k < n, f'.wal.frames k = f.wal.frames k) (hstored : f.storedHeader n = some h)
    (hmain : lastFrame f.wal.frames n .header = none → f.main.header = h → f'.main.header = h) :
    f'.storedHeader n = some h := by
  rw [Files.storedHeader] at hstored ⊢
  rw [lastFrame_congr hframes]
  cases hlast : lastFrame f.wal.frames n .header with
  | none =>
      rw [hlast] at hstored
      dsimp only
      rw [hmain hlast (Option.some.inj hstored)]
  | some k =>
      rw [hlast] at hstored
      dsimp only at hstored ⊢
      rw [hframes k (lastFrame_lt hlast).1]
      exact hstored

theorem Safe.consistent_of_subset {m : Media W} {snap : Snapshot W} (h : Safe m snap)
    {mainOps : List (MainOp W)} {walOps : List (WalOp W)} (hmain : mainOps ⊆ m.pendingMain)
    (hwal : walOps ⊆ m.pendingWal) :
    Consistent ⟨mainOps.foldl MainOp.apply m.main, walOps.foldl WalOp.apply m.wal⟩ snap := by
  obtain ⟨hsalt, hcount, hsize, hframes⟩ :=
    apply_beyond h.size fun op hop => h.beyond op (hwal hop)
  refine ⟨?_, ?_, ?_, ?_⟩
  · dsimp only
    rw [hcount]
    exact hsize
  · intro k hk
    dsimp only at hk ⊢
    rw [hcount] at hk
    rw [hsalt, hframes k hk]
    exact h.valid k hk
  · dsimp only
    rw [hcount]
    refine storedHeader_of_apply hframes h.header fun hnone hheader => ?_
    exact header_of_keeps (fun op hop => h.keeps hnone op (hmain hop)) (.inl hheader)
  · intro i hi
    obtain ⟨data, hdata, hstored, hspares⟩ := h.page i hi
    refine ⟨data, hdata, ?_⟩
    dsimp only
    rw [hcount]
    exact stored_of_apply hframes hstored fun hnone hread =>
      readPage_of_spares hread fun op hop => hspares hnone op (hmain hop)

theorem Safe.consistent {m : Media W} {snap : Snapshot W} (h : Safe m snap) {f : Files W}
    (hcrash : m.Crash f) : Consistent f snap := by
  obtain ⟨⟨mainOps, hmain, hfmain⟩, walOps, hwal, hfwal⟩ := hcrash
  have := h.consistent_of_subset hmain.subset hwal.subset
  rw [← hfmain, ← hfwal] at this
  exact this

/-- The media is as good as synced: nothing that is pending can be lost to the snapshot. -/
theorem Safe.files {m : Media W} {snap : Snapshot W} (h : Safe m snap) : Consistent m.files snap :=
  h.consistent_of_subset (List.Subset.refl _) (List.Subset.refl _)

/-! ### Operations that keep the media safe -/

/-- The operation takes nothing of the snapshot from the media. -/
def SafeOp (m : Media W) (snap : Snapshot W) : IoOp W → Prop
  | .main op =>
      (lastFrame m.wal.frames m.wal.frameCount .header = none → op.KeepsHeader snap.header) ∧
        ∀ i data, Holds (W := W) snap.live i → snap.page i = some data →
          lastFrame m.wal.frames m.wal.frameCount (.page i) = none → op.Spares i data
  | .wal op => op.Beyond m.wal.frameCount
  | .syncMain | .syncWal => True

theorem Safe.step {m : Media W} {snap : Snapshot W} (h : Safe m snap) {op : IoOp W}
    (hop : SafeOp m snap op) : Safe (m.step op) snap := by
  cases op with
  | main op =>
      refine ⟨h.size, h.valid, h.beyond, h.header, fun hnone => ?_, fun i hi => ?_⟩
      · exact List.forall_mem_append.mpr
          ⟨h.keeps hnone, by rw [List.forall_mem_singleton]; exact hop.1 hnone⟩
      · obtain ⟨data, hdata, hstored, hspares⟩ := h.page i hi
        refine ⟨data, hdata, hstored, fun hnone => List.forall_mem_append.mpr
          ⟨hspares hnone, by rw [List.forall_mem_singleton]; exact hop.2 i data hi hdata hnone⟩⟩
  | wal op =>
      refine ⟨h.size, h.valid, ?_, h.header, h.keeps, h.page⟩
      exact List.forall_mem_append.mpr ⟨h.beyond, by rw [List.forall_mem_singleton]; exact hop⟩
  | syncMain =>
      refine ⟨h.size, h.valid, h.beyond, ?_, fun _ => List.forall_mem_nil _, fun i hi => ?_⟩
      · exact storedHeader_of_apply (f := ⟨m.main, m.wal⟩) (fun _ _ => rfl) h.header
          fun hnone hheader => header_of_keeps (h.keeps hnone) (.inl hheader)
      · obtain ⟨data, hdata, hstored, hspares⟩ := h.page i hi
        refine ⟨data, hdata, ?_, fun _ => List.forall_mem_nil _⟩
        exact stored_of_apply (f := ⟨m.main, m.wal⟩) (fun _ _ => rfl) hstored
          fun hnone hread => readPage_of_spares hread (hspares hnone)
  | syncWal =>
      obtain ⟨hsalt, hcount, hsize, hframes⟩ := apply_beyond h.size h.beyond
      have hlast : ∀ ref, lastFrame (m.step .syncWal).wal.frames (m.step .syncWal).wal.frameCount ref =
          lastFrame m.wal.frames m.wal.frameCount ref := by
        intro ref
        change lastFrame (m.pendingWal.foldl WalOp.apply m.wal).frames
          (m.pendingWal.foldl WalOp.apply m.wal).frameCount ref = _
        rw [hcount]
        exact lastFrame_congr hframes ref
      refine ⟨?_, ?_, List.forall_mem_nil _, ?_, fun hnone => ?_, fun i hi => ?_⟩
      · change (m.pendingWal.foldl WalOp.apply m.wal).frameCount ≤ _
        rw [hcount]
        exact hsize
      · intro k hk
        change ValidFrame (m.pendingWal.foldl WalOp.apply m.wal).salt
          ((m.pendingWal.foldl WalOp.apply m.wal).frames k)
        change k < (m.pendingWal.foldl WalOp.apply m.wal).frameCount at hk
        rw [hcount] at hk
        rw [hsalt, hframes k hk]
        exact h.valid k hk
      · change Files.storedHeader _ (m.pendingWal.foldl WalOp.apply m.wal).frameCount = _
        rw [hcount]
        exact storedHeader_of_apply (f := ⟨m.main, m.wal⟩) hframes h.header fun _ hheader => hheader
      · rw [hlast] at hnone
        exact h.keeps hnone
      · obtain ⟨data, hdata, hstored, hspares⟩ := h.page i hi
        refine ⟨data, hdata, ?_, fun hnone => hspares ((hlast _).symm.trans hnone)⟩
        change Files.stored _ (m.pendingWal.foldl WalOp.apply m.wal).frameCount i = _
        rw [hcount]
        exact stored_of_apply (f := ⟨m.main, m.wal⟩) hframes hstored fun _ hread => hread

/-! ### Crash points -/

/-- `P` holds of the media before, between and after the operations. -/
def Through (P : Media W → Prop) (m : Media W) : List (IoOp W) → Prop
  | [] => P m
  | op :: ops => P m ∧ Through P (m.step op) ops

theorem Through.first {P : Media W → Prop} {m : Media W} {ops : List (IoOp W)}
    (h : Through P m ops) : P m := by
  cases ops with
  | nil => exact h
  | cons op ops => exact h.1

theorem Through.append {P : Media W → Prop} {m : Media W} {ops ops' : List (IoOp W)}
    (h : Through P m ops) (h' : Through P (m.run ops) ops') : Through P m (ops ++ ops') := by
  induction ops generalizing m with
  | nil => exact h'
  | cons op ops ih => exact ⟨h.1, ih h.2 h'⟩

theorem Through.mono {P Q : Media W → Prop} {m : Media W} {ops : List (IoOp W)}
    (h : Through P m ops) (hpq : ∀ m, P m → Q m) : Through Q m ops := by
  induction ops generalizing m with
  | nil => exact hpq m h
  | cons op ops ih => exact ⟨hpq m h.1, ih h.2⟩

theorem Through.of_prefix {P : Media W → Prop} {m : Media W} {ops done : List (IoOp W)}
    (h : Through P m ops) (hdone : done <+: ops) : P (m.run done) := by
  induction done generalizing m ops with
  | nil => exact h.first
  | cons op done ih =>
      obtain ⟨rest, rfl⟩ := hdone
      exact ih h.2 (List.prefix_append done rest)

theorem Through.last {P : Media W → Prop} {m : Media W} {ops : List (IoOp W)}
    (h : Through P m ops) : P (m.run ops) := h.of_prefix (List.prefix_refl ops)

/-- Every crash leaves one of the two snapshots. -/
def Either (a b : Snapshot W) (m : Media W) : Prop :=
  ∀ f, m.Crash f → Consistent f a ∨ Consistent f b

theorem Safe.either_left {m : Media W} {a : Snapshot W} (h : Safe m a) (b : Snapshot W) :
    Either a b m := fun _ hf => .inl (h.consistent hf)

theorem Safe.either_right {m : Media W} {b : Snapshot W} (h : Safe m b) (a : Snapshot W) :
    Either a b m := fun _ hf => .inr (h.consistent hf)

theorem Safe.through_main {m : Media W} {snap : Snapshot W} (h : Safe m snap)
    {ops : List (MainOp W)} (hops : ∀ op ∈ ops, SafeOp m snap (.main op)) :
    Through (Safe · snap) m (ops.map .main) ∧
      m.run (ops.map .main) = { m with pendingMain := m.pendingMain ++ ops } := by
  induction ops generalizing m with
  | nil =>
      rw [List.append_nil]
      exact ⟨h, rfl⟩
  | cons op ops ih =>
      obtain ⟨hop, hops⟩ := List.forall_mem_cons.mp hops
      obtain ⟨hthrough, hrun⟩ := ih (h.step hop) hops
      refine ⟨⟨h, hthrough⟩, hrun.trans ?_⟩
      rw [Media.step, List.append_assoc]
      rfl

theorem Safe.through_wal {m : Media W} {snap : Snapshot W} (h : Safe m snap)
    {ops : List (WalOp W)} (hops : ∀ op ∈ ops, op.Beyond m.wal.frameCount) :
    Through (Safe · snap) m (ops.map .wal) ∧
      m.run (ops.map .wal) = { m with pendingWal := m.pendingWal ++ ops } := by
  induction ops generalizing m with
  | nil =>
      rw [List.append_nil]
      exact ⟨h, rfl⟩
  | cons op ops ih =>
      obtain ⟨hop, hops⟩ := List.forall_mem_cons.mp hops
      obtain ⟨hthrough, hrun⟩ := ih (@Safe.step _ m snap h (.wal op) hop) hops
      refine ⟨⟨h, hthrough⟩, hrun.trans ?_⟩
      rw [Media.step, List.append_assoc]
      rfl

/-- The media once the frame count is written and synced. -/
def Media.withCount (m : Media W) (n : Nat) : Media W :=
  { m with wal := { m.wal with frameCount := n } }

/-- The frame count is the only unsynced write to the WAL file, so a crash finds the old count or
the new one. -/
theorem through_writeCount {m : Media W} {a b : Snapshot W} {n : Nat} (hsynced : m.pendingWal = [])
    (ha : Safe m a) (hb : Safe (m.withCount n) b) :
    Through (Either a b) m [.wal (.writeCount n), .syncWal] ∧
      m.run [.wal (.writeCount n), .syncWal] = m.withCount n := by
  have hrun : m.run [.wal (.writeCount n), .syncWal] = m.withCount n := by
    change { m with
      wal := (m.pendingWal ++ [WalOp.writeCount n]).foldl WalOp.apply m.wal, pendingWal := [] } = _
    rw [hsynced, Media.withCount, hsynced]
    rfl
  refine ⟨⟨ha.either_left b, fun f hf => ?_, ?_⟩, hrun⟩
  · obtain ⟨hmain, walOps, hsub, hwal⟩ := hf
    change walOps.Sublist (m.pendingWal ++ [WalOp.writeCount n]) at hsub
    rw [hsynced, List.nil_append] at hsub
    rcases List.sublist_singleton.mp hsub with rfl | rfl
    · exact .inl (ha.consistent ⟨hmain, [], List.nil_sublist _, hwal⟩)
    · exact .inr (hb.consistent ⟨hmain, [], List.nil_sublist _, hwal⟩)
  · change Either a b (m.run [.wal (.writeCount n), .syncWal])
    rw [hrun]
    exact hb.either_right a

/-! ### Checkpoints -/

theorem Checkpointed.through {p q : Pager W} {wal : Wal} {writes : List (MainOp W)}
    (h : Checkpointed p wal q writes) (hwal : p.wal = some wal) (hok : p.StorageOk) {m : Media W}
    {snap : Snapshot W} (hsafe : Safe m snap) (hsynced : m.pendingWal = [])
    (hcount : m.wal.frameCount = wal.frameCount) (hfiles : p.files = m.files)
    (hheader : p.header = snap.header)
    (hpage : ∀ i, Holds (W := W) snap.live i → i < p.header.pageCount ∧
      ∀ data, snap.page i = some data → p.load i = some data ∧
        ∀ entry, p.pageCache.lookup i = some entry → entry.data = data) :
    let ops := checkpointOps writes p.header.pageCount
    Through (Either snap snap) m ops ∧ Safe (m.run ops) snap ∧ (m.run ops).pendingWal = [] ∧
      (m.run ops).wal = { m.wal with frameCount := 0 } := by
  have hindex : ∀ ref, wal.walIndex.lookup ref = lastFrame m.wal.frames m.wal.frameCount ref := by
    intro ref
    rw [(hok wal hwal).index, hfiles, Media.files, hsynced, hcount]
    rfl
  have hspares : ∀ op ∈ writes ++ [MainOp.resize p.header.pageCount], ∀ i data,
      Holds (W := W) snap.live i → snap.page i = some data → op.Spares i data := by
    intro op hop i data hi hdata
    obtain ⟨hlt, hload⟩ := hpage i hi
    rcases List.mem_append.mp hop with hop | hop
    · exact h.spares op hop i data (hload data hdata).1 (hload data hdata).2
    · rw [List.mem_singleton.mp hop]
      exact hlt
  have hkeeps : ∀ op ∈ writes ++ [MainOp.resize p.header.pageCount], op.KeepsHeader snap.header := by
    intro op hop
    rcases List.mem_append.mp hop with hop | hop
    · exact hheader ▸ h.keeps op hop
    · rw [List.mem_singleton.mp hop]
      trivial
  obtain ⟨hwrites, hrun⟩ := hsafe.through_main fun op hop =>
    ⟨fun _ => hkeeps op hop, fun i data hi hdata _ => hspares op hop i data hi hdata⟩
  -- the main file is synced, and holds everything the index points to
  generalize hm₁ : (m.run ((writes ++ [MainOp.resize p.header.pageCount]).map .main)).step .syncMain = m₁
  have hsafe₁ : Safe m₁ snap := hm₁ ▸ @Safe.step _ _ _ hwrites.last .syncMain trivial
  have hfields : m₁ = { m with
      main := (writes ++ [MainOp.resize p.header.pageCount]).foldl MainOp.apply
        (m.pendingMain.foldl MainOp.apply m.main)
      pendingMain := [] } := by
    rw [← hm₁, hrun, Media.step, List.foldl_append]
  have hwal₁ : m₁.wal = m.wal := by rw [hfields]
  have hmain₁ : m₁.pendingMain = [] := by rw [hfields]
  have hsafe₂ : Safe (m₁.withCount 0) snap := by
    refine ⟨Nat.zero_le _, fun k hk => absurd hk (Nat.not_lt_zero k), ?_, ?_, ?_, fun i hi => ?_⟩
    · rw [Media.withCount, hfields, hsynced]
      exact List.forall_mem_nil _
    · change some m₁.main.header = _
      cases hlast : wal.walIndex.lookup .header with
      | some k =>
          rw [hfields, header_of_keeps hkeeps (.inr (List.mem_append_left _ ?_))]
          exact hheader ▸ h.header (by rw [hlast]; rfl)
      | none =>
          have := hsafe₁.header
          rw [Files.storedHeader, hwal₁, ← hindex, hlast] at this
          exact this
    · rw [Media.withCount, hmain₁]
      exact fun _ => List.forall_mem_nil _
    · obtain ⟨data, hdata, hstored, -⟩ := hsafe₁.page i hi
      obtain ⟨hload, hcache⟩ := (hpage i hi).2 data hdata
      refine ⟨data, hdata, ?_, by rw [Media.withCount, hmain₁]; exact fun _ => List.forall_mem_nil _⟩
      change m₁.main.readPage i = some data
      cases hlast : wal.walIndex.lookup (.page i) with
      | some k =>
          rw [hfields]
          refine readPage_of_written (List.mem_append_left _ ?_) fun op hop =>
            hspares op hop i data hi hdata
          exact h.page i data (by rw [hlast]; rfl) hload hcache
      | none =>
          rw [Files.stored, hwal₁, ← hindex, hlast] at hstored
          exact hstored
  obtain ⟨hreset, hlast⟩ := through_writeCount (by rw [hfields, hsynced]) hsafe₁ hsafe₂
  have hops : checkpointOps writes p.header.pageCount =
      (writes ++ [MainOp.resize p.header.pageCount]).map .main ++
        (.syncMain :: [.wal (.writeCount 0), .syncWal]) := by simp [checkpointOps]
  have hend : m.run ((writes ++ [MainOp.resize p.header.pageCount]).map .main ++
      (.syncMain :: [.wal (.writeCount 0), .syncWal])) = m₁.withCount 0 := by
    rw [Media.run, List.foldl_append, ← hlast, ← hm₁]
    rfl
  dsimp only
  rw [hops, hend]
  refine ⟨(hwrites.mono fun m hm => hm.either_left snap).append ⟨hwrites.last.either_left snap, ?_⟩,
    hsafe₂, by rw [Media.withCount, hfields, hsynced], by rw [Media.withCount, hwal₁]⟩
  rw [hm₁]
  exact hreset

end Pager

end Plexdb
