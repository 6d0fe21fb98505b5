import Plexdb.BTreeDurability

/-! What a transaction does to the files, whatever its programs write on its pages. -/

namespace Plexdb

variable {W : Nat}

namespace Pager

/-! ### Bitset pages -/

/-- A bitset page below the end of a group is not behind the group. -/
theorem bitsetPage_le_of_lt {g k j : Nat} (hj : j < 64 * W) (h : bitsetPage W g < freePage W k j + 1) :
    bitsetPage W g ≤ bitsetPage W k := by
  have hlt : bitsetPage W g < bitsetPage W (k + 1) := by
    have hstride : stride W = W * 64 + 1 := rfl
    rw [bitsetPage_succ]
    rw [freePage] at h
    omega
  rcases Nat.lt_or_eq_of_le (Nat.le_of_lt_succ (bitsetPage_lt_iff.mp hlt)) with hlt | rfl
  · exact (bitsetPage_lt_iff.mpr hlt).le
  · exact le_rfl

/-- A bitset page that a step brings below the page count is dirty. -/
theorem bitset_txStep {p p' : Pager W} {op : TxOp W} (hW : 0 < W) (h : p.txStep op = some p')
    (hpos : 0 < p.header.pageCount) {g : Nat} (hg : bitsetPage W g < p'.header.pageCount) :
    bitsetPage W g < p.header.pageCount ∨ p'.Dirty (bitsetPage W g) := by
  cases op with
  | newPage =>
      obtain ⟨⟨q, idx⟩, hnew, rfl⟩ := Option.map_eq_some_iff.mp h
      obtain ⟨-, r, htouched, ⟨k, bitset, j, hslot, -, rfl⟩ | ⟨-, -, halign, -, bitset, -, rfl⟩⟩ := newPage_spec hnew
      · rw [pageCount_takeSlot, htouched.header_eq] at hg
        rcases lt_max_iff.mp hg with hlt | hlt
        · exact .inl hlt
        · exact .inl ((bitsetPage_le_of_lt hslot.lt hlt).trans_lt hslot.inRange.2)
      · have hcount : (r.addGroup bitset).header.pageCount = r.header.pageCount + 2 := rfl
        rw [hcount, htouched.header_eq] at hg
        by_cases hlt : bitsetPage W g < p.header.pageCount
        · exact .inl hlt
        · have hbitset := eq_bitsetPage hpos halign
          rcases (show bitsetPage W g = p.header.pageCount ∨ bitsetPage W g = p.header.pageCount + 1 by omega) with
            heq | heq
          · rw [heq, Pager.addGroup, ensurePageZeroed, htouched.header_eq]
            exact .inr (Dirty.insertCache (dirty_insertCache _ _ _) _ _)
          · have hfree : bitsetPage W g = freePage W ((p.header.pageCount - 1) / stride W) 0 := by
              rw [heq, freePage, ← hbitset]
            exact absurd hfree.symm (freePage_ne_bitsetPage (by omega))
  | deletePage idx =>
      obtain ⟨-, hrange, k, j, bitset, hj, rfl, -, -, ⟨-, rfl⟩ | ⟨-, n, q, htouched, htrimmed, rfl⟩⟩ := deletePage_spec h
      · exact .inl hg
      · have hcount : q.header.pageCount = n := by
          rw [htouched.header_eq]
          rfl
        change bitsetPage W g < q.header.pageCount at hg
        rw [hcount] at hg
        have hk : bitsetPage W k < p.header.pageCount := by
          have := hrange.2
          rw [freePage] at this
          omega
        rcases htrimmed.top with rfl | ⟨i, ⟨j', hj', rfl, -⟩ | ⟨k', page, hk', -, j', hj', rfl, -⟩, rfl⟩
        · rw [bitsetPage] at hg
          omega
        · exact .inl ((bitsetPage_le_of_lt (by omega) hg).trans_lt hk)
        · exact .inl ((bitsetPage_le_of_lt hj' hg).trans_lt ((bitsetPage_lt_iff.mpr hk').trans hk))
  | write idx data =>
      obtain ⟨⟨q, old⟩, hread, h⟩ := Option.bind_eq_some_iff.mp h
      cases h
      exact .inl ((rwpage_touched hread).header_eq ▸ hg)
  | read idx =>
      obtain ⟨⟨q, data⟩, hread, rfl⟩ := Option.map_eq_some_iff.mp h
      exact .inl ((rpage_eq_some hread).2.2.2.1.header_eq ▸ hg)
  | setRoot page =>
      rw [txStep, setRoot] at h
      split at h
      · cases h
        exact .inl hg
      · cases h

/-! ### Transactions that are under way -/

/-- A committed page, the bitset page of one, or any committed bitset page. -/
def Sys.Base (s : Sys W) (i : Nat) : Prop :=
  Holds (W := W) s.committed.live i ∨ ∃ g, i = bitsetPage W g ∧ i < s.committed.header.pageCount

/-- A transaction that has cut nothing committed off; its other pages are dirty. -/
structure Sys.Underway (s : Sys W) (m : Media W) : Prop extends s.Sound where
  active : s.pager.transactionActive = true
  pos : 0 < s.pager.header.pageCount ∧ 0 < s.committed.header.pageCount
  committedTracks : Tracks s.committed.page s.committed.header.pageCount s.committed.live
  kept : ∀ i, Holds (W := W) s.committed.live i → s.pager.load i = s.committed.page i
  clean : ∀ i, s.Base i → s.pager.CleanAt i ∧ ∃ data, s.pager.load i = some data
  fresh : ∀ i, Holds (W := W) s.live i → Holds (W := W) s.committed.live i ∨ s.pager.Dirty i
  freshBits : ∀ g, bitsetPage W g < s.pager.header.pageCount →
    bitsetPage W g < s.committed.header.pageCount ∨ s.pager.Dirty (bitsetPage W g)
  headerOrigin : s.pager.headerInWriteSet = false → s.pager.header = s.committed.header
  files : s.pager.files = m.files
  synced : m.pendingWal = []
  wal : ∃ wal, s.pager.wal = some wal ∧ wal.salt = m.wal.salt ∧ wal.frameCount = m.wal.frameCount
  safe : Safe m s.committed

namespace Sys.Underway

variable {s s' : Sys W} {m : Media W}

theorem frameOf_eq_none (hs : s.Underway m) {i : Nat}
    (hnone : lastFrame m.wal.frames m.wal.frameCount (.page i) = none) : s.pager.frameOf i = none := by
  obtain ⟨wal, hwal, -, hcount⟩ := hs.wal
  have hfiles : s.pager.files.wal = m.wal := by
    rw [hs.files, Media.files, hs.synced]
    rfl
  rw [frameOf, hwal]
  dsimp only
  rw [(hs.ok wal hwal).index, hfiles, hcount, hnone]
  rfl

/-- A step, whatever it writes. -/
theorem step (hW : 0 < W) (hs : s.Underway m) {op : TxOp W} (hbits : s.KeepsBitsets (.tx op))
    (hspares : s.SparesCommitted (.tx op)) (hstep : s.pager.txStep op = some s'.pager)
    (hcommitted : s'.committed = s.committed)
    (hlive : ∀ i, Holds (W := W) s'.live i → Holds (W := W) s.live i ∨ s'.pager.Dirty i) :
    ∃ ops, s'.pager.issued = s.pager.issued ++ ops ∧ s'.Underway (m.run ops) ∧ Through (Safe · s.committed) m ops := by
  have htx := Pager.txStep_inTx hstep
  have hspared : ∀ i, s.Base i → s.pager.frameOf i = none → ∀ n ∈ (op.growTarget s.pager).toList, i < n := by
    intro i hi hframe n hn
    cases op with
    | newPage =>
        rcases hi with hi | ⟨g, rfl, hg⟩
        · exact hspares n (Option.mem_toList.mp hn) i hi hframe
        · exact hbits.2 n (Option.mem_toList.mp hn) g hg hframe
    | _ => cases hn
  have hload : ∀ i data, s.Base i → s.pager.load i = some data → s'.pager.load i = some data :=
    fun i data hi hdata => load_of_spared htx hdata (hspared i hi)
  have hdirty : ∀ i, s.pager.Dirty i → s'.pager.Dirty i := fun i hi => by
    by_contra hnot
    exact (content_txStep hstep hnot).1 hi
  have hbase : ∀ i, s'.Base i ↔ s.Base i := fun i => by rw [Base, Base, hcommitted]
  generalize (op.growTarget s.pager).toList = ns at htx hspared
  have hmap : (ns.map fun n => IoOp.main (MainOp.resize n)) = (ns.map MainOp.resize).map (IoOp.main (W := W)) := by
    rw [List.map_map]
    rfl
  obtain ⟨hthrough, hrun⟩ := @Safe.through_main _ m s.committed hs.safe (ns.map MainOp.resize) <| by
    intro op hop
    obtain ⟨n, hn, rfl⟩ := List.mem_map.mp hop
    exact ⟨fun _ => trivial, fun i data hi _ hnone => hspared i (.inl hi) (hs.frameOf_eq_none hnone) n hn⟩
  refine ⟨ns.map fun n => .main (.resize n), by rw [htx.eq], ?_, ?_⟩
  · refine ⟨⟨htx.storageOk hs.ok, fun _ => ?_, fun hidle => ?_⟩, ?_, ⟨pageCount_pos_txStep hstep hs.pos.1, ?_⟩,
      hcommitted ▸ hs.committedTracks, fun i hi => ?_, fun i hi => ?_, fun i hi => ?_, fun g hg => ?_, fun hset => ?_,
      ?_, ?_, ?_, ?_⟩
    · rw [hcommitted, htx.eq]
      exact hs.saved hs.active
    · rw [htx.eq] at hidle
      exact absurd (hs.active.symm.trans hidle) (by decide)
    · rw [htx.eq]
      exact hs.active
    · rw [hcommitted]
      exact hs.pos.2
    · rw [hcommitted] at hi ⊢
      obtain ⟨-, -, data, hdata⟩ := hs.committedTracks.holds hi
      rw [hdata]
      exact hload i data (.inl hi) ((hs.kept i hi).trans hdata)
    · have hi := (hbase i).mp hi
      obtain ⟨hclean, data, hdata⟩ := hs.clean i hi
      refine ⟨fun entry hlookup hnot => ?_, data, hload i data hi hdata⟩
      rcases lookup_clean_txStep hstep hlookup hnot with hold | ⟨-, hold⟩
      · exact hload i _ hi (hclean entry hold hnot)
      · exact hload i _ hi hold
    · rw [hcommitted]
      rcases hlive i hi with hold | hnew
      · exact (hs.fresh i hold).imp_right (hdirty i)
      · exact .inr hnew
    · rw [hcommitted]
      rcases bitset_txStep hW hstep hs.pos.1 hg with hold | hnew
      · exact (hs.freshBits g hold).imp_right (hdirty _)
      · exact .inr hnew
    · obtain ⟨hset', hheader⟩ := header_txStep hstep hset
      rw [hheader, hcommitted]
      exact hs.headerOrigin hset'
    · rw [htx.eq, Media.files_run, ← hs.files, hmap, foldl_mainOps, List.foldl_map]
      rfl
    · rw [hmap, hrun]
      exact hs.synced
    · rw [hmap, hrun, htx.eq]
      exact hs.wal
    · rw [hmap, hcommitted]
      exact hthrough.last
  · rw [hmap]
    exact hthrough

/-- At the end of its programs, when the allocated pages are known, a transaction is as one that wrote to these alone. -/
theorem durable (hs : s.Underway m) {live : Finset Nat} {h : Blob.Heap W} (hviews : Blob.Views s live h)
    (hfull : ∀ i ∈ live, ∃ data, h i = some data) : s.Durable m := by
  have htracks : Tracks s.pager.content s.pager.header.pageCount s.live := by
    intro k hk
    have hk' : k ∈ live := hviews.live_eq ▸ hk
    obtain ⟨hlt, g, j, hj, rfl⟩ := hviews.covers.page k hk'
    obtain ⟨data, hdata⟩ := hfull _ hk'
    obtain ⟨bitset, hbitset, hbits⟩ := hviews.covers.bits g (by rw [freePage] at hlt; omega)
    exact ⟨hlt, ⟨data, (hviews.page _ _ hdata).2⟩, g, j, bitset, hj, rfl, hbitset, hbits j hj hk'⟩
  refine ⟨hs.toSound, hs.pos, htracks, hs.committedTracks, fun i hi => ?_, fun i hi hnot => ?_, hs.headerOrigin, hs.kept,
    hs.files, hs.synced, hs.wal, hs.safe⟩
  · rcases hs.fresh i hi with hcom | ⟨data, hdata⟩
    · exact (hs.clean i (.inl hcom)).1
    · intro entry hentry hclean
      cases hdata.symm.trans hentry
      cases hclean
  · have hcom := (hs.fresh i hi).resolve_right hnot
    refine ⟨hcom, ?_⟩
    rw [← hs.kept i hcom]
    cases hlookup : s.pager.pageCache.lookup i with
    | none => exact content_of_not_cached hlookup
    | some entry =>
        have hclean : entry.dirty = false := by
          by_contra hdirty
          exact hnot ⟨entry.data, by rw [hlookup, ← Bool.eq_true_of_not_eq_false hdirty]⟩
        rw [content_of_cached hlookup]
        exact ((hs.clean i (.inl hcom)).1 entry hlookup hclean).symm

/-- A bitset page of the transaction has a clean entry, or a dirty one. -/
theorem cleanAt_bitset (hs : s.Underway m) {g : Nat} (hg : bitsetPage W g < s.pager.header.pageCount) :
    s.pager.CleanAt (bitsetPage W g) := by
  rcases hs.freshBits g hg with hcom | ⟨data, hdata⟩
  · exact (hs.clean _ (.inr ⟨g, rfl, hcom⟩)).1
  · intro entry hentry hclean
    cases hdata.symm.trans hentry
    cases hclean

end Sys.Underway

/-! ### Programs -/

/-- What an allocation must find. -/
def Sys.Commits (s : Sys W) : Prop := Blob.Allocates s ∧ s.Keeps

/-- A program does in a transaction what it does on its pages, and a crash in the midst of it leaves what was
committed. -/
theorem Sys.Underway.run {α : Type} (hW : 0 < W) {s : Sys W} {salt : BitVec 64} (checkpointInterval : Nat)
    (hs : s.Underway (mediaOf salt s.pager.issued)) {prog : Blob.BlobProgram W α} {Q : Sys W → α → Prop}
    (hdoes : Blob.Does prog Q s) (hmeets : prog.Meets Blob.store Sys.Commits s) :
    ∃ s' a, prog.run Blob.store s = some (s', a) ∧ Q s' a ∧ s'.Underway (mediaOf salt s'.pager.issued) ∧
      s'.committed = s.committed ∧ s.pager.issued <+: s'.pager.issued ∧
      CrashesTo salt checkpointInterval s.pager.issued s'.pager.issued s.committed s.committed := by
  have hstep : ∀ {s s' : Sys W} {op : TxOp W}, s.Underway (mediaOf salt s.pager.issued) → s.KeepsBitsets (.tx op) →
      s.SparesCommitted (.tx op) → s.pager.txStep op = some s'.pager → s'.committed = s.committed →
      (∀ i, Holds (W := W) s'.live i → Holds (W := W) s.live i ∨ s'.pager.Dirty i) →
      s'.Underway (mediaOf salt s'.pager.issued) ∧ s.pager.issued <+: s'.pager.issued ∧
        CrashesTo salt checkpointInterval s.pager.issued s'.pager.issued s.committed s.committed := by
    intro s s' op hs hbits hspares hstep hcommitted hlive
    obtain ⟨new, hissued, hs', hthrough⟩ := hs.step hW hbits hspares hstep hcommitted hlive
    have hmedia : mediaOf salt s'.pager.issued = (mediaOf salt s.pager.issued).run new := by
      rw [hissued, mediaOf, Media.run, List.foldl_append]
      rfl
    refine ⟨hmedia ▸ hs', ⟨new, hissued.symm⟩, ?_⟩
    rintro _ ⟨done, rfl⟩ hbefore f hf
    rw [hissued] at hbefore
    rw [mediaOf, Media.run, List.foldl_append] at hf
    have hsafe := hthrough.of_prefix ((List.prefix_append_right_inj _).mp hbefore)
    exact .inl (recovers_of_consistent (hsafe.consistent hf) hs.committedTracks _)
  -- the rest of a program, behind a step
  have hrest : ∀ {s s' : Sys W} (s₁ : Sys W), s₁.committed = s.committed → s.pager.issued <+: s₁.pager.issued →
      CrashesTo salt checkpointInterval s.pager.issued s₁.pager.issued s.committed s.committed →
      s'.committed = s₁.committed → s₁.pager.issued <+: s'.pager.issued →
      CrashesTo salt checkpointInterval s₁.pager.issued s'.pager.issued s₁.committed s₁.committed →
      s'.committed = s.committed ∧ s.pager.issued <+: s'.pager.issued ∧
        CrashesTo salt checkpointInterval s.pager.issued s'.pager.issued s.committed s.committed := by
    intro s s' s₁ hcom hissued hcrashes hcom' hissued' hcrashes'
    rw [hcom] at hcrashes' hcom'
    exact ⟨hcom', hissued.trans hissued', hcrashes.trans hcrashes' hissued'⟩
  induction prog generalizing s with
  | done a =>
      refine ⟨s, a, rfl, hdoes, hs, rfl, List.prefix_rfl, ?_⟩
      intro done hbase hdone f hf
      obtain rfl := hbase.eq_of_length_le hdone.length_le
      exact .inl (recovers_of_consistent (hs.safe.consistent hf) hs.committedTracks _)
  | fail => exact hdoes.elim
  | newPage next ih =>
      obtain ⟨⟨hallocates, hbits, hspares, -⟩, hmeets⟩ := hmeets
      obtain ⟨s₁, idx, hnew, hdoes⟩ := hdoes hallocates
      obtain ⟨⟨p, idx⟩, hp, heq⟩ := Option.map_eq_some_iff.mp hnew
      cases heq
      have htx : s.txStep .newPage = some { s with pager := p, live := insert idx s.live } :=
        Option.map_eq_some_iff.mpr ⟨_, hp, rfl⟩
      obtain ⟨hs₁, hissued, hcrashes⟩ := hstep hs hbits hspares (Sys.txStep_pager htx).1 rfl
        fun i hi => Sys.holds_txStep hW hs.pos.1 htx hi
      obtain ⟨s', a, hrun, hQ, hs', h₁, h₂, h₃⟩ := ih idx hs₁ hdoes (hmeets _ _ hnew)
      exact ⟨s', a, by rw [PageProgram.run, hnew]; exact hrun, hQ, hs',
        hrest { s with pager := p, live := insert idx s.live } rfl hissued hcrashes h₁ h₂ h₃⟩
  | deletePage idx next ih =>
      obtain ⟨s₁, hdelete, hdoes⟩ := hdoes
      obtain ⟨p, hp, rfl⟩ := Option.map_eq_some_iff.mp hdelete
      have htx : s.txStep (.deletePage idx) = some { s with pager := p, live := s.live.erase idx } := hdelete
      obtain ⟨hs₁, hissued, hcrashes⟩ := @hstep s _ (.deletePage idx) hs trivial trivial (Sys.txStep_pager htx).1 rfl
        fun i hi => Sys.holds_txStep hW hs.pos.1 htx hi
      obtain ⟨s', a, hrun, hQ, hs', h₁, h₂, h₃⟩ := ih hs₁ hdoes (hmeets _ hdelete)
      exact ⟨s', a, by rw [PageProgram.run, hdelete]; exact hrun, hQ, hs',
        hrest { s with pager := p, live := s.live.erase idx } rfl hissued hcrashes h₁ h₂ h₃⟩
  | rpage idx next ih =>
      obtain ⟨s₁, page, hread, hdoes⟩ := hdoes
      obtain ⟨⟨p, page⟩, hp, heq⟩ := Option.map_eq_some_iff.mp hread
      cases heq
      have htx : s.pager.txStep (.read idx) = some p := Option.map_eq_some_iff.mpr ⟨_, hp, rfl⟩
      obtain ⟨hs₁, hissued, hcrashes⟩ := @hstep s { s with pager := p } (.read idx) hs trivial trivial htx rfl
        fun i hi => .inl hi
      obtain ⟨s', a, hrun, hQ, hs', h₁, h₂, h₃⟩ := ih page hs₁ hdoes (hmeets _ _ hread)
      exact ⟨s', a, by rw [PageProgram.run, hread]; exact hrun, hQ, hs',
        hrest { s with pager := p } rfl hissued hcrashes h₁ h₂ h₃⟩
  | rwpage idx write next ih =>
      obtain ⟨s₁, page, hwrite, hdoes⟩ := hdoes
      obtain ⟨⟨p, page⟩, hp, heq⟩ := Option.map_eq_some_iff.mp hwrite
      cases heq
      have htx : s.pager.txStep (.write idx (write page)) = some (p.insertCache idx (write page) true) :=
        Option.bind_eq_some_iff.mpr ⟨_, hp, rfl⟩
      obtain ⟨hs₁, hissued, hcrashes⟩ := @hstep s { s with pager := p.insertCache idx (write page) true }
        (.write idx (write page)) hs trivial trivial htx rfl fun i hi => .inl hi
      obtain ⟨s', a, hrun, hQ, hs', h₁, h₂, h₃⟩ := ih page hs₁ hdoes (hmeets _ _ hwrite)
      exact ⟨s', a, by rw [PageProgram.run, hwrite]; exact hrun, hQ, hs',
        hrest { s with pager := p.insertCache idx (write page) true } rfl hissued hcrashes h₁ h₂ h₃⟩

end Pager

/-! ### Between transactions -/

namespace Blob

open Pager

/-- A pager between transactions with these live pages, all of which `h` describes. -/
structure Rests (s : Sys W) (live : Finset Nat) (h : Heap W) : Prop where
  idle : s.pager.transactionActive = false
  covers : Covers s.pager.content s.pager.header.pageCount live
  live_eq : s.live = live
  page : ∀ i data, h i = some data → i ∈ live ∧ s.pager.content i = some data
  full : ∀ i ∈ live, ∃ data, h i = some data

variable {s s' : Sys W} {live : Finset Nat} {h : Heap W} {m : Media W}

/-- A transaction begins. -/
theorem Rests.begin (hs : Rests s live h) (hdurable : s.Durable m) :
    ∃ s', s.step .begin = some s' ∧ Views s' live h ∧ s'.Underway m ∧ s'.committed = s.committed ∧
      s'.pager.issued = s.pager.issued := by
  obtain ⟨hheader, hlive, hempty, hset⟩ := hdurable.idle hs.idle
  let p : Pager W := { s.pager with savedHeader := s.pager.header, transactionActive := true }
  have hp : s.pager.begin = some p := by
    rw [Pager.begin, if_neg (by rw [hs.idle]; decide)]
  have hstep : s.step .begin = some { s with pager := p } := Option.map_eq_some_iff.mpr ⟨p, hp, rfl⟩
  have hload : ∀ i, s.pager.content i = s.pager.load i := content_of_empty hempty
  refine ⟨{ s with pager := p }, hstep, ⟨rfl, hdurable.ok, hs.covers, hs.live_eq, hs.page⟩, ?_, rfl, rfl⟩
  refine ⟨@Sys.Sound.step _ s _ .begin hdurable.toSound hstep, rfl, hdurable.pos, hdurable.committedTracks, hdurable.kept,
    fun i hi => ⟨cleanAt_of_empty hempty i, ?_⟩, fun i hi => .inl (hlive ▸ hi), fun g hg => .inl (hheader ▸ hg),
    hdurable.headerOrigin, hdurable.files, hdurable.synced, hdurable.wal, hdurable.safe⟩
  change ∃ data, s.pager.load i = some data
  rcases hi with hi | ⟨g, rfl, hg⟩
  · obtain ⟨-, -, data, hdata⟩ := hdurable.committedTracks.holds hi
    exact ⟨data, (hdurable.kept i hi).trans hdata⟩
  · obtain ⟨bitset, hbitset, -⟩ := hs.covers.bits g (hheader ▸ hg)
    exact ⟨bitset, (hload _).symm.trans hbitset⟩

/-- A transaction is committed. -/
theorem Views.commit (hs : Views s live h) (hfull : ∀ i ∈ live, ∃ data, h i = some data) (hunder : s.Underway m)
    (hstep : s.step .commit = some s') : Rests s' live h := by
  have hdurable := hunder.durable hs hfull
  obtain ⟨p, hp, rfl⟩ := Option.map_eq_some_iff.mp hstep
  have hdone := commit_spec hp hs.ok
  have hkeep : ∀ i < s.pager.header.pageCount, s.pager.CleanAt i → ∀ data, s.pager.content i = some data →
      p.content i = some data := fun i hi hclean data hdata => by
    rw [content_of_empty hdone.empty]
    exact hdone.page i hi hclean data hdata
  refine ⟨hdone.inactive, ⟨?_, fun g hg => ?_, fun i hi => ?_⟩, hs.live_eq, fun i data hi => ?_, hfull⟩
  · change 0 < p.header.pageCount
    rw [hdone.header_eq]
    exact hs.covers.pos
  · change bitsetPage W g < p.header.pageCount at hg
    rw [hdone.header_eq] at hg
    obtain ⟨bitset, hbitset, hbits⟩ := hs.covers.bits g hg
    exact ⟨bitset, hkeep _ hg (hunder.cleanAt_bitset hg) bitset hbitset, hbits⟩
  · change i < p.header.pageCount ∧ _
    rw [hdone.header_eq]
    exact hs.covers.page i hi
  · obtain ⟨hlive, hcontent⟩ := hs.page i data hi
    have hheld : Pager.Holds (W := W) s.live i := .inl (hs.live_eq.symm ▸ hlive)
    exact ⟨hlive, hkeep i (hs.covers.page i hlive).1 (hdurable.clean i hheld) data hcontent⟩

end Blob

end Plexdb
