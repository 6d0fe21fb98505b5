import Plexdb.PagerCrash

/-! Durability. In a run in which `new_page` cuts nothing committed off the main file, a crash between
any two I/O operations leaves files from which the last committed state is recovered, or, inside a
commit, the one being committed. -/

namespace Plexdb

open Pager

variable {W : Nat}

namespace Pager

/-! ### Dirty pages during a transaction -/

def Dirty (p : Pager W) (i : Nat) : Prop := ∃ data, p.pageCache.lookup i = some ⟨data, true⟩

theorem dirty_insertCache (p : Pager W) (i : Nat) (data : Page W) :
    (p.insertCache i data true).Dirty i :=
  ⟨data, by rw [lookup_insertCache, if_pos rfl]⟩

theorem Dirty.insertCache {p : Pager W} {i : Nat} (h : p.Dirty i) (idx : Nat) (data : Page W) :
    (p.insertCache idx data true).Dirty i := by
  by_cases heq : i = idx
  · exact heq ▸ dirty_insertCache p i data
  · obtain ⟨x, hx⟩ := h
    exact ⟨x, by rw [lookup_insertCache, if_neg heq, hx]⟩

/-- No page leaves the cache before the transaction ends. -/
theorem lookup_none_txStep {p p' : Pager W} {op : TxOp W} (h : p.txStep op = some p') {i : Nat}
    (hnone : p'.pageCache.lookup i = none) : p.pageCache.lookup i = none := by
  cases op with
  | newPage =>
      obtain ⟨⟨q, idx⟩, hnew, rfl⟩ := Option.map_eq_some_iff.mp h
      obtain ⟨-, r, htouched, ⟨g, bitset, j, -, -, rfl⟩ | ⟨-, -, -, -, bitset, -, rfl⟩⟩ :=
        newPage_spec hnew
      · rw [takeSlot, ensurePageZeroed] at hnone
        have hnone := lookup_none_of_insertCache hnone
        split at hnone <;> exact htouched.kept i (lookup_none_of_insertCache hnone)
      · rw [addGroup, ensurePageZeroed] at hnone
        exact htouched.kept i (lookup_none_of_insertCache
          (lookup_none_of_insertCache (lookup_none_of_insertCache hnone)))
  | deletePage idx =>
      obtain ⟨-, -, g, j, bitset, -, -, -, -, ⟨-, rfl⟩ | ⟨-, n, q, htouched, -, rfl⟩⟩ :=
        deletePage_spec h
      · exact lookup_none_of_insertCache (lookup_none_of_insertCache hnone)
      · exact lookup_none_of_insertCache (lookup_none_of_insertCache (htouched.kept i hnone))
  | write idx data =>
      obtain ⟨⟨q, old⟩, hread, h⟩ := Option.bind_eq_some_iff.mp h
      cases h
      exact (rwpage_touched hread).kept i (lookup_none_of_insertCache hnone)
  | read idx =>
      obtain ⟨⟨q, data⟩, hread, rfl⟩ := Option.map_eq_some_iff.mp h
      exact (rpage_eq_some hread).2.2.2.1.kept i hnone
  | setRoot page =>
      rw [txStep, setRoot] at h
      split at h
      · cases h
        exact hnone
      · cases h

/-- A page that is not dirty after a step was not before, and reads the same. -/
theorem content_txStep {p p' : Pager W} {op : TxOp W} (h : p.txStep op = some p') {i : Nat}
    (hclean : ¬ p'.Dirty i) : ¬ p.Dirty i ∧ (i < p.header.pageCount → ∀ data,
      p.content i = some data → p'.content i = some data) := by
  cases hlookup : p'.pageCache.lookup i with
  | none =>
      have hnone := lookup_none_txStep h hlookup
      refine ⟨fun ⟨data, hdata⟩ => absurd (hnone.symm.trans hdata) nofun, fun hi data hdata => ?_⟩
      rw [content_of_not_cached hnone] at hdata
      rw [content_of_not_cached hlookup]
      exact load_txStep h hi hdata
  | some entry =>
      obtain ⟨x, dirty⟩ := entry
      cases dirty with
      | true => exact absurd ⟨x, hlookup⟩ hclean
      | false =>
          rcases lookup_clean_txStep h hlookup rfl with hold | ⟨hnone, hload⟩
          · refine ⟨fun ⟨data, hdata⟩ => absurd (hold.symm.trans hdata) (by simp),
              fun _ data hdata => ?_⟩
            rw [content_of_cached hold] at hdata
            rw [content_of_cached hlookup]
            exact hdata
          · refine ⟨fun ⟨data, hdata⟩ => absurd (hnone.symm.trans hdata) nofun,
              fun _ data hdata => ?_⟩
            rw [content_of_not_cached hnone, hload] at hdata
            rw [content_of_cached hlookup]
            exact hdata

/-- The header changes only into the write set. -/
theorem header_txStep {p p' : Pager W} {op : TxOp W} (h : p.txStep op = some p')
    (hset : p'.headerInWriteSet = false) : p.headerInWriteSet = false ∧ p'.header = p.header := by
  cases op with
  | newPage =>
      obtain ⟨⟨q, idx⟩, hnew, rfl⟩ := Option.map_eq_some_iff.mp h
      obtain ⟨-, r, htouched, ⟨g, bitset, j, -, -, rfl⟩ | ⟨-, -, -, -, bitset, -, rfl⟩⟩ :=
        newPage_spec hnew
      · rw [takeSlot] at hset ⊢
        dsimp only at hset ⊢
        split at hset
        · cases hset
        · rename_i hroom
          rw [if_neg hroom]
          exact ⟨by rw [htouched.rest] at hset; exact hset, htouched.header_eq⟩
      · cases hset
  | deletePage idx =>
      obtain ⟨-, -, g, j, bitset, -, -, -, -, ⟨-, rfl⟩ | ⟨-, n, q, htouched, -, rfl⟩⟩ :=
        deletePage_spec h
      · exact ⟨hset, rfl⟩
      · cases hset
  | write idx data =>
      obtain ⟨⟨q, old⟩, hread, h⟩ := Option.bind_eq_some_iff.mp h
      cases h
      have htouched := rwpage_touched hread
      exact ⟨by rw [htouched.rest] at hset; exact hset, htouched.header_eq⟩
  | read idx =>
      obtain ⟨⟨q, data⟩, hread, rfl⟩ := Option.map_eq_some_iff.mp h
      have htouched := (rpage_eq_some hread).2.2.2.1
      exact ⟨by rw [htouched.rest] at hset; exact hset, htouched.header_eq⟩
  | setRoot page =>
      rw [txStep, setRoot] at h
      split at h
      · cases h
        cases hset
      · cases h

/-! ### Live pages stay readable -/

theorem Tracks.mono {content content' : Nat → Option (Page W)} {pageCount : Nat} {live : Finset Nat}
    (h : Tracks content pageCount live) (heq : ∀ i, Holds (W := W) live i → ∀ data,
      content i = some data → content' i = some data) : Tracks content' pageCount live := by
  intro k hk
  obtain ⟨hlt, ⟨data, hdata⟩, g, j, bitset, hj, rfl, hbitset, hbit⟩ := h k hk
  refine ⟨hlt, ⟨data, heq _ (.inl hk) data hdata⟩, g, j, bitset, hj, rfl, heq _ (.inr ⟨_, hk, ?_⟩)
    bitset hbitset, hbit⟩
  rw [groupOf_freePage hj]

theorem Tracks.takeSlot {p q : Pager W} {live : Finset Nat} {g j : Nat} {bitset : Page W}
    (h : Tracks p.content p.header.pageCount live) (htouched : Touched p q)
    (hslot : p.FreeSlot 0 g bitset j) :
    Tracks (q.takeSlot g bitset j).content (q.takeSlot g bitset j).header.pageCount
      (insert (freePage W g j) live) := by
  rw [pageCount_takeSlot, htouched.header_eq]
  have hnew := @content_takeSlot_bitset _ q g j bitset hslot.lt
  intro k hk
  rcases Finset.mem_insert.mp hk with rfl | hk
  · refine ⟨by omega, ⟨Page.zero, ?_⟩, g, j, _, hslot.lt, rfl, hnew, ?_⟩
    · rw [Pager.takeSlot, ensurePageZeroed, content_insertCache, if_pos rfl]
    · rw [Page.bit_setBit _ hslot.lt]
      simp
  · obtain ⟨hlt, ⟨data, hdata⟩, g', j', bitset', hj', rfl, hbitset', hbit'⟩ := h k hk
    have hb : bitsetPage W g' < p.header.pageCount := by
      rw [freePage] at hlt
      omega
    refine ⟨by omega, ⟨data, ?_⟩, g', j', ?_⟩
    · refine content_takeSlot ((htouched.content_eq _).trans hdata) (htouched.header_eq ▸ hlt)
        (freePage_ne_bitsetPage hj') fun heq => ?_
      obtain ⟨rfl, rfl⟩ := freePage_inj hj' hslot.lt heq
      obtain rfl := Option.some.inj (hbitset'.symm.trans hslot.content_eq)
      exact Bool.noConfusion (hbit'.symm.trans hslot.clear)
    · by_cases hg : g' = g
      · subst hg
        obtain rfl := Option.some.inj (hbitset'.symm.trans hslot.content_eq)
        refine ⟨_, hj', rfl, hnew, ?_⟩
        rw [Page.bit_setBit _ hslot.lt, hbit']
        rfl
      · refine ⟨bitset', hj', rfl, content_takeSlot ((htouched.content_eq _).trans hbitset')
          (htouched.header_eq ▸ hb) (fun heq => hg (bitsetPage_inj heq))
          (freePage_ne_bitsetPage hslot.lt).symm, hbit'⟩

theorem Tracks.addGroup {p q : Pager W} {live : Finset Nat} {bitset : Page W} (hW : 0 < W)
    (h : Tracks p.content p.header.pageCount live) (htouched : Touched p q)
    (hpos : 0 < p.header.pageCount) (halign : (p.header.pageCount - 1) % stride W = 0) :
    Tracks (q.addGroup bitset).content (q.addGroup bitset).header.pageCount
      (insert (p.header.pageCount + 1) live) := by
  have hcount : (q.addGroup bitset).header.pageCount = p.header.pageCount + 2 := by
    rw [← htouched.header_eq]
    rfl
  have hlast := eq_bitsetPage hpos halign
  have hold : ∀ i data, i < p.header.pageCount → p.content i = some data →
      (q.addGroup bitset).content i = some data := by
    intro i data hi hdata
    rw [content_addGroup, htouched.header_eq, if_neg (by omega), if_neg (by omega)]
    exact content_grow ((htouched.content_eq _).trans hdata) (by omega)
  rw [hcount]
  intro k hk
  rcases Finset.mem_insert.mp hk with rfl | hk
  · refine ⟨by omega, ⟨Page.zero, ?_⟩, (p.header.pageCount - 1) / stride W, 0, bitset.setBit 0,
      by omega, ?_, ?_, ?_⟩
    · rw [content_addGroup, htouched.header_eq, if_pos rfl]
    · rw [freePage, ← hlast]
    · rw [← hlast, content_addGroup, htouched.header_eq, if_neg (by omega), if_pos rfl]
    · rw [Page.bit_setBit _ (by omega)]
      simp
  · obtain ⟨hlt, ⟨data, hdata⟩, g, j, bitset', hj, rfl, hbitset', hbit'⟩ := h k hk
    refine ⟨by omega, ⟨data, hold _ data hlt hdata⟩, g, j, bitset', hj, rfl,
      hold _ bitset' ?_ hbitset', hbit'⟩
    rw [freePage] at hlt
    omega

theorem Tracks.deletePage {p p' : Pager W} {idx : Nat} {live : Finset Nat}
    (h : Tracks p.content p.header.pageCount live) (hdelete : p.deletePage idx = some p') :
    Tracks p'.content p'.header.pageCount (live.erase idx) := by
  obtain ⟨-, -, g, j, bitset, hj, rfl, hbitset, -, hcases⟩ := deletePage_spec hdelete
  -- the page and its bit after the free
  have hfreed : ∀ k ∈ live.erase (freePage W g j), k < p.header.pageCount ∧
      (∃ data, (p.freed g j bitset).content k = some data) ∧ ∃ g' j' bitset', j' < 64 * W ∧
      k = freePage W g' j' ∧ (p.freed g j bitset).content (bitsetPage W g') = some bitset' ∧
      bitset'.bit j' = true ∧ (g' = g → bitset' = bitset.clearBit j) := by
    intro k hk
    obtain ⟨hne, hk⟩ := Finset.mem_erase.mp hk
    obtain ⟨hlt, ⟨data, hdata⟩, g', j', bitset', hj', rfl, hbitset', hbit'⟩ := h k hk
    refine ⟨hlt, ⟨data, ?_⟩, g', j', ?_⟩
    · rw [content_freed, if_neg hne, if_neg (freePage_ne_bitsetPage hj'), hdata]
    · by_cases hg : g' = g
      · subst hg
        obtain rfl := Option.some.inj (hbitset'.symm.trans hbitset)
        refine ⟨bitset'.clearBit j, hj', rfl, ?_, ?_, fun _ => rfl⟩
        · rw [content_freed, if_neg (freePage_ne_bitsetPage hj).symm, if_pos rfl]
        · have hjj : j' ≠ j := fun heq => hne (by rw [heq])
          rw [Page.bit_clearBit, hbit']
          simp [hjj]
      · refine ⟨bitset', hj', rfl, ?_, hbit', fun heq => absurd heq hg⟩
        rw [content_freed, if_neg (freePage_ne_bitsetPage hj).symm,
          if_neg fun heq => hg (bitsetPage_inj heq), hbitset']
  rcases hcases with ⟨-, rfl⟩ | ⟨hlast, n, q, htouched, htrimmed, rfl⟩
  · intro k hk
    obtain ⟨hlt, hdata, g', j', bitset', hj', hk', hbitset', hbit', -⟩ := hfreed k hk
    exact ⟨hlt, hdata, g', j', bitset', hj', hk', hbitset', hbit'⟩
  · have hcount : q.header.pageCount = n := by
      rw [htouched.header_eq]
      rfl
    have hsame : ∀ i, q.content i = (p.freed g j bitset).content i := htouched.content_eq
    change Tracks q.content q.header.pageCount _
    rw [hcount]
    intro k hk
    have hne := (Finset.mem_erase.mp hk).1
    obtain ⟨hlt, ⟨data, hdata⟩, g', j', bitset', hj', rfl, hbitset', hbit', hgroup⟩ := hfreed k hk
    refine ⟨htrimmed.above _ ?_, ⟨data, (hsame _).trans hdata⟩, g', j', bitset', hj', rfl,
      (hsame _).trans hbitset', hbit'⟩
    have hle : freePage W g' j' ≤ freePage W g j := by omega
    rcases Nat.lt_or_eq_of_le (groups_le hj hle) with hlt' | rfl
    · exact .inr ⟨g', bitset', hlt', hbitset', j', hj', rfl, hbit'⟩
    · refine .inl ⟨j', ?_, rfl, hgroup rfl ▸ hbit'⟩
      rw [freePage, freePage] at hle
      omega

theorem pageCount_pos_txStep {p p' : Pager W} {op : TxOp W} (h : p.txStep op = some p')
    (hpos : 0 < p.header.pageCount) : 0 < p'.header.pageCount := by
  cases op with
  | newPage =>
      obtain ⟨⟨q, idx⟩, hnew, rfl⟩ := Option.map_eq_some_iff.mp h
      obtain ⟨-, r, htouched, ⟨g, bitset, j, -, -, rfl⟩ | ⟨-, -, -, -, bitset, -, rfl⟩⟩ :=
        newPage_spec hnew
      · change 0 < (r.takeSlot g bitset j).header.pageCount
        rw [pageCount_takeSlot]
        omega
      · exact Nat.succ_pos _
  | deletePage idx =>
      obtain ⟨-, -, g, j, bitset, -, -, -, -, ⟨-, rfl⟩ | ⟨-, n, q, htouched, htrimmed, rfl⟩⟩ :=
        deletePage_spec h
      · exact hpos
      · change 0 < q.header.pageCount
        rw [htouched.header_eq]
        change 0 < n
        rcases htrimmed.top with rfl | ⟨i, -, rfl⟩ <;> omega
  | write idx data =>
      obtain ⟨⟨q, old⟩, hread, h⟩ := Option.bind_eq_some_iff.mp h
      cases h
      exact (rwpage_touched hread).header_eq ▸ hpos
  | read idx =>
      obtain ⟨⟨q, data⟩, hread, rfl⟩ := Option.map_eq_some_iff.mp h
      exact (rpage_eq_some hread).2.2.2.1.header_eq ▸ hpos
  | setRoot page =>
      rw [txStep, setRoot] at h
      split at h
      · cases h
        exact hpos
      · cases h

/-! ### The invariant -/

/-- The pager and the media behind it. -/
structure Sys.Durable (s : Sys W) (m : Media W) : Prop extends s.Sound where
  pos : 0 < s.pager.header.pageCount ∧ 0 < s.committed.header.pageCount
  tracks : Tracks s.pager.content s.pager.header.pageCount s.live
  committedTracks : Tracks s.committed.page s.committed.header.pageCount s.committed.live
  clean : ∀ i, Holds (W := W) s.live i → s.pager.CleanAt i
  /-- A live page that is not dirty is as committed. -/
  origin : ∀ i, Holds (W := W) s.live i → ¬ s.pager.Dirty i →
    Holds (W := W) s.committed.live i ∧ s.pager.content i = s.committed.page i
  headerOrigin : s.pager.headerInWriteSet = false → s.pager.header = s.committed.header
  /-- The committed pages, as a rollback leaves them. -/
  kept : ∀ i, Holds (W := W) s.committed.live i → s.pager.load i = s.committed.page i
  files : s.pager.files = m.files
  synced : m.pendingWal = []
  wal : ∃ wal, s.pager.wal = some wal ∧ wal.salt = m.wal.salt ∧ wal.frameCount = m.wal.frameCount
  safe : Safe m s.committed

theorem Sys.Durable.wal_eq {s : Sys W} {m : Media W} (h : s.Durable m) :
    s.pager.files.wal = m.wal := by
  rw [h.files, Media.files, h.synced]
  rfl

/-- A page has no frame exactly when the media has none. -/
theorem Sys.Durable.frameOf_eq_none {s : Sys W} {m : Media W} (h : s.Durable m) {i : Nat}
    (hnone : lastFrame m.wal.frames m.wal.frameCount (.page i) = none) :
    s.pager.frameOf i = none := by
  obtain ⟨wal, hwal, -, hcount⟩ := h.wal
  rw [frameOf, hwal]
  dsimp only
  rw [(h.ok wal hwal).index, h.wal_eq, hcount, hnone]
  rfl

/-- `new_page` cuts nothing committed off the main file that the WAL does not hold. -/
def Sys.SparesCommitted (s : Sys W) : Op W → Prop
  | .tx .newPage => ∀ n, s.pager.growTarget = some n → ∀ i, Holds (W := W) s.committed.live i →
      s.pager.frameOf i = none → i < n
  | _ => True

/-! ### Steps inside a transaction -/

theorem Holds.mono {live live' : Finset Nat} (hsub : live' ⊆ live) {i : Nat}
    (h : Holds (W := W) live' i) : Holds (W := W) live i :=
  h.imp (fun hi => hsub hi) fun ⟨k, hk, heq⟩ => ⟨k, hsub hk, heq⟩

/-- A page that the step allocates is dirty, and so is its bitset page. -/
theorem Sys.holds_txStep {s s' : Sys W} {op : TxOp W} (hW : 0 < W)
    (hpos : 0 < s.pager.header.pageCount) (h : s.txStep op = some s') {i : Nat}
    (hi : Holds (W := W) s'.live i) : Holds (W := W) s.live i ∨ s'.pager.Dirty i := by
  cases op with
  | newPage =>
      obtain ⟨⟨p, idx⟩, hp, rfl⟩ := Option.map_eq_some_iff.mp h
      have hdirty : p.Dirty idx ∧ p.Dirty (bitsetPage W (groupOf W idx)) := by
        obtain ⟨-, r, htouched, ⟨g, bitset, j, hslot, rfl, rfl⟩ |
          ⟨-, -, halign, rfl, bitset, -, rfl⟩⟩ := newPage_spec hp
        · rw [groupOf_freePage hslot.lt, Pager.takeSlot, ensurePageZeroed]
          refine ⟨dirty_insertCache _ _ _, Dirty.insertCache ?_ _ _⟩
          split
          · exact dirty_insertCache r _ _
          · exact dirty_insertCache r _ _
        · have hgroup : groupOf W (s.pager.header.pageCount + 1) =
              (s.pager.header.pageCount - 1) / stride W := by
            have hfree : s.pager.header.pageCount + 1 =
                freePage W ((s.pager.header.pageCount - 1) / stride W) 0 := by
              rw [freePage, ← eq_bitsetPage hpos halign]
            rw [hfree, groupOf_freePage (by omega)]
          rw [hgroup, ← eq_bitsetPage hpos halign, Pager.addGroup, ensurePageZeroed,
            htouched.header_eq]
          exact ⟨dirty_insertCache _ _ _, Dirty.insertCache (dirty_insertCache _ _ _) _ _⟩
      rcases hi with hi | ⟨k, hk, rfl⟩
      · rcases Finset.mem_insert.mp hi with rfl | hi
        · exact .inr hdirty.1
        · exact .inl (.inl hi)
      · rcases Finset.mem_insert.mp hk with rfl | hk
        · exact .inr hdirty.2
        · exact .inl (.inr ⟨k, hk, rfl⟩)
  | deletePage idx =>
      obtain ⟨p, hp, rfl⟩ := Option.map_eq_some_iff.mp h
      exact .inl (hi.mono (Finset.erase_subset _ _))
  | write idx data =>
      rw [Sys.txStep] at h
      split at h
      · obtain ⟨p, hp, rfl⟩ := Option.map_eq_some_iff.mp h
        exact .inl hi
      · cases h
  | read idx =>
      obtain ⟨p, hp, rfl⟩ := Option.map_eq_some_iff.mp h
      exact .inl hi
  | setRoot page =>
      obtain ⟨p, hp, rfl⟩ := Option.map_eq_some_iff.mp h
      exact .inl hi

theorem Sys.tracks_txStep {s s' : Sys W} {op : TxOp W} (hW : 0 < W)
    (hpos : 0 < s.pager.header.pageCount)
    (htracks : Tracks s.pager.content s.pager.header.pageCount s.live)
    (h : s.txStep op = some s') : Tracks s'.pager.content s'.pager.header.pageCount s'.live := by
  have hsame : ∀ p : Pager W, Touched s.pager p → Tracks p.content p.header.pageCount s.live := by
    intro p htouched
    rw [htouched.header_eq, funext htouched.content_eq]
    exact htracks
  cases op with
  | newPage =>
      obtain ⟨⟨p, idx⟩, hp, rfl⟩ := Option.map_eq_some_iff.mp h
      obtain ⟨-, r, htouched, ⟨g, bitset, j, hslot, rfl, rfl⟩ |
        ⟨-, -, halign, rfl, bitset, -, rfl⟩⟩ := newPage_spec hp
      · exact htracks.takeSlot htouched hslot
      · exact htracks.addGroup hW htouched hpos halign
  | deletePage idx =>
      obtain ⟨p, hp, rfl⟩ := Option.map_eq_some_iff.mp h
      exact htracks.deletePage hp
  | write idx data =>
      rw [Sys.txStep] at h
      split at h
      · obtain ⟨p, hp, rfl⟩ := Option.map_eq_some_iff.mp h
        obtain ⟨⟨q, old⟩, hread, hp⟩ := Option.bind_eq_some_iff.mp hp
        cases hp
        intro k hk
        obtain ⟨hlt, ⟨x, hx⟩, g, j, bitset, hj, rfl, hbitset, hbit⟩ := hsame q (rwpage_touched hread) k hk
        obtain ⟨-, -, g', j', -, hj', rfl, -⟩ := htracks idx ‹idx ∈ s.live›
        refine ⟨hlt, ?_, g, j, bitset, hj, rfl, ?_, hbit⟩
        · rw [content_insertCache]
          split
          · exact ⟨data, rfl⟩
          · exact ⟨x, hx⟩
        · rw [content_insertCache, if_neg (freePage_ne_bitsetPage hj').symm, hbitset]
      · cases h
  | read idx =>
      obtain ⟨p, hp, rfl⟩ := Option.map_eq_some_iff.mp h
      obtain ⟨⟨q, data⟩, hread, rfl⟩ := Option.map_eq_some_iff.mp hp
      exact hsame q (rpage_eq_some hread).2.2.2.1
  | setRoot page =>
      obtain ⟨p, hp, rfl⟩ := Option.map_eq_some_iff.mp h
      rw [Pager.txStep, setRoot] at hp
      split at hp
      · cases hp
        exact htracks
      · cases hp

/-- What a step does to the media: the operations it issues, and what a crash among them leaves. -/
def Sys.Steps (s s' : Sys W) (m : Media W) : Prop :=
  ∃ ops, s'.pager.issued = s.pager.issued ++ ops ∧ s'.Durable (m.run ops) ∧
    Through (Either s.committed s'.committed) m ops

theorem Sys.Durable.txStep {s s' : Sys W} {op : TxOp W} {m : Media W} (hW : 0 < W)
    (hs : s.Durable m) (hcond : s.SparesCommitted (.tx op)) (h : s.txStep op = some s') :
    s.Steps s' m := by
  obtain ⟨hstep, hcommitted⟩ := Sys.txStep_pager h
  have htx := Sys.txStep_inTx h
  have hspared : ∀ n ∈ (op.growTarget s.pager).toList, ∀ i, Holds (W := W) s.committed.live i →
      s.pager.frameOf i = none → i < n := by
    intro n hn
    cases op with
    | newPage => exact hcond n (Option.mem_toList.mp hn)
    | _ => cases hn
  generalize (op.growTarget s.pager).toList = ns at htx hspared
  have hmap : (ns.map fun n => IoOp.main (MainOp.resize n)) =
      (ns.map MainOp.resize).map (IoOp.main (W := W)) := by
    rw [List.map_map]
    rfl
  obtain ⟨hthrough, hrun⟩ := @Safe.through_main _ m s.committed hs.safe (ns.map MainOp.resize) <| by
    intro op hop
    obtain ⟨n, hn, rfl⟩ := List.mem_map.mp hop
    exact ⟨fun _ => trivial, fun i data hi _ hnone => hspared n hn i hi (hs.frameOf_eq_none hnone)⟩
  refine ⟨ns.map fun n => .main (.resize n), by rw [htx.eq], ?_, ?_⟩
  · have hclean : ∀ i, Holds (W := W) s.live i → i < s.pager.header.pageCount := fun i hi =>
      (hs.tracks.holds hi).2.1
    refine ⟨@Sound.step _ s s' (.tx op) hs.toSound h, ⟨pageCount_pos_txStep hstep hs.pos.1, ?_⟩,
      Sys.tracks_txStep hW hs.pos.1 hs.tracks h, hcommitted ▸ hs.committedTracks, ?_, ?_, ?_, ?_, ?_,
      ?_, ?_, ?_⟩
    · rw [hcommitted]
      exact hs.pos.2
    · intro i hi
      rcases Sys.holds_txStep hW hs.pos.1 h hi with hold | ⟨data, hdirty⟩
      · exact cleanAt_txStep hstep (hclean i hold) (hs.clean i hold)
      · intro entry hentry hfalse
        cases hdirty.symm.trans hentry
        cases hfalse
    · intro i hi hnot
      obtain ⟨hnot', hcontent⟩ := content_txStep hstep hnot
      rcases Sys.holds_txStep hW hs.pos.1 h hi with hold | hdirty
      · obtain ⟨hcom, heq⟩ := hs.origin i hold hnot'
        obtain ⟨-, -, data, hdata⟩ := hs.tracks.holds hold
        rw [hcommitted, hcontent (hclean i hold) data hdata, ← heq]
        exact ⟨hcom, hdata.symm⟩
      · exact absurd hdirty hnot
    · intro hset
      obtain ⟨hset', hheader⟩ := header_txStep hstep hset
      rw [hheader, hcommitted]
      exact hs.headerOrigin hset'
    · intro i hi
      rw [hcommitted] at hi ⊢
      obtain ⟨-, -, data, hdata⟩ := hs.committedTracks.holds hi
      rw [← hs.kept i hi] at hdata ⊢
      rw [hdata]
      exact load_of_spared htx hdata fun hframe n hn => hspared n hn i hi hframe
    · rw [htx.eq, Media.files_run, ← hs.files, hmap, foldl_mainOps, List.foldl_map]
      rfl
    · rw [hmap, hrun]
      exact hs.synced
    · rw [hmap, hrun, htx.eq]
      exact hs.wal
    · rw [hmap, hcommitted]
      exact hthrough.last
  · rw [hmap]
    exact hthrough.mono fun m hm => hm.either_left s'.committed

/-! ### Commits and checkpoints -/

theorem Sys.Durable.logged {s : Sys W} {m : Media W} (hs : s.Durable m) {wal wal' : Wal}
    {q : Pager W} {ops : List (WalOp W)} (hwal : s.pager.wal = some wal)
    (hlog : Logged s.pager wal q wal' ops) :
    ∃ m₁, m₁ = { m with wal := ops.foldl WalOp.apply m.wal } ∧
      Through (Safe · s.committed) m (ops.map .wal ++ [.syncWal]) ∧
      m.run (ops.map .wal ++ [.syncWal]) = m₁ ∧ q.files.wal = m₁.wal ∧ wal'.salt = m₁.wal.salt ∧
      Safe (m₁.withCount wal'.frameCount) ⟨s.pager.header, s.live, s.pager.content⟩ := by
  obtain ⟨w, hw, hsalt, hcount⟩ := hs.wal
  obtain rfl := Option.some.inj (hwal.symm.trans hw)
  have hbeyond : ∀ op ∈ ops, op.Beyond m.wal.frameCount := hcount ▸ hlog.beyond
  obtain ⟨hthrough, hrun⟩ := hs.safe.through_wal hbeyond
  have hqwal : q.files.wal = ops.foldl WalOp.apply m.wal := by
    rw [hlog.eq, issueAll_files, foldl_walOps, hs.wal_eq]
  have hsalt' : wal'.salt = (ops.foldl WalOp.apply m.wal).salt := by
    rw [hlog.salt, hsalt, (apply_beyond hs.safe.size hbeyond).1]
  have hend : m.run (ops.map .wal ++ [.syncWal]) =
      { m with wal := ops.foldl WalOp.apply m.wal } := by
    have hstep : m.run (ops.map .wal ++ [.syncWal]) = (m.run (ops.map .wal)).step .syncWal := by
      rw [Media.run, List.foldl_append]
      rfl
    rw [hstep, hrun, Media.step, hs.synced, List.nil_append]
  have hstep : Through (Safe · s.committed) (m.run (ops.map .wal)) [.syncWal] :=
    ⟨hthrough.last, @Safe.step _ _ _ hthrough.last .syncWal trivial⟩
  refine ⟨_, rfl, hthrough.append hstep, hend, hqwal, hsalt', ?_⟩
  -- what has no frame is committed in the main file, and its unsynced resizes spare it
  have hnone : ∀ ref, lastFrame (ops.foldl WalOp.apply m.wal).frames wal'.frameCount ref = none →
      lastFrame m.wal.frames m.wal.frameCount ref = none ∧ ∀ w ∈ s.pager.pageWrites, w.1 ≠ ref := by
    intro ref href
    rw [← hqwal] at href
    have := hlog.unlogged ref href
    rwa [hs.wal_eq, hcount] at this
  have hheader : lastFrame (ops.foldl WalOp.apply m.wal).frames wal'.frameCount .header = none →
      s.pager.header = s.committed.header ∧ m.main.header = s.committed.header ∧
        ∀ op ∈ m.pendingMain, op.KeepsHeader s.committed.header := by
    intro href
    obtain ⟨hold, hnot⟩ := hnone _ href
    have hset : s.pager.headerInWriteSet = false := by
      cases hset : s.pager.headerInWriteSet with
      | false => rfl
      | true => exact absurd rfl (hnot _ (mem_pageWrites.mpr (.inr ⟨hset, rfl⟩)))
    have hstored := hs.safe.header
    rw [Files.storedHeader, hold] at hstored
    exact ⟨hs.headerOrigin hset, Option.some.inj hstored, hs.safe.keeps hold⟩
  have hpage : ∀ i, Holds (W := W) s.live i →
      lastFrame (ops.foldl WalOp.apply m.wal).frames wal'.frameCount (.page i) = none →
      ∃ data, s.pager.content i = some data ∧ m.main.readPage i = some data ∧
        ∀ op ∈ m.pendingMain, op.Spares i data := by
    intro i hi href
    obtain ⟨hold, hnot⟩ := hnone _ href
    have hclean : ¬ s.pager.Dirty i := by
      rintro ⟨data, hdata⟩
      exact hnot _ (mem_pageWrites.mpr (.inl ⟨i, data, rfl, hdata, (hs.tracks.holds hi).2.1⟩)) rfl
    obtain ⟨hcom, heq⟩ := hs.origin i hi hclean
    obtain ⟨data, hdata, hstored, hspares⟩ := hs.safe.page i hcom
    rw [Files.stored, hold] at hstored
    exact ⟨data, heq.trans hdata, hstored, hspares hold⟩
  refine ⟨?_, ?_, ?_, ?_, fun href => ?_, fun i hi => ?_⟩
  · exact hqwal ▸ hlog.ok.size
  · intro k hk
    have := hlog.ok.valid k hk
    rwa [hsalt', hqwal] at this
  · change ∀ op ∈ m.pendingWal, _
    rw [hs.synced]
    exact List.forall_mem_nil _
  · change Files.storedHeader ⟨m.main, _⟩ wal'.frameCount = some s.pager.header
    rw [Files.storedHeader]
    dsimp only [Media.withCount]
    have hstored := hlog.header
    rw [Files.storedHeader, hqwal] at hstored
    cases hlast : lastFrame (ops.foldl WalOp.apply m.wal).frames wal'.frameCount .header with
    | none =>
        obtain ⟨heq, hmain, -⟩ := hheader hlast
        dsimp only
        rw [hmain, heq]
    | some k =>
        rw [hlast] at hstored
        refine hstored.trans ?_
        cases hset : s.pager.headerInWriteSet with
        | true => rfl
        | false =>
            have hold := hs.safe.files.header
            rw [← hs.files, hs.wal_eq, ← hcount] at hold
            rw [if_neg Bool.false_ne_true, hs.headerOrigin hset, hold]
  · obtain ⟨heq, -, hkeeps⟩ := hheader href
    change ∀ op ∈ m.pendingMain, op.KeepsHeader s.pager.header
    rw [heq]
    exact hkeeps
  · obtain ⟨-, hlt, data, hdata⟩ := hs.tracks.holds hi
    refine ⟨data, hdata, ?_, fun href => ?_⟩
    · have hstored := hlog.page i hlt (hs.clean i hi) data hdata
      rw [Files.stored, hqwal] at hstored
      change Files.stored ⟨m.main, ops.foldl WalOp.apply m.wal⟩ wal'.frameCount i = some data
      rw [Files.stored]
      cases hlast : lastFrame (ops.foldl WalOp.apply m.wal).frames wal'.frameCount (.page i) with
      | none =>
          obtain ⟨data', hdata', hread, -⟩ := hpage i hi hlast
          cases hdata.symm.trans hdata'
          exact hread
      | some k =>
          rw [hlast] at hstored
          exact hstored
    · obtain ⟨data', hdata', -, hspares⟩ := hpage i hi href
      cases hdata.symm.trans hdata'
      exact hspares

/-- A commit up to the second sync, from where on the new frame count is durable. -/
theorem Sys.Durable.counted {s : Sys W} {m : Media W} (hs : s.Durable m) {wal wal' : Wal}
    {q : Pager W} {ops : List (WalOp W)} (hwal : s.pager.wal = some wal)
    (hlog : Logged s.pager wal q wal' ops) :
    let m' := m.run (commitOps ops wal'.frameCount)
    (q.counted wal').issued = s.pager.issued ++ commitOps ops wal'.frameCount ∧
      (q.counted wal').files = m'.files ∧ m'.pendingWal = [] ∧ wal'.salt = m'.wal.salt ∧
      wal'.frameCount = m'.wal.frameCount ∧
      Safe m' ⟨s.pager.header, s.live, s.pager.content⟩ ∧
      Through (Either s.committed ⟨s.pager.header, s.live, s.pager.content⟩) m
        (commitOps ops wal'.frameCount) := by
  obtain ⟨m₁, hm₁, hthrough, hrun, hqwal, hsalt, hsafe⟩ := hs.logged hwal hlog
  have hsynced : m₁.pendingWal = [] := by rw [hm₁, hs.synced]
  obtain ⟨hcount, hlast⟩ := through_writeCount hsynced (hrun ▸ hthrough.last) hsafe
  have hops : commitOps ops wal'.frameCount =
      (ops.map .wal ++ [.syncWal]) ++ [.wal (.writeCount wal'.frameCount), .syncWal] := by
    simp [commitOps]
  have hend : m.run (commitOps ops wal'.frameCount) = m₁.withCount wal'.frameCount := by
    rw [hops, Media.run, List.foldl_append, ← hlast, ← hrun]
    rfl
  dsimp only
  refine ⟨?_, ?_, by rw [hend]; exact hsynced, by rw [hend]; exact hsalt, by rw [hend]; rfl,
    hend ▸ hsafe, ?_⟩
  · rw [Pager.counted, issueAll_files, hlog.eq, issueAll_files, commitOps, List.append_assoc]
  · rw [Media.files_run, ← hs.files, Pager.counted, issueAll_files, hlog.eq, issueAll_files, commitOps,
      List.foldl_append]
  · rw [hops]
    refine (hthrough.mono fun m hm => hm.either_left _).append ?_
    rw [hrun]
    exact hcount

/-- A commit: the frames, the sync, the frame count and, when it is due, the checkpoint. -/
theorem Sys.Durable.commit {s : Sys W} {m : Media W} {p' : Pager W} (hs : s.Durable m)
    (h : s.pager.commit = some p') : ∃ ops, p'.issued = s.pager.issued ++ ops ∧
      p'.files = (m.run ops).files ∧ (m.run ops).pendingWal = [] ∧
      (∃ wal, p'.wal = some wal ∧ wal.salt = (m.run ops).wal.salt ∧
        wal.frameCount = (m.run ops).wal.frameCount) ∧
      Safe (m.run ops) ⟨s.pager.header, s.live, s.pager.content⟩ ∧
      Through (Either s.committed ⟨s.pager.header, s.live, s.pager.content⟩) m ops := by
  obtain ⟨-, ⟨hwal, -⟩ | ⟨wal, q, wal', ops, hwal, hlog, hcases⟩⟩ := commit_cases h hs.ok
  · obtain ⟨w, hw, -⟩ := hs.wal
    exact (Option.some_ne_none w (hw.symm.trans hwal)).elim
  obtain ⟨hissued, hfiles, hsynced, hsalt, hcount, hsafe, hthrough⟩ := hs.counted hwal hlog
  have hqw : (q.counted wal').wal = some wal' := by rw [counted_eq, hlog.eq]
  rcases hcases with ⟨hzero, rfl⟩ | ⟨-, rfl⟩ | ⟨-, r, writes, hcheck, rfl⟩
  · -- nothing is gathered, now or before
    obtain ⟨hold, rfl⟩ := hlog.idle hzero
    obtain ⟨m₁, hm₁, -, -, -, hsalt₁, hsafe₁⟩ := hs.logged hwal hlog
    obtain ⟨w, hw, hwsalt, hwcount⟩ := hs.wal
    obtain rfl := Option.some.inj (hwal.symm.trans hw)
    have hm : m₁.withCount wal'.frameCount = m := by
      rw [hm₁, Media.withCount, hzero, ← hold, hwcount]
      rfl
    rw [hm] at hsafe₁
    refine ⟨[], ?_, ?_, hs.synced, ⟨wal', ?_, hlog.salt.trans hwsalt, ?_⟩, hsafe₁,
      hs.safe.either_left _⟩
    · rw [finishTransaction, hlog.eq, List.append_nil]
      rfl
    · rw [finishTransaction, hlog.eq]
      exact hs.files
    · rw [finishTransaction, hlog.eq]
    · exact (hzero.trans hold.symm).trans hwcount
  · exact ⟨_, hissued, hfiles, hsynced, ⟨wal', hqw, hsalt, hcount⟩, hsafe, hthrough⟩
  · obtain ⟨hqok, hqheader⟩ : (q.counted wal').StorageOk ∧
        (q.counted wal').header = s.pager.header := by
      rw [counted_eq]
      refine ⟨fun w hw => ?_, by rw [hlog.eq, issueAll_files]⟩
      obtain rfl := Option.some.inj ((by rw [hlog.eq] : q.wal = some wal').symm.trans hw)
      exact ⟨hlog.ok.size, hlog.ok.valid, hlog.ok.index⟩
    obtain ⟨hcheckThrough, hcheckSafe, hcheckSynced, hcheckWal⟩ :=
      hcheck.through hqw hqok hsafe hsynced hcount.symm hfiles hqheader <| by
        intro i hi
        obtain ⟨-, hlt, -⟩ := hs.tracks.holds hi
        refine ⟨hqheader ▸ hlt, fun data hdata => ?_⟩
        rw [counted_eq]
        exact ⟨hlog.load_eq hlt (hs.clean i hi) hdata, hlog.cache_agrees hdata⟩
    rw [hqheader] at hcheckThrough hcheckSafe hcheckSynced hcheckWal
    have heq := hcheck.eq
    rw [issueAll_files, hqheader] at heq
    have hrun : m.run (commitOps ops wal'.frameCount ++ checkpointOps writes s.pager.header.pageCount) =
        (m.run (commitOps ops wal'.frameCount)).run (checkpointOps writes s.pager.header.pageCount) :=
      List.foldl_append
    refine ⟨commitOps ops wal'.frameCount ++ checkpointOps writes s.pager.header.pageCount, ?_, ?_,
      ?_, ⟨{ wal' with frameCount := 0, walIndex := ∅ }, ?_, ?_, ?_⟩, ?_,
      hthrough.append (hcheckThrough.mono fun _ hm f hf => .inr ((hm f hf).elim id id))⟩
    · rw [finishTransaction, heq, ← List.append_assoc, ← hissued]
    · rw [finishTransaction, heq, hrun, Media.files_run, ← hfiles]
    · rw [hrun]
      exact hcheckSynced
    · rw [finishTransaction, heq]
    · rw [hrun, hcheckWal]
      exact hsalt
    · rw [hrun, hcheckWal]
    · rw [hrun]
      exact hcheckSafe

/-! ### Runs -/

/-- Between transactions the invariant follows from the committed state alone. -/
theorem Sys.durable_of_idle {s : Sys W} {m : Media W} (hsound : s.Sound)
    (hidle : s.pager.transactionActive = false) (hpos : 0 < s.committed.header.pageCount)
    (htracks : Tracks s.committed.page s.committed.header.pageCount s.committed.live)
    (hkept : ∀ i, Holds (W := W) s.committed.live i → s.pager.load i = s.committed.page i)
    (hfiles : s.pager.files = m.files) (hsynced : m.pendingWal = [])
    (hwal : ∃ wal, s.pager.wal = some wal ∧ wal.salt = m.wal.salt ∧
      wal.frameCount = m.wal.frameCount)
    (hsafe : Safe m s.committed) : s.Durable m := by
  obtain ⟨hheader, hlive, hempty, -⟩ := hsound.idle hidle
  have hcontent : ∀ i, Holds (W := W) s.live i → s.pager.content i = s.committed.page i := by
    intro i hi
    rw [content_of_empty hempty]
    exact hkept i (hlive ▸ hi)
  refine ⟨hsound, ⟨hheader ▸ hpos, hpos⟩, ?_, htracks, fun i _ => cleanAt_of_empty hempty i,
    fun i hi _ => ⟨hlive ▸ hi, hcontent i hi⟩, fun _ => hheader, hkept, hfiles, hsynced, hwal, hsafe⟩
  rw [hheader, hlive]
  exact htracks.mono fun i hi data hdata => (hcontent i (hlive ▸ hi)).trans hdata

theorem Sys.durable_create (salt : BitVec 64) (checkpointInterval : Nat) :
    (Sys.create (W := W) salt true checkpointInterval).Durable (.ofFiles (createdFiles salt)) := by
  have hnone : ∀ i, ¬ Holds (W := W) ∅ i := by
    rintro i (hi | ⟨k, hk, -⟩)
    · cases hi
    · cases hk
  exact Sys.durable_of_idle (Sys.sound_create salt true checkpointInterval) rfl Nat.one_pos nofun
    (fun i hi => absurd hi (hnone i)) rfl rfl ⟨_, rfl, rfl, rfl⟩
    ⟨le_rfl, nofun, nofun, rfl, fun _ => nofun, fun i hi => absurd hi (hnone i)⟩

theorem Sys.Durable.step {s s' : Sys W} {op : Op W} {m : Media W} (hW : 0 < W) (hs : s.Durable m)
    (hcond : s.SparesCommitted op) (h : s.step op = some s') : s.Steps s' m := by
  have hsound := hs.toSound.step h
  cases op with
  | begin =>
      obtain ⟨p, hp, rfl⟩ := Option.map_eq_some_iff.mp h
      obtain ⟨-, rfl⟩ := begin_eq_some hp
      exact ⟨[], (List.append_nil _).symm, { hs with toSound := hsound }, hs.safe.either_left _⟩
  | tx op => exact hs.txStep hW hcond h
  | commit =>
      obtain ⟨p, hp, rfl⟩ := Option.map_eq_some_iff.mp h
      obtain ⟨ops, hissued, hfiles, hsynced, hwal, hsafe, hthrough⟩ := hs.commit hp
      have hdone := commit_spec hp hs.ok
      refine ⟨ops, hissued, Sys.durable_of_idle hsound hdone.inactive hs.pos.1 hs.tracks ?_ hfiles
        hsynced hwal hsafe, hthrough⟩
      intro i hi
      obtain ⟨-, hlt, data, hdata⟩ := hs.tracks.holds hi
      exact (hdone.page i hlt (hs.clean i hi) data hdata).trans hdata.symm
  | rollback =>
      rw [Sys.step] at h
      split at h
      · cases h
        exact ⟨[], (List.append_nil _).symm, Sys.durable_of_idle hsound rfl hs.pos.2
          hs.committedTracks hs.kept hs.files hs.synced hs.wal hs.safe, hs.safe.either_left _⟩
      · cases h
  | checkpoint =>
      rw [Sys.step] at h
      split at h
      · cases h
      · rename_i hinactive
        obtain ⟨p, hp, rfl⟩ := Option.map_eq_some_iff.mp h
        obtain ⟨wal, writes, hwal, hcheck⟩ := checkpoint_spec hp
        have hidle : s.pager.transactionActive = false := by simpa using hinactive
        obtain ⟨hheader, hlive, hempty, -⟩ := hs.idle hidle
        obtain ⟨w, hw, hsalt, hcount⟩ := hs.wal
        obtain rfl := Option.some.inj (hwal.symm.trans hw)
        have hcached : ∀ i (entry : PageCacheEntry W), s.pager.pageCache.lookup i ≠ some entry := by
          intro i entry hlookup
          rw [hempty, AList.lookup_empty] at hlookup
          cases hlookup
        obtain ⟨hthrough, hsafe, hsynced, hmwal⟩ :=
          hcheck.through hwal hs.ok hs.safe hs.synced hcount.symm hs.files hheader <| by
            intro i hi
            obtain ⟨-, hlt, -⟩ := hs.committedTracks.holds hi
            exact ⟨hheader ▸ hlt, fun data hdata => ⟨(hs.kept i hi).trans hdata,
              fun entry hlookup => absurd hlookup (hcached i entry)⟩⟩
        have heq := hcheck.eq
        rw [issueAll_files] at heq
        refine ⟨_, by rw [heq], Sys.durable_of_idle hsound (by rw [heq]; exact hidle) hs.pos.2
          hs.committedTracks ?_ ?_ hsynced ⟨{ wal with frameCount := 0, walIndex := ∅ }, by rw [heq],
            by rw [hmwal]; exact hsalt, by rw [hmwal]⟩ hsafe, hthrough⟩
        · intro i hi
          obtain ⟨-, hlt, data, hdata⟩ := hs.committedTracks.holds hi
          exact (hcheck.load_eq hwal (hheader ▸ hlt) ((hs.kept i hi).trans hdata)
            fun entry hlookup => absurd hlookup (hcached i entry)).trans hdata.symm
        · rw [heq, Media.files_run, ← hs.files]

/-- The media of a new pager after the I/O operations `issued`. -/
def mediaOf (salt : BitVec 64) (issued : List (IoOp W)) : Media W :=
  (Media.ofFiles (createdFiles salt)).run issued

theorem Sys.Run.durable (hW : 0 < W) {salt : BitVec 64} {checkpointInterval : Nat} {ops : List (Op W)}
    {s : Sys W} (h : Sys.Run Sys.SparesCommitted (Sys.create salt true checkpointInterval) ops s) :
    s.Durable (mediaOf salt s.pager.issued) := by
  refine @Sys.Run.invariant W Sys.SparesCommitted (fun s => s.Durable (mediaOf salt s.pager.issued))
    (fun s op s' hs hcond hstep => ?_) _ _ _ h (Sys.durable_create salt checkpointInterval)
  obtain ⟨ops, hissued, hdurable, -⟩ := hs.step hW hcond hstep
  rw [hissued, mediaOf, Media.run, List.foldl_append]
  exact hdurable

end Pager

end Plexdb
