import Plexdb.PagerLaw
import Plexdb.Runs

/-! A live page reads as what was last written to it, over every run of committed transactions. A page
may be stored in the cache, in a frame and in the main file, and the copies that were superseded stay
there. The bitsets need only cover the live pages: what stale bits a page regained by `new_page` brings
back does not matter. -/

namespace Plexdb

open Pager

variable {W : Nat}

namespace Pager

/-- A system, and what was last written to each page: `new_page` counts as writing zeros. -/
structure Written (W : Nat) where
  sys : Sys W
  last : Nat → Page W

namespace Written

def record (w : Written W) : Op W → Nat → Page W
  | .tx .newPage =>
      match w.sys.pager.newPage with
      | some (_, idx) => Function.update w.last idx Page.zero
      | none => w.last
  | .tx (.write idx data) => Function.update w.last idx data
  | _ => w.last

def step (w : Written W) (op : Op W) : Option (Written W) := (w.sys.step op).map (⟨·, w.record op⟩)

def create (salt : BitVec 64) (withWal : Bool) (checkpointInterval : Nat) : Written W :=
  ⟨Sys.create salt withWal checkpointInterval, fun _ => Page.zero⟩

end Written

/-! ### The invariant -/

/-- The bit of page `i` is set. -/
def BitSet (p : Pager W) (i : Nat) : Prop :=
  ∃ g j bitset, j < 64 * W ∧ i = freePage W g j ∧ p.content (bitsetPage W g) = some bitset ∧ bitset.bit j = true

structure Covered (p : Pager W) (live : Finset Nat) : Prop where
  pos : 0 < p.header.pageCount
  inRange : ∀ i ∈ live, i < p.header.pageCount
  bit : ∀ i ∈ live, p.BitSet i

/-- Live pages have their bits set and read as `last`; what is clean in the cache of them and of their
bitsets is what is stored. -/
structure Written.Kept (w : Written W) : Prop extends w.sys.Sound where
  covered : Covered w.sys.pager w.sys.live
  content : ∀ i ∈ w.sys.live, w.sys.pager.content i = some (w.last i)
  clean : ∀ i ∈ w.sys.live, w.sys.pager.CleanAt i
  cleanBits : ∀ i ∈ w.sys.live, w.sys.pager.CleanAt (bitsetPage W (groupOf W i))

theorem bitsetPage_lt_freePage (g j : Nat) : bitsetPage W g < freePage W g j := by
  rw [freePage]
  omega

/-- The bitset page of a live page is in range and is not live. -/
theorem BitSet.group {p : Pager W} {i : Nat} (h : p.BitSet i) :
    bitsetPage W (groupOf W i) < i ∧ ∃ j bitset, j < 64 * W ∧ i = freePage W (groupOf W i) j ∧
      p.content (bitsetPage W (groupOf W i)) = some bitset ∧ bitset.bit j = true := by
  obtain ⟨g, j, bitset, hj, rfl, hbitset, hbit⟩ := h
  rw [groupOf_freePage hj]
  exact ⟨bitsetPage_lt_freePage g j, j, bitset, hj, rfl, hbitset, hbit⟩

theorem BitSet.ne_bitsetPage {p : Pager W} {i : Nat} (h : p.BitSet i) (g : Nat) : i ≠ bitsetPage W g := by
  obtain ⟨-, j, -, hj, heq, -⟩ := h.group
  rw [heq]
  exact freePage_ne_bitsetPage hj

/-- A pager whose bitset pages read with at least the bits they had. -/
theorem BitSet.mono {p p' : Pager W} {i : Nat} (h : p.BitSet i)
    (hbits : ∀ g j bitset, j < 64 * W → i = freePage W g j → p.content (bitsetPage W g) = some bitset → bitset.bit j = true →
      ∃ bitset', p'.content (bitsetPage W g) = some bitset' ∧ bitset'.bit j = true) : p'.BitSet i := by
  obtain ⟨g, j, bitset, hj, hi, hbitset, hbit⟩ := h
  obtain ⟨bitset', hbitset', hbit'⟩ := hbits g j bitset hj hi hbitset hbit
  exact ⟨g, j, bitset', hj, hi, hbitset', hbit'⟩

theorem Covered.touched {p q : Pager W} {live : Finset Nat} (h : Covered p live) (htouched : Touched p q) :
    Covered q live := by
  refine ⟨htouched.header_eq ▸ h.pos, fun i hi => ?_,
    fun i hi => (h.bit i hi).mono fun g j bitset _ _ hbitset hbit => ?_⟩
  · rw [htouched.header_eq]
    exact h.inRange i hi
  · exact ⟨bitset, (htouched.content_eq _).trans hbitset, hbit⟩

/-! ### `new_page` -/

theorem Covered.newPage {p p' : Pager W} {idx : Nat} {live : Finset Nat} (hW : 0 < W) (h : Covered p live)
    (hnew : p.newPage = some (p', idx)) :
    Covered p' (insert idx live) ∧ p'.content idx = some Page.zero ∧ idx ∉ live ∧
      ∀ i ∈ live, ∀ data, p.content i = some data → p'.content i = some data := by
  obtain ⟨-, q, htouched, ⟨g, bitset, j, hslot, rfl, rfl⟩ | ⟨-, -, halign, rfl, bitset, -, rfl⟩⟩ :=
    newPage_spec hnew
  · -- a free page of a group that is there
    have hkeep : ∀ i, i < p.header.pageCount → i ≠ bitsetPage W g → i ≠ freePage W g j → ∀ data,
        p.content i = some data → (q.takeSlot g bitset j).content i = some data := by
      intro i hi hb hfree data hdata
      exact content_takeSlot ((htouched.content_eq i).trans hdata) (htouched.header_eq ▸ hi) hb hfree
    have hnot : freePage W g j ∉ live := by
      intro hlive
      obtain ⟨-, k, bitset', hk, heq, hbitset', hbit⟩ := (h.bit _ hlive).group
      rw [groupOf_freePage hslot.lt] at heq hbitset'
      obtain rfl := (freePage_inj hslot.lt hk heq).2
      obtain rfl := Option.some.inj (hslot.content_eq.symm.trans hbitset')
      exact absurd (hslot.clear.symm.trans hbit) Bool.false_ne_true
    refine ⟨⟨?_, fun i hi => ?_, fun i hi => ?_⟩, ?_, hnot, fun i hi data hdata => ?_⟩
    · rw [pageCount_takeSlot]
      omega
    · rw [pageCount_takeSlot, htouched.header_eq]
      rcases Finset.mem_insert.mp hi with rfl | hi
      · omega
      · have := h.inRange i hi
        omega
    · rcases Finset.mem_insert.mp hi with rfl | hi
      · refine ⟨g, j, _, hslot.lt, rfl, content_takeSlot_bitset hslot.lt, ?_⟩
        rw [Page.bit_setBit _ hslot.lt, decide_eq_true rfl, Bool.or_true]
      · refine (h.bit i hi).mono fun g' k bitset' _ heq hbitset' hbit => ?_
        by_cases hg : g' = g
        · subst hg
          obtain rfl := Option.some.inj (hslot.content_eq.symm.trans hbitset')
          refine ⟨_, content_takeSlot_bitset hslot.lt, ?_⟩
          rw [Page.bit_setBit _ hslot.lt, hbit, Bool.true_or]
        · refine ⟨bitset', hkeep _ ?_ (fun hb => hg (bitsetPage_inj hb)) (freePage_ne_bitsetPage hslot.lt).symm _ hbitset',
            hbit⟩
          have := h.inRange i hi
          have := bitsetPage_lt_freePage (W := W) g' k
          omega
    · rw [takeSlot, ensurePageZeroed, content_insertCache, if_pos rfl]
    · exact hkeep i (h.inRange i hi) ((h.bit i hi).ne_bitsetPage g) (fun heq => hnot (heq ▸ hi)) data hdata
  · -- the first page of a new group
    have hcount : (q.addGroup bitset).header.pageCount = p.header.pageCount + 2 := by
      rw [← htouched.header_eq]
      rfl
    have hlast := eq_bitsetPage h.pos halign
    have hfree : p.header.pageCount + 1 = freePage W ((p.header.pageCount - 1) / stride W) 0 := by
      rw [freePage, ← hlast]
    have hkeep : ∀ i < p.header.pageCount, ∀ data, p.content i = some data →
        (q.addGroup bitset).content i = some data := by
      intro i hi data hdata
      rw [content_addGroup, htouched.header_eq, if_neg (by omega), if_neg (by omega)]
      exact content_grow ((htouched.content_eq i).trans hdata) (by omega)
    refine ⟨⟨by omega, fun i hi => ?_, fun i hi => ?_⟩, ?_, ?_, fun i hi => hkeep i (h.inRange i hi)⟩
    · rcases Finset.mem_insert.mp hi with rfl | hi
      · omega
      · have := h.inRange i hi
        omega
    · rcases Finset.mem_insert.mp hi with rfl | hi
      · refine ⟨_, 0, bitset.setBit 0, by omega, hfree, ?_, ?_⟩
        · rw [← hlast, content_addGroup, htouched.header_eq, if_neg (by omega), if_pos rfl]
        · rw [Page.bit_setBit _ (by omega), decide_eq_true rfl, Bool.or_true]
      · refine (h.bit i hi).mono fun g k bitset' _ heq hbitset' hbit => ⟨bitset', hkeep _ ?_ _ hbitset', hbit⟩
        have := h.inRange i hi
        have := bitsetPage_lt_freePage (W := W) g k
        omega
    · rw [content_addGroup, htouched.header_eq, if_pos rfl]
    · intro hlive
      have := h.inRange _ hlive
      omega

/-! ### `delete_page` -/

theorem Covered.deletePage {p p' : Pager W} {idx : Nat} {live : Finset Nat} (h : Covered p live)
    (hdelete : p.deletePage idx = some p') :
    Covered p' (live.erase idx) ∧ ∀ i ∈ live.erase idx, p'.content i = p.content i := by
  obtain ⟨-, hrange, g, j, bitset, hj, rfl, hbitset, -, hcases⟩ := deletePage_spec hdelete
  have hcontent : ∀ i ∈ live.erase (freePage W g j), (p.freed g j bitset).content i = p.content i := by
    intro i hi
    obtain ⟨hne, hlive⟩ := Finset.mem_erase.mp hi
    rw [content_freed, if_neg hne, if_neg ((h.bit i hlive).ne_bitsetPage g)]
  have hbit : ∀ i ∈ live.erase (freePage W g j), (p.freed g j bitset).BitSet i := by
    intro i hi
    obtain ⟨hne, hlive⟩ := Finset.mem_erase.mp hi
    refine (h.bit i hlive).mono fun g' k bitset' _ heq hbitset' hbit => ?_
    rw [content_freed, if_neg (freePage_ne_bitsetPage hj).symm]
    by_cases hg : g' = g
    · subst hg
      obtain rfl := Option.some.inj (hbitset.symm.trans hbitset')
      refine ⟨_, if_pos rfl, ?_⟩
      have hkj : k ≠ j := fun hkj => hne (hkj ▸ heq)
      rw [Page.bit_clearBit, hbit, decide_eq_false hkj]
      rfl
    · rw [if_neg fun hb => hg (bitsetPage_inj hb)]
      exact ⟨bitset', hbitset', hbit⟩
  rcases hcases with ⟨-, rfl⟩ | ⟨hlast, n, q, htouched, htrimmed, rfl⟩
  · exact ⟨⟨h.pos, fun i hi => h.inRange i (Finset.mem_of_mem_erase hi), hbit⟩, hcontent⟩
  · have hcount : q.header.pageCount = n := by
      rw [htouched.header_eq]
      rfl
    have hmarked : ∀ i ∈ live.erase (freePage W g j),
        (p.freed g j bitset).Marked g (j / 64) (bitset.clearBit j) i := by
      intro i hi
      have hlt := h.inRange i (Finset.mem_of_mem_erase hi)
      obtain ⟨g', k, bitset', hk, rfl, hbitset', hbit'⟩ := hbit i hi
      have hle : freePage W g' k ≤ freePage W g j := by omega
      rcases Nat.lt_or_eq_of_le (groups_le hj hle) with hlt' | rfl
      · exact .inr ⟨g', bitset', hlt', hbitset', k, hk, rfl, hbit'⟩
      · rw [content_freed, if_neg (freePage_ne_bitsetPage hj).symm, if_pos rfl] at hbitset'
        rw [← Option.some.inj hbitset'] at hbit'
        rw [freePage, freePage] at hle
        exact .inl ⟨k, by omega, rfl, hbit'⟩
    refine ⟨⟨?_, fun i hi => ?_, fun i hi => ?_⟩, fun i hi => (htouched.content_eq i).trans (hcontent i hi)⟩
    · change 0 < q.header.pageCount
      rw [hcount]
      rcases htrimmed.top with rfl | ⟨i, -, rfl⟩ <;> omega
    · change i < q.header.pageCount
      rw [hcount]
      exact htrimmed.above i (hmarked i hi)
    · refine (hbit i hi).mono fun g' k bitset' _ _ hbitset' hbit' => ⟨bitset', ?_, hbit'⟩
      exact (htouched.content_eq _).trans hbitset'

/-! ### Steps -/

theorem Written.kept_create (salt : BitVec 64) (withWal : Bool) (checkpointInterval : Nat) :
    (Written.create (W := W) salt withWal checkpointInterval).Kept :=
  ⟨Sys.sound_create salt withWal checkpointInterval,
    ⟨Nat.one_pos, fun _ hi => absurd hi (Finset.notMem_empty _), fun _ hi => absurd hi (Finset.notMem_empty _)⟩,
    fun _ hi => absurd hi (Finset.notMem_empty _), fun _ hi => absurd hi (Finset.notMem_empty _),
    fun _ hi => absurd hi (Finset.notMem_empty _)⟩

theorem Covered.congr {p p' : Pager W} {live : Finset Nat} (h : Covered p live)
    (hcount : p'.header.pageCount = p.header.pageCount)
    (hcontent : ∀ i < p.header.pageCount, ∀ data, p.content i = some data → p'.content i = some data) :
    Covered p' live := by
  refine ⟨hcount ▸ h.pos, fun i hi => hcount ▸ h.inRange i hi,
    fun i hi => (h.bit i hi).mono fun g j bitset _ heq hbitset hbit => ⟨bitset, hcontent _ ?_ _ hbitset, hbit⟩⟩
  have := h.inRange i hi
  have := bitsetPage_lt_freePage (W := W) g j
  omega

/-- What a step inside a transaction does to the live pages. -/
theorem Written.Kept.txStep {w w' : Written W} {op : TxOp W} (hW : 0 < W) (h : w.Kept)
    (hstep : w.step (.tx op) = some w') :
    Covered w'.sys.pager w'.sys.live ∧ ∀ i ∈ w'.sys.live, w'.sys.pager.content i = some (w'.last i) := by
  obtain ⟨s, hs, rfl⟩ := Option.map_eq_some_iff.mp hstep
  cases op with
  | newPage =>
      obtain ⟨⟨p, idx⟩, hp, rfl⟩ := Option.map_eq_some_iff.mp hs
      obtain ⟨hcovered, hzero, hnot, hrest⟩ := h.covered.newPage hW hp
      refine ⟨hcovered, fun i hi => ?_⟩
      rw [Written.record, hp]
      dsimp only at hi ⊢
      rcases Finset.mem_insert.mp hi with rfl | hi
      · rw [Function.update_self]
        exact hzero
      · have hne : i ≠ idx := fun heq => hnot (heq ▸ hi)
        rw [Function.update_of_ne hne]
        exact hrest i hi _ (h.content i hi)
  | deletePage idx =>
      obtain ⟨p, hp, rfl⟩ := Option.map_eq_some_iff.mp hs
      obtain ⟨hcovered, hrest⟩ := h.covered.deletePage hp
      exact ⟨hcovered, fun i hi => (hrest i hi).trans (h.content i (Finset.mem_of_mem_erase hi))⟩
  | write idx data =>
      rw [Sys.step, Sys.txStep] at hs
      split_ifs at hs with hlive
      obtain ⟨p, hp, rfl⟩ := Option.map_eq_some_iff.mp hs
      obtain ⟨⟨q, old⟩, hread, hp⟩ := Option.bind_eq_some_iff.mp hp
      cases hp
      have htouched := rwpage_touched hread
      have hcovered := h.covered.touched htouched
      refine ⟨⟨hcovered.pos, hcovered.inRange, fun i hi => ?_⟩, fun i hi => ?_⟩
      · refine (hcovered.bit i hi).mono fun g j bitset _ _ hbitset hbit => ⟨bitset, ?_, hbit⟩
        rw [content_insertCache, if_neg ((hcovered.bit idx hlive).ne_bitsetPage g).symm]
        exact hbitset
      · rw [Written.record]
        dsimp only
        rw [content_insertCache]
        split_ifs with heq
        · rw [heq, Function.update_self]
        · rw [Function.update_of_ne heq, htouched.content_eq]
          exact h.content i hi
  | read idx =>
      obtain ⟨p, hp, rfl⟩ := Option.map_eq_some_iff.mp hs
      obtain ⟨⟨q, data⟩, hread, rfl⟩ := Option.map_eq_some_iff.mp hp
      have htouched := (rpage_eq_some hread).2.2.2.1
      exact ⟨h.covered.touched htouched, fun i hi => (htouched.content_eq i).trans (h.content i hi)⟩
  | setRoot page =>
      obtain ⟨p, hp, rfl⟩ := Option.map_eq_some_iff.mp hs
      rw [Pager.txStep, setRoot] at hp
      split_ifs at hp
      cases hp
      exact ⟨⟨h.covered.pos, h.covered.inRange, h.covered.bit⟩, h.content⟩

theorem cleanAt_of_dirty {p : Pager W} {i : Nat} (data : Page W) (h : p.pageCache.lookup i = some ⟨data, true⟩) :
    p.CleanAt i := by
  intro entry hlookup hclean
  rw [Option.some.inj (hlookup.symm.trans h)] at hclean
  cases hclean

/-- `new_page` leaves the page and its bitset dirty in the cache. -/
theorem cleanAt_newPage {p p' : Pager W} {idx : Nat} (hW : 0 < W) (hpos : 0 < p.header.pageCount)
    (h : p.newPage = some (p', idx)) : p'.CleanAt idx ∧ p'.CleanAt (bitsetPage W (groupOf W idx)) := by
  obtain ⟨-, q, htouched, ⟨g, bitset, j, hslot, rfl, rfl⟩ | ⟨-, -, halign, rfl, bitset, -, rfl⟩⟩ := newPage_spec h
  · rw [groupOf_freePage hslot.lt]
    refine ⟨cleanAt_of_dirty Page.zero ?_, cleanAt_of_dirty (bitset.setBit j) ?_⟩
    · rw [takeSlot, ensurePageZeroed, lookup_insertCache, if_pos rfl]
    · rw [takeSlot, ensurePageZeroed, lookup_insertCache, if_neg (freePage_ne_bitsetPage hslot.lt).symm]
      split
      · exact (lookup_insertCache q _ _ _ _).trans (if_pos rfl)
      · rw [lookup_insertCache, if_pos rfl]
  · have hlast := eq_bitsetPage hpos halign
    have hgroup : groupOf W (p.header.pageCount + 1) = (p.header.pageCount - 1) / stride W := by
      have hfree := groupOf_freePage (W := W) (g := (p.header.pageCount - 1) / stride W) (j := 0) (by omega)
      rwa [freePage, ← hlast] at hfree
    rw [hgroup, ← hlast, addGroup, ensurePageZeroed, htouched.header_eq]
    refine ⟨cleanAt_of_dirty Page.zero ?_, cleanAt_of_dirty (bitset.setBit 0) ?_⟩
    · rw [lookup_insertCache, if_pos rfl]
    · rw [lookup_insertCache, if_neg (by omega), lookup_insertCache, if_pos rfl]

/-- A page that a step adds to the live ones is that of `new_page`. -/
theorem Written.Kept.clean_txStep {w w' : Written W} {op : TxOp W} (hW : 0 < W) (h : w.Kept)
    (hstep : w.step (.tx op) = some w') {i : Nat} (hi : i ∈ w'.sys.live) :
    w'.sys.pager.CleanAt i ∧ w'.sys.pager.CleanAt (bitsetPage W (groupOf W i)) := by
  obtain ⟨s, hs, rfl⟩ := Option.map_eq_some_iff.mp hstep
  have hpager := (Sys.txStep_pager hs).1
  have hold : i ∈ w.sys.live → s.pager.CleanAt i ∧ s.pager.CleanAt (bitsetPage W (groupOf W i)) := by
    intro hlive
    have hlt := h.covered.inRange i hlive
    refine ⟨cleanAt_txStep hpager hlt (h.clean i hlive), cleanAt_txStep hpager ?_ (h.cleanBits i hlive)⟩
    exact (h.covered.bit i hlive).group.1.trans hlt
  cases op with
  | newPage =>
      obtain ⟨⟨p, idx⟩, hp, rfl⟩ := Option.map_eq_some_iff.mp hs
      rcases Finset.mem_insert.mp hi with rfl | hi
      · exact cleanAt_newPage hW h.covered.pos hp
      · exact hold hi
  | deletePage idx =>
      obtain ⟨p, -, rfl⟩ := Option.map_eq_some_iff.mp hs
      exact hold (Finset.mem_of_mem_erase hi)
  | write idx data =>
      rw [Sys.step, Sys.txStep] at hs
      split_ifs at hs
      obtain ⟨p, -, rfl⟩ := Option.map_eq_some_iff.mp hs
      exact hold hi
  | read idx =>
      obtain ⟨p, -, rfl⟩ := Option.map_eq_some_iff.mp hs
      exact hold hi
  | setRoot page =>
      obtain ⟨p, -, rfl⟩ := Option.map_eq_some_iff.mp hs
      exact hold hi

/-- The transactions are all committed. -/
def Op.noRollback : Op W → Bool
  | .rollback => false
  | _ => true

theorem Written.Kept.step {w w' : Written W} {op : Op W} (hW : 0 < W) (h : w.Kept) (hop : op.noRollback = true)
    (hstep : w.step op = some w') : w'.Kept := by
  obtain ⟨s, hs, hw'⟩ := Option.map_eq_some_iff.mp hstep
  have hsound : w'.sys.Sound := hw' ▸ h.toSound.step hs
  cases op with
  | begin =>
      obtain ⟨p, hp, rfl⟩ := Option.map_eq_some_iff.mp hs
      obtain ⟨-, rfl⟩ := begin_eq_some hp
      rw [← hw'] at hsound ⊢
      exact ⟨hsound, ⟨h.covered.pos, h.covered.inRange, h.covered.bit⟩, h.content, h.clean, h.cleanBits⟩
  | tx op =>
      obtain ⟨hcovered, hcontent⟩ := h.txStep hW hstep
      exact ⟨hsound, hcovered, hcontent, fun i hi => (h.clean_txStep hW hstep hi).1,
        fun i hi => (h.clean_txStep hW hstep hi).2⟩
  | commit =>
      obtain ⟨p, hp, rfl⟩ := Option.map_eq_some_iff.mp hs
      have hdone := commit_spec hp h.ok
      have hempty := content_of_empty hdone.empty
      rw [← hw'] at hsound ⊢
      refine ⟨hsound, ⟨?_, fun i hi => ?_, fun i hi => ?_⟩, fun i hi => ?_, fun i _ => cleanAt_of_empty hdone.empty i,
        fun i _ => cleanAt_of_empty hdone.empty _⟩
      · exact hdone.header_eq ▸ h.covered.pos
      · exact hdone.header_eq ▸ h.covered.inRange i hi
      · have hlt := h.covered.inRange i hi
        refine (h.covered.bit i hi).mono fun g j bitset hj heq hbitset hbit => ⟨bitset, ?_, hbit⟩
        have hgroup : groupOf W i = g := heq ▸ groupOf_freePage hj
        have hclean := h.cleanBits i hi
        rw [hgroup] at hclean
        exact (hempty _).trans (hdone.page _ ((heq ▸ bitsetPage_lt_freePage g j).trans hlt) hclean _ hbitset)
      · exact (hempty i).trans (hdone.page i (h.covered.inRange i hi) (h.clean i hi) _ (h.content i hi))
  | rollback => cases hop
  | checkpoint =>
      rw [Sys.step] at hs
      split_ifs at hs with hinactive
      obtain ⟨p, hp, rfl⟩ := Option.map_eq_some_iff.mp hs
      obtain ⟨wal, writes, hwal, hcheck⟩ := checkpoint_spec hp
      obtain ⟨-, -, hempty, -⟩ := h.idle (by simpa using hinactive)
      have hfields := hcheck.eq
      rw [issueAll_files] at hfields
      have hcache : p.pageCache = ∅ := by
        rw [hfields]
        exact hempty
      have hkeep : ∀ i < w.sys.pager.header.pageCount, ∀ data, w.sys.pager.content i = some data →
          p.content i = some data := by
        intro i hi data hdata
        rw [content_of_empty hempty] at hdata
        rw [content_of_empty hcache]
        refine hcheck.load_eq hwal hi hdata fun entry hlookup => ?_
        rw [hempty, AList.lookup_empty] at hlookup
        cases hlookup
      rw [← hw'] at hsound ⊢
      refine ⟨hsound, h.covered.congr (by rw [hfields]) hkeep, fun i hi => ?_, fun i _ => cleanAt_of_empty hcache i,
        fun i _ => cleanAt_of_empty hcache _⟩
      exact hkeep i (h.covered.inRange i hi) _ (h.content i hi)

theorem Written.Kept.reads {w : Written W} (h : w.Kept) {idx : Nat} (hidx : idx ∈ w.sys.live)
    (hactive : w.sys.pager.transactionActive = true) :
    (∃ p, w.sys.pager.rpage idx = some (p, w.last idx)) ∧ ∃ p, w.sys.pager.rwpage idx = some (p, w.last idx) := by
  have hrange : w.sys.pager.InRange idx :=
    ⟨Nat.zero_lt_of_lt (h.covered.bit idx hidx).group.1, h.covered.inRange idx hidx⟩
  exact ⟨rpage_of_content hactive hrange (h.content idx hidx),
    _, rwpage_of_content hactive hrange (h.content idx hidx)⟩

/-- In every run of transactions that are all committed, with checkpoints after any of them, `rpage` and
`rwpage` of a live page return what was last written to it, and zeros after `new_page`. -/
theorem live_pages_read_back (hW : 0 < W) (salt : BitVec 64) (withWal : Bool) (checkpointInterval : Nat)
    (ops : List (Op W)) (w : Written W)
    (hrun : Run Written.step (fun _ op => op.noRollback = true) (Written.create salt withWal checkpointInterval) ops w) :
    (∀ idx ∈ w.sys.live, w.sys.pager.transactionActive = true →
      (∃ p, w.sys.pager.rpage idx = some (p, w.last idx)) ∧ ∃ p, w.sys.pager.rwpage idx = some (p, w.last idx)) ∧
    ∀ p idx, w.sys.pager.newPage = some (p, idx) → idx ∉ w.sys.live ∧ ∃ p', p.rpage idx = some (p', Page.zero) := by
  have hkept : w.Kept := hrun.invariant (fun _ _ _ h hop hstep => h.step hW hop hstep)
    (Written.kept_create salt withWal checkpointInterval)
  refine ⟨fun idx hidx hactive => ?_, fun p idx hnew => ?_⟩
  · exact hkept.reads hidx hactive
  · obtain ⟨hcovered, hzero, hnot, -⟩ := hkept.covered.newPage hW hnew
    have hmem := Finset.mem_insert_self idx w.sys.live
    refine ⟨hnot, rpage_of_content ?_ ⟨Nat.zero_lt_of_lt (hcovered.bit idx hmem).group.1, hcovered.inRange idx hmem⟩ hzero⟩
    have hstep : w.sys.pager.txStep .newPage = some p := by
      rw [txStep, hnew]
      rfl
    have hflag : p.transactionActive = w.sys.pager.transactionActive := by rw [(txStep_inTx hstep).eq]
    exact hflag.trans (txStep_active hstep)

/-- A page is written, committed and moved to the main file by a checkpoint, and read back. -/
theorem live_pages_read_back_checkpointed :
    ∃ w : Written 4, Run Written.step (fun _ op => op.noRollback = true) (Written.create 0 true 1)
        [.begin, .tx .newPage, .tx (.write 2 (Page.zero.setBit 5)), .commit, .begin] w ∧
      ∃ p data, w.sys.pager.rpage 2 = some (p, data) ∧ data.bit 5 = true := by
  have hsome : (runAll Written.step (fun _ op => op.noRollback)
      (Written.create (W := 4) 0 true 1)
      [.begin, .tx .newPage, .tx (.write 2 (Page.zero.setBit 5)), .commit, .begin]).map
        (fun w => (w.sys.live, w.sys.pager.transactionActive, (w.last 2).bit 5)) = some ({2}, true, true) := by
    decide +kernel
  obtain ⟨w, hw, hstate⟩ := Option.map_eq_some_iff.mp hsome
  obtain ⟨hlive, hactive, hbit⟩ : w.sys.live = {2} ∧ w.sys.pager.transactionActive = true ∧ (w.last 2).bit 5 = true := by
    simpa only [Prod.mk.injEq] using hstate
  have hrun := Run.of_runAll hw
  obtain ⟨⟨p, hread⟩, -⟩ := (live_pages_read_back (by decide) 0 true 1 _ w hrun).1 2 (by rw [hlive]; decide) hactive
  exact ⟨w, hrun, p, _, hread, hbit⟩

end Pager

end Plexdb
