import Plexdb.PagerView

/-! What `new_page` and `delete_page` do: which page they choose, what the bitsets and the other
pages hold afterwards, and where trimming leaves the page count. -/

namespace Plexdb

open Pager

variable {W : Nat}

namespace Pager

/-! ### `new_page` -/

/-- Every bit of the group's bitset is set. -/
def GroupFull (p : Pager W) (g : Nat) : Prop :=
  ∃ bitset, p.content (bitsetPage W g) = some bitset ∧ ∀ j < 64 * W, bitset.bit j = true

/-- The first clear bit, in group `g` or later. -/
structure FreeSlot (p : Pager W) (g : Nat) (slotGroup : Nat) (bitset : Page W) (bitIdx : Nat) :
    Prop where
  le : g ≤ slotGroup
  inRange : p.InRange (bitsetPage W slotGroup)
  content_eq : p.content (bitsetPage W slotGroup) = some bitset
  lt : bitIdx < 64 * W
  clear : bitset.bit bitIdx = false
  set_below : ∀ j < bitIdx, bitset.bit j = true
  full : ∀ h, g ≤ h → h < slotGroup → p.GroupFull h

theorem findFree_spec {p p' : Pager W} {n g : Nat} {slot : Option (Nat × Page W × Nat)}
    (h : p.findFree n (bitsetPage W g) = some (p', slot)) :
    Touched p p' ∧
      ((∃ slotGroup bitset bitIdx, slot = some (bitsetPage W slotGroup, bitset, bitIdx) ∧
          p.FreeSlot g slotGroup bitset bitIdx) ∨
        (slot = none ∧ ∀ k, g ≤ k → k < g + n → p.GroupFull k)) := by
  induction n generalizing p g with
  | zero =>
      rw [findFree] at h
      cases h
      exact ⟨.refl _, .inr ⟨rfl, fun k _ _ => by omega⟩⟩
  | succ n ih =>
      rw [findFree] at h
      obtain ⟨⟨q, bitset⟩, hread, h⟩ := Option.bind_eq_some_iff.mp h
      obtain ⟨-, hrange, hcontent, -⟩ := rwpage_eq_some hread
      have htouched := rwpage_touched hread
      cases hfree : bitset.firstFree W 0 with
      | some bitIdx =>
          dsimp only at h
          rw [hfree] at h
          cases h
          obtain ⟨-, hlt, hclear, hset⟩ := Page.firstFree_some hfree
          exact ⟨htouched, .inl ⟨g, bitset, bitIdx, rfl, ⟨le_rfl, hrange, hcontent, by omega, hclear,
            fun j hj => hset j (by omega) hj, fun k _ _ => by omega⟩⟩⟩
      | none =>
          dsimp only at h
          rw [hfree, ← bitsetPage_succ] at h
          have hfull : p.GroupFull g :=
            ⟨bitset, hcontent, fun j hj => Page.firstFree_none hfree j (by omega) (by omega)⟩
          have hback : ∀ k, q.GroupFull k → p.GroupFull k := by
            rintro k ⟨page, hpage, hbits⟩
            exact ⟨page, (htouched.content_eq _).symm.trans hpage, hbits⟩
          have hstep : ∀ k, g ≤ k → (g + 1 ≤ k → p.GroupFull k) → p.GroupFull k := by
            intro k hk hnext
            rcases Nat.eq_or_lt_of_le hk with rfl | hlt
            · exact hfull
            · exact hnext hlt
          obtain ⟨htail, ⟨slotGroup, bits, bitIdx, rfl, hslot⟩ | ⟨rfl, hall⟩⟩ := ih h
          · refine ⟨htouched.trans htail, .inl ⟨slotGroup, bits, bitIdx, rfl, ?_⟩⟩
            have hrange' := hslot.inRange
            rw [InRange, htouched.header_eq] at hrange'
            exact ⟨Nat.le_of_succ_le hslot.le, hrange',
              (htouched.content_eq _).symm.trans hslot.content_eq, hslot.lt, hslot.clear,
              hslot.set_below, fun k hk hlt => hstep k hk fun hnext =>
                hback k (hslot.full k hnext hlt)⟩
          · exact ⟨htouched.trans htail, .inr ⟨rfl, fun k hk hlt => hstep k hk fun hnext =>
              hback k (hall k hnext (by omega))⟩⟩

/-- The search of `new_page` starts at the first bitset page. -/
theorem findFree_first {p p' : Pager W} {n : Nat} {slot : Option (Nat × Page W × Nat)}
    (h : p.findFree n 1 = some (p', slot)) :
    Touched p p' ∧
      ((∃ slotGroup bitset bitIdx, slot = some (bitsetPage W slotGroup, bitset, bitIdx) ∧
          p.FreeSlot 0 slotGroup bitset bitIdx) ∨
        (slot = none ∧ ∀ k, 0 ≤ k → k < 0 + n → p.GroupFull k)) := by
  have hzero : bitsetPage W 0 = 1 := by simp [bitsetPage]
  rw [← hzero] at h
  exact findFree_spec h

/-- The page a slot stands for. -/
def freePage (W slotGroup bitIdx : Nat) : Nat := bitsetPage W slotGroup + 1 + bitIdx

theorem groupOf_freePage {g j : Nat} (hj : j < 64 * W) : groupOf W (freePage W g j) = g := by
  rw [freePage, Nat.add_assoc]
  exact groupOf_eq (by rw [stride]; omega)

/-- `new_page` once a slot is found, on the pager `p` that the search left. -/
def takeSlot (p : Pager W) (slotGroup : Nat) (bitset : Page W) (bitIdx : Nat) : Pager W :=
  let p := p.insertCache (bitsetPage W slotGroup) (bitset.setBit bitIdx) true
  let p := if p.header.pageCount ≤ freePage W slotGroup bitIdx then
    p.grow (freePage W slotGroup bitIdx + 1) else p
  p.ensurePageZeroed (freePage W slotGroup bitIdx)

/-- `new_page` when every group is full: `bitset` is what the next bitset page reads as once the
file has grown over it. -/
def addGroup (p : Pager W) (bitset : Page W) : Pager W :=
  let q := (p.grow (p.header.pageCount + 2)).insertCache p.header.pageCount bitset true
  (q.insertCache p.header.pageCount (bitset.setBit 0) true).ensurePageZeroed (p.header.pageCount + 1)

theorem newPage_spec {p p' : Pager W} {idx : Nat} (h : p.newPage = some (p', idx)) :
    p.transactionActive = true ∧ ∃ q, Touched p q ∧
      ((∃ slotGroup bitset bitIdx, p.FreeSlot 0 slotGroup bitset bitIdx ∧
          idx = freePage W slotGroup bitIdx ∧ p' = q.takeSlot slotGroup bitset bitIdx) ∨
        (p.findFree p.bitsetCount 1 = some (q, none) ∧ (∀ k < p.bitsetCount, p.GroupFull k) ∧
          (p.header.pageCount - 1) % stride W = 0 ∧ idx = p.header.pageCount + 1 ∧
          ∃ bitset, (q.grow (p.header.pageCount + 2)).content p.header.pageCount = some bitset ∧
            p' = q.addGroup bitset)) := by
  rw [newPage] at h
  split at h
  · rename_i hactive
    refine ⟨hactive, ?_⟩
    obtain ⟨⟨q, slot⟩, hfind, h⟩ := Option.bind_eq_some_iff.mp h
    obtain ⟨htouched, ⟨slotGroup, bitset, bitIdx, rfl, hslot⟩ | ⟨rfl, hfull⟩⟩ := findFree_first hfind
    · cases h
      exact ⟨q, htouched, .inl ⟨slotGroup, bitset, bitIdx, hslot, rfl, rfl⟩⟩
    · dsimp only at h
      rw [htouched.header_eq] at h
      split at h
      · rename_i halign
        obtain ⟨⟨r, bitset⟩, hread, h⟩ := Option.bind_eq_some_iff.mp h
        cases h
        obtain ⟨-, -, hcontent, rfl⟩ := rwpage_eq_some hread
        refine ⟨q, htouched, .inr ⟨hfind, fun k hk => hfull k (Nat.zero_le k) (by omega), halign,
          rfl, bitset, hcontent, ?_⟩⟩
        rw [addGroup, htouched.header_eq]
      · cases h
  · cases h

/-! ### `delete_page` -/

def withPageCount (p : Pager W) (n : Nat) : Pager W :=
  { p with header := { p.header with pageCount := n } }

theorem Touched.withPageCount {p q : Pager W} (h : Touched p q) (n : Nat) :
    Touched (p.withPageCount n) (q.withPageCount n) where
  rest := by
    rw [h.rest]
    rfl
  content_eq i := h.content_eq i
  clean := h.clean
  kept := h.kept

/-- Page `i` has its bit set in `bitset`, the bitset of `group`, at or below entry `entryIdx`, or in
the bitset of a group below. -/
def Marked (p : Pager W) (group entryIdx : Nat) (bitset : Page W) (i : Nat) : Prop :=
  (∃ j < 64 * (entryIdx + 1), i = freePage W group j ∧ bitset.bit j = true) ∨
    ∃ g page, g < group ∧ p.content (bitsetPage W g) = some page ∧
      ∃ j < 64 * W, i = freePage W g j ∧ page.bit j = true

/-- Trimming stops right above the highest marked page, or with the header alone. -/
structure TrimmedTo (p : Pager W) (group entryIdx : Nat) (bitset : Page W) (n : Nat) : Prop where
  above : ∀ i, p.Marked group entryIdx bitset i → i < n
  top : n = 1 ∨ ∃ i, p.Marked group entryIdx bitset i ∧ n = i + 1

theorem trimmedTo_of_occupied (p : Pager W) {group entryIdx n : Nat} {bitset : Page W}
    (h : bitset.occupied entryIdx = some n) :
    p.TrimmedTo group entryIdx bitset (bitsetPage W group + 1 + n) := by
  obtain ⟨top, rfl, htop, hset, hclear⟩ := Page.occupied_some h
  refine ⟨?_, .inr ⟨freePage W group top, .inl ⟨top, htop, rfl, hset⟩, rfl⟩⟩
  rintro i (⟨j, hj, rfl, hbit⟩ | ⟨g, page, hg, -, j, hj, rfl, -⟩)
  · have : ¬ top < j := fun hlt => by
      rw [hclear j hlt hj] at hbit
      cases hbit
    rw [freePage]
    omega
  · have := bitsetPage_succ W g
    have hle : bitsetPage W (g + 1) ≤ bitsetPage W group :=
      Nat.add_le_add_right (Nat.mul_le_mul_right _ hg) 1
    have : stride W = W * 64 + 1 := rfl
    rw [freePage]
    omega

theorem marked_succ_iff {p q : Pager W} {group entryIdx : Nat} {bitset below : Page W}
    (hocc : bitset.occupied entryIdx = none)
    (hbelow : p.content (bitsetPage W group) = some below)
    (hcontent : ∀ i, q.content i = p.content i) (i : Nat) :
    p.Marked (group + 1) entryIdx bitset i ↔ q.Marked group (W - 1) below i := by
  constructor
  · rintro (⟨j, hj, -, hbit⟩ | ⟨g, page, hg, hpage, j, hj, rfl, hbit⟩)
    · rw [Page.occupied_none hocc j hj] at hbit
      cases hbit
    · rcases Nat.lt_succ_iff_lt_or_eq.mp hg with hg | rfl
      · exact .inr ⟨g, page, hg, (hcontent _).trans hpage, j, hj, rfl, hbit⟩
      · obtain rfl : below = page := Option.some.inj (hbelow.symm.trans hpage)
        exact .inl ⟨j, by omega, rfl, hbit⟩
  · rintro (⟨j, -, rfl, hbit⟩ | ⟨g, page, hg, hpage, hmark⟩)
    · exact .inr ⟨group, below, Nat.lt_succ_self group, hbelow, j, Page.lt_of_bit hbit, rfl, hbit⟩
    · exact .inr ⟨g, page, Nat.lt_succ_of_lt hg, (hcontent _).symm.trans hpage, hmark⟩

theorem trim_spec {p p' : Pager W} {group entryIdx : Nat} {bitset : Page W}
    (h : p.trim group entryIdx bitset = some p') :
    ∃ n, Touched (p.withPageCount n) p' ∧ p.TrimmedTo group entryIdx bitset n := by
  induction group generalizing p entryIdx bitset with
  | zero =>
      rw [trim] at h
      cases hocc : bitset.occupied entryIdx with
      | some n =>
          rw [hocc] at h
          cases h
          have := @trimmedTo_of_occupied _ p 0 entryIdx n bitset hocc
          rw [show bitsetPage W 0 + 1 + n = 2 + n by rw [bitsetPage]; omega] at this
          exact ⟨2 + n, .refl _, this⟩
      | none =>
          rw [hocc] at h
          cases h
          refine ⟨1, .refl _, ?_, .inl rfl⟩
          rintro i (⟨j, hj, -, hbit⟩ | ⟨g, page, hg, -⟩)
          · rw [Page.occupied_none hocc j hj] at hbit
            cases hbit
          · omega
  | succ group ih =>
      rw [trim] at h
      cases hocc : bitset.occupied entryIdx with
      | some n =>
          rw [hocc] at h
          cases h
          exact ⟨_, .refl _, p.trimmedTo_of_occupied hocc⟩
      | none =>
          rw [hocc] at h
          obtain ⟨⟨q, below⟩, hread, h⟩ := Option.bind_eq_some_iff.mp h
          obtain ⟨-, -, hcontent, htouched, -⟩ := rpage_eq_some hread
          obtain ⟨n, hrest, hall⟩ := ih h
          have hmarked := marked_succ_iff hocc hcontent fun i => htouched.content_eq i
          refine ⟨n, ?_, fun i hi => hall.above i ((hmarked i).mp hi), ?_⟩
          · exact (htouched.withPageCount n).trans hrest
          · rcases hall.top with rfl | ⟨i, hi, rfl⟩
            · exact .inl rfl
            · exact .inr ⟨i, (hmarked i).mpr hi, rfl⟩

/-- Trimming only needs the bitset pages of the lower groups to be readable. -/
theorem exists_trim {p : Pager W} {group entryIdx : Nat} {bitset : Page W}
    (hactive : p.transactionActive = true)
    (h : ∀ g < group, ∃ page, p.content (bitsetPage W g) = some page) :
    ∃ p', p.trim group entryIdx bitset = some p' := by
  induction group generalizing p entryIdx bitset with
  | zero =>
      rw [trim]
      split <;> exact ⟨_, rfl⟩
  | succ group ih =>
      rw [trim]
      split
      · exact ⟨_, rfl⟩
      · obtain ⟨page, hpage⟩ := h group (Nat.lt_succ_self group)
        have hrange : (p.withPageCount (bitsetPage W (group + 1))).InRange (bitsetPage W group) :=
          ⟨Nat.succ_pos _, bitsetPage_lt_iff.mpr (Nat.lt_succ_self group)⟩
        obtain ⟨q, hread⟩ := @rpage_of_content _ (p.withPageCount (bitsetPage W (group + 1)))
          (bitsetPage W group) page hactive hrange hpage
        obtain ⟨-, -, -, htouched, -⟩ := rpage_eq_some hread
        have hq : q.transactionActive = true := by
          rw [htouched.rest]
          exact hactive
        obtain ⟨p', htrim⟩ := @ih q (W - 1) page hq fun g hg => by
          obtain ⟨page, hpage⟩ := h g (Nat.lt_succ_of_lt hg)
          exact ⟨page, (htouched.content_eq _).trans hpage⟩
        exact ⟨p', Option.bind_eq_some_iff.mpr ⟨(q, page), hread, htrim⟩⟩

/-- `delete_page` up to trimming: the bit is cleared and the page zeroed. -/
def freed (p : Pager W) (group bitIdx : Nat) (bitset : Page W) : Pager W :=
  (p.insertCache (bitsetPage W group) (bitset.clearBit bitIdx) true).ensurePageZeroed
    (freePage W group bitIdx)

theorem eq_freePage {idx : Nat} (hpos : 0 < idx) (h : idx ≠ bitsetPage W (groupOf W idx)) :
    ∃ j < 64 * W, idx = freePage W (groupOf W idx) j := by
  obtain ⟨k, hk, heq⟩ := exists_offset (W := W) hpos
  have : stride W = W * 64 + 1 := rfl
  refine ⟨k - 1, by omega, ?_⟩
  rw [freePage]
  omega

theorem deletePage_spec {p p' : Pager W} {idx : Nat} (h : p.deletePage idx = some p') :
    p.transactionActive = true ∧ p.InRange idx ∧ ∃ g bitIdx bitset, bitIdx < 64 * W ∧
      idx = freePage W g bitIdx ∧ p.content (bitsetPage W g) = some bitset ∧
      bitset.bit bitIdx = true ∧
      ((idx ≠ p.header.pageCount - 1 ∧ p' = p.freed g bitIdx bitset) ∨
        (idx = p.header.pageCount - 1 ∧ ∃ n q,
          Touched ((p.freed g bitIdx bitset).withPageCount n) q ∧
          (p.freed g bitIdx bitset).TrimmedTo g (bitIdx / 64) (bitset.clearBit bitIdx) n ∧
          p' = { q with headerInWriteSet := true })) := by
  rw [deletePage] at h
  split at h
  · rename_i hactive
    dsimp only at h
    split at h
    · cases h
    · rename_i hne
      obtain ⟨⟨q, bitset⟩, hread, h⟩ := Option.bind_eq_some_iff.mp h
      obtain ⟨-, -, hcontent, rfl⟩ := rwpage_eq_some hread
      obtain ⟨j, hj, hidx⟩ := eq_freePage hactive.2.1 hne
      have hbit : idx - (bitsetPage W (groupOf W idx)) - 1 = j := by
        rw [freePage] at hidx
        omega
      rw [show (idx - 1) / stride W * stride W + 1 = bitsetPage W (groupOf W idx) from rfl, hbit] at h
      refine ⟨hactive.1, hactive.2, groupOf W idx, j, bitset, hj, hidx, hcontent, ?_⟩
      dsimp only at h
      split at h
      · rename_i hset
        refine ⟨hset, ?_⟩
        rw [insertCache_insertCache] at h
        have hfreed : (p.insertCache (bitsetPage W (groupOf W idx)) (bitset.clearBit j)
            true).ensurePageZeroed idx = p.freed (groupOf W idx) j bitset := by
          rw [freed, ← hidx]
        rw [hfreed] at h
        split at h
        · rename_i hlast
          obtain ⟨r, htrim, h⟩ := Option.bind_eq_some_iff.mp h
          cases h
          obtain ⟨n, htouched, htrimmed⟩ := trim_spec htrim
          exact .inr ⟨hlast, n, r, htouched, htrimmed, rfl⟩
        · rename_i hlast
          cases h
          exact .inl ⟨hlast, rfl⟩
      · cases h
  · cases h

end Pager

end Plexdb
