import Plexdb.PagerSystem

/-! The page allocation law: a bit is set exactly for the pages allocated and not freed since, and
the page count is right above the highest of them. It survives every step except two: `new_page`
reading back a stale copy of a bitset page that was trimmed away, and `new_page` cutting the main
file below a committed bitset page before a rollback. -/

namespace Plexdb

open Pager

variable {W : Nat}

namespace Pager

/-- The law for pages that read as `content`. -/
structure Law (content : Nat → Option (Page W)) (pageCount : Nat) (live : Finset Nat) : Prop where
  bits : ∀ g, bitsetPage W g < pageCount → ∃ bitset, content (bitsetPage W g) = some bitset ∧
    ∀ j < 64 * W, bitset.bit j = decide (freePage W g j ∈ live)
  page : ∀ i ∈ live, i < pageCount ∧ ∃ g j, j < 64 * W ∧ i = freePage W g j
  top : pageCount = 1 ∨ ∃ i ∈ live, pageCount = i + 1

theorem freePage_inj {g h j k : Nat} (hj : j < 64 * W) (hk : k < 64 * W)
    (heq : freePage W g j = freePage W h k) : g = h ∧ j = k := by
  have hg := groupOf_eq (W := W) (g := g) (k := 1 + j) (by rw [stride]; omega)
  have hh := groupOf_eq (W := W) (g := h) (k := 1 + k) (by rw [stride]; omega)
  have hgh : bitsetPage W g + (1 + j) = bitsetPage W h + (1 + k) := by
    rw [freePage, freePage] at heq
    omega
  rw [hgh, hh] at hg
  subst hg
  exact ⟨rfl, by omega⟩

theorem freePage_ne_bitsetPage {g h j : Nat} (hj : j < 64 * W) : freePage W g j ≠ bitsetPage W h :=
  fun heq => not_isBitset_page hj ⟨h, heq⟩

theorem Law.pos {content : Nat → Option (Page W)} {pageCount : Nat} {live : Finset Nat}
    (h : Law content pageCount live) : 0 < pageCount := by
  rcases h.top with rfl | ⟨i, -, rfl⟩ <;> omega

theorem Law.mono {content content' : Nat → Option (Page W)} {pageCount : Nat} {live : Finset Nat}
    (h : Law content pageCount live)
    (heq : ∀ g, bitsetPage W g < pageCount → ∀ data, content (bitsetPage W g) = some data →
      content' (bitsetPage W g) = some data) : Law content' pageCount live := by
  refine ⟨fun g hg => ?_, h.page, h.top⟩
  obtain ⟨bitset, hbitset, hbits⟩ := h.bits g hg
  exact ⟨bitset, heq g hg bitset hbitset, hbits⟩

/-! ### `new_page` -/

/-- The bitset page that `new_page` would add reads with no bit set but the first, which it sets. -/
def NoStaleBitset (p : Pager W) : Prop :=
  ∀ q bitset, p.findFree p.bitsetCount 1 = some (q, none) →
    (q.grow (p.header.pageCount + 2)).content p.header.pageCount = some bitset →
    ∀ j, j ≠ 0 → bitset.bit j = false

theorem eq_bitsetPage {n : Nat} (hpos : 0 < n) (h : (n - 1) % stride W = 0) :
    n = bitsetPage W ((n - 1) / stride W) := by
  have := Nat.div_add_mod' (n - 1) (stride W)
  rw [bitsetPage]
  omega

/-- A new page is not the header, not a bitset page and not live. -/
theorem Law.newPage_fresh {p p' : Pager W} {idx : Nat} {live : Finset Nat} (hW : 0 < W)
    (hlaw : Law p.content p.header.pageCount live) (h : p.newPage = some (p', idx)) :
    idx ≠ 0 ∧ ¬ IsBitset W idx ∧ idx ∉ live := by
  obtain ⟨-, q, -, ⟨g, bitset, j, hslot, rfl, -⟩ | ⟨-, -, halign, rfl, -⟩⟩ := newPage_spec h
  · refine ⟨by rw [freePage]; omega, not_isBitset_page hslot.lt, fun hmem => ?_⟩
    obtain ⟨bitset', hcontent, hbits⟩ := hlaw.bits g hslot.inRange.2
    obtain rfl := Option.some.inj (hslot.content_eq.symm.trans hcontent)
    have := hbits j hslot.lt
    rw [hslot.clear, eq_comm, decide_eq_false_iff_not] at this
    exact this hmem
  · refine ⟨by omega, ?_, fun hmem => by have := (hlaw.page _ hmem).1; omega⟩
    have hnot := @not_isBitset_page W ((p.header.pageCount - 1) / stride W) 0 (by omega)
    rwa [← eq_bitsetPage hlaw.pos halign] at hnot

theorem content_takeSlot {p : Pager W} {g j : Nat} {bitset : Page W} {i : Nat} {data : Page W}
    (hi : p.content i = some data) (hlt : i < p.header.pageCount) (hb : i ≠ bitsetPage W g)
    (hfree : i ≠ freePage W g j) : (p.takeSlot g bitset j).content i = some data := by
  have hins : (p.insertCache (bitsetPage W g) (bitset.setBit j) true).content i = some data := by
    rw [content_insertCache, if_neg hb, hi]
  rw [takeSlot, ensurePageZeroed, content_insertCache, if_neg hfree]
  split
  · rename_i hle
    refine content_grow hins ?_
    have hle : p.header.pageCount ≤ freePage W g j := hle
    omega
  · exact hins

theorem content_takeSlot_bitset {p : Pager W} {g j : Nat} {bitset : Page W} (hj : j < 64 * W) :
    (p.takeSlot g bitset j).content (bitsetPage W g) = some (bitset.setBit j) := by
  have hcached : ((p.takeSlot g bitset j).pageCache.lookup (bitsetPage W g)) =
      some ⟨bitset.setBit j, true⟩ := by
    rw [takeSlot, ensurePageZeroed, lookup_insertCache, if_neg (freePage_ne_bitsetPage hj).symm]
    split
    · exact (lookup_insertCache p _ _ _ _).trans (if_pos rfl)
    · rw [lookup_insertCache, if_pos rfl]
  exact content_of_cached hcached

theorem pageCount_takeSlot (p : Pager W) (g j : Nat) (bitset : Page W) :
    (p.takeSlot g bitset j).header.pageCount = max p.header.pageCount (freePage W g j + 1) := by
  rw [takeSlot]
  have hins : (p.insertCache (bitsetPage W g) (bitset.setBit j) true).header = p.header := rfl
  rw [hins]
  split
  · change freePage W g j + 1 = _
    omega
  · change p.header.pageCount = _
    omega

/-- Under the law the first free page is at most the page count. -/
theorem Law.freePage_le {p : Pager W} {live : Finset Nat} {g j : Nat} {bitset : Page W}
    (hlaw : Law p.content p.header.pageCount live) (hslot : p.FreeSlot 0 g bitset j) :
    freePage W g j ≤ p.header.pageCount := by
  obtain ⟨bitset', hcontent, hbits⟩ := hlaw.bits g hslot.inRange.2
  obtain rfl := Option.some.inj (hslot.content_eq.symm.trans hcontent)
  cases j with
  | zero => exact hslot.inRange.2
  | succ j =>
      have hj := hslot.lt
      have hset := hbits j (by omega)
      rw [hslot.set_below j (Nat.lt_succ_self j), eq_comm, decide_eq_true_iff] at hset
      have := (hlaw.page _ hset).1
      rw [freePage] at this ⊢
      omega

theorem Law.takeSlot {p q : Pager W} {live : Finset Nat} {g j : Nat} {bitset : Page W}
    (hlaw : Law p.content p.header.pageCount live) (htouched : Touched p q)
    (hslot : p.FreeSlot 0 g bitset j) :
    Law (q.takeSlot g bitset j).content (q.takeSlot g bitset j).header.pageCount
      (insert (freePage W g j) live) := by
  have hle := hlaw.freePage_le hslot
  rw [pageCount_takeSlot, htouched.header_eq]
  refine ⟨fun h hh => ?_, fun i hi => ?_, ?_⟩
  · have hlt : bitsetPage W h < p.header.pageCount := by
      have := freePage_ne_bitsetPage (h := h) (g := g) hslot.lt
      omega
    obtain ⟨page, hpage, hbits⟩ := hlaw.bits h hlt
    by_cases hgh : h = g
    · subst hgh
      obtain rfl := Option.some.inj (hslot.content_eq.symm.trans hpage)
      refine ⟨_, content_takeSlot_bitset hslot.lt, fun k hk => ?_⟩
      rw [Page.bit_setBit _ hslot.lt, hbits k hk]
      have : freePage W h k = freePage W h j ↔ k = j :=
        ⟨fun heq => (freePage_inj hk hslot.lt heq).2, fun heq => by rw [heq]⟩
      simp [Finset.mem_insert, this, Bool.or_comm]
    · refine ⟨page, content_takeSlot ((htouched.content_eq _).trans hpage)
        (htouched.header_eq ▸ hlt) ?_ (freePage_ne_bitsetPage hslot.lt).symm, fun k hk => ?_⟩
      · intro heq
        rw [bitsetPage, bitsetPage, Nat.add_right_cancel_iff] at heq
        exact hgh (Nat.eq_of_mul_eq_mul_right (stride_pos W) heq)
      · have : freePage W h k ≠ freePage W g j := fun heq => hgh (freePage_inj hk hslot.lt heq).1
        rw [hbits k hk]
        simp [Finset.mem_insert, this]
  · rcases Finset.mem_insert.mp hi with rfl | hi
    · exact ⟨by omega, g, j, hslot.lt, rfl⟩
    · exact ⟨by have := (hlaw.page i hi).1; omega, (hlaw.page i hi).2⟩
  · by_cases hnew : p.header.pageCount ≤ freePage W g j
    · exact .inr ⟨_, Finset.mem_insert_self _ _, by omega⟩
    · rw [max_eq_left (by omega)]
      exact hlaw.top.imp id (Exists.imp fun i => And.imp_left Finset.mem_insert_of_mem)

theorem content_addGroup (p : Pager W) (bitset : Page W) (i : Nat) :
    (p.addGroup bitset).content i =
      if i = p.header.pageCount + 1 then some Page.zero
      else if i = p.header.pageCount then some (bitset.setBit 0)
      else (p.grow (p.header.pageCount + 2)).content i := by
  rw [addGroup, ensurePageZeroed, insertCache_insertCache, content_insertCache, content_insertCache]

theorem Law.addGroup {p q : Pager W} {live : Finset Nat} {bitset : Page W} (hW : 0 < W)
    (hlaw : Law p.content p.header.pageCount live) (htouched : Touched p q)
    (halign : (p.header.pageCount - 1) % stride W = 0)
    (hstale : ∀ j, j ≠ 0 → bitset.bit j = false) :
    Law (q.addGroup bitset).content (q.addGroup bitset).header.pageCount
      (insert (p.header.pageCount + 1) live) := by
  have hcount : (q.addGroup bitset).header.pageCount = p.header.pageCount + 2 := by
    rw [← htouched.header_eq]
    rfl
  have hlast := eq_bitsetPage hlaw.pos halign
  have hfree : p.header.pageCount + 1 = freePage W ((p.header.pageCount - 1) / stride W) 0 := by
    rw [freePage, ← hlast]
  rw [hcount]
  refine ⟨fun h hh => ?_, fun i hi => ?_, .inr ⟨_, Finset.mem_insert_self _ _, rfl⟩⟩
  · have hne : bitsetPage W h ≠ p.header.pageCount + 1 := by
      rw [hfree]
      exact (freePage_ne_bitsetPage (by omega)).symm
    rw [content_addGroup, htouched.header_eq, if_neg hne]
    by_cases hlt : bitsetPage W h < p.header.pageCount
    · obtain ⟨page, hpage, hbits⟩ := hlaw.bits h hlt
      rw [if_neg (by omega)]
      refine ⟨page, content_grow ((htouched.content_eq _).trans hpage) (by omega), fun k hk => ?_⟩
      have hnew : freePage W h k ≠ p.header.pageCount + 1 := by
        intro heq
        rw [hfree] at heq
        have := (freePage_inj hk (by omega) heq).1
        rw [this, ← hlast] at hlt
        omega
      rw [hbits k hk]
      simp [Finset.mem_insert, hnew]
    · have heq : bitsetPage W h = p.header.pageCount := by omega
      rw [if_pos heq]
      refine ⟨_, rfl, fun k hk => ?_⟩
      have hnot : freePage W h k ∉ live := fun hmem => by
        have := (hlaw.page _ hmem).1
        rw [freePage] at this
        omega
      have hk0 : freePage W h k = p.header.pageCount + 1 ↔ k = 0 := by
        rw [freePage, heq]
        omega
      rw [Page.bit_setBit _ (by omega), Bool.eq_iff_iff]
      simp only [Bool.or_eq_true, decide_eq_true_iff, Finset.mem_insert, hnot, or_false, hk0]
      constructor
      · rintro (hbit | rfl)
        · by_contra hne
          rw [hstale k hne] at hbit
          cases hbit
        · rfl
      · exact .inr
  · rcases Finset.mem_insert.mp hi with rfl | hi
    · exact ⟨by omega, _, 0, by omega, hfree⟩
    · exact ⟨by have := (hlaw.page i hi).1; omega, (hlaw.page i hi).2⟩

theorem Law.newPage {p p' : Pager W} {idx : Nat} {live : Finset Nat} (hW : 0 < W)
    (hlaw : Law p.content p.header.pageCount live) (hstale : p.NoStaleBitset)
    (h : p.newPage = some (p', idx)) :
    Law p'.content p'.header.pageCount (insert idx live) := by
  obtain ⟨-, q, htouched, ⟨g, bitset, j, hslot, rfl, rfl⟩ |
    ⟨hfind, -, halign, rfl, bitset, hbitset, rfl⟩⟩ := newPage_spec h
  · exact hlaw.takeSlot htouched hslot
  · exact hlaw.addGroup hW htouched halign (hstale q bitset hfind hbitset)

/-! ### `delete_page` -/

theorem bitsetPage_inj {g h : Nat} (heq : bitsetPage W g = bitsetPage W h) : g = h := by
  rw [bitsetPage, bitsetPage, Nat.add_right_cancel_iff] at heq
  exact Nat.eq_of_mul_eq_mul_right (stride_pos W) heq

theorem content_freed {p : Pager W} {g j : Nat} {bitset : Page W} (i : Nat) :
    (p.freed g j bitset).content i =
      if i = freePage W g j then some Page.zero
      else if i = bitsetPage W g then some (bitset.clearBit j) else p.content i := by
  rw [freed, ensurePageZeroed, content_insertCache, content_insertCache]

/-- The bitsets after the bit is cleared. -/
theorem Law.freed_bits {p : Pager W} {live : Finset Nat} {g j : Nat} {bitset : Page W}
    (hlaw : Law p.content p.header.pageCount live) (hj : j < 64 * W)
    (hbitset : p.content (bitsetPage W g) = some bitset) (hlive : freePage W g j ∈ live)
    {h : Nat} (hh : bitsetPage W h < p.header.pageCount) :
    ∃ page, (p.freed g j bitset).content (bitsetPage W h) = some page ∧
      (h = g → page = bitset.clearBit j) ∧
      ∀ k < 64 * W, page.bit k = decide (freePage W h k ∈ live.erase (freePage W g j)) := by
  obtain ⟨page, hpage, hbits⟩ := hlaw.bits h hh
  rw [content_freed, if_neg (freePage_ne_bitsetPage hj).symm]
  by_cases hgh : h = g
  · subst hgh
    obtain rfl := Option.some.inj (hbitset.symm.trans hpage)
    refine ⟨_, if_pos rfl, fun _ => rfl, fun k hk => ?_⟩
    have : freePage W h k = freePage W h j ↔ k = j :=
      ⟨fun heq => (freePage_inj hk hj heq).2, fun heq => by rw [heq]⟩
    rw [Page.bit_clearBit, hbits k hk]
    simp [Finset.mem_erase, this, Bool.and_comm]
  · rw [if_neg fun heq => hgh (bitsetPage_inj heq)]
    refine ⟨page, hpage, fun heq => absurd heq hgh, fun k hk => ?_⟩
    have : freePage W h k ≠ freePage W g j := fun heq => hgh (freePage_inj hk hj heq).1
    rw [hbits k hk]
    simp [Finset.mem_erase, this]

theorem groups_le {g h j k : Nat} (hj : j < 64 * W) (hle : freePage W h k ≤ freePage W g j) : h ≤ g := by
  by_contra hlt
  have hmul : bitsetPage W (g + 1) ≤ bitsetPage W h :=
    Nat.add_le_add_right (Nat.mul_le_mul_right _ (by omega)) 1
  have hstride : stride W = W * 64 + 1 := rfl
  rw [bitsetPage_succ] at hmul
  rw [freePage, freePage] at hle
  omega

/-- When the last page is freed, the pages marked for trimming are the live ones. -/
theorem Law.marked_iff {p : Pager W} {live : Finset Nat} {g j : Nat} {bitset : Page W}
    (hlaw : Law p.content p.header.pageCount live) (hj : j < 64 * W)
    (hbitset : p.content (bitsetPage W g) = some bitset) (hlive : freePage W g j ∈ live)
    (hlast : freePage W g j = p.header.pageCount - 1) (i : Nat) :
    (p.freed g j bitset).Marked g (j / 64) (bitset.clearBit j) i ↔
      i ∈ live.erase (freePage W g j) := by
  have hbelow : ∀ h ≤ g, bitsetPage W h < p.header.pageCount := by
    intro h hle
    have : bitsetPage W h ≤ bitsetPage W g :=
      Nat.add_le_add_right (Nat.mul_le_mul_right _ hle) 1
    have := (hlaw.page _ hlive).1
    rw [freePage] at this
    omega
  have hbits := fun h hle => hlaw.freed_bits hj hbitset hlive (hbelow h hle)
  constructor
  · rintro (⟨k, -, rfl, hbit⟩ | ⟨h, page, hh, hpage, k, hk, rfl, hbit⟩)
    · obtain ⟨page, -, heq, hall⟩ := hbits g le_rfl
      rw [← heq rfl, hall k (Page.lt_of_bit hbit), decide_eq_true_iff] at hbit
      exact hbit
    · obtain ⟨page', hpage', -, hall⟩ := hbits h hh.le
      obtain rfl := Option.some.inj (hpage'.symm.trans hpage)
      rwa [hall k hk, decide_eq_true_iff] at hbit
  · intro hi
    obtain ⟨hne, hmem⟩ := Finset.mem_erase.mp hi
    obtain ⟨hlt, h, k, hk, rfl⟩ := hlaw.page i hmem
    have hle : freePage W h k ≤ freePage W g j := by omega
    have hgroup := groups_le hj hle
    obtain ⟨page, hpage, heq, hall⟩ := hbits h hgroup
    have hset : page.bit k = true := by
      rw [hall k hk, decide_eq_true_iff]
      exact hi
    rcases Nat.lt_or_eq_of_le hgroup with hlt' | rfl
    · exact .inr ⟨h, page, hlt', hpage, k, hk, rfl, hset⟩
    · refine .inl ⟨k, ?_, rfl, by rwa [← heq rfl]⟩
      rw [freePage, freePage] at hle
      omega

theorem Law.deletePage {p p' : Pager W} {idx : Nat} {live : Finset Nat}
    (hlaw : Law p.content p.header.pageCount live) (h : p.deletePage idx = some p') :
    Law p'.content p'.header.pageCount (live.erase idx) := by
  obtain ⟨-, ⟨-, hlt⟩, g, j, bitset, hj, rfl, hbitset, hset, hcases⟩ := deletePage_spec h
  have hrange : bitsetPage W g < p.header.pageCount := by
    rw [freePage] at hlt
    omega
  have hlive : freePage W g j ∈ live := by
    obtain ⟨page, hpage, hbits⟩ := hlaw.bits g hrange
    obtain rfl := Option.some.inj (hbitset.symm.trans hpage)
    rwa [hbits j hj, decide_eq_true_iff] at hset
  rcases hcases with ⟨hnot, rfl⟩ | ⟨hlast, n, q, htouched, htrimmed, rfl⟩
  · refine ⟨fun h hh => ?_, fun i hi => hlaw.page i (Finset.mem_of_mem_erase hi), ?_⟩
    · obtain ⟨page, hpage, -, hbits⟩ := hlaw.freed_bits hj hbitset hlive hh
      exact ⟨page, hpage, hbits⟩
    · refine hlaw.top.imp id ?_
      rintro ⟨i, hi, heq⟩
      refine ⟨i, Finset.mem_erase.mpr ⟨?_, hi⟩, heq⟩
      have : (p.freed g j bitset).header.pageCount = p.header.pageCount := rfl
      omega
  · have hmarked := hlaw.marked_iff hj hbitset hlive hlast
    have hcount : q.header.pageCount = n := by
      rw [htouched.header_eq]
      rfl
    have hle : n ≤ p.header.pageCount := by
      rcases htrimmed.top with rfl | ⟨i, hi, rfl⟩
      · exact hlaw.pos
      · exact (hlaw.page i (Finset.mem_of_mem_erase ((hmarked i).mp hi))).1
    change Law q.content q.header.pageCount _
    rw [hcount]
    refine ⟨fun h hh => ?_, fun i hi => ⟨htrimmed.above i ((hmarked i).mpr hi), ?_⟩, ?_⟩
    · obtain ⟨page, hpage, -, hbits⟩ :=
        hlaw.freed_bits hj hbitset hlive (h := h) (by omega)
      exact ⟨page, (htouched.content_eq _).trans hpage, hbits⟩
    · exact (hlaw.page i (Finset.mem_of_mem_erase hi)).2
    · exact htrimmed.top.imp id (Exists.imp fun i => And.imp_left (hmarked i).mp)

/-- Freeing a live page succeeds: trimming ends. -/
theorem Law.exists_deletePage {p : Pager W} {idx : Nat} {live : Finset Nat}
    (hlaw : Law p.content p.header.pageCount live) (hactive : p.transactionActive = true)
    (hlive : idx ∈ live) : ∃ p', p.deletePage idx = some p' := by
  obtain ⟨hlt, g, j, hj, rfl⟩ := hlaw.page idx hlive
  have hgroup : (freePage W g j - 1) / stride W = g := by
    have := groupOf_eq (W := W) (g := g) (k := 1 + j) (by rw [stride]; omega)
    rw [groupOf, ← Nat.add_assoc] at this
    exact this
  have hrange : bitsetPage W g < p.header.pageCount := by
    rw [freePage] at hlt
    omega
  obtain ⟨bitset, hbitset, hbits⟩ := hlaw.bits g hrange
  have hset : bitset.bit j = true := by
    rw [hbits j hj, decide_eq_true_iff]
    exact hlive
  have hoffset : freePage W g j - bitsetPage W g - 1 = j := by
    rw [freePage]
    omega
  have hin : p.InRange (bitsetPage W g) := ⟨Nat.succ_pos _, hrange⟩
  have hread := rwpage_of_content hactive hin hbitset
  rw [Pager.deletePage, if_pos ⟨hactive, by rw [freePage]; omega, hlt⟩]
  dsimp only
  rw [hgroup, show g * stride W + 1 = bitsetPage W g from rfl, if_neg (freePage_ne_bitsetPage hj),
    hread, hoffset]
  change ∃ p', (if bitset.bit j = true then _ else none) = some p'
  rw [if_pos hset, insertCache_insertCache]
  split
  · rename_i hlast
    obtain ⟨r, hr⟩ := @exists_trim _ (p.freed g j bitset) g (j / 64) (bitset.clearBit j) hactive
      fun h hh => by
        obtain ⟨page, hpage, -, -⟩ := hlaw.freed_bits (h := h) hj hbitset hlive
          (Nat.lt_trans (bitsetPage_lt_iff.mpr hh) hrange)
        exact ⟨page, hpage⟩
    exact ⟨_, Option.bind_eq_some_iff.mpr ⟨r, hr, rfl⟩⟩
  · exact ⟨_, rfl⟩

/-! ### Runs -/

/-- A page the step brings below the page count has a dirty entry. -/
theorem Law.new_dirty {p p' : Pager W} {live : Finset Nat} {op : TxOp W}
    (hlaw : Law p.content p.header.pageCount live) (h : p.txStep op = some p') {i : Nat}
    (hi : i < p'.header.pageCount) (hge : p.header.pageCount ≤ i) {entry : PageCacheEntry W}
    (hlookup : p'.pageCache.lookup i = some entry) : entry.dirty = true := by
  have htop : ∀ (q : Pager W) (idx : Nat) (data : Page W), i = idx →
      (q.insertCache idx data true).pageCache.lookup i = some entry → entry.dirty = true := by
    intro q idx data heq hq
    rw [lookup_insertCache, if_pos heq] at hq
    cases hq
    rfl
  cases op with
  | newPage =>
      obtain ⟨⟨q, idx⟩, hnew, rfl⟩ := Option.map_eq_some_iff.mp h
      obtain ⟨-, r, htouched, ⟨g, bitset, j, hslot, -, rfl⟩ | ⟨-, -, -, -, bitset, -, rfl⟩⟩ :=
        newPage_spec hnew
      · rw [pageCount_takeSlot, htouched.header_eq] at hi
        have := hlaw.freePage_le hslot
        rw [Pager.takeSlot, ensurePageZeroed] at hlookup
        exact htop _ _ _ (by omega) hlookup
      · have hcount : (r.addGroup bitset).header.pageCount = r.header.pageCount + 2 := rfl
        rw [hcount, htouched.header_eq] at hi
        rw [Pager.addGroup, ensurePageZeroed, htouched.header_eq] at hlookup
        by_cases heq : i = p.header.pageCount + 1
        · exact htop _ _ _ heq hlookup
        · rw [lookup_insertCache, if_neg heq] at hlookup
          exact htop _ _ _ (by omega) hlookup
  | deletePage idx =>
      have hlaw' := hlaw.deletePage h
      exfalso
      rcases hlaw'.top with hone | ⟨k, hk, heq⟩
      · have := hlaw.pos
        omega
      · have := (hlaw.page k (Finset.mem_of_mem_erase hk)).1
        omega
  | write idx data =>
      obtain ⟨⟨q, old⟩, hread, h⟩ := Option.bind_eq_some_iff.mp h
      cases h
      have : q.header = p.header := (rwpage_touched hread).header_eq
      have hi : i < q.header.pageCount := hi
      rw [this] at hi
      omega
  | read idx =>
      obtain ⟨⟨q, data⟩, hread, rfl⟩ := Option.map_eq_some_iff.mp h
      have : q.header = p.header := (rpage_eq_some hread).2.2.2.1.header_eq
      rw [this] at hi
      omega
  | setRoot page =>
      rw [txStep, setRoot] at h
      split at h
      · cases h
        exact absurd hi (by simpa using hge)
      · cases h

/-- What `new_page` must find for the law to survive: no stale bits in a bitset page it adds, and
every committed bitset page that lives in the main file alone below the size it gives the file. -/
def Sys.KeepsBitsets (s : Sys W) : Op W → Prop
  | .tx .newPage => s.pager.NoStaleBitset ∧ ∀ n, s.pager.growTarget = some n → ∀ g,
      bitsetPage W g < s.committed.header.pageCount →
      s.pager.frameOf (bitsetPage W g) = none → bitsetPage W g < n
  | _ => True

structure Sys.Lawful (s : Sys W) : Prop extends s.Sound where
  law : Law s.pager.content s.pager.header.pageCount s.live
  committedLaw : Law s.pager.load s.committed.header.pageCount s.committed.live
  clean : ∀ i < s.pager.header.pageCount, s.pager.CleanAt i

theorem Sys.Lawful.txStep {s s' : Sys W} {op : TxOp W} (hW : 0 < W) (hs : s.Lawful)
    (hkeep : s.KeepsBitsets (.tx op)) (h : s.txStep op = some s') :
    Law s'.pager.content s'.pager.header.pageCount s'.live := by
  have hsame : ∀ (p : Pager W), Touched s.pager p → Law p.content p.header.pageCount s.live := by
    intro p htouched
    rw [htouched.header_eq, funext htouched.content_eq]
    exact hs.law
  cases op with
  | newPage =>
      obtain ⟨⟨p, idx⟩, hp, rfl⟩ := Option.map_eq_some_iff.mp h
      exact hs.law.newPage hW hkeep.1 hp
  | deletePage idx =>
      obtain ⟨p, hp, rfl⟩ := Option.map_eq_some_iff.mp h
      exact hs.law.deletePage hp
  | write idx data =>
      rw [Sys.txStep] at h
      split at h
      · rename_i hlive
        obtain ⟨p, hp, rfl⟩ := Option.map_eq_some_iff.mp h
        obtain ⟨⟨q, old⟩, hread, hp⟩ := Option.bind_eq_some_iff.mp hp
        cases hp
        refine (hsame q (rwpage_touched hread)).mono fun g _ bitset hbitset => ?_
        obtain ⟨-, h, j, hj, rfl⟩ := hs.law.page idx hlive
        rw [content_insertCache, if_neg (freePage_ne_bitsetPage hj).symm]
        exact hbitset
      · cases h
  | read idx =>
      obtain ⟨p, hp, rfl⟩ := Option.map_eq_some_iff.mp h
      obtain ⟨⟨q, data⟩, hread, rfl⟩ := Option.map_eq_some_iff.mp hp
      exact hsame q (rpage_eq_some hread).2.2.2.1
  | setRoot page =>
      obtain ⟨p, hp, rfl⟩ := Option.map_eq_some_iff.mp h
      rw [Pager.txStep, setRoot] at hp
      split at hp
      · cases hp
        exact hs.law
      · cases hp

theorem content_of_empty {p : Pager W} (h : p.pageCache = ∅) (i : Nat) : p.content i = p.load i :=
  content_of_not_cached (by rw [h]; exact AList.lookup_empty i)

theorem cleanAt_of_empty {p : Pager W} (h : p.pageCache = ∅) (i : Nat) : p.CleanAt i := by
  intro entry hlookup
  rw [h, AList.lookup_empty] at hlookup
  cases hlookup

theorem Sys.Lawful.step {s s' : Sys W} {op : Op W} (hW : 0 < W) (hs : s.Lawful)
    (hkeep : s.KeepsBitsets op) (h : s.step op = some s') : s'.Lawful := by
  have hsound := hs.toSound.step h
  cases op with
  | begin =>
      obtain ⟨p, hp, rfl⟩ := Option.map_eq_some_iff.mp h
      obtain ⟨-, rfl⟩ := begin_eq_some hp
      exact ⟨hsound, hs.law, hs.committedLaw, hs.clean⟩
  | tx op =>
      obtain ⟨hstep, hcommitted⟩ := Sys.txStep_pager h
      have htx := Pager.txStep_inTx hstep
      refine ⟨hsound, hs.txStep hW hkeep h, ?_, fun i hi => ?_⟩
      · rw [hcommitted]
        refine hs.committedLaw.mono fun g hg bitset hbitset => load_of_spared htx hbitset ?_
        intro hframe n hn
        cases op with
        | newPage => exact hkeep.2 n (Option.mem_toList.mp hn) g hg hframe
        | _ => cases hn
      · by_cases hlt : i < s.pager.header.pageCount
        · exact cleanAt_txStep hstep hlt (hs.clean i hlt)
        · intro entry hlookup hdirty
          rw [hs.law.new_dirty hstep hi (Nat.le_of_not_lt hlt) hlookup] at hdirty
          cases hdirty
  | commit =>
      obtain ⟨p, hp, rfl⟩ := Option.map_eq_some_iff.mp h
      have hdone := commit_spec hp hs.ok
      have hlaw : Law p.load p.header.pageCount s.live := by
        rw [hdone.header_eq]
        exact hs.law.mono fun g hg bitset hbitset => hdone.page _ hg (hs.clean _ hg) bitset hbitset
      refine ⟨hsound, ?_, hdone.header_eq ▸ hlaw, fun i _ => cleanAt_of_empty hdone.empty i⟩
      rw [funext (content_of_empty hdone.empty)]
      exact hlaw
  | rollback =>
      rw [Sys.step] at h
      split at h
      · rename_i hactive
        cases h
        refine ⟨hsound, ?_, hs.committedLaw, fun i _ => cleanAt_of_empty rfl i⟩
        have hheader : s.pager.rollback.header = s.committed.header := hs.saved hactive
        rw [funext (content_of_empty rfl)]
        change Law _ s.pager.rollback.header.pageCount _
        rw [hheader]
        exact hs.committedLaw
      · cases h
  | checkpoint =>
      rw [Sys.step] at h
      split at h
      · cases h
      · rename_i hinactive
        obtain ⟨p, hp, rfl⟩ := Option.map_eq_some_iff.mp h
        obtain ⟨wal, writes, hwal, hcheck⟩ := checkpoint_spec hp
        obtain ⟨hheader, hlive, hempty, -⟩ := hs.idle (by simpa using hinactive)
        have hfields := hcheck.eq
        rw [issueAll_files] at hfields
        have hcache : p.pageCache = ∅ := by
          rw [hfields]
          exact hempty
        have hcount : p.header = s.pager.header := by rw [hfields]
        have hlaw : Law p.load s.committed.header.pageCount s.committed.live := by
          refine hs.committedLaw.mono fun g hg bitset hbitset => ?_
          refine hcheck.load_eq hwal (hheader ▸ hg) hbitset fun entry hlookup => ?_
          rw [hempty, AList.lookup_empty] at hlookup
          cases hlookup
        refine ⟨hsound, ?_, hlaw, fun i _ => cleanAt_of_empty hcache i⟩
        rw [funext (content_of_empty hcache)]
        change Law _ p.header.pageCount s.live
        rw [hcount, hheader, hlive]
        exact hlaw

theorem Sys.lawful_create (salt : BitVec 64) (withWal : Bool) (checkpointInterval : Nat) :
    (Sys.create (W := W) salt withWal checkpointInterval).Lawful := by
  have hlaw : ∀ content : Nat → Option (Page W), Law content 1 ∅ := fun content =>
    ⟨fun g hg => by rw [bitsetPage] at hg; omega, nofun, .inl rfl⟩
  exact ⟨Sys.sound_create salt withWal checkpointInterval, hlaw _, hlaw _,
    fun i _ => cleanAt_of_empty rfl i⟩

/-- The allocation law in every state of a run whose `new_page` steps find their bitsets intact:
bits, page count and live pages agree; a new page is not the header, not a bitset page and not live;
and freeing a live page ends, with the page count right above the highest page left. -/
theorem allocation_law (hW : 0 < W) (salt : BitVec 64) (withWal : Bool) (checkpointInterval : Nat)
    (ops : List (Op W)) (s : Sys W)
    (hrun : Sys.Run Sys.KeepsBitsets (Sys.create salt withWal checkpointInterval) ops s) :
    Law s.pager.content s.pager.header.pageCount s.live ∧
      (∀ p idx, s.pager.newPage = some (p, idx) → idx ≠ 0 ∧ ¬ IsBitset W idx ∧ idx ∉ s.live) ∧
      (∀ idx ∈ s.live, s.pager.transactionActive = true → ∃ p, s.pager.deletePage idx = some p ∧
        Law p.content p.header.pageCount (s.live.erase idx)) := by
  have hs : s.Lawful := hrun.invariant (fun _ _ _ hs hcond hstep => hs.step hW hcond hstep)
    (Sys.lawful_create salt withWal checkpointInterval)
  refine ⟨hs.law, fun p idx hp => hs.law.newPage_fresh hW hp, fun idx hidx hactive => ?_⟩
  obtain ⟨p, hp⟩ := hs.law.exists_deletePage hactive hidx
  exact ⟨p, hp, hs.law.deletePage hp⟩

/-- A new pager that allocates one page. -/
theorem allocation_law_one_page :
    ∃ s, Sys.Run Sys.KeepsBitsets (Sys.create (W := 4) 0 true 10) [.begin, .tx .newPage] s ∧
      s.live = {2} ∧ Law s.pager.content s.pager.header.pageCount s.live := by
  have hsome : ((Sys.create (W := 4) 0 true 10).step .begin).isSome := rfl
  obtain ⟨s₁, h₁⟩ := Option.isSome_iff_exists.mp hsome
  have heq : s₁ = { Sys.create (W := 4) 0 true 10 with
      pager := { (Sys.create (W := 4) 0 true 10).pager with
        savedHeader := (Sys.create (W := 4) 0 true 10).pager.header
        transactionActive := true } } := (Option.some.inj h₁).symm
  have hsome₂ : (s₁.step (.tx .newPage)).map (·.live) = some {2} := by
    rw [heq]
    decide +kernel
  obtain ⟨s₂, h₂, hlive⟩ := Option.map_eq_some_iff.mp hsome₂
  have hkeep : s₁.KeepsBitsets (.tx .newPage) := by
    subst heq
    refine ⟨fun q bitset hfind hbitset j _ => ?_, fun n _ g hg _ => ?_⟩
    · cases hfind
      cases hbitset
      exact Page.bit_zero j
    · have : bitsetPage 4 g < 1 := hg
      rw [bitsetPage] at this
      omega
  have hrun : Sys.Run Sys.KeepsBitsets (Sys.create (W := 4) 0 true 10) [.begin, .tx .newPage] s₂ :=
    .cons trivial h₁ (.cons hkeep h₂ (.nil s₂))
  exact ⟨s₂, hrun, hlive, (allocation_law (by decide) 0 true 10 _ s₂ hrun).1⟩

/-- Three pages allocated, committed, freed and committed; the next `new_page` reads the bitset of
the first commit back from the WAL, and pages 3 and 4 count as allocated. -/
theorem stale_bitset_breaks_law :
    ∃ s, Sys.Run (fun _ _ => True) (Sys.create (W := 4) 0 true 10)
        [.begin, .tx .newPage, .tx .newPage, .tx .newPage, .commit,
          .begin, .tx (.deletePage 4), .tx (.deletePage 3), .tx (.deletePage 2), .commit,
          .begin, .tx .newPage] s ∧
      ¬ Law s.pager.content s.pager.header.pageCount s.live := by
  have hrun : ((Sys.create (W := 4) 0 true 10).exec
      [.begin, .tx .newPage, .tx .newPage, .tx .newPage, .commit,
        .begin, .tx (.deletePage 4), .tx (.deletePage 3), .tx (.deletePage 2), .commit,
        .begin, .tx .newPage]).map (fun s =>
          (s.pager.header.pageCount, decide (3 ∈ s.live), (s.pager.content 1).map (·.bit 1))) =
      some (3, false, some true) := by
    decide +kernel
  obtain ⟨s, hexec, hs⟩ := Option.map_eq_some_iff.mp hrun
  refine ⟨s, Sys.run_of_exec hexec, fun hlaw => ?_⟩
  obtain ⟨hcount, hlive, hbit⟩ : s.pager.header.pageCount = 3 ∧ decide (3 ∈ s.live) = false ∧
      (s.pager.content 1).map (·.bit 1) = some true := by
    simpa only [Prod.mk.injEq] using hs
  obtain ⟨bitset, hbitset, hbits⟩ := hlaw.bits 0 (by rw [hcount]; decide)
  rw [show (1 : Nat) = bitsetPage 4 0 from rfl, hbitset] at hbit
  have hset : bitset.bit 1 = true := Option.some.inj hbit
  rw [hbits 1 (by decide)] at hset
  exact absurd (hset.symm.trans hlive) nofun

end Pager

end Plexdb
