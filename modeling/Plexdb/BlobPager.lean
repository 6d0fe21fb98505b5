import Plexdb.PagerLaw
import Plexdb.BlobPaged

/-! The pager as the store of blob programs. Inside a transaction whose live pages are all marked as
allocated, a program sees the pages it cares for as a heap: a new page is fresh and zero, and every
other page of the heap stays as it is. -/

namespace Plexdb

open Pager

variable {W : Nat}

namespace Pager

/-! ### Allocation succeeds -/

theorem exists_findFree {p : Pager W} {n g : Nat} (hactive : p.transactionActive = true)
    (h : ∀ k, g ≤ k → k < g + n → p.InRange (bitsetPage W k) ∧
      ∃ bitset, p.content (bitsetPage W k) = some bitset) :
    ∃ r, p.findFree n (bitsetPage W g) = some r := by
  induction n generalizing p g with
  | zero => exact ⟨_, rfl⟩
  | succ n ih =>
      obtain ⟨hrange, bitset, hcontent⟩ := h g le_rfl (by omega)
      have hread := rwpage_of_content hactive hrange hcontent
      have htouched := rwpage_touched hread
      obtain ⟨r, hr⟩ := @ih (p.insertCache (bitsetPage W g) bitset true) (g + 1) hactive
        fun k hk hlt => by
          obtain ⟨hrange, page, hpage⟩ := h k (by omega) (by omega)
          exact ⟨hrange, page, (htouched.content_eq _).trans hpage⟩
      rw [findFree, hread]
      cases hfree : bitset.firstFree W 0 with
      | some bitIdx => exact ⟨(p.insertCache (bitsetPage W g) bitset true,
          some (bitsetPage W g, bitset, bitIdx)), by simp [hfree]⟩
      | none => exact ⟨r, by simpa [hfree, ← bitsetPage_succ] using hr⟩

/-- A page the file has just grown over can be read. -/
theorem exists_content_grow {p : Pager W} {i n : Nat} (hok : p.StorageOk) (hi : i < n) :
    ∃ data, (p.grow n).content i = some data := by
  have hload : ∃ data, (p.grow n).load i = some data := by
    have hok' : (p.grow n).StorageOk := hok
    rw [load_eq_stored hok', Files.stored]
    cases hlast : lastFrame (p.grow n).files.wal.frames (p.grow n).frameCount (.page i) with
    | none =>
        exact ⟨(p.files.main.readPage i).getD Page.zero, by
          change (p.files.main.resize n).readPage i = _
          rw [MainFile.readPage_resize, if_pos hi]⟩
    | some k =>
        obtain ⟨hk, hidx⟩ := lastFrame_lt hlast
        cases hwal : p.wal with
        | none =>
            have : (p.grow n).frameCount = 0 := by
              rw [frameCount, show (p.grow n).wal = p.wal from rfl, hwal]
            omega
        | some wal =>
            have hcount : (p.grow n).frameCount = wal.frameCount := by
              rw [frameCount, show (p.grow n).wal = p.wal from rfl, hwal]
            obtain ⟨page, hpage⟩ := hidx ▸ ((hok' wal hwal).valid k (hcount ▸ hk)).fits
            exact ⟨page, by simp [hpage, Payload.page?]⟩
  obtain ⟨data, hdata⟩ := hload
  cases hlookup : (p.grow n).pageCache.lookup i with
  | some entry => exact ⟨_, content_of_cached hlookup⟩
  | none => exact ⟨data, (content_of_not_cached hlookup).trans hdata⟩

/-- What the pages of a transaction need: every page allocated and not freed since has its bit set,
and the bitset pages below the page count can be read. The allocation law asks for more: no other bit
is set. -/
structure Covers (content : Nat → Option (Page W)) (pageCount : Nat) (live : Finset Nat) : Prop where
  pos : 0 < pageCount
  bits : ∀ g, bitsetPage W g < pageCount → ∃ bitset, content (bitsetPage W g) = some bitset ∧
    ∀ j < 64 * W, freePage W g j ∈ live → bitset.bit j = true
  page : ∀ i ∈ live, i < pageCount ∧ ∃ g j, j < 64 * W ∧ i = freePage W g j

theorem Law.covers {content : Nat → Option (Page W)} {pageCount : Nat} {live : Finset Nat}
    (h : Law content pageCount live) : Covers content pageCount live := by
  refine ⟨h.pos, fun g hg => ?_, h.page⟩
  obtain ⟨bitset, hbitset, hbits⟩ := h.bits g hg
  exact ⟨bitset, hbitset, fun j hj hlive => by rw [hbits j hj, decide_eq_true hlive]⟩

/-- The assertion of `new_page`: when every group is full, the next page is a bitset page. -/
def GroupsAligned (p : Pager W) : Prop :=
  (∀ k < p.bitsetCount, p.GroupFull k) → (p.header.pageCount - 1) % stride W = 0

/-- Under the allocation law the assertion holds. -/
theorem Law.groupsAligned {p : Pager W} {live : Finset Nat} (hW : 0 < W)
    (hlaw : Law p.content p.header.pageCount live) : p.GroupsAligned := by
  intro hfull
  rcases hlaw.top with hone | ⟨i, hi, htop⟩
  · rw [hone]
    exact Nat.zero_mod _
  · obtain ⟨-, g, j, hj, rfl⟩ := hlaw.page i hi
    have hg : bitsetPage W g < p.header.pageCount := by
      rw [htop, freePage]
      omega
    obtain ⟨bitset, hbitset, hset⟩ := hfull g ((lt_bitsetCount_iff hlaw.pos).mpr hg)
    obtain ⟨bitset', hbitset', hbits⟩ := hlaw.bits g hg
    obtain rfl := Option.some.inj (hbitset.symm.trans hbitset')
    -- the last page of the group is live, so the page count is past it
    have hlast := hbits (64 * W - 1) (by omega)
    rw [hset _ (by omega), eq_comm, decide_eq_true_iff] at hlast
    have hlt := (hlaw.page _ hlast).1
    rw [freePage] at hlt
    have hstride : stride W = W * 64 + 1 := rfl
    have hcount : p.header.pageCount - 1 = (g + 1) * stride W := by
      rw [htop, freePage] at hlt ⊢
      rw [bitsetPage] at hlt ⊢
      rw [Nat.add_mul]
      omega
    rw [hcount, Nat.mul_mod_left]

/-- A bitset page below the end of a group belongs to that group or one before it. -/
theorem group_le_of_lt {g h j : Nat} (hj : j < 64 * W) (hlt : bitsetPage W h < freePage W g j + 1) :
    h ≤ g := by
  have hne := freePage_ne_bitsetPage (h := h) (g := g) hj
  refine groups_le (k := 0) hj ?_
  change bitsetPage W h + 1 + 0 ≤ freePage W g j
  omega

namespace Covers

variable {p p' : Pager W} {live : Finset Nat} {idx : Nat}

theorem exists_newPage (hc : Covers p.content p.header.pageCount live)
    (hactive : p.transactionActive = true) (hok : p.StorageOk) (haligned : p.GroupsAligned) :
    ∃ p' idx, p.newPage = some (p', idx) := by
  obtain ⟨⟨q, slot⟩, hfind⟩ := @exists_findFree W p p.bitsetCount 0 hactive fun k _ hk => by
    have hk : bitsetPage W k < p.header.pageCount := (lt_bitsetCount_iff hc.pos).mp (by omega)
    obtain ⟨bitset, hbitset, -⟩ := hc.bits k hk
    exact ⟨⟨Nat.succ_pos _, hk⟩, bitset, hbitset⟩
  have hzero : bitsetPage W 0 = 1 := by simp [bitsetPage]
  rw [hzero] at hfind
  obtain ⟨htouched, ⟨g, bitset, j, rfl, hslot⟩ | ⟨rfl, hfull⟩⟩ := findFree_first hfind
  · rw [Pager.newPage, if_pos hactive, hfind]
    exact ⟨_, _, rfl⟩
  · have halign := haligned fun k hk => hfull k (Nat.zero_le k) (by omega)
    have hokq : q.StorageOk := by
      rw [htouched.rest]
      exact hok
    obtain ⟨bitset, hbitset⟩ := @exists_content_grow W q p.header.pageCount
      (p.header.pageCount + 2) hokq (by omega)
    have hactiveq : q.transactionActive = true := by
      rw [htouched.rest]
      exact hactive
    have hread := @rwpage_of_content W (q.grow (p.header.pageCount + 2)) p.header.pageCount bitset
      hactiveq ⟨hc.pos, by change _ < p.header.pageCount + 2; omega⟩ hbitset
    rw [Pager.newPage, if_pos hactive, hfind]
    simp only [Option.bind_eq_bind, Option.bind_some, htouched.header_eq, halign, if_true, hread]
    exact ⟨_, _, rfl⟩

/-- A new page is not the header and not live. -/
theorem newPage_fresh (hc : Covers p.content p.header.pageCount live)
    (h : p.newPage = some (p', idx)) : 0 < idx ∧ idx ∉ live := by
  obtain ⟨-, q, -, ⟨g, bitset, j, hslot, rfl, -⟩ | ⟨-, -, -, rfl, -⟩⟩ := newPage_spec h
  · refine ⟨by rw [freePage]; omega, fun hmem => ?_⟩
    obtain ⟨bitset', hcontent, hbits⟩ := hc.bits g hslot.inRange.2
    obtain rfl := Option.some.inj (hslot.content_eq.symm.trans hcontent)
    exact absurd (hslot.clear.symm.trans (hbits j hslot.lt hmem)) Bool.false_ne_true
  · exact ⟨by omega, fun hmem => by have := (hc.page _ hmem).1; omega⟩

theorem takeSlot {q : Pager W} {g j : Nat} {bitset : Page W}
    (hc : Covers p.content p.header.pageCount live) (htouched : Touched p q)
    (hslot : p.FreeSlot 0 g bitset j) :
    Covers (q.takeSlot g bitset j).content (q.takeSlot g bitset j).header.pageCount
      (insert (freePage W g j) live) := by
  have hg : bitsetPage W g < p.header.pageCount := hslot.inRange.2
  rw [pageCount_takeSlot, htouched.header_eq]
  refine ⟨lt_max_of_lt_left hc.pos, fun h hh => ?_, fun i hi => ?_⟩
  · have hlt : bitsetPage W h < p.header.pageCount := by
      rcases lt_max_iff.mp hh with hlt | hlt
      · exact hlt
      · have : bitsetPage W h ≤ bitsetPage W g :=
          Nat.add_le_add_right (Nat.mul_le_mul_right _ (group_le_of_lt hslot.lt hlt)) 1
        omega
    obtain ⟨page, hpage, hbits⟩ := hc.bits h hlt
    by_cases hgh : h = g
    · subst hgh
      obtain rfl := Option.some.inj (hslot.content_eq.symm.trans hpage)
      refine ⟨_, content_takeSlot_bitset hslot.lt, fun k hk hlive => ?_⟩
      rw [Page.bit_setBit _ hslot.lt]
      rcases Finset.mem_insert.mp hlive with heq | hlive
      · rw [(freePage_inj hk hslot.lt heq).2, decide_eq_true rfl, Bool.or_true]
      · rw [hbits k hk hlive, Bool.true_or]
    · refine ⟨page, content_takeSlot ((htouched.content_eq _).trans hpage)
        (htouched.header_eq ▸ hlt) (fun heq => hgh (bitsetPage_inj heq))
        (freePage_ne_bitsetPage hslot.lt).symm, fun k hk hlive => ?_⟩
      rcases Finset.mem_insert.mp hlive with heq | hlive
      · exact absurd (freePage_inj hk hslot.lt heq).1 hgh
      · exact hbits k hk hlive
  · rcases Finset.mem_insert.mp hi with rfl | hi
    · exact ⟨lt_max_of_lt_right (Nat.lt_succ_self _), g, j, hslot.lt, rfl⟩
    · exact ⟨lt_max_of_lt_left (hc.page i hi).1, (hc.page i hi).2⟩

theorem addGroup {q : Pager W} {bitset : Page W} (hW : 0 < W)
    (hc : Covers p.content p.header.pageCount live) (htouched : Touched p q)
    (halign : (p.header.pageCount - 1) % stride W = 0) :
    Covers (q.addGroup bitset).content (q.addGroup bitset).header.pageCount
      (insert (p.header.pageCount + 1) live) := by
  have hcount : (q.addGroup bitset).header.pageCount = p.header.pageCount + 2 := by
    rw [← htouched.header_eq]
    rfl
  have hlast := eq_bitsetPage hc.pos halign
  have hfree : p.header.pageCount + 1 = freePage W ((p.header.pageCount - 1) / stride W) 0 := by
    rw [freePage, ← hlast]
  rw [hcount]
  refine ⟨by omega, fun h hh => ?_, fun i hi => ?_⟩
  · have hne : bitsetPage W h ≠ p.header.pageCount + 1 := by
      rw [hfree]
      exact (freePage_ne_bitsetPage (by omega)).symm
    rw [content_addGroup, htouched.header_eq, if_neg hne]
    by_cases hlt : bitsetPage W h < p.header.pageCount
    · obtain ⟨page, hpage, hbits⟩ := hc.bits h hlt
      rw [if_neg (by omega)]
      refine ⟨page, content_grow ((htouched.content_eq _).trans hpage) (by omega), fun k hk hlive => ?_⟩
      rcases Finset.mem_insert.mp hlive with heq | hlive
      · rw [hfree] at heq
        have := (freePage_inj hk (by omega) heq).1
        rw [this, ← hlast] at hlt
        omega
      · exact hbits k hk hlive
    · have heq : bitsetPage W h = p.header.pageCount := by omega
      rw [if_pos heq]
      refine ⟨_, rfl, fun k hk hlive => ?_⟩
      rcases Finset.mem_insert.mp hlive with hk0 | hlive
      · rw [freePage, heq] at hk0
        obtain rfl : k = 0 := by omega
        rw [Page.bit_setBit _ (by omega), decide_eq_true rfl, Bool.or_true]
      · have := (hc.page _ hlive).1
        rw [freePage] at this
        omega
  · rcases Finset.mem_insert.mp hi with rfl | hi
    · exact ⟨by omega, _, 0, by omega, hfree⟩
    · exact ⟨by have := (hc.page i hi).1; omega, (hc.page i hi).2⟩

theorem newPage (hW : 0 < W) (hc : Covers p.content p.header.pageCount live)
    (h : p.newPage = some (p', idx)) :
    Covers p'.content p'.header.pageCount (insert idx live) := by
  obtain ⟨-, q, htouched, ⟨g, bitset, j, hslot, rfl, rfl⟩ |
    ⟨-, -, halign, rfl, bitset, -, rfl⟩⟩ := newPage_spec h
  · exact hc.takeSlot htouched hslot
  · exact hc.addGroup hW htouched halign

/-- The bitsets after the bit is cleared. -/
theorem freed_bits {g j : Nat} {bitset : Page W} (hc : Covers p.content p.header.pageCount live)
    (hj : j < 64 * W) (hbitset : p.content (bitsetPage W g) = some bitset) {h : Nat}
    (hh : bitsetPage W h < p.header.pageCount) :
    ∃ page, (p.freed g j bitset).content (bitsetPage W h) = some page ∧
      (h = g → page = bitset.clearBit j) ∧
      ∀ k < 64 * W, freePage W h k ∈ live.erase (freePage W g j) → page.bit k = true := by
  obtain ⟨page, hpage, hbits⟩ := hc.bits h hh
  rw [content_freed, if_neg (freePage_ne_bitsetPage hj).symm]
  by_cases hgh : h = g
  · subst hgh
    obtain rfl := Option.some.inj (hbitset.symm.trans hpage)
    refine ⟨_, if_pos rfl, fun _ => rfl, fun k hk hmem => ?_⟩
    obtain ⟨hne, hlive⟩ := Finset.mem_erase.mp hmem
    have hkj : k ≠ j := fun heq => hne (by rw [heq])
    rw [Page.bit_clearBit, hbits k hk hlive, decide_eq_false hkj]
    rfl
  · rw [if_neg fun heq => hgh (bitsetPage_inj heq)]
    exact ⟨page, hpage, fun heq => absurd heq hgh, fun k hk hmem =>
      hbits k hk (Finset.mem_of_mem_erase hmem)⟩

/-- When the last page is freed, trimming sees every live page. -/
theorem marked {g j : Nat} {bitset : Page W} (hc : Covers p.content p.header.pageCount live)
    (hj : j < 64 * W) (hbitset : p.content (bitsetPage W g) = some bitset)
    (hg : bitsetPage W g < p.header.pageCount) (hlast : freePage W g j = p.header.pageCount - 1)
    {i : Nat} (hi : i ∈ live.erase (freePage W g j)) :
    (p.freed g j bitset).Marked g (j / 64) (bitset.clearBit j) i := by
  obtain ⟨hne, hmem⟩ := Finset.mem_erase.mp hi
  obtain ⟨hlt, h, k, hk, rfl⟩ := hc.page i hmem
  have hle : freePage W h k ≤ freePage W g j := by omega
  have hgroup := groups_le hj hle
  have hbelow : bitsetPage W h ≤ bitsetPage W g :=
    Nat.add_le_add_right (Nat.mul_le_mul_right _ hgroup) 1
  obtain ⟨page, hpage, heq, hall⟩ := hc.freed_bits hj hbitset (h := h) (by omega)
  have hset := hall k hk hi
  rcases Nat.lt_or_eq_of_le hgroup with hlt' | rfl
  · exact .inr ⟨h, page, hlt', hpage, k, hk, rfl, hset⟩
  · refine .inl ⟨k, ?_, rfl, by rwa [← heq rfl]⟩
    rw [freePage, freePage] at hle
    omega

theorem deletePage (hc : Covers p.content p.header.pageCount live)
    (h : p.deletePage idx = some p') :
    Covers p'.content p'.header.pageCount (live.erase idx) := by
  obtain ⟨-, ⟨-, hlt⟩, g, j, bitset, hj, rfl, hbitset, -, hcases⟩ := deletePage_spec h
  have hrange : bitsetPage W g < p.header.pageCount := by
    rw [freePage] at hlt
    omega
  rcases hcases with ⟨-, rfl⟩ | ⟨hlast, n, q, htouched, htrimmed, rfl⟩
  · refine ⟨hc.pos, fun h hh => ?_, fun i hi => hc.page i (Finset.mem_of_mem_erase hi)⟩
    obtain ⟨page, hpage, -, hbits⟩ := hc.freed_bits hj hbitset hh
    exact ⟨page, hpage, hbits⟩
  · have hcount : q.header.pageCount = n := by
      rw [htouched.header_eq]
      rfl
    -- the new page count is in the group, or below it
    have hgroup : ∀ h, bitsetPage W h < n → h ≤ g := by
      intro h hh
      rcases htrimmed.top with rfl | ⟨i, hi, rfl⟩
      · rw [bitsetPage] at hh
        omega
      · have hmark : ∃ h' k, h' ≤ g ∧ k < 64 * W ∧ i = freePage W h' k := by
          rcases hi with ⟨k, -, rfl, hbit⟩ | ⟨h', page, hh', -, k, hk, rfl, -⟩
          · exact ⟨g, k, le_rfl, Page.lt_of_bit hbit, rfl⟩
          · exact ⟨h', k, hh'.le, hk, rfl⟩
        obtain ⟨h', k, hh', hk, rfl⟩ := hmark
        exact (group_le_of_lt hk hh).trans hh'
    change Covers q.content q.header.pageCount _
    rw [hcount]
    refine ⟨?_, fun h hh => ?_, fun i hi => ⟨htrimmed.above i (hc.marked hj hbitset hrange hlast hi),
      (hc.page i (Finset.mem_of_mem_erase hi)).2⟩⟩
    · rcases htrimmed.top with rfl | ⟨i, -, rfl⟩
      · exact Nat.one_pos
      · exact Nat.succ_pos i
    · have hle : bitsetPage W h ≤ bitsetPage W g :=
        Nat.add_le_add_right (Nat.mul_le_mul_right _ (hgroup h hh)) 1
      obtain ⟨page, hpage, -, hbits⟩ := hc.freed_bits hj hbitset (h := h) (by omega)
      exact ⟨page, (htouched.content_eq _).trans hpage, hbits⟩

/-- Freeing a live page succeeds: trimming ends. -/
theorem exists_deletePage (hc : Covers p.content p.header.pageCount live)
    (hactive : p.transactionActive = true) (hlive : idx ∈ live) :
    ∃ p', p.deletePage idx = some p' := by
  obtain ⟨hlt, g, j, hj, rfl⟩ := hc.page idx hlive
  have hgroup : (freePage W g j - 1) / stride W = g := by
    have := groupOf_eq (W := W) (g := g) (k := 1 + j) (by rw [stride]; omega)
    rw [groupOf, ← Nat.add_assoc] at this
    exact this
  have hrange : bitsetPage W g < p.header.pageCount := by
    rw [freePage] at hlt
    omega
  obtain ⟨bitset, hbitset, hbits⟩ := hc.bits g hrange
  have hset : bitset.bit j = true := hbits j hj hlive
  have hoffset : freePage W g j - bitsetPage W g - 1 = j := by
    rw [freePage]
    omega
  have hin : p.InRange (bitsetPage W g) := ⟨Nat.succ_pos _, hrange⟩
  have hread := rwpage_of_content hactive hin hbitset
  rw [Pager.deletePage, if_pos ⟨hactive, by rw [freePage]; omega, hlt⟩]
  dsimp only
  rw [hgroup, show g * stride W + 1 = bitsetPage W g from rfl, if_neg (freePage_ne_bitsetPage hj),
    hread, hoffset]
  change ∃ p', (if bitset.bit j = true then _ else none) = some p'
  rw [if_pos hset, insertCache_insertCache]
  split
  · obtain ⟨r, hr⟩ := @exists_trim _ (p.freed g j bitset) g (j / 64) (bitset.clearBit j) hactive
      fun h hh => by
        obtain ⟨page, hpage, -, -⟩ := hc.freed_bits (h := h) hj hbitset
          (Nat.lt_trans (bitsetPage_lt_iff.mpr hh) hrange)
        exact ⟨page, hpage⟩
    exact ⟨_, Option.bind_eq_some_iff.mpr ⟨r, hr, rfl⟩⟩
  · exact ⟨_, rfl⟩

/-! ### Frames -/

/-- A live page keeps its content when another page is allocated. -/
theorem content_newPage (hc : Covers p.content p.header.pageCount live)
    (h : p.newPage = some (p', idx)) :
    p'.content idx = some Page.zero ∧ ∀ i ∈ live, ∀ data, i ≠ idx → p.content i = some data →
      p'.content i = some data := by
  obtain ⟨-, q, htouched, ⟨g, bitset, j, hslot, rfl, rfl⟩ | ⟨-, -, halign, rfl, bitset, -, rfl⟩⟩ :=
    newPage_spec h
  · refine ⟨?_, fun i hi data hne hdata => ?_⟩
    · rw [Pager.takeSlot, ensurePageZeroed, content_insertCache, if_pos rfl]
    · obtain ⟨hlt, g', j', hj', rfl⟩ := hc.page i hi
      exact content_takeSlot ((htouched.content_eq _).trans hdata) (htouched.header_eq ▸ hlt)
        (freePage_ne_bitsetPage hj') hne
  · rw [← htouched.header_eq]
    refine ⟨by rw [content_addGroup, if_pos rfl], fun i hi data hne hdata => ?_⟩
    have hlt := (hc.page i hi).1
    rw [← htouched.header_eq] at hlt
    rw [content_addGroup, if_neg hne, if_neg (by omega)]
    exact content_grow ((htouched.content_eq _).trans hdata) (by omega)

/-- A live page keeps its content when another page is freed. -/
theorem content_deletePage (hc : Covers p.content p.header.pageCount live)
    (h : p.deletePage idx = some p') {i : Nat} (hi : i ∈ live) (hne : i ≠ idx) :
    p'.content i = p.content i := by
  obtain ⟨-, -, g, j, bitset, -, rfl, -, -, hcases⟩ := deletePage_spec h
  obtain ⟨-, g', j', hj', rfl⟩ := hc.page i hi
  have hfreed : (p.freed g j bitset).content (freePage W g' j') = p.content (freePage W g' j') := by
    rw [content_freed, if_neg hne, if_neg (freePage_ne_bitsetPage hj')]
  rcases hcases with ⟨-, rfl⟩ | ⟨-, n, q, htouched, -, rfl⟩
  · exact hfreed
  · exact (htouched.content_eq _).trans hfreed

end Covers

end Pager

/-! ### The store -/

namespace Blob

/-- Page programs run inside the transaction of a pager; the live pages are recorded beside it. -/
def store : PageStore (Sys W) (Page W) where
  newPage s := s.pager.newPage.map fun r => ({ s with pager := r.1, live := insert r.2 s.live }, r.2)
  deletePage s idx := (s.pager.deletePage idx).map fun p =>
    { s with pager := p, live := s.live.erase idx }
  rpage s idx := (s.pager.rpage idx).map fun r => ({ s with pager := r.1 }, r.2)
  rwpage s idx write := (s.pager.rwpage idx).map fun r =>
    ({ s with pager := r.1.insertCache idx (write r.2) true }, r.2)

/-- What an allocation must find: the assertion of `new_page` holds, and the page number fits the 64
bits it is stored in. -/
def Allocates (s : Sys W) : Prop :=
  s.pager.GroupsAligned ∧ ∀ p idx, s.pager.newPage = some (p, idx) → idx < 2 ^ 64

abbrev Heap (W : Nat) := Nat → Option (Page W)

/-- A transaction with these live pages, of which `h` describes some. -/
structure Views (s : Sys W) (live : Finset Nat) (h : Heap W) : Prop where
  active : s.pager.transactionActive = true
  ok : s.pager.StorageOk
  covers : Covers s.pager.content s.pager.header.pageCount live
  live_eq : s.live = live
  page : ∀ i data, h i = some data → i ∈ live ∧ s.pager.content i = some data

abbrev Does {α : Type} (prog : BlobProgram W α) (Q : Sys W → α → Prop) (s : Sys W) : Prop :=
  prog.Ensures store Allocates Q s

variable {s : Sys W} {live : Finset Nat} {h : Heap W}

theorem Views.storageOk_txStep {op : TxOp W} {p : Pager W} (hs : Views s live h)
    (hp : s.pager.txStep op = some p) : p.transactionActive = true ∧ p.StorageOk :=
  ⟨by rw [(txStep_inTx hp).eq]; exact hs.active, (txStep_inTx hp).storageOk hs.ok⟩

/-- A page that has been allocated is fresh and zero. -/
theorem Views.of_newPage (hW : 0 < W) (hs : Views s live h) {p : Pager W} {idx : Nat}
    (hp : s.pager.newPage = some (p, idx)) : idx ∉ live ∧ 0 < idx ∧
      Views { s with pager := p, live := insert idx s.live } (insert idx live)
        (Function.update h idx (some Page.zero)) := by
  obtain ⟨hne, hfresh⟩ := hs.covers.newPage_fresh hp
  obtain ⟨hzero, hframe⟩ := hs.covers.content_newPage hp
  obtain ⟨hactive, hok⟩ := @Views.storageOk_txStep W s live h .newPage p hs
    (Option.map_eq_some_iff.mpr ⟨_, hp, rfl⟩)
  refine ⟨hfresh, hne, hactive, hok, hs.covers.newPage hW hp, by rw [hs.live_eq], fun i data hi => ?_⟩
  by_cases hidx : i = idx
  · subst hidx
    rw [Function.update_self] at hi
    cases hi
    exact ⟨Finset.mem_insert_self _ _, hzero⟩
  · rw [Function.update_of_ne hidx] at hi
    obtain ⟨hlive, hcontent⟩ := hs.page i data hi
    exact ⟨Finset.mem_insert_of_mem hlive, hframe i hlive data hidx hcontent⟩

theorem Views.newPage (hW : 0 < W) (hs : Views s live h) {Q : Sys W → Nat → Prop}
    (hQ : ∀ s' idx, idx ∉ live → idx < 2 ^ 64 → 0 < idx →
      Views s' (insert idx live) (Function.update h idx (some Page.zero)) → Q s' idx) :
    Does newPage Q s := by
  rintro ⟨haligned, hsmall⟩
  obtain ⟨p, idx, hp⟩ := hs.covers.exists_newPage hs.active hs.ok haligned
  obtain ⟨hfresh, hpos, hviews⟩ := hs.of_newPage hW hp
  exact ⟨_, idx, Option.map_eq_some_iff.mpr ⟨_, hp, rfl⟩, hQ _ idx hfresh (hsmall p idx hp) hpos hviews⟩

theorem Views.deletePage (hs : Views s live h) {idx : Nat} (hidx : idx ∈ live)
    {Q : Sys W → Unit → Prop}
    (hQ : ∀ s', Views s' (live.erase idx) (Function.update h idx none) → Q s' ()) :
    Does (deletePage idx) Q s := by
  obtain ⟨p, hp⟩ := hs.covers.exists_deletePage hs.active hidx
  obtain ⟨hactive, hok⟩ := @Views.storageOk_txStep W s live h (.deletePage idx) p hs hp
  refine ⟨{ s with pager := p, live := s.live.erase idx }, Option.map_eq_some_iff.mpr ⟨_, hp, rfl⟩,
    hQ _ ⟨hactive, hok, hs.covers.deletePage hp, by rw [hs.live_eq], fun i data hi => ?_⟩⟩
  by_cases hne : i = idx
  · subst hne
    rw [Function.update_self] at hi
    cases hi
  · rw [Function.update_of_ne hne] at hi
    obtain ⟨hlive, hcontent⟩ := hs.page i data hi
    exact ⟨Finset.mem_erase.mpr ⟨hne, hlive⟩, (hs.covers.content_deletePage hp hlive hne).trans hcontent⟩

theorem Views.inRange (hs : Views s live h) {i : Nat} (hi : i ∈ live) :
    s.pager.InRange i ∧ ¬ IsBitset W i := by
  obtain ⟨hlt, g, j, hj, rfl⟩ := hs.covers.page i hi
  exact ⟨⟨by rw [freePage]; omega, hlt⟩, not_isBitset_page hj⟩

theorem Views.rpage (hs : Views s live h) {idx : Nat} {data : Page W} (hdata : h idx = some data)
    {Q : Sys W → Page W → Prop} (hQ : ∀ s', Views s' live h → Q s' data) :
    Does (rpage idx) Q s := by
  obtain ⟨hlive, hcontent⟩ := hs.page idx data hdata
  obtain ⟨p, hp⟩ := rpage_of_content hs.active (hs.inRange hlive).1 hcontent
  have htouched := (rpage_eq_some hp).2.2.2.1
  obtain ⟨hactive, hok⟩ := @Views.storageOk_txStep W s live h (.read idx) p hs
    (Option.map_eq_some_iff.mpr ⟨_, hp, rfl⟩)
  refine ⟨{ s with pager := p }, data, Option.map_eq_some_iff.mpr ⟨_, hp, rfl⟩,
    hQ _ ⟨hactive, hok, ?_, hs.live_eq, fun i data hi => ?_⟩⟩
  · change Covers p.content p.header.pageCount live
    rw [htouched.header_eq, funext htouched.content_eq]
    exact hs.covers
  · obtain ⟨hlive, hcontent⟩ := hs.page i data hi
    exact ⟨hlive, (htouched.content_eq i).trans hcontent⟩

theorem Views.rwpage (hs : Views s live h) {idx : Nat} {data : Page W} (hdata : h idx = some data)
    (write : Page W → Page W) {Q : Sys W → Unit → Prop}
    (hQ : ∀ s', Views s' live (Function.update h idx (some (write data))) → Q s' ()) :
    Does (rwpage idx write) Q s := by
  obtain ⟨hlive, hcontent⟩ := hs.page idx data hdata
  obtain ⟨hrange, hbitset⟩ := hs.inRange hlive
  have hp := rwpage_of_content hs.active hrange hcontent
  have hnew : ∀ i, ((s.pager.insertCache idx data true).insertCache idx (write data) true).content i =
      if i = idx then some (write data) else s.pager.content i := fun i => by
    rw [insertCache_insertCache, content_insertCache]
  refine ⟨_, data, Option.map_eq_some_iff.mpr ⟨_, hp, rfl⟩,
    hQ _ ⟨hs.active, hs.ok, ?_, hs.live_eq, fun i page hi => ?_⟩⟩
  · refine ⟨hs.covers.pos, fun g hg => ?_, hs.covers.page⟩
    obtain ⟨bitset, hcontent, hbits⟩ := hs.covers.bits g hg
    exact ⟨bitset, by rw [hnew, if_neg fun heq => hbitset ⟨g, heq.symm⟩, hcontent], hbits⟩
  · by_cases hne : i = idx
    · subst hne
      rw [Function.update_self] at hi
      exact ⟨hlive, by rw [hnew, if_pos rfl, hi]⟩
    · rw [Function.update_of_ne hne] at hi
      obtain ⟨hlive, hcontent⟩ := hs.page i page hi
      exact ⟨hlive, by rw [hnew, if_neg hne, hcontent]⟩

end Blob

end Plexdb
