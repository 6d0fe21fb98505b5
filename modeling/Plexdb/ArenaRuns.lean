import Plexdb.ArenaLayout

/-! Runs of an arena: the regions that are held are aligned, inside their pages and disjoint, and every page is freed
once, as long as a request fits the page it is given, a `clear` finds the free stack empty or no page to put on it,
and the arena is cleared before it is destroyed. -/

namespace Plexdb.Arena

/-! ### Conditions -/

/-- The size of the page that a request gets when the current one is full. -/
def takenSize (m : Memory) (arena current : ArenaPage) (size align : Nat) (granted : Bool) : Option Nat :=
  let newPage :=
    if granted = true ∧ (current.pageSize < size → size + (align - 1) < 2 ^ 64) then
      some (if size > current.pageSize then roundUp size align else current.pageSize)
    else none
  match arena.freeStack with
  | none => newPage
  | some top =>
      match m.page top with
      | none => none
      | some page => if page.pageSize > size then some page.pageSize else newPage

def isPow2 (align : Nat) : Bool := (List.range 64).any fun k => 2 ^ k == align

/-- The request fits the current page, or else the page that it gets, with its alignment, and no sum is over the
word. -/
def pushFits (m : Memory) (root size align : Nat) (granted : Bool) : Bool :=
  match m.page root with
  | none => false
  | some arena =>
      match m.page arena.current with
      | none => false
      | some current =>
          isPow2 align && decide (current.pageOffset + (align - 1) < 2 ^ 64) &&
            decide (roundUp current.pageOffset align + size < 2 ^ 64) &&
            (decide (roundUp current.pageOffset align + size ≤ headerSize + current.pageSize) ||
              match takenSize m arena current size align granted with
              | none => false
              | some pageSize => decide (headerSize + (align - 1) < 2 ^ 64) &&
                  decide (roundUp headerSize align + size ≤ headerSize + pageSize) &&
                  decide (current.baseOffset + headerSize + current.pageSize + headerSize + pageSize < 2 ^ 64))

/-- No page is in use behind the first one, or none is on the free stack. -/
def clearKeeps (m : Memory) (root : Nat) : Bool :=
  match m.page root with
  | none => false
  | some arena => arena.current == root || arena.freeStack.isNone

namespace Sys

/-- A pop goes to an offset that is live. -/
def good (s : Sys) : Op → Bool
  | .push size align granted => pushFits s.mem s.root size align granted
  | .offset => true
  | .popTo index =>
      match s.held[index]? with
      | some (.mark _) => true
      | some (.region _) => false
      | none => false
  | .clear => clearKeeps s.mem s.root

/-- Only the first page is in use, and it is a block of the allocator. -/
def cleared (s : Sys) : Bool :=
  match s.mem.page s.root with
  | none => false
  | some arena => arena.current == s.root && s.mem.backing.isNone

end Sys

theorem isPow2_spec {align : Nat} (h : isPow2 align = true) : ∃ k, k < 64 ∧ align = 2 ^ k := by
  obtain ⟨k, hk, heq⟩ := List.any_eq_true.mp h
  exact ⟨k, List.mem_range.mp hk, (beq_iff_eq.mp heq).symm⟩

theorem isPow2_pos {align : Nat} (h : isPow2 align = true) : 0 < align := by
  obtain ⟨k, -, rfl⟩ := isPow2_spec h
  exact Nat.two_pow_pos k

theorem alignPow2_of_isPow2 {x align : Nat} (h : isPow2 align = true) (hfits : x + (align - 1) < 2 ^ 64) :
    alignPow2 x align = roundUp x align := by
  obtain ⟨k, hk, rfl⟩ := isPow2_spec h
  exact alignPow2_eq hk hfits

theorem u64_of_lt {x : Nat} (h : x < 2 ^ 64) : u64 x = x := Nat.mod_eq_of_lt h

/-! ### `push` -/

namespace Layout

variable {m : Memory} {root : Nat} {chain free : List Slot}

/-- The page on top of the free stack. -/
theorem freePage (h : Layout m root chain free) {arena : ArenaPage} (harena : m.page root = some arena) {top : Nat}
    (htop : arena.freeStack = some top) : ∃ slot rest page, free = slot :: rest ∧ slot.id = top ∧
      m.page top = some page ∧ page.prev = some ((topId rest).getD root) ∧ page.pageSize = slot.size := by
  obtain ⟨p, hp, -, hfreeStack⟩ := h.rootPage
  rw [harena] at hp
  cases hp
  cases free with
  | nil => rw [htop] at hfreeStack; cases hfreeStack
  | cons slot rest =>
      rw [htop] at hfreeStack
      obtain ⟨page, hpage, hprev, -, hsize, -⟩ := h.freeChained.1
      have hid := (Option.some.inj hfreeStack).symm
      exact ⟨slot, rest, page, rfl, hid, hid ▸ hpage, hprev, hsize⟩

/-- The free stack behind its top, as `push` reads it. -/
theorem rest_eq (h : Layout m root chain free) {slot : Slot} {rest : List Slot} (hfree : free = slot :: rest) :
    (if some ((topId rest).getD root) = some root then none else some ((topId rest).getD root)) = topId rest := by
  have hroot := h.root_notMem_free
  rw [hfree] at hroot
  cases rest with
  | nil => exact if_pos rfl
  | cons next rest =>
      refine if_neg fun heq => hroot ?_
      have hnext : next.id = root := Option.some.inj heq
      exact hnext ▸ List.mem_cons_of_mem _ List.mem_cons_self

theorem takePage_spec (h : Layout m root chain free) {arena current : ArenaPage} (harena : m.page root = some arena)
    {size align pageSize : Nat} {granted : Bool} (hpow : isPow2 align = true)
    (hsize : takenSize m arena current size align granted = some pageSize) :
    ∃ m' new free', m.takePage root arena current size align granted = some (m', new) ∧
      Taken m m' root new pageSize chain free' := by
  have hnew : ∀ newSize, (if granted = true ∧ (current.pageSize < size → size + (align - 1) < 2 ^ 64) then
        some (if size > current.pageSize then roundUp size align else current.pageSize) else none) = some newSize →
      ∃ m' new free', (if granted = true then some (m.allocate
          (if size > current.pageSize then alignPow2 size align else current.pageSize)) else none) = some (m', new) ∧
        Taken m m' root new newSize chain free' := by
    intro newSize hsome
    by_cases hgranted : granted = true ∧ (current.pageSize < size → size + (align - 1) < 2 ^ 64)
    · rw [if_pos hgranted, Option.some_inj] at hsome
      have halign : (if size > current.pageSize then alignPow2 size align else current.pageSize) = newSize := by
        by_cases hlarge : size > current.pageSize
        · rw [if_pos hlarge, alignPow2_of_isPow2 hpow (hgranted.2 hlarge), ← hsome, if_pos hlarge]
        · rw [if_neg hlarge, ← hsome, if_neg hlarge]
      rw [if_pos hgranted.1, halign]
      exact ⟨_, _, free, rfl, h.taken_new newSize⟩
    · rw [if_neg hgranted] at hsome
      cases hsome
  rw [takenSize] at hsize
  rw [Memory.takePage]
  cases htop : arena.freeStack with
  | none =>
      rw [htop] at hsize
      exact hnew pageSize hsize
  | some top =>
      rw [htop] at hsize
      obtain ⟨slot, rest, page, rfl, rfl, hpage, hprev, hslot⟩ := h.freePage harena htop
      simp only [hpage] at hsize ⊢
      by_cases hlarge : page.pageSize > size
      · rw [if_pos hlarge, Option.some_inj] at hsize
        rw [if_pos hlarge, hprev, h.rest_eq rfl]
        refine ⟨_, _, rest, rfl, ?_⟩
        rw [← hsize, hslot]
        exact h.taken_free hpage _ _ (fun _ => ⟨rfl, rfl, rfl, rfl⟩) (fun _ => rfl) fun _ => ⟨rfl, rfl⟩
      · rw [if_neg hlarge] at hsize
        rw [if_neg hlarge]
        exact hnew pageSize hsize

end Layout

/-- What the condition says about the pages it reads. -/
theorem pushFits_spec {m : Memory} {root size align : Nat} {granted : Bool} {arena current : ArenaPage}
    (h : pushFits m root size align granted = true) (harena : m.page root = some arena)
    (hcurrent : m.page arena.current = some current) :
    isPow2 align = true ∧ current.pageOffset + (align - 1) < 2 ^ 64 ∧
      roundUp current.pageOffset align + size < 2 ^ 64 ∧
      (roundUp current.pageOffset align + size ≤ headerSize + current.pageSize ∨
        ∃ pageSize, takenSize m arena current size align granted = some pageSize ∧
          headerSize + (align - 1) < 2 ^ 64 ∧ roundUp headerSize align + size ≤ headerSize + pageSize ∧
          current.baseOffset + headerSize + current.pageSize + headerSize + pageSize < 2 ^ 64) := by
  rw [pushFits, harena] at h
  simp only [hcurrent, Bool.and_eq_true, decide_eq_true_eq, Bool.or_eq_true] at h
  obtain ⟨⟨⟨hpow, halign⟩, hsize⟩, hroom⟩ := h
  refine ⟨hpow, halign, hsize, hroom.imp id fun htaken => ?_⟩
  cases hpage : takenSize m arena current size align granted with
  | none => rw [hpage] at htaken; cases htaken
  | some pageSize =>
      simp only [hpage, Bool.and_eq_true, decide_eq_true_eq] at htaken
      exact ⟨pageSize, rfl, htaken.1.1, htaken.1.2, htaken.2⟩

/-- What the user holds lies in the layout. -/
structure Kept (s : Sys) (chain free : List Slot) : Prop where
  layout : Layout s.mem s.root chain free
  held : Below chain (top chain) s.held

theorem Kept.push {s : Sys} {chain free : List Slot} (h : Kept s chain free) {size align : Nat} {granted : Bool}
    (hgood : s.good (.push size align granted) = true) :
    ∃ s' chain' free', s.step (.push size align granted) = some s' ∧ Kept s' chain' free' := by
  obtain ⟨slot, below, arena, page, rfl, harena, hcurrent, hfree, hpage, hprev, hbase, hsize, hused⟩ := h.layout.current
  rw [← hcurrent] at hpage
  obtain ⟨hpow, halign, hnowrap, hroom⟩ := pushFits_spec hgood harena hpage
  have hpos := isPow2_pos hpow
  have hfits := h.layout.stacked.fits
  have hheader := hfits.header_le
  have husedLe := hfits.used_le
  have hlt := hfits.lt
  have hbefore := alignPow2_of_isPow2 hpow halign
  have hle := le_roundUp (x := page.pageOffset) hpos
  have hafter := u64_of_lt hnowrap
  have hlimit : u64 (headerSize + page.pageSize) = headerSize + page.pageSize := u64_of_lt (by omega)
  by_cases hin : roundUp page.pageOffset align + size ≤ headerSize + page.pageSize
  · -- the region is on the current page
    have hpush : s.mem.push s.root size align granted = some (s.mem.modify slot.id fun p =>
        { p with pageOffset := roundUp page.pageOffset align + size }, slot.id, roundUp page.pageOffset align) := by
      rw [Memory.push, harena, Option.bind_eq_bind, Option.bind_some, hpage, Option.bind_eq_bind, Option.bind_some]
      dsimp only
      rw [hbefore, hafter, hlimit, if_neg (by omega), hcurrent]
    have hfits : ({ slot with used := roundUp page.pageOffset align + size } : Slot).Fits :=
      ⟨by dsimp only; omega, by dsimp only; omega, hlt⟩
    refine ⟨_, _, free, by rw [Sys.step, hpush]; rfl, h.layout.setUsed hfits, ?_⟩
    refine ⟨{ slot with used := roundUp page.pageOffset align + size }, List.mem_cons_self, rfl, dvd_roundUp _ _,
      by dsimp only; omega, by dsimp only; omega, by dsimp only [top]; omega, ?_⟩
    refine h.held.mono (by dsimp only [top]; omega) fun other hmem _ => ?_
    rcases List.mem_cons.mp hmem with rfl | hmem
    · exact ⟨_, List.mem_cons_self, rfl, rfl, rfl⟩
    · exact ⟨other, List.mem_cons_of_mem _ hmem, rfl, rfl, rfl⟩
  · -- the region is on another page
    obtain ⟨pageSize, htakenSize, halign', hin', hbound⟩ := hroom.resolve_left hin
    obtain ⟨m', new, free', htake, htaken⟩ := h.layout.takePage_spec harena hpow htakenSize
    have hroundUp := le_roundUp (x := headerSize) hpos
    have hfits' : (⟨new, slot.base + headerSize + slot.size, pageSize, roundUp headerSize align + size⟩ : Slot).Fits :=
      ⟨by dsimp only; omega, hin', by dsimp only; omega⟩
    obtain ⟨p, hp, hpsize, hpused⟩ := htaken.newPage
    have hnew : s.root ≠ new := by
      intro heq
      have hnodup := (List.nodup_cons.mp (htaken.account.nodup_iff.mpr List.nodup_range)).1
      exact hnodup (heq ▸ List.mem_append_left _ (List.mem_append_left _ h.layout.root_mem))
    have hpush : s.mem.push s.root size align granted = some
        ((Layout.link m' s.root new (slot.base + headerSize + slot.size) slot.id).modify new fun p =>
          { p with pageOffset := roundUp headerSize align + size }, new, roundUp headerSize align) := by
      have hlinked : (Layout.link m' s.root new (slot.base + headerSize + slot.size) slot.id).page new = some
          { p with baseOffset := slot.base + headerSize + slot.size, prev := some slot.id } :=
        Layout.link_new (Ne.symm hnew) hp
      have hbaseOffset : u64 (page.baseOffset + headerSize + page.pageSize) = slot.base + headerSize + slot.size := by
        rw [hbase, hsize]
        exact u64_of_lt hlt
      have halignNew : alignPow2 p.pageOffset align = roundUp headerSize align := by
        rw [hpused]
        exact alignPow2_of_isPow2 hpow halign'
      have hafterNew : u64 (roundUp headerSize align + size) = roundUp headerSize align + size :=
        u64_of_lt (by omega)
      have hlimitNew : u64 (headerSize + p.pageSize) = headerSize + pageSize := by
        rw [hpsize]
        exact u64_of_lt (by omega)
      rw [Memory.push, harena, Option.bind_eq_bind, Option.bind_some, hpage, Option.bind_eq_bind, Option.bind_some]
      dsimp only
      rw [hbefore, hafter, hlimit, if_pos (by omega), htake, Option.bind_some, hbaseOffset, hcurrent]
      dsimp only
      rw [Layout.link] at hlinked ⊢
      rw [hlinked, Option.bind_some]
      dsimp only
      rw [halignNew, hafterNew, hlimitNew, if_pos hin']
    refine ⟨_, _, free', by rw [Sys.step, hpush]; rfl, htaken.push h.layout hfits', ?_⟩
    refine ⟨_, List.mem_cons_self, rfl, dvd_roundUp _ _, hroundUp, hin', by dsimp only [top]; omega, ?_⟩
    refine h.held.mono (by dsimp only [top]; omega) fun other hmem _ => ?_
    exact ⟨other, List.mem_cons_of_mem _ hmem, rfl, rfl, rfl⟩

/-! ### `offset`, `pop_to` and `clear` -/

theorem Kept.offset {s : Sys} {chain free : List Slot} (h : Kept s chain free) :
    s.mem.offset s.root = some (top chain) := by
  obtain ⟨slot, below, arena, page, rfl, harena, hcurrent, -, hpage, -, hbase, -, hused⟩ := h.layout.current
  have hfits := h.layout.stacked.fits
  have hused' := hfits.used_le
  have hlt := hfits.lt
  rw [Memory.offset, harena, Option.bind_eq_bind, Option.bind_some, hcurrent, hpage, Option.bind_some, hbase, hused,
    u64_of_lt (by omega)]
  rfl

theorem Kept.mark {s : Sys} {chain free : List Slot} (h : Kept s chain free) :
    ∃ s', s.step .offset = some s' ∧ Kept s' chain free := by
  refine ⟨{ s with held := .mark (top chain) :: s.held }, by rw [Sys.step, h.offset]; rfl, h.layout, ?_⟩
  obtain ⟨slot, below, -, -, rfl, -⟩ := h.layout.current
  have hfits := h.layout.stacked.fits
  refine ⟨⟨slot, List.mem_cons_self, Nat.add_le_add_left hfits.header_le _, ?_⟩, le_rfl, h.held⟩
  have hused := hfits.used_le
  dsimp only [top]
  omega

/-- The loop of `pop_to` frees the pages behind the offset, and the offset is on the page that it leaves. -/
theorem Layout.popTo {m : Memory} {root : Nat} {chain free : List Slot} (h : Layout m root chain free) {offset : Nat}
    (hslot : ∃ slot ∈ chain, slot.base + headerSize ≤ offset ∧ offset ≤ slot.base + headerSize + slot.size)
    {fuel : Nat} (hfuel : chain.length ≤ fuel) :
    ∃ m' chain', Memory.popTo root offset fuel m = some m' ∧ Layout m' root chain' free ∧ top chain' = offset ∧
      ∀ slot ∈ chain, slot.base + headerSize ≤ offset →
        ∃ slot' ∈ chain', slot'.id = slot.id ∧ slot'.base = slot.base ∧ slot'.size = slot.size := by
  induction chain generalizing m fuel with
  | nil => obtain ⟨_, hmem, -⟩ := hslot; cases hmem
  | cons first below ih =>
      obtain ⟨fuel, rfl⟩ := Nat.exists_eq_succ_of_ne_zero (Nat.ne_of_gt (Nat.lt_of_lt_of_le (Nat.succ_pos _) hfuel))
      obtain ⟨slot, below', arena, page, hchain, harena, hcurrent, -, hpage, hprev, hbase, hsize, -⟩ := h.current
      obtain ⟨rfl, rfl⟩ := List.cons.inj hchain
      have hlt := h.stacked.fits.lt
      have hheader : u64 (page.baseOffset + headerSize) = first.base + headerSize := by
        rw [hbase]
        exact u64_of_lt (by omega)
      rw [← hcurrent] at hpage
      by_cases hbehind : offset < first.base + headerSize
      · cases below with
        | nil =>
            obtain ⟨slot, hmem, hle, -⟩ := hslot
            obtain rfl := List.mem_singleton.mp hmem
            omega
        | cons next below =>
            obtain ⟨m₁, hm₁, -, hlayout⟩ := h.pop
            have hslot' : ∃ slot ∈ next :: below, slot.base + headerSize ≤ offset ∧
                offset ≤ slot.base + headerSize + slot.size := by
              obtain ⟨slot, hmem, hle, hend⟩ := hslot
              rcases List.mem_cons.mp hmem with rfl | hmem
              · omega
              · exact ⟨slot, hmem, hle, hend⟩
            obtain ⟨m', chain', hm', hlayout', htop, hkeep⟩ := ih hlayout hslot' (Nat.le_of_succ_le_succ hfuel)
            refine ⟨m', chain', ?_, hlayout', htop, fun slot hmem hle => ?_⟩
            · rw [Memory.popTo, harena, Option.bind_eq_bind, Option.bind_some, hpage, Option.bind_eq_bind,
                Option.bind_some, hheader, if_pos hbehind, hprev, hcurrent]
              change ((m.modify root fun p => { p with current := next.id }).free first.id).bind _ = some m'
              rw [hm₁]
              exact hm'
            · rcases List.mem_cons.mp hmem with rfl | hmem
              · omega
              · exact hkeep slot hmem hle
      · have hend : offset ≤ first.base + headerSize + first.size := by
          obtain ⟨slot, hmem, hle, hend⟩ := hslot
          rcases List.mem_cons.mp hmem with rfl | hmem
          · exact hend
          · have := h.stacked.below_le hmem
            omega
        have hmax : max (offset - first.base) headerSize = offset - first.base := by omega
        have hfits : ({ first with used := offset - first.base } : Slot).Fits :=
          ⟨by dsimp only; omega, by dsimp only; omega, hlt⟩
        refine ⟨_, _, ?_, h.setUsed hfits, ?_, fun slot hmem _ => ?_⟩
        · rw [Memory.popTo, harena, Option.bind_eq_bind, Option.bind_some, hpage, Option.bind_eq_bind,
            Option.bind_some, hheader, if_neg hbehind, if_neg (fun hmid => hbehind hmid.2), hbase, hmax, hcurrent]
        · dsimp only [top]
          omega
        · rcases List.mem_cons.mp hmem with rfl | hmem
          · exact ⟨_, List.mem_cons_self, rfl, rfl, rfl⟩
          · exact ⟨slot, List.mem_cons_of_mem _ hmem, rfl, rfl, rfl⟩

theorem Layout.length_le {m : Memory} {root : Nat} {chain free : List Slot} (h : Layout m root chain free) :
    chain.length ≤ m.next := by
  have hlength := h.account.length_eq
  rw [allIds, List.length_append, List.length_append, List.length_map, List.length_map, List.length_range] at hlength
  omega

theorem Kept.popTo {s : Sys} {chain free : List Slot} (h : Kept s chain free) {index offset : Nat}
    (hmark : s.held[index]? = some (.mark offset)) :
    ∃ s' chain', s.step (.popTo index) = some s' ∧ Kept s' chain' free ∧ top chain' = offset := by
  obtain ⟨hbelow, -, hslot⟩ := h.held.drop hmark
  obtain ⟨m', chain', hm', hlayout, htop, hkeep⟩ := h.layout.popTo hslot (Nat.le_succ_of_le h.layout.length_le)
  refine ⟨{ s with mem := m', held := s.held.drop index }, chain', ?_, ⟨hlayout, ?_⟩, htop⟩
  · rw [Sys.step, hmark]
    exact congrArg (Option.map _) hm'
  · rw [htop]
    exact hbelow.mono le_rfl hkeep

theorem modify_congr {m : Memory} {id : Nat} {f g : ArenaPage → ArenaPage}
    (h : ∀ p, m.page id = some p → f p = g p) : m.modify id f = m.modify id g := by
  have hmap : (m.page id).map f = (m.page id).map g := by
    cases hp : m.page id with
    | none => rfl
    | some p => exact congrArg some (h p hp)
  rw [Memory.modify, Memory.modify, hmap]

theorem Kept.clear {s : Sys} {chain free : List Slot} (h : Kept s chain free) (hgood : s.good .clear = true) :
    ∃ s' chain' free', s.step .clear = some s' ∧ Kept s' chain' free' := by
  obtain ⟨slot, below, arena, page, rfl, harena, hcurrent, hfree, hpage, -⟩ := h.layout.current
  obtain ⟨above, rootSlot, hchain, hroot⟩ := h.layout.rootLast
  cases above with
  | nil =>
      obtain ⟨rfl, rfl⟩ := List.cons.inj hchain
      have hclear : s.mem.clear s.root =
          some (s.mem.modify slot.id fun p => { p with pageOffset := headerSize }) := by
        rw [Memory.clear, harena, Option.bind_eq_bind, Option.bind_some, hcurrent, hroot]
        exact if_neg (not_not.mpr rfl)
      have hfits : ({ slot with used := headerSize } : Slot).Fits :=
        ⟨le_rfl, Nat.le_add_right _ _, h.layout.stacked.fits.lt⟩
      exact ⟨⟨_, s.root, []⟩, _, free, by rw [Sys.step, hclear]; rfl, h.layout.setUsed hfits, trivial⟩
  | cons first above =>
      obtain ⟨rfl, rfl⟩ := List.cons.inj hchain
      have hids := h.layout.ids_nodup
      rw [List.map_cons, List.nodup_cons] at hids
      have hne : slot.id ≠ s.root := by
        intro heq
        refine hids.1 ?_
        rw [heq, ← hroot]
        simp
      have hnil : free = [] := by
        have hgood' := hgood
        rw [Sys.good, clearKeeps, harena] at hgood'
        simp only [hcurrent, Bool.or_eq_true, beq_iff_eq, Option.isNone_iff_eq_none, hfree] at hgood'
        cases free with
        | nil => rfl
        | cons => cases hgood'.resolve_left hne
      subst hnil
      have hclear : s.mem.clear s.root = some ((s.mem.modify s.root fun p =>
          { p with pageOffset := headerSize }).modify s.root fun p =>
            { p with freeStack := some slot.id, current := s.root }) := by
        rw [Memory.clear, harena, Option.bind_eq_bind, Option.bind_some]
        refine (if_pos (by rwa [hcurrent])).trans (congrArg some (modify_congr fun p hp => ?_))
        rw [modify_page_self harena, Option.some_inj] at hp
        rw [← hp, hcurrent]
      have htop : topId (slot :: above) = some slot.id := rfl
      exact ⟨⟨_, s.root, []⟩, _, _, by rw [Sys.step, hclear]; rfl, h.layout.clear htop, trivial⟩

/-! ### Runs -/

theorem kept_create {pageSize : Nat} (hsize : headerSize + pageSize < 2 ^ 64) (backing : Bool) :
    Kept (Sys.create pageSize backing) [⟨0, 0, pageSize, headerSize⟩] [] := by
  refine ⟨⟨⟨⟨_, rfl, rfl, rfl, rfl, rfl⟩, trivial⟩, trivial, ⟨rfl, le_rfl, Nat.le_add_right _ _, ?_⟩, nofun, ⟨[], _, rfl, rfl⟩,
    ⟨_, rfl, rfl, rfl⟩, List.Perm.refl _, ?_⟩, trivial⟩
  · dsimp only
    omega
  · cases backing
    · exact Or.inl rfl
    · exact Or.inr rfl

/-- A step whose condition holds succeeds, and keeps the layout. -/
theorem Kept.step {s : Sys} {chain free : List Slot} (h : Kept s chain free) {op : Op} (hgood : s.good op = true) :
    ∃ s' chain' free', s.step op = some s' ∧ Kept s' chain' free' := by
  cases op with
  | push size align granted => exact h.push hgood
  | offset =>
      obtain ⟨s', hs', hkept⟩ := h.mark
      exact ⟨s', chain, free, hs', hkept⟩
  | popTo index =>
      rw [Sys.good] at hgood
      cases hentry : s.held[index]? with
      | none => rw [hentry] at hgood; cases hgood
      | some entry =>
          cases entry with
          | region r => rw [hentry] at hgood; cases hgood
          | mark offset =>
              obtain ⟨s', chain', hs', hkept, -⟩ := h.popTo hentry
              exact ⟨s', chain', free, hs', hkept⟩
  | clear => exact h.clear hgood

theorem kept_of_run {pageSize : Nat} (hsize : headerSize + pageSize < 2 ^ 64) {backing : Bool} {ops : List Op} {s : Sys}
    (hrun : Run Sys.step (fun s op => s.good op = true) (Sys.create pageSize backing) ops s) :
    ∃ chain free, Kept s chain free := by
  have hcreate : ∃ chain free, Kept (Sys.create pageSize backing) chain free := ⟨_, _, kept_create hsize backing⟩
  have hkeep : ∀ s op s', (∃ chain free, Kept s chain free) → s.good op = true → s.step op = some s' →
      ∃ chain free, Kept s' chain free := by
    rintro s op s' ⟨chain, free, hkept⟩ hgood hstep
    obtain ⟨s₁, chain', free', hs₁, hkept'⟩ := hkept.step hgood
    rw [hstep, Option.some_inj] at hs₁
    exact ⟨chain', free', hs₁ ▸ hkept'⟩
  exact hrun.invariant hkeep hcreate

/-! ### Regions -/

def Region.Disjoint (a b : Region) : Prop :=
  a.page = b.page → a.start + a.size ≤ b.start ∨ b.start + b.size ≤ a.start

/-- The regions that are held: aligned, inside their pages, and disjoint. -/
structure Sys.Sound (s : Sys) : Prop where
  placed : ∀ r ∈ s.regions, r.align ∣ r.start ∧ ∃ page, s.mem.page r.page = some page ∧
    headerSize ≤ r.start ∧ r.start + r.size ≤ headerSize + page.pageSize
  disjoint : s.regions.Pairwise Region.Disjoint

/-- The regions among what is held. -/
def regionsOf (held : List Entry) : List Region := held.filterMap fun
  | .region r => some r
  | .mark _ => none

/-- Each region that is held has a page of the chain, and ends below `top`. -/
theorem Below.region {chain : List Slot} {top : Nat} {held : List Entry} (h : Below chain top held) {r : Region}
    (hmem : r ∈ regionsOf held) : ∃ slot ∈ chain, slot.id = r.page ∧ r.align ∣ r.start ∧ headerSize ≤ r.start ∧
      r.start + r.size ≤ headerSize + slot.size ∧ slot.base + r.start + r.size ≤ top := by
  induction held generalizing top with
  | nil => cases hmem
  | cons entry held ih =>
      cases entry with
      | region first =>
          obtain ⟨slot, hslot, hid, hdvd, hstart, hend, hle, hheld⟩ := h
          rcases List.mem_cons.mp hmem with rfl | hmem
          · exact ⟨slot, hslot, hid, hdvd, hstart, hend, hle⟩
          · obtain ⟨slot', hslot', hid', hdvd', hstart', hend', hle'⟩ := ih hheld hmem
            exact ⟨slot', hslot', hid', hdvd', hstart', hend', by omega⟩
      | mark offset =>
          obtain ⟨-, hle, hheld⟩ := h
          obtain ⟨slot, hslot, hid, hdvd, hstart, hend, hle'⟩ := ih hheld hmem
          exact ⟨slot, hslot, hid, hdvd, hstart, hend, by omega⟩

theorem Below.disjoint {chain : List Slot} {top : Nat} {held : List Entry} (h : Below chain top held)
    (hnodup : (chain.map Slot.id).Nodup) : (regionsOf held).Pairwise Region.Disjoint := by
  induction held generalizing top with
  | nil => exact .nil
  | cons entry held ih =>
      cases entry with
      | region first =>
          obtain ⟨slot, hslot, hid, -, -, -, -, hheld⟩ := h
          refine List.pairwise_cons.mpr ⟨fun r hr hpage => Or.inr ?_, ih hheld⟩
          obtain ⟨slot', hslot', hid', -, -, -, hle⟩ := hheld.region hr
          have hsame : slot' = slot :=
            List.inj_on_of_nodup_map hnodup hslot' hslot (hid'.trans (hpage.symm.trans hid.symm))
          rw [hsame] at hle
          omega
      | mark offset => exact ih h.2.2

theorem Chained.holds_of_mem {m : Memory} {chain : List Slot} (h : Chained m chain) {slot : Slot}
    (hmem : slot ∈ chain) : ∃ prev, Holds m slot prev := by
  induction chain with
  | nil => cases hmem
  | cons first below ih =>
      rcases List.mem_cons.mp hmem with rfl | hmem
      · exact ⟨_, h.1⟩
      · exact ih h.2 hmem

theorem Kept.sound {s : Sys} {chain free : List Slot} (h : Kept s chain free) : s.Sound := by
  refine ⟨fun r hr => ?_, h.held.disjoint h.layout.ids_nodup⟩
  obtain ⟨slot, hslot, hid, hdvd, hstart, hend, -⟩ := h.held.region hr
  obtain ⟨prev, page, hpage, -, -, hsize, -⟩ := h.layout.chained.holds_of_mem hslot
  exact ⟨hdvd, page, hid ▸ hpage, hstart, by rwa [hsize]⟩

theorem Kept.destroy {s : Sys} {chain free : List Slot} (h : Kept s chain free) (hcleared : s.cleared = true) :
    ∃ m, s.destroy = some m ∧ m.freed.Perm (List.range m.next) := by
  obtain ⟨slot, below, arena, -, rfl, harena, hcurrent, -⟩ := h.layout.current
  rw [Sys.cleared, harena] at hcleared
  simp only [hcurrent, Bool.and_eq_true, beq_iff_eq, Option.isNone_iff_eq_none] at hcleared
  obtain ⟨hroot, hbacking⟩ := hcleared
  have hbelow : below = [] := by
    obtain ⟨above, rootSlot, hchain, hid⟩ := h.layout.rootLast
    cases above with
    | nil => exact (List.cons.inj hchain).2
    | cons first above =>
        obtain ⟨rfl, rfl⟩ := List.cons.inj hchain
        have hids := h.layout.ids_nodup
        rw [List.map_cons, List.nodup_cons] at hids
        refine absurd ?_ hids.1
        rw [hroot, ← hid]
        simp
  subst hbelow
  obtain ⟨m, hm, hnext, hperm⟩ := h.layout.deallocate hbacking
  exact ⟨m, hm, hnext ▸ hperm⟩

/-- In every run whose requests fit the pages they are given, and whose `clear`s lose no page: the regions that are
held are aligned, inside their pages and disjoint, no assertion fails, a pop restores its offset, and once the arena
is cleared its destructor has freed every page once. -/
theorem arena_serves {pageSize : Nat} (hsize : headerSize + pageSize < 2 ^ 64) {backing : Bool} {ops : List Op} {s : Sys}
    (hrun : Run Sys.step (fun s op => s.good op = true) (Sys.create pageSize backing) ops s) :
    s.Sound ∧
      (∀ op, s.good op = true → (s.step op).isSome = true) ∧
      (∀ index offset, s.held[index]? = some (.mark offset) →
        ∃ s', s.step (.popTo index) = some s' ∧ s'.mem.offset s'.root = some offset) ∧
      (s.cleared = true → ∃ m, s.destroy = some m ∧ m.freed.Perm (List.range m.next)) := by
  obtain ⟨chain, free, hkept⟩ := kept_of_run hsize hrun
  refine ⟨hkept.sound, fun op hgood => ?_, fun index offset hmark => ?_, hkept.destroy⟩
  · obtain ⟨s', -, -, hs', -⟩ := hkept.step hgood
    rw [hs']
    rfl
  · obtain ⟨s', chain', hs', hkept', htop⟩ := hkept.popTo hmark
    exact ⟨s', hs', htop ▸ hkept'.offset⟩

/-- Two pages are used, popped and cleared. -/
theorem arena_serves_small : ∃ s, Run Sys.step (fun s op => s.good op = true) (Sys.create 64 false)
    [.push 16 8 true, .offset, .push 100 64 true, .popTo 1, .push 60 16 true, .clear] s ∧ s.Sound := by
  have hsome : (runAll Sys.step Sys.good (Sys.create 64 false)
      [.push 16 8 true, .offset, .push 100 64 true, .popTo 1, .push 60 16 true, .clear]).isSome = true := by decide
  obtain ⟨s, hs⟩ := Option.isSome_iff_exists.mp hsome
  have hrun := Run.of_runAll hs
  exact ⟨s, hrun, (arena_serves (by decide) hrun).1⟩

/-- The page behind the first one is not freed if the arena was not cleared; and a region of a large alignment does
not fit a page of its own size. -/
theorem arena_leaks :
    (∃ s m, Run Sys.step (fun _ _ => True) (Sys.create 8 false) [.push 8 8 true, .push 8 8 true] s ∧
      s.destroy = some m ∧ ¬ m.freed.Perm (List.range m.next)) ∧
    ((Sys.create 8 false).step (.push 8 256 true)).isNone = true := by
  refine ⟨?_, by decide⟩
  have hfreed : ((runAll Sys.step (fun _ _ => true) (Sys.create 8 false)
      [.push 8 8 true, .push 8 8 true]).bind fun s => s.destroy.map fun m => (m.freed, m.next)) =
        some ([0], 2) := by decide
  obtain ⟨s, hs, hdestroy⟩ := Option.bind_eq_some_iff.mp hfreed
  obtain ⟨m, hm, heq⟩ := Option.map_eq_some_iff.mp hdestroy
  obtain ⟨hids, hnext⟩ := Prod.mk.inj heq
  refine ⟨s, m, (Run.of_runAll hs).mono fun _ _ _ => trivial, hm, ?_⟩
  rw [hids, hnext]
  decide

end Plexdb.Arena
