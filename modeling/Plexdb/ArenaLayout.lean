import Plexdb.ArenaShape

/-! The layout of an arena's pages in memory, and what `push`, `pop_to`, `clear` and the destructor do to it. -/

namespace Plexdb.Arena

/-- The ids of the pages in use, of the free stack and of the freed pages. -/
def allIds (chain free : List Slot) (m : Memory) : List Nat := chain.map Slot.id ++ free.map Slot.id ++ m.freed

structure Layout (m : Memory) (root : Nat) (chain free : List Slot) : Prop where
  chained : Chained m chain
  freeChained : FreeChained m root free
  stacked : Stacked chain
  freeSize : ∀ slot ∈ free, headerSize + slot.size < 2 ^ 64
  rootLast : ∃ above rootSlot, chain = above ++ [rootSlot] ∧ rootSlot.id = root
  rootPage : ∃ p, m.page root = some p ∧ topId chain = some p.current ∧ p.freeStack = topId free
  account : (allIds chain free m).Perm (List.range m.next)
  backing : m.backing = none ∨ m.backing = some root

namespace Layout

variable {m : Memory} {root : Nat} {chain free : List Slot}

theorem nodup (h : Layout m root chain free) : (allIds chain free m).Nodup :=
  h.account.nodup_iff.mpr List.nodup_range

theorem ids_nodup (h : Layout m root chain free) : (chain.map Slot.id).Nodup := by
  have hnodup := h.nodup
  rw [allIds, List.append_assoc] at hnodup
  exact hnodup.of_append_left

theorem root_mem (h : Layout m root chain free) : root ∈ chain.map Slot.id := by
  obtain ⟨above, rootSlot, rfl, rfl⟩ := h.rootLast
  simp

theorem root_notMem_free (h : Layout m root chain free) : root ∉ free.map Slot.id := by
  have hnodup := h.nodup
  rw [allIds] at hnodup
  exact fun hmem => (List.nodup_append.mp hnodup.of_append_left).2.2 root h.root_mem root hmem rfl

theorem lt_next (h : Layout m root chain free) {id : Nat} (hmem : id ∈ allIds chain free m) : id < m.next :=
  List.mem_range.mp (h.account.mem_iff.mp hmem)

/-- The current page, and the record of the first one. -/
theorem current (h : Layout m root chain free) : ∃ slot below arena page, chain = slot :: below ∧
    m.page root = some arena ∧ arena.current = slot.id ∧ arena.freeStack = topId free ∧
    m.page slot.id = some page ∧ page.prev = topId below ∧ page.baseOffset = slot.base ∧
    page.pageSize = slot.size ∧ page.pageOffset = slot.used := by
  obtain ⟨arena, harena, hcurrent, hfree⟩ := h.rootPage
  cases chain with
  | nil => cases hcurrent
  | cons slot below =>
      obtain ⟨page, hpage, hprev, hbase, hsize, hused⟩ := h.chained.1
      exact ⟨slot, below, arena, page, rfl, harena, (Option.some.inj hcurrent).symm, hfree, hpage, hprev, hbase, hsize,
        hused⟩

/-! ### The offset of the current page -/

theorem setUsed {slot : Slot} {below : List Slot} (h : Layout m root (slot :: below) free) {used : Nat}
    (hfits : ({ slot with used := used } : Slot).Fits) :
    Layout (m.modify slot.id fun p => { p with pageOffset := used }) root ({ slot with used := used } :: below)
      free := by
  have hnodup := h.ids_nodup
  rw [List.map_cons, List.nodup_cons] at hnodup
  have hother : ∀ id, id ≠ slot.id → Same m (m.modify slot.id fun p => { p with pageOffset := used }) id :=
    fun id hid => Same.of_eq (modify_page_ne hid)
  have hfree : ∀ id ∈ free.map Slot.id, id ≠ slot.id := by
    intro id hmem heq
    have hall := h.nodup
    rw [allIds] at hall
    exact (List.nodup_append.mp hall.of_append_left).2.2 slot.id List.mem_cons_self id hmem heq.symm
  obtain ⟨page, hpage, hprev, hbase, hsize, -⟩ := h.chained.1
  refine ⟨⟨⟨_, modify_page_self hpage, hprev, hbase, hsize, rfl⟩, ?_⟩, ?_, h.stacked.replace rfl hfits, h.freeSize, ?_,
    ?_, h.account, h.backing⟩
  · exact Chained.same h.chained.2 fun id hid => hother id fun heq => hnodup.1 (heq ▸ hid)
  · exact h.freeChained.same fun id hid => hother id (hfree id hid)
  · obtain ⟨above, rootSlot, hchain, hroot⟩ := h.rootLast
    cases above with
    | nil =>
        obtain ⟨rfl, rfl⟩ := List.cons.inj hchain
        exact ⟨[], _, rfl, hroot⟩
    | cons _ above =>
        obtain ⟨rfl, rfl⟩ := List.cons.inj hchain
        exact ⟨{ slot with used := used } :: above, rootSlot, rfl, hroot⟩
  · obtain ⟨arena, harena, hcurrent, hfreeStack⟩ := h.rootPage
    by_cases hroot : root = slot.id
    · refine ⟨{ arena with pageOffset := used }, ?_, hcurrent, hfreeStack⟩
      rw [hroot] at harena ⊢
      exact modify_page_self harena
    · exact ⟨arena, (modify_page_ne hroot).trans harena, hcurrent, hfreeStack⟩

/-! ### Another page -/

/-- A page `new` is taken for the chain, and its offset is behind the header. -/
structure Taken (m m' : Memory) (root new size : Nat) (chain free : List Slot) : Prop where
  chained : Chained m' chain
  freeChained : FreeChained m' root free
  freeSize : ∀ slot ∈ free, headerSize + slot.size < 2 ^ 64
  rootPage : ∃ p, m'.page root = some p ∧ p.freeStack = topId free
  newPage : ∃ p, m'.page new = some p ∧ p.pageSize = size ∧ p.pageOffset = headerSize
  account : (new :: allIds chain free m').Perm (List.range m'.next)
  backing : m'.backing = m.backing

theorem taken_new (h : Layout m root chain free) (size : Nat) :
    Taken m (m.allocate size).1 root m.next size chain free := by
  have hsame : ∀ id, id ≠ m.next → Same m (m.allocate size).1 id :=
    fun id hid => Same.of_eq (Function.update_of_ne hid _ _)
  have hchain : ∀ id ∈ chain.map Slot.id, id ≠ m.next := fun id hmem =>
    Nat.ne_of_lt (h.lt_next (List.mem_append_left _ (List.mem_append_left _ hmem)))
  have hfree : ∀ id ∈ free.map Slot.id, id ≠ m.next := fun id hmem =>
    Nat.ne_of_lt (h.lt_next (List.mem_append_left _ (List.mem_append_right _ hmem)))
  obtain ⟨arena, harena, -, hfreeStack⟩ := h.rootPage
  refine ⟨h.chained.same fun id hid => hsame id (hchain id hid), h.freeChained.same fun id hid => hsame id (hfree id hid),
    h.freeSize, ⟨arena, ?_, hfreeStack⟩, ⟨_, Function.update_self _ _ _, rfl, rfl⟩, ?_, rfl⟩
  · exact (Function.update_of_ne (hchain root h.root_mem) _ _).trans harena
  · have hrange : List.range (m.next + 1) = List.range m.next ++ [m.next] := List.range_succ
    refine List.Perm.trans ?_ (List.Perm.of_eq hrange.symm)
    exact (List.perm_append_singleton m.next _).symm.trans (h.account.append_right [m.next])

theorem taken_free {slot : Slot} {rest : List Slot} (h : Layout m root chain (slot :: rest)) {page : ArenaPage}
    (hpage : m.page slot.id = some page) (f : ArenaPage → ArenaPage) (g : ArenaPage → ArenaPage)
    (hf : ∀ p, (f p).prev = p.prev ∧ (f p).baseOffset = p.baseOffset ∧ (f p).pageSize = p.pageSize ∧
      (f p).pageOffset = p.pageOffset) (hstack : ∀ p, (f p).freeStack = topId rest)
    (hg : ∀ p, (g p).pageSize = p.pageSize ∧ (g p).pageOffset = headerSize) :
    Taken m ((m.modify root f).modify slot.id g) root slot.id slot.size chain rest := by
  have hall := h.nodup
  rw [allIds, List.map_cons] at hall
  have hleft := List.nodup_append.mp hall.of_append_left
  have hsame : ∀ id, id ≠ slot.id → Same m ((m.modify root f).modify slot.id g) id := fun id hid =>
    (Same.modify fun _ => hf).trans (Same.of_eq (modify_page_ne hid))
  have hchain : ∀ id ∈ chain.map Slot.id, id ≠ slot.id := fun id hmem heq =>
    hleft.2.2 id hmem slot.id List.mem_cons_self heq
  have hrest : ∀ id ∈ rest.map Slot.id, id ≠ slot.id := fun id hmem heq =>
    (List.nodup_cons.mp hleft.2.1).1 (heq ▸ hmem)
  obtain ⟨arena, harena, -, -⟩ := h.rootPage
  have hroot : root ≠ slot.id := hchain root h.root_mem
  obtain ⟨p, hp, -, -, hsize, -⟩ := h.freeChained.1
  obtain rfl := Option.some.inj (hpage.symm.trans hp)
  refine ⟨h.chained.same fun id hid => hsame id (hchain id hid),
    FreeChained.same h.freeChained.2 fun id hid => hsame id (hrest id hid),
    fun s hs => h.freeSize s (List.mem_cons_of_mem _ hs), ⟨f arena, ?_, hstack arena⟩, ⟨g page, ?_, ?_, (hg page).2⟩,
    ?_, rfl⟩
  · rw [modify_page_ne hroot]
    exact modify_page_self harena
  · exact modify_page_self ((modify_page_ne (Ne.symm hroot)).trans hpage)
  · exact (hg page).1.trans hsize
  · refine List.Perm.trans ?_ h.account
    have hmove : (slot.id :: (chain.map Slot.id ++ (rest.map Slot.id ++ m.freed))).Perm
        (chain.map Slot.id ++ (slot.id :: (rest.map Slot.id ++ m.freed))) := List.perm_middle.symm
    have hfreed : ((m.modify root f).modify slot.id g).freed = m.freed := rfl
    rw [allIds, allIds, hfreed, List.append_assoc, List.append_assoc, List.map_cons, List.cons_append]
    exact hmove

/-- The writes that put a page above the current one. -/
def link (m : Memory) (root new base below : Nat) : Memory :=
  (m.modify new fun p => { p with baseOffset := base, prev := some below }).modify root fun p =>
    { p with current := new }

theorem link_new {m' : Memory} {new base id : Nat} {p : ArenaPage} (hne : new ≠ root) (hp : m'.page new = some p) :
    (link m' root new base id).page new = some { p with baseOffset := base, prev := some id } :=
  (modify_page_ne hne).trans (modify_page_self hp)

/-- The page that was taken stands above the one that was current. -/
theorem Taken.push {m' : Memory} {new size used : Nat} {slot : Slot} {below free' : List Slot}
    (h : Layout m root (slot :: below) free) (htaken : Taken m m' root new size (slot :: below) free')
    (hfits : (⟨new, slot.base + headerSize + slot.size, size, used⟩ : Slot).Fits) :
    Layout ((link m' root new (slot.base + headerSize + slot.size) slot.id).modify new fun p =>
      { p with pageOffset := used }) root
      (⟨new, slot.base + headerSize + slot.size, size, used⟩ :: slot :: below) free' := by
  have hnew : new ∉ allIds (slot :: below) free' m' :=
    (List.nodup_cons.mp (htaken.account.nodup_iff.mpr List.nodup_range)).1
  have hchain : ∀ id ∈ (slot :: below).map Slot.id, id ≠ new := fun id hmem heq =>
    hnew (heq ▸ List.mem_append_left _ (List.mem_append_left _ hmem))
  have hfree : ∀ id ∈ free'.map Slot.id, id ≠ new := fun id hmem heq =>
    hnew (heq ▸ List.mem_append_left _ (List.mem_append_right _ hmem))
  have hroot : root ≠ new := hchain root h.root_mem
  have hsame : ∀ id, id ≠ new → Same m'
      ((link m' root new (slot.base + headerSize + slot.size) slot.id).modify new fun p =>
        { p with pageOffset := used }) id := by
    intro id hid
    have hlink : Same m' (link m' root new (slot.base + headerSize + slot.size) slot.id) id :=
      (Same.of_eq (modify_page_ne hid)).trans
        (Same.modify (f := fun p => { p with current := new }) fun _ _ => ⟨rfl, rfl, rfl, rfl⟩)
    exact hlink.trans (Same.of_eq (modify_page_ne hid))
  obtain ⟨p, hp, hsize, -⟩ := htaken.newPage
  obtain ⟨arena, harena, hfreeStack⟩ := htaken.rootPage
  refine ⟨⟨⟨_, modify_page_self (link_new (Ne.symm hroot) hp), rfl, rfl, hsize, rfl⟩, ?_⟩, ?_, ⟨rfl, hfits, h.stacked⟩,
    htaken.freeSize, ?_, ⟨{ arena with current := new }, ?_, rfl, hfreeStack⟩, htaken.account, ?_⟩
  · exact htaken.chained.same fun id hid => hsame id (hchain id hid)
  · exact htaken.freeChained.same fun id hid => hsame id (hfree id hid)
  · obtain ⟨above, rootSlot, hchain, hid⟩ := h.rootLast
    exact ⟨_ :: above, rootSlot, by rw [hchain]; rfl, hid⟩
  · rw [modify_page_ne hroot]
    exact modify_page_self ((modify_page_ne hroot).trans harena)
  · exact htaken.backing ▸ h.backing

/-! ### Pages that go -/

/-- The current page is freed, and the one below it is current. -/
theorem pop {slot next : Slot} {below : List Slot} (h : Layout m root (slot :: next :: below) free) :
    ∃ m', (m.modify root fun p => { p with current := next.id }).free slot.id = some m' ∧
      m'.next = m.next ∧ Layout m' root (next :: below) free := by
  have hids := h.ids_nodup
  rw [List.map_cons, List.nodup_cons] at hids
  have hall := h.nodup
  rw [allIds] at hall
  have hleft := List.nodup_append.mp hall.of_append_left
  have hrootMem : root ∈ (next :: below).map Slot.id := by
    obtain ⟨above, rootSlot, hchain, rfl⟩ := h.rootLast
    cases above with
    | nil => cases (List.cons.inj hchain).2
    | cons _ above =>
        rw [(List.cons.inj hchain).2]
        simp
  have hroot : slot.id ≠ root := fun heq => hids.1 (heq ▸ hrootMem)
  obtain ⟨page, hpage, -⟩ := h.chained.1
  have hbacking : m.backing ≠ some slot.id := by
    rcases h.backing with hnone | hsome
    · rw [hnone]
      nofun
    · rw [hsome]
      exact fun heq => hroot (Option.some.inj heq).symm
  have hfreed : (m.modify root fun p => { p with current := next.id }).free slot.id = some
      { m.modify root fun p => { p with current := next.id } with
        page := Function.update (m.modify root fun p => { p with current := next.id }).page slot.id none
        freed := slot.id :: m.freed } := by
    rw [Memory.free, modify_page_ne hroot, hpage, Option.bind_eq_bind, Option.bind_some]
    exact if_neg hbacking
  refine ⟨_, hfreed, rfl, ?_⟩
  have hsame : ∀ id, id ≠ slot.id → Same m
      { m.modify root fun p => { p with current := next.id } with
        page := Function.update (m.modify root fun p => { p with current := next.id }).page slot.id none
        freed := slot.id :: m.freed } id := fun id hid =>
    Same.trans (Same.modify (f := fun p => { p with current := next.id }) fun _ _ => ⟨rfl, rfl, rfl, rfl⟩)
      (Same.of_eq (Function.update_of_ne hid _ _))
  obtain ⟨arena, harena, -, hfreeStack⟩ := h.rootPage
  refine ⟨Chained.same h.chained.2 fun id hid => hsame id fun heq => hids.1 (heq ▸ hid),
    h.freeChained.same fun id hid => hsame id fun heq => ?_, h.stacked.tail, h.freeSize, ?_,
    ⟨{ arena with current := next.id }, ?_, rfl, hfreeStack⟩, ?_, h.backing⟩
  · exact hleft.2.2 slot.id List.mem_cons_self id hid heq.symm
  · obtain ⟨above, rootSlot, hchain, hid⟩ := h.rootLast
    cases above with
    | nil => cases (List.cons.inj hchain).2
    | cons _ above => exact ⟨above, rootSlot, (List.cons.inj hchain).2, hid⟩
  · exact (Function.update_of_ne (Ne.symm hroot) _ _).trans (modify_page_self harena)
  · have hmiddle : ((next :: below).map Slot.id ++ free.map Slot.id ++ slot.id :: m.freed).Perm
        (slot.id :: ((next :: below).map Slot.id ++ free.map Slot.id ++ m.freed)) := List.perm_middle
    exact hmiddle.trans h.account

/-- The pages above the first one become the free stack. -/
theorem clear {above : List Slot} {rootSlot : Slot} (h : Layout m root (above ++ [rootSlot]) []) {current : Nat}
    (hcurrent : topId above = some current) :
    Layout ((m.modify root fun p => { p with pageOffset := headerSize }).modify root fun p =>
      { p with freeStack := some current, current := root }) root [{ rootSlot with used := headerSize }] above := by
  have hid : rootSlot.id = root := by
    obtain ⟨above', rootSlot', hchain, hid⟩ := h.rootLast
    have hlast := congrArg List.getLast? hchain
    rw [List.getLast?_concat, List.getLast?_concat, Option.some_inj] at hlast
    rw [hlast, hid]
  have hids := h.ids_nodup
  rw [List.map_append, List.nodup_append] at hids
  have hother : ∀ id ∈ above.map Slot.id, id ≠ root := fun id hmem heq =>
    hids.2.2 id hmem rootSlot.id List.mem_cons_self (heq.trans hid.symm)
  obtain ⟨arena, harena, -, -⟩ := h.rootPage
  obtain ⟨p, hp, hprev, hbase, hsize, -⟩ := h.chained.last
  have hp' : m.page root = some p := hid ▸ hp
  have hmem : rootSlot ∈ above ++ [rootSlot] := List.mem_append_right _ List.mem_cons_self
  have hfits := h.stacked.fits_of_mem hmem
  refine ⟨⟨⟨{ p with pageOffset := headerSize, freeStack := some current, current := root }, ?_, hprev, hbase, hsize,
    rfl⟩, trivial⟩, ?_, ⟨h.stacked.last, ?_⟩, fun slot hslot => ?_,
    ⟨[], _, rfl, hid⟩, ⟨_, modify_page_self (modify_page_self hp'), congrArg some hid, hcurrent.symm⟩, ?_, h.backing⟩
  · rw [hid]
    exact modify_page_self (modify_page_self hp')
  · refine FreeChained.same (hid ▸ h.chained.freeChained) fun id hmem => ?_
    exact Same.of_eq ((modify_page_ne (hother id hmem)).trans (modify_page_ne (hother id hmem)))
  · exact ⟨le_rfl, Nat.le_add_right _ _, hfits.lt⟩
  · have hlt := (h.stacked.fits_of_mem (List.mem_append_left [rootSlot] hslot)).lt
    omega
  · refine List.Perm.trans ?_ h.account
    have hswap : ([rootSlot.id] ++ above.map Slot.id ++ m.freed).Perm
        (above.map Slot.id ++ [rootSlot.id] ++ m.freed) := (List.perm_append_comm).append_right m.freed
    refine hswap.trans (List.Perm.of_eq ?_)
    rw [allIds, List.map_append, List.map_nil, List.append_nil]
    rfl

/-! ### The destructor -/

theorem free_spec {id : Nat} {p : ArenaPage} (hp : m.page id = some p) (hbacking : m.backing ≠ some id) :
    m.free id = some { m with page := Function.update m.page id none, freed := id :: m.freed } := by
  rw [Memory.free, hp]
  exact if_neg hbacking

/-- The free stack is freed, down to the first page. -/
theorem freeChain_free (hfree : FreeChained m root free) (hnodup : (free.map Slot.id).Nodup)
    (hroot : root ∉ free.map Slot.id) (hbacking : m.backing = none) {fuel : Nat} (hfuel : free.length < fuel) :
    ∃ m', Memory.freeChain (some root) fuel m (some ((topId free).getD root)) = some m' ∧ m'.next = m.next ∧
      m'.backing = none ∧ m'.page root = m.page root ∧ m'.freed = (free.map Slot.id).reverse ++ m.freed := by
  induction free generalizing m fuel with
  | nil =>
      obtain ⟨fuel, rfl⟩ := Nat.exists_eq_succ_of_ne_zero (Nat.ne_of_gt hfuel)
      exact ⟨m, if_pos rfl, rfl, hbacking, rfl, rfl⟩
  | cons slot below ih =>
      obtain ⟨fuel, rfl⟩ := Nat.exists_eq_succ_of_ne_zero (Nat.ne_of_gt (Nat.zero_lt_of_lt hfuel))
      rw [List.map_cons, List.nodup_cons] at hnodup
      rw [List.map_cons, List.mem_cons, not_or] at hroot
      obtain ⟨p, hp, hprev, -⟩ := hfree.1
      have hfreed := free_spec hp (by rw [hbacking]; nofun)
      have hne : ∀ id ∈ below.map Slot.id, id ≠ slot.id := fun id hid heq => hnodup.1 (heq ▸ hid)
      have hbelow : FreeChained { m with page := Function.update m.page slot.id none, freed := slot.id :: m.freed } root
          below := FreeChained.same hfree.2 fun id hid => Same.of_eq (Function.update_of_ne (hne id hid) _ _)
      rw [List.length_cons] at hfuel
      have hfuel' : below.length < fuel := by omega
      obtain ⟨m', hm', hnext, hback, hpage, hids⟩ := ih hbelow hnodup.2 hroot.2 hbacking hfuel'
      refine ⟨m', ?_, hnext, hback, hpage.trans (Function.update_of_ne hroot.1 _ _), ?_⟩
      · have hne : ¬ some slot.id = some root := fun heq => hroot.1 (Option.some.inj heq).symm
        change Memory.freeChain (some root) (fuel + 1) m (some slot.id) = some m'
        rw [Memory.freeChain, if_neg hne, hp, Option.bind_eq_bind, Option.bind_some, hfreed, Option.bind_eq_bind,
          Option.bind_some, hprev]
        exact hm'
      · rw [hids, List.map_cons, List.reverse_cons, List.append_assoc]
        rfl

theorem deallocate {slot : Slot} (h : Layout m root [slot] free) (hbacking : m.backing = none) :
    ∃ m', m.deallocate root = some m' ∧ m'.next = m.next ∧ m'.freed.Perm (List.range m.next) := by
  have hid : slot.id = root := by
    obtain ⟨above, rootSlot, hchain, hid⟩ := h.rootLast
    cases above with
    | nil => rw [(List.cons.inj hchain).1, hid]
    | cons _ above => cases above <;> cases (List.cons.inj hchain).2
  have hall := h.nodup
  rw [allIds] at hall
  have hfreeNodup : (free.map Slot.id).Nodup := (List.nodup_append.mp hall.of_append_left).2.1
  have hfuel : free.length < m.next + 1 := by
    have hlength := h.account.length_eq
    rw [allIds, List.length_append, List.length_append, List.length_map, List.length_map, List.length_range] at hlength
    omega
  obtain ⟨arena, harena, -, hfreeStack⟩ := h.rootPage
  obtain ⟨p, hp, hprev, -⟩ := h.chained.1
  rw [hid, harena] at hp
  cases hp
  obtain ⟨m₁, hm₁, hnext, hback, hpage, hfreed⟩ : ∃ m₁,
      Memory.freeChain (some root) (m.next + 1) m arena.freeStack = some m₁ ∧ m₁.next = m.next ∧ m₁.backing = none ∧
        m₁.page root = m.page root ∧ m₁.freed = (free.map Slot.id).reverse ++ m.freed := by
    cases free with
    | nil =>
        rw [hfreeStack]
        exact ⟨m, rfl, rfl, hbacking, rfl, rfl⟩
    | cons slot below =>
        rw [hfreeStack]
        exact freeChain_free h.freeChained hfreeNodup h.root_notMem_free hbacking hfuel
  have hpage₁ := hpage.trans harena
  have hlast := free_spec hpage₁ (by rw [hback]; nofun)
  refine ⟨{ m₁ with page := Function.update m₁.page root none, freed := root :: m₁.freed }, ?_, hnext, ?_⟩
  · rw [Memory.deallocate, harena, Option.bind_eq_bind, Option.bind_some, hm₁, Option.bind_eq_bind, Option.bind_some,
      Memory.freeChain, if_neg (by nofun), hpage₁, Option.bind_eq_bind, Option.bind_some, hlast, Option.bind_eq_bind,
      Option.bind_some, hprev]
    obtain ⟨n, hn⟩ := Nat.exists_eq_succ_of_ne_zero (Nat.ne_of_gt (Nat.zero_lt_of_lt (h.lt_next (List.mem_append_left _
      (List.mem_append_left _ h.root_mem)))))
    rw [hnext, hn]
    rfl
  · refine List.Perm.trans ?_ h.account
    rw [hfreed, allIds, List.map_cons, List.map_nil, hid]
    exact ((List.reverse_perm _).append_right m.freed).cons root

end Layout

end Plexdb.Arena
