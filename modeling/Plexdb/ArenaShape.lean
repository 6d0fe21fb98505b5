import Plexdb.Arena

/-! The shape of an arena's pages: the chain of those in use and the free stack, where their offsets begin, and what
the user holds below an offset. -/

namespace Plexdb.Arena

/-! ### Alignment -/

/-- The first multiple of `b` from `x` on. -/
def roundUp (x b : Nat) : Nat := (x + (b - 1)) / b * b

theorem and_not_low {y k : Nat} (hy : y < 2 ^ 64) : y &&& (2 ^ 64 - 1 - (2 ^ k - 1)) = y / 2 ^ k * 2 ^ k := by
  by_cases hk : k < 64
  · have hmask : 2 ^ 64 - 1 - (2 ^ k - 1) = 2 ^ 64 - ((2 ^ k - 1) + 1) := by omega
    have hlt : 2 ^ k - 1 < 2 ^ 64 := by
      have := Nat.pow_lt_pow_right (by decide : 1 < 2) hk
      omega
    apply Nat.eq_of_testBit_eq
    intro i
    rw [Nat.testBit_and, hmask, Nat.testBit_two_pow_sub_succ hlt, Nat.testBit_two_pow_sub_one,
      Nat.testBit_mul_two_pow, Nat.testBit_div_two_pow]
    by_cases hi : k ≤ i
    · rw [Nat.sub_add_cancel hi]
      by_cases h64 : i < 64
      · simp [hi, h64]
      · have hlow : y < 2 ^ i := lt_of_lt_of_le hy (Nat.pow_le_pow_right (by decide) (by omega))
        simp [Nat.testBit_lt_two_pow hlow]
    · simp [hi]
      omega
  · have hle : 2 ^ 64 ≤ 2 ^ k := Nat.pow_le_pow_right (by decide) (by omega)
    rw [Nat.div_eq_of_lt (by omega), Nat.zero_mul, show 2 ^ 64 - 1 - (2 ^ k - 1) = 0 by omega, Nat.and_zero]

theorem alignPow2_eq {x k : Nat} (hk : k < 64) (hfits : x + (2 ^ k - 1) < 2 ^ 64) :
    alignPow2 x (2 ^ k) = roundUp x (2 ^ k) := by
  have hpos : 0 < 2 ^ k := Nat.two_pow_pos k
  have hlt : 2 ^ k < 2 ^ 64 := Nat.pow_lt_pow_right (by decide) hk
  have hone : (1 : UInt64) ≤ UInt64.ofNat (2 ^ k) := by
    rw [UInt64.le_iff_toNat_le, UInt64.toNat_ofNat_of_lt' hlt]
    exact hpos
  have hmask : (UInt64.ofNat (2 ^ k) - 1).toNat = 2 ^ k - 1 := by
    rw [UInt64.toNat_sub_of_le _ _ hone, UInt64.toNat_ofNat_of_lt' hlt]
    rfl
  have hsum : (UInt64.ofNat x + UInt64.ofNat (2 ^ k) - 1).toNat = x + (2 ^ k - 1) := by
    have hx : x < 2 ^ 64 := Nat.lt_of_le_of_lt (Nat.le_add_right _ _) hfits
    rw [UInt64.sub_eq_add_neg, UInt64.add_assoc, ← UInt64.sub_eq_add_neg, UInt64.toNat_add, hmask,
      UInt64.toNat_ofNat_of_lt' hx, Nat.mod_eq_of_lt hfits]
  rw [alignPow2, UInt64.toNat_and, UInt64.toNat_not, hmask, hsum, roundUp]
  exact and_not_low hfits

theorem le_roundUp {x b : Nat} (hb : 0 < b) : x ≤ roundUp x b := by
  have := Nat.div_add_mod' (x + (b - 1)) b
  have := Nat.mod_lt (x + (b - 1)) hb
  rw [roundUp]
  omega

theorem dvd_roundUp (x b : Nat) : b ∣ roundUp x b := Nat.dvd_mul_left b _

/-! ### Chains -/

/-- What counts of a page. -/
structure Slot where
  id : Nat
  base : Nat
  size : Nat
  used : Nat

/-- The memory holds the page, with `prev` below it. -/
def Holds (m : Memory) (slot : Slot) (prev : Option Nat) : Prop :=
  ∃ p, m.page slot.id = some p ∧ p.prev = prev ∧ p.baseOffset = slot.base ∧ p.pageSize = slot.size ∧
    p.pageOffset = slot.used

def topId (slots : List Slot) : Option Nat := slots.head?.map Slot.id

/-- The pages in use, the current one first. -/
def Chained (m : Memory) : List Slot → Prop
  | [] => True
  | slot :: below => Holds m slot (topId below) ∧ Chained m below

/-- The free stack. Its last page has the first page of the arena below it. -/
def FreeChained (m : Memory) (root : Nat) : List Slot → Prop
  | [] => True
  | slot :: below => Holds m slot (some ((topId below).getD root)) ∧ FreeChained m root below

structure Slot.Fits (slot : Slot) : Prop where
  header_le : headerSize ≤ slot.used
  used_le : slot.used ≤ headerSize + slot.size
  lt : slot.base + headerSize + slot.size < 2 ^ 64

/-- The offsets of a page begin where those of the page below it end. -/
def Stacked : List Slot → Prop
  | [] => True
  | [slot] => slot.base = 0 ∧ slot.Fits
  | slot :: below :: rest => slot.base = below.base + headerSize + below.size ∧ slot.Fits ∧ Stacked (below :: rest)

/-- The current offset. -/
def top : List Slot → Nat
  | [] => 0
  | slot :: _ => slot.base + slot.used

theorem Stacked.tail {slot : Slot} {below : List Slot} (h : Stacked (slot :: below)) : Stacked below := by
  cases below with
  | nil => trivial
  | cons => exact h.2.2

theorem Stacked.fits {slot : Slot} {below : List Slot} (h : Stacked (slot :: below)) : slot.Fits := by
  cases below with
  | nil => exact h.2
  | cons => exact h.2.1

/-- The pages below a page end before it. -/
theorem Stacked.below_le {slot other : Slot} {below : List Slot} (h : Stacked (slot :: below))
    (hmem : other ∈ below) : other.base + headerSize + other.size ≤ slot.base := by
  induction below generalizing slot with
  | nil => cases hmem
  | cons next rest ih =>
      obtain ⟨hbase, -, hrest⟩ := h
      rcases List.mem_cons.mp hmem with rfl | hmem
      · exact Nat.le_of_eq hbase.symm
      · have hle := ih hrest hmem
        omega

theorem Stacked.fits_of_mem {slot : Slot} {chain : List Slot} (h : Stacked chain) (hmem : slot ∈ chain) :
    slot.Fits := by
  induction chain with
  | nil => cases hmem
  | cons first below ih =>
      rcases List.mem_cons.mp hmem with rfl | hmem
      · exact h.fits
      · exact ih h.tail hmem

theorem Stacked.last {above : List Slot} {rootSlot : Slot} (h : Stacked (above ++ [rootSlot])) : rootSlot.base = 0 := by
  induction above with
  | nil => exact h.1
  | cons slot above ih => exact ih h.tail

theorem Stacked.replace {slot slot' : Slot} {below : List Slot} (h : Stacked (slot :: below))
    (hbase : slot'.base = slot.base) (hfits : slot'.Fits) : Stacked (slot' :: below) := by
  cases below with
  | nil => exact ⟨hbase.trans h.1, hfits⟩
  | cons => exact ⟨hbase.trans h.1, hfits, h.2.2⟩

/-! ### Frames -/

theorem modify_page (m : Memory) (id : Nat) (f : ArenaPage → ArenaPage) (j : Nat) :
    (m.modify id f).page j = if j = id then (m.page id).map f else m.page j := by
  rw [Memory.modify]
  exact Function.update_apply _ _ _ _

theorem modify_page_self {m : Memory} {id : Nat} {f : ArenaPage → ArenaPage} {p : ArenaPage}
    (h : m.page id = some p) : (m.modify id f).page id = some (f p) := by rw [modify_page, if_pos rfl, h]; rfl

theorem modify_page_ne {m : Memory} {id j : Nat} {f : ArenaPage → ArenaPage} (h : j ≠ id) :
    (m.modify id f).page j = m.page j := by rw [modify_page, if_neg h]

/-- What counts of a page is the same in another memory. -/
def Same (m m' : Memory) (id : Nat) : Prop :=
  ∀ p, m.page id = some p → ∃ p', m'.page id = some p' ∧ p'.prev = p.prev ∧ p'.baseOffset = p.baseOffset ∧
    p'.pageSize = p.pageSize ∧ p'.pageOffset = p.pageOffset

theorem Same.of_eq {m m' : Memory} {id : Nat} (h : m'.page id = m.page id) : Same m m' id :=
  fun p hp => ⟨p, h.trans hp, rfl, rfl, rfl, rfl⟩

theorem Same.trans {m m' m'' : Memory} {id : Nat} (h : Same m m' id) (h' : Same m' m'' id) : Same m m'' id := by
  intro p hp
  obtain ⟨p', hp', hprev, hbase, hsize, hused⟩ := h p hp
  obtain ⟨p'', hp'', hprev', hbase', hsize', hused'⟩ := h' p' hp'
  exact ⟨p'', hp'', hprev'.trans hprev, hbase'.trans hbase, hsize'.trans hsize, hused'.trans hused⟩

/-- A write to another page, or to the other fields of this one. -/
theorem Same.modify {m : Memory} {id j : Nat} {f : ArenaPage → ArenaPage}
    (hf : j = id → ∀ p, (f p).prev = p.prev ∧ (f p).baseOffset = p.baseOffset ∧ (f p).pageSize = p.pageSize ∧
      (f p).pageOffset = p.pageOffset) : Same m (m.modify id f) j := by
  intro p hp
  by_cases hj : j = id
  · subst hj
    exact ⟨f p, modify_page_self hp, hf rfl p⟩
  · exact ⟨p, (modify_page_ne hj).trans hp, rfl, rfl, rfl, rfl⟩

theorem Holds.same {m m' : Memory} {slot : Slot} {prev : Option Nat} (h : Holds m slot prev)
    (hsame : Same m m' slot.id) : Holds m' slot prev := by
  obtain ⟨p, hp, hprev, hbase, hsize, hused⟩ := h
  obtain ⟨p', hp', hprev', hbase', hsize', hused'⟩ := hsame p hp
  exact ⟨p', hp', hprev'.trans hprev, hbase'.trans hbase, hsize'.trans hsize, hused'.trans hused⟩

theorem Chained.same {m m' : Memory} {slots : List Slot} (h : Chained m slots)
    (hsame : ∀ id ∈ slots.map Slot.id, Same m m' id) : Chained m' slots := by
  induction slots with
  | nil => trivial
  | cons slot below ih =>
      rw [List.map_cons, List.forall_mem_cons] at hsame
      exact ⟨h.1.same hsame.1, ih h.2 hsame.2⟩

theorem FreeChained.same {m m' : Memory} {root : Nat} {slots : List Slot} (h : FreeChained m root slots)
    (hsame : ∀ id ∈ slots.map Slot.id, Same m m' id) : FreeChained m' root slots := by
  induction slots with
  | nil => trivial
  | cons slot below ih =>
      rw [List.map_cons, List.forall_mem_cons] at hsame
      exact ⟨h.1.same hsame.1, ih h.2 hsame.2⟩

theorem Chained.last {m : Memory} {above : List Slot} {rootSlot : Slot} (h : Chained m (above ++ [rootSlot])) :
    Holds m rootSlot none := by
  induction above with
  | nil => exact h.1
  | cons slot above ih => exact ih h.2

/-- The pages above the first one become the free stack as they are. -/
theorem Chained.freeChained {m : Memory} {above : List Slot} {rootSlot : Slot}
    (h : Chained m (above ++ [rootSlot])) : FreeChained m rootSlot.id above := by
  induction above with
  | nil => trivial
  | cons slot below ih =>
      refine ⟨?_, ih h.2⟩
      have hholds := h.1
      cases below <;> exact hholds

/-! ### What is held -/

/-- What is held lies below `top`, the later above the earlier, on pages of the chain. -/
def Below (chain : List Slot) : Nat → List Entry → Prop
  | _, [] => True
  | top, .region r :: held => (∃ slot ∈ chain, slot.id = r.page ∧ r.align ∣ r.start ∧ headerSize ≤ r.start ∧
      r.start + r.size ≤ headerSize + slot.size ∧ slot.base + r.start + r.size ≤ top ∧
      Below chain (slot.base + r.start) held)
  | top, .mark offset :: held => (∃ slot ∈ chain, slot.base + headerSize ≤ offset ∧
      offset ≤ slot.base + headerSize + slot.size) ∧ offset ≤ top ∧ Below chain offset held

/-- A chain that keeps the pages that begin below `top` keeps what is held there. -/
theorem Below.mono {chain chain' : List Slot} {top top' : Nat} {held : List Entry} (h : Below chain top held)
    (htop : top ≤ top')
    (hkeep : ∀ slot ∈ chain, slot.base + headerSize ≤ top →
      ∃ slot' ∈ chain', slot'.id = slot.id ∧ slot'.base = slot.base ∧ slot'.size = slot.size) :
    Below chain' top' held := by
  induction held generalizing top top' with
  | nil => trivial
  | cons entry held ih =>
      cases entry with
      | region r =>
          obtain ⟨slot, hmem, hid, hdvd, hstart, hend, hle, hheld⟩ := h
          obtain ⟨slot', hmem', hid', hbase, hsize⟩ := hkeep slot hmem (by omega)
          refine ⟨slot', hmem', hid'.trans hid, hdvd, hstart, by rwa [hsize], by omega, ?_⟩
          exact ih hheld (by omega) fun s hs hle => hkeep s hs (by omega)
      | mark offset =>
          obtain ⟨⟨slot, hmem, hbase, hend⟩, hle, hheld⟩ := h
          obtain ⟨slot', hmem', hid', hbase', hsize⟩ := hkeep slot hmem (by omega)
          refine ⟨⟨slot', hmem', by omega, by omega⟩, by omega, ?_⟩
          exact ih hheld le_rfl fun s hs hle => hkeep s hs (by omega)

/-- What is held behind an offset lies below it. -/
theorem Below.drop {chain : List Slot} {top index offset : Nat} {held : List Entry} (h : Below chain top held)
    (hmark : held[index]? = some (.mark offset)) :
    Below chain offset (held.drop index) ∧ offset ≤ top ∧
      ∃ slot ∈ chain, slot.base + headerSize ≤ offset ∧ offset ≤ slot.base + headerSize + slot.size := by
  induction held generalizing top index with
  | nil => cases hmark
  | cons entry held ih =>
      cases index with
      | zero =>
          rw [List.getElem?_cons_zero, Option.some_inj] at hmark
          subst hmark
          obtain ⟨hslot, hle, hheld⟩ := h
          exact ⟨⟨hslot, le_rfl, hheld⟩, hle, hslot⟩
      | succ index =>
          rw [List.getElem?_cons_succ] at hmark
          cases entry with
          | region r =>
              obtain ⟨slot, -, -, -, -, -, hle, hheld⟩ := h
              obtain ⟨hbelow, hoffset, hslot⟩ := ih hheld hmark
              exact ⟨hbelow, by omega, hslot⟩
          | mark offset =>
              obtain ⟨-, hle, hheld⟩ := h
              obtain ⟨hbelow, hoffset, hslot⟩ := ih hheld hmark
              exact ⟨hbelow, by omega, hslot⟩

end Plexdb.Arena
