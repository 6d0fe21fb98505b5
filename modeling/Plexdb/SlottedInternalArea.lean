import Mathlib
import Plexdb.ListUpdates
import Plexdb.SlottedInternal
import Plexdb.SlottedLeafSteps

/-! The keys of a slotted internal page in its memory: what the moves and copies of the operations do to the slots and
to the bytes they name. -/

namespace Plexdb.Slots.SlottedInternalPage

open ByteArea

/-! ### The directory -/

section

variable {m : Memory} {i j dst src n : Nat} {bs : Bytes} {key : Piece}

theorem internalSlot_put (h : 4 * i + 4 ≤ dst ∨ dst + bs.length ≤ 4 * i) :
    internalSlot (m.put dst bs) i = internalSlot m i := by
  rw [internalSlot, Memory.field_put_apart (by omega), Memory.field_put_apart (by omega), internalSlot]

theorem internalSlot_setField {off len value : Nat} (h : 4 * i + 4 ≤ off ∨ off + len ≤ 4 * i) :
    internalSlot (m.setField off len value) i = internalSlot m i :=
  internalSlot_put (by rwa [Wire.length_leBytes])

theorem internalSlot_moved (hlow : dst ≤ 4 * i) (hhigh : 4 * i + 4 ≤ dst + n) (hsrc : 4 * i - dst + src = 4 * j) :
    internalSlot (m.put dst (m.read src n)) i = internalSlot m j := by
  rw [internalSlot, Memory.field_moved hlow (by omega), Memory.field_moved (by omega) (by omega), internalSlot, hsrc,
    show 4 * i + 2 - dst + src = 4 * j + 2 by omega]

theorem internalSlot_lt (m : Memory) (i : Nat) : (internalSlot m i).off < 2 ^ 16 ∧ (internalSlot m i).len < 2 ^ 16 :=
  ⟨m.field_lt _ 2, m.field_lt _ 2⟩

theorem internalSlot_setSlot (hoff : key.off < 2 ^ 16) (hlen : key.len < 2 ^ 16) :
    internalSlot (setSlot m i key) i = key := by
  rw [internalSlot, setSlot, Memory.field_setField_apart (by omega), Memory.field_setField hoff,
    Memory.field_setField hlen]

theorem internalSlot_setSlot_ne (h : i ≠ j) : internalSlot (setSlot m i key) j = internalSlot m j := by
  rw [setSlot, internalSlot_setField (by omega), internalSlot_setField (by omega)]

theorem internalSlot_setOff {value : Nat} (h : value < 2 ^ 16) :
    internalSlot (m.setField (4 * j) 2 value) j = ⟨value, (internalSlot m j).len⟩ := by
  rw [internalSlot, Memory.field_setField h, Memory.field_setField_apart (by omega), internalSlot]

theorem agree_setSlot {low : Nat} {m' : Memory} (h : Memory.AgreeFrom low m m') (hlow : 4 * i + 4 ≤ low) :
    Memory.AgreeFrom low m (setSlot m' i key) :=
  (h.setField (by omega)).setField (by omega)

end

def slots (m : Memory) (count : Nat) : List Piece := (List.range count).map (internalSlot m)

/-- The bytes that a slot names. -/
def keyIn (m : Memory) (i : Nat) : Bytes := (internalSlot m i).read m

def keysIn (m : Memory) (count : Nat) : List Bytes := (List.range count).map (keyIn m)

def keyBytes (ks : List Bytes) : Nat := (ks.map List.length).sum

section

variable {m m' : Memory} {count i j : Nat} {k : Bytes} {ks ks' : List Bytes}

@[simp] theorem length_slots (m : Memory) (count : Nat) : (slots m count).length = count := by
  rw [slots, List.length_map, List.length_range]

@[simp] theorem length_keysIn (m : Memory) (count : Nat) : (keysIn m count).length = count := by
  rw [keysIn, List.length_map, List.length_range]

theorem getElem_slots (h : i < (slots m count).length) : (slots m count)[i] = internalSlot m i := by
  simp [slots]

theorem getElem_keysIn (h : i < (keysIn m count).length) : (keysIn m count)[i] = keyIn m i := by
  simp [keysIn]

@[simp] theorem length_keyIn (m : Memory) (i : Nat) : (keyIn m i).length = (internalSlot m i).len :=
  Memory.length_read m _ _

theorem mem_slots (h : i < count) : internalSlot m i ∈ slots m count :=
  List.mem_map_of_mem (List.mem_range.mpr h)

theorem forall_mem_slots {P : Piece → Prop} : (∀ s ∈ slots m count, P s) ↔ ∀ j < count, P (internalSlot m j) := by
  rw [slots, List.forall_mem_map]
  simp only [List.mem_range]

theorem slots_succ (m : Memory) (n : Nat) : slots m (n + 1) = slots m n ++ [internalSlot m n] := by
  rw [slots, List.range_succ, List.map_append, slots]
  rfl

theorem keysIn_succ (m : Memory) (n : Nat) : keysIn m (n + 1) = keysIn m n ++ [keyIn m n] := by
  rw [keysIn, List.range_succ, List.map_append, keysIn]
  rfl

theorem slots_congr (h : ∀ j < count, internalSlot m' j = internalSlot m j) : slots m' count = slots m count :=
  List.map_congr_left fun j hj => h j (List.mem_range.mp hj)

theorem keysIn_congr (h : ∀ j < count, keyIn m' j = keyIn m j) : keysIn m' count = keysIn m count :=
  List.map_congr_left fun j hj => h j (List.mem_range.mp hj)

theorem keyIn_congr (hslot : internalSlot m' j = internalSlot m j)
    (hread : (internalSlot m j).read m' = (internalSlot m j).read m) : keyIn m' j = keyIn m j := by
  rw [keyIn, hslot, hread, keyIn]

/-- A slot other than a given one. -/
theorem mem_eraseIdx_slots (hj : j < count) (hji : j ≠ i) : internalSlot m j ∈ (slots m count).eraseIdx i :=
  List.mem_eraseIdx_iff_getElem?.mpr ⟨j, hji, by
    rw [List.getElem?_eq_getElem (by rwa [length_slots]), getElem_slots]⟩

theorem keyBytes_perm (h : ks.Perm ks') : keyBytes ks = keyBytes ks' := by
  rw [keyBytes, keyBytes, (h.map _).sum_eq]

theorem keyBytes_cons (k : Bytes) (ks : List Bytes) : keyBytes (k :: ks) = k.length + keyBytes ks := by
  rw [keyBytes, List.map_cons, List.sum_cons, keyBytes]

theorem keyBytes_append (ks ks' : List Bytes) : keyBytes (ks ++ ks') = keyBytes ks + keyBytes ks' := by
  rw [keyBytes, List.map_append, List.sum_append, keyBytes, keyBytes]

theorem keyBytes_eraseIdx (hi : i < count) :
    keyBytes (keysIn m count) = (internalSlot m i).len + keyBytes ((keysIn m count).eraseIdx i) := by
  have hlen : i < (keysIn m count).length := by rwa [length_keysIn]
  rw [← keyBytes_perm (List.getElem_cons_eraseIdx_perm hlen), keyBytes_cons, getElem_keysIn, length_keyIn]

theorem keyBytes_set (hi : i < ks.length) : keyBytes (ks.set i k) = k.length + keyBytes (ks.eraseIdx i) := by
  rw [keyBytes_perm (List.set_perm_cons_eraseIdx hi k), keyBytes_cons]

theorem keyBytes_take_drop (ks : List Bytes) (i : Nat) :
    keyBytes (ks.take i) + keyBytes (ks.drop i) = keyBytes ks := by
  rw [← keyBytes_append, List.take_append_drop]

end

/-! ### The area of the keys -/

/-- The keys lie apart from each other between the slots and `high`. -/
structure KeyArea (m : Memory) (low high count : Nat) : Prop where
  below : 4 * count ≤ low
  room : low + keyBytes (keysIn m count) ≤ high
  laid : Laid low high (slots m count)

/-- The same without the key of one slot, which names no bytes of its own. -/
structure Vacant (m : Memory) (low high count i : Nat) : Prop where
  below : 4 * count ≤ low
  room : low + keyBytes ((keysIn m count).eraseIdx i) ≤ high
  laid : Laid low high ((slots m count).eraseIdx i)

section

variable {m m' : Memory} {low high count i j : Nat} {k : Bytes}

theorem KeyArea.key_high (h : KeyArea m low high count) (hj : j < count) :
    (internalSlot m j).off + (internalSlot m j).len ≤ high :=
  h.laid.high _ (mem_slots hj)

theorem KeyArea.perm (h : KeyArea m low high count) (hi : i < count) :
    Laid low high (internalSlot m i :: (slots m count).eraseIdx i) := by
  have hlen : i < (slots m count).length := by rwa [length_slots]
  have hperm := List.getElem_cons_eraseIdx_perm hlen
  rw [getElem_slots] at hperm
  exact h.laid.perm hperm.symm

theorem KeyArea.vacate (h : KeyArea m low high count) (hi : i < count) : Vacant m low high count i := by
  have hbytes := keyBytes_eraseIdx (m := m) hi
  have hroom := h.room
  exact ⟨h.below, by omega, (Laid.cons_iff.mp (h.perm hi)).2⟩

/-- Writes above the area leave it. -/
theorem KeyArea.within (h : KeyArea m low high count) (m' : Memory) (hsame : ∀ a < high, m' a = m a) :
    KeyArea m' low high count ∧ keysIn m' count = keysIn m count := by
  have hbelow := h.below
  have hroom := h.room
  have hslots : ∀ j < count, internalSlot m' j = internalSlot m j := by
    intro j hj
    rw [internalSlot, internalSlot, Memory.field, Memory.field, Memory.field, Memory.field]
    rw [Memory.read_congr fun i hi => hsame (4 * j + i) (by omega),
      Memory.read_congr fun i hi => hsame (4 * j + 2 + i) (by omega)]
  have hkeys : keysIn m' count = keysIn m count :=
    keysIn_congr fun j hj => keyIn_congr (hslots j hj)
      (h.laid.read_within (fun a _ ha => hsame a ha) (mem_slots hj))
  refine ⟨⟨h.below, ?_, ?_⟩, hkeys⟩
  · rw [hkeys]
    exact h.room
  · rw [slots_congr hslots]
    exact h.laid

/-! ### A key laid below the others -/

/-- The memory after `lay`. -/
def layMem (m : Memory) (low i : Nat) (k : Bytes) : Memory :=
  setSlot (m.put (low - k.length) k) i ⟨low - k.length, k.length⟩

theorem layMem_agree (hlow : 4 * i + 4 ≤ low) (hlen : k.length ≤ low) : Memory.AgreeFrom low m (layMem m low i k) :=
  agree_setSlot ((Memory.AgreeFrom.refl low m).put (by omega)) hlow

theorem layMem_self (hlow : low < 2 ^ 16) (hlen : k.length ≤ low) :
    internalSlot (layMem m low i k) i = ⟨low - k.length, k.length⟩ :=
  internalSlot_setSlot (by dsimp only; omega) (by dsimp only; omega)

theorem layMem_ne (hroom : 4 * j + 4 + k.length ≤ low) (hij : i ≠ j) :
    internalSlot (layMem m low i k) j = internalSlot m j := by
  rw [layMem, internalSlot_setSlot_ne hij, internalSlot_put (by omega)]

theorem keyIn_layMem (hlow : low < 2 ^ 16) (hroom : 4 * i + 4 + k.length ≤ low) : keyIn (layMem m low i k) i = k := by
  rw [keyIn, layMem_self hlow (by omega), Piece.read, layMem, setSlot, Memory.read_setField (by dsimp only; omega),
    Memory.read_setField (by dsimp only; omega)]
  exact Memory.read_put_self _ _ k

theorem Vacant.lay (h : Vacant m low high count i) (hi : i < count) (hlow : low < 2 ^ 16) (hlowHigh : low ≤ high)
    (hroom : 4 * count + k.length ≤ low) :
    KeyArea (layMem m low i k) (low - k.length) high count ∧
      keysIn (layMem m low i k) count = (keysIn m count).set i k := by
  have hagree : Memory.AgreeFrom low m (layMem m low i k) := layMem_agree (by omega) (by omega)
  have hslot : ∀ j < count, j ≠ i → internalSlot (layMem m low i k) j = internalSlot m j :=
    fun j hj hji => layMem_ne (by omega) hji.symm
  have hkeys : keysIn (layMem m low i k) count = (keysIn m count).set i k := by
    rw [keysIn, map_range_set (f := keyIn m) (i := i) fun j hj hji => ?_, keyIn_layMem hlow (by omega), keysIn]
    exact keyIn_congr (hslot j hj hji) (h.laid.read_agree hagree (mem_eraseIdx_slots hj hji))
  have hslots : slots (layMem m low i k) count = (slots m count).set i ⟨low - k.length, k.length⟩ := by
    rw [slots, map_range_set (f := internalSlot m) (i := i) hslot, layMem_self hlow (by omega), slots]
  have hlenKeys : i < (keysIn m count).length := by rwa [length_keysIn]
  have hlenSlots : i < (slots m count).length := by rwa [length_slots]
  have hroomOld := h.room
  refine ⟨⟨by omega, ?_, ?_⟩, hkeys⟩
  · rw [hkeys, keyBytes_set hlenKeys]
    omega
  · rw [hslots]
    exact (h.laid.alloc (by omega) hlowHigh).perm (List.set_perm_cons_eraseIdx hlenSlots _).symm

/-- The next key of a page that is filled from the front. -/
theorem KeyArea.append (h : KeyArea m low high i) (hlow : low < 2 ^ 16) (hroom : 4 * (i + 1) + k.length ≤ low) :
    KeyArea (layMem m low i k) (low - k.length) high (i + 1) ∧
      keysIn (layMem m low i k) (i + 1) = keysIn m i ++ [k] := by
  have hagree : Memory.AgreeFrom low m (layMem m low i k) := layMem_agree (by omega) (by omega)
  have hslot : ∀ j < i, internalSlot (layMem m low i k) j = internalSlot m j :=
    fun j hj => layMem_ne (by omega) (by omega)
  have hkeys : keysIn (layMem m low i k) (i + 1) = keysIn m i ++ [k] := by
    rw [keysIn_succ, keyIn_layMem hlow (by omega),
      keysIn_congr fun j hj => keyIn_congr (hslot j hj) (h.laid.read_agree hagree (mem_slots hj))]
  have hbytes := keyBytes_append (keysIn m i) [k]
  rw [keyBytes_cons, show keyBytes [] = 0 from rfl] at hbytes
  have hroomOld := h.room
  refine ⟨⟨by omega, ?_, ?_⟩, hkeys⟩
  · rw [hkeys]
    omega
  · rw [slots_succ, slots_congr hslot, layMem_self hlow (by omega)]
    exact (h.laid.alloc (by omega) (by omega)).perm (List.perm_append_singleton _ _).symm

/-! ### A slot more or less -/

/-- The memory after the slots from `i` on are moved one place up. -/
def openMem (m : Memory) (count i : Nat) : Memory := m.put (4 * (i + 1)) (m.read (4 * i) (4 * (count - i)))

theorem openMem_agree (hi : i ≤ count) (hlow : 4 * (count + 1) ≤ low) : Memory.AgreeFrom low m (openMem m count i) :=
  (Memory.AgreeFrom.refl low m).put (by rw [Memory.length_read]; omega)

theorem KeyArea.openSlot (h : KeyArea m low high count) (hi : i ≤ count) (hlow : 4 * (count + 1) ≤ low) :
    Vacant (openMem m count i) low high (count + 1) i ∧
      keysIn (openMem m count i) (count + 1) = (keysIn m count).insertIdx i (keyIn (openMem m count i) i) := by
  have hagree : Memory.AgreeFrom low m (openMem m count i) := openMem_agree hi hlow
  have hbefore : ∀ j < i, internalSlot (openMem m count i) j = internalSlot m j := fun j hj => by
    rw [openMem, internalSlot_put (by omega)]
  have hafter : ∀ j, i ≤ j → j < count → internalSlot (openMem m count i) (j + 1) = internalSlot m j :=
    fun j hij hj => by rw [openMem, internalSlot_moved (j := j) (by omega) (by omega) (by omega)]
  have hslots : slots (openMem m count i) (count + 1)
      = (slots m count).insertIdx i (internalSlot (openMem m count i) i) := by
    rw [slots, map_range_insertIdx hi hbefore hafter, slots]
  have hkeys : keysIn (openMem m count i) (count + 1)
      = (keysIn m count).insertIdx i (keyIn (openMem m count i) i) := by
    rw [keysIn, map_range_insertIdx (f := keyIn m) hi, keysIn]
    · intro j hj
      exact keyIn_congr (hbefore j hj) (h.laid.read_agree hagree (mem_slots (by omega)))
    · intro j hij hj
      rw [keyIn, hafter j hij hj, keyIn]
      exact h.laid.read_agree hagree (mem_slots hj)
  refine ⟨⟨hlow, ?_, ?_⟩, hkeys⟩
  · rw [hkeys, List.eraseIdx_insertIdx_self]
    exact h.room
  · rw [hslots, List.eraseIdx_insertIdx_self]
    exact h.laid

/-- The memory after the slots behind `i` are moved one place down. -/
def dropMem (m : Memory) (count i : Nat) : Memory := m.put (4 * i) (m.read (4 * (i + 1)) (4 * (count - i - 1)))

theorem dropMem_agree (hi : i < count) (hlow : 4 * count ≤ low) : Memory.AgreeFrom low m (dropMem m count i) :=
  (Memory.AgreeFrom.refl low m).put (by rw [Memory.length_read]; omega)

theorem Vacant.dropSlot (h : Vacant m low high count i) (hi : i < count) :
    KeyArea (dropMem m count i) low high (count - 1) ∧
      keysIn (dropMem m count i) (count - 1) = (keysIn m count).eraseIdx i := by
  have hlow := h.below
  have hagree : Memory.AgreeFrom low m (dropMem m count i) := dropMem_agree hi hlow
  have hbefore : ∀ j < i, internalSlot (dropMem m count i) j = internalSlot m j := fun j hj => by
    rw [dropMem, internalSlot_put (by omega)]
  have hafter : ∀ j, i ≤ j → j + 1 < count → internalSlot (dropMem m count i) j = internalSlot m (j + 1) :=
    fun j hij hj => by rw [dropMem, internalSlot_moved (j := j + 1) (by omega) (by omega) (by omega)]
  have hslots : slots (dropMem m count i) (count - 1) = (slots m count).eraseIdx i := by
    rw [slots, map_range_eraseIdx hi hbefore hafter, slots]
  have hkeys : keysIn (dropMem m count i) (count - 1) = (keysIn m count).eraseIdx i := by
    rw [keysIn, map_range_eraseIdx (f := keyIn m) hi, keysIn]
    · intro j hj
      exact keyIn_congr (hbefore j hj) (h.laid.read_agree hagree (mem_eraseIdx_slots (by omega) (by omega)))
    · intro j hij hj
      rw [keyIn, hafter j hij hj, keyIn]
      exact h.laid.read_agree hagree (mem_eraseIdx_slots hj (by omega))
  refine ⟨⟨by omega, ?_, ?_⟩, hkeys⟩
  · rw [hkeys]
    exact h.room
  · rw [hslots]
    exact h.laid

end

/-! ### The gap of a key -/

section

variable {m : Memory} {low high count n off len i j : Nat} {r : Piece}

theorem shiftBelow_agree (m : Memory) (off len n : Nat) : Memory.AgreeFrom (4 * n) m (shiftBelow m off len n) := by
  induction n with
  | zero => exact Memory.AgreeFrom.refl _ m
  | succ n ih =>
      have hprev := ih.mono (by omega : 4 * n ≤ 4 * (n + 1))
      rw [shiftBelow]
      split_ifs
      · exact hprev.setField (by omega)
      · exact hprev

/-- One turn of the loop shifts one slot. -/
theorem shiftBelow_succ (hfits : off + len < 2 ^ 16) (j : Nat) :
    internalSlot (shiftBelow m off len (n + 1)) j
      = if j = n then (Piece.mk off len).shift (internalSlot (shiftBelow m off len n) n)
        else internalSlot (shiftBelow m off len n) j := by
  rw [shiftBelow]
  generalize shiftBelow m off len n = m
  by_cases hj : j = n
  · subst hj
    rw [if_pos rfl, Piece.shift]
    dsimp only
    split_ifs with hlt
    · rw [u16_add (by omega), internalSlot_setOff (by omega)]
    · rfl
  · rw [if_neg hj]
    split_ifs
    · rw [internalSlot_setField (by omega)]
    · rfl

theorem shiftBelow_slot (hfits : off + len < 2 ^ 16) (j : Nat) :
    internalSlot (shiftBelow m off len n) j
      = if j < n then (Piece.mk off len).shift (internalSlot m j) else internalSlot m j := by
  induction n generalizing j with
  | zero => rw [shiftBelow, if_neg (Nat.not_lt_zero j)]
  | succ n ih =>
      rw [shiftBelow_succ hfits, ih, ih]
      by_cases hj : j = n
      · subst hj
        simp
      · have hlt : j < n + 1 ↔ j < n := by omega
        simp [hj, hlt]

/-- The memory after the bytes of a key are gone. -/
def gapMem (m : Memory) (low count : Nat) (r : Piece) : Memory :=
  shiftBelow (Laid.closeGap low r m) r.off r.len count

theorem gapMem_slot (hlow : 4 * count ≤ low) (hfits : r.off + r.len < 2 ^ 16) (hj : j < count) :
    internalSlot (gapMem m low count r) j = r.shift (internalSlot m j) := by
  rw [gapMem, shiftBelow_slot hfits, Laid.closeGap, internalSlot_put (by omega), if_pos hj]

theorem gapMem_agree (m : Memory) (low count : Nat) (r : Piece) :
    Memory.AgreeFrom (4 * count) (Laid.closeGap low r m) (gapMem m low count r) :=
  shiftBelow_agree _ r.off r.len count

/-- The gap is closed below the end of the area. -/
theorem gapMem_above (hlow : 4 * count ≤ low) (hrlow : low ≤ r.off) (hrhigh : r.off + r.len ≤ high) :
    Memory.AgreeFrom high m (gapMem m low count r) := by
  have hclosed : Memory.AgreeFrom high m (Laid.closeGap low r m) :=
    (Memory.AgreeFrom.refl high m).put (by rw [Memory.length_read]; omega)
  exact hclosed.trans ((gapMem_agree m low count r).mono (by omega))

theorem KeyArea.gap (h : KeyArea m low high count) (hi : i < count) (hhigh : high < 2 ^ 16)
    (hrlow : low ≤ (internalSlot m i).off) :
    Vacant (gapMem m low count (internalSlot m i)) (low + (internalSlot m i).len) high count i ∧
      keysIn (gapMem m low count (internalSlot m i)) count
        = (keysIn m count).set i ((internalSlot m i).read (gapMem m low count (internalSlot m i))) := by
  have hperm := h.perm hi
  have hlow := h.below
  have hroom := h.room
  have hrhigh := h.key_high hi
  have hbytes := keyBytes_eraseIdx (m := m) hi
  have hself : (internalSlot m i).shift (internalSlot m i) = internalSlot m i := Piece.shift_of_ge le_rfl
  have hslot : ∀ j < count, internalSlot (gapMem m low count (internalSlot m i)) j
      = (internalSlot m i).shift (internalSlot m j) := fun j hj => gapMem_slot hlow (by omega) hj
  have hlaid := hperm.shift
  have hkeys : keysIn (gapMem m low count (internalSlot m i)) count
      = (keysIn m count).set i ((internalSlot m i).read (gapMem m low count (internalSlot m i))) := by
    rw [keysIn, map_range_set (f := keyIn m) (i := i) fun j hj hji => ?_, keysIn]
    · rw [keyIn, hslot i hi, hself]
    · have hmem := mem_eraseIdx_slots (m := m) hj hji
      rw [keyIn, hslot j hj, hlaid.read_agree ((gapMem_agree m low count _).mono (by omega))
        (List.mem_map_of_mem hmem), hperm.read_shift hrlow hmem, keyIn]
  have hslots : slots (gapMem m low count (internalSlot m i)) count
      = (slots m count).map (internalSlot m i).shift := by
    rw [slots, slots, List.map_map]
    exact List.map_congr_left fun j hj => hslot j (List.mem_range.mp hj)
  refine ⟨⟨by omega, ?_, ?_⟩, hkeys⟩
  · rw [hkeys, List.eraseIdx_set_eq]
    omega
  · rw [hslots, List.eraseIdx_map]
    exact hlaid

end

/-! ### Children -/

def refsIn (m : Memory) (base count : Nat) : List Nat :=
  (List.range count).map fun j => m.field (base + nodeRefBytes * j) nodeRefBytes

/-- The memory after the children from `c` on are moved one place up and another is written to their place. -/
def childMem (m : Memory) (base count c ref : Nat) : Memory :=
  (m.put (base + nodeRefBytes * (c + 1)) (m.read (base + nodeRefBytes * c) (nodeRefBytes * (count - c)))).setField
    (base + nodeRefBytes * c) nodeRefBytes ref

/-- The memory after the children behind `c` are moved one place down. -/
def childGoneMem (m : Memory) (base count c : Nat) : Memory :=
  m.put (base + nodeRefBytes * c) (m.read (base + nodeRefBytes * (c + 1)) (nodeRefBytes * (count - c - 1)))

section

variable {m : Memory} {base count c ref a : Nat}

theorem refsIn_childMem (hc : c ≤ count) (href : ref < 256 ^ nodeRefBytes) :
    refsIn (childMem m base count c ref) base (count + 1) = (refsIn m base count).insertIdx c ref := by
  have hself : (childMem m base count c ref).field (base + nodeRefBytes * c) nodeRefBytes = ref := by
    rw [childMem, Memory.field_setField href]
  rw [refsIn, map_range_insertIdx (f := fun j => m.field (base + nodeRefBytes * j) nodeRefBytes) hc, hself, refsIn]
  · intro j hj
    rw [childMem, nodeRefBytes, Memory.field_setField_apart (by omega), Memory.field_put_apart (by omega)]
  · intro j hcj hj
    rw [childMem, nodeRefBytes, Memory.field_setField_apart (by omega), Memory.field_moved (by omega) (by omega),
      show base + 8 * (j + 1) - (base + 8 * (c + 1)) + (base + 8 * c) = base + 8 * j by omega]

theorem refsIn_childGoneMem (m : Memory) (base : Nat) (hc : c < count) :
    refsIn (childGoneMem m base count c) base (count - 1) = (refsIn m base count).eraseIdx c := by
  rw [refsIn, map_range_eraseIdx (f := fun j => m.field (base + nodeRefBytes * j) nodeRefBytes) hc, refsIn]
  · intro j hj
    rw [childGoneMem, nodeRefBytes, Memory.field_put_apart (by omega)]
  · intro j hcj hj
    rw [childGoneMem, nodeRefBytes, Memory.field_moved (by omega) (by omega),
      show base + 8 * j - (base + 8 * c) + (base + 8 * (c + 1)) = base + 8 * (j + 1) by omega]

theorem childMem_below (ha : a < base) : childMem m base count c ref a = m a := by
  rw [childMem, Memory.setField, Memory.put_of_lt (by omega), Memory.put_of_lt (by omega)]

theorem childGoneMem_below (ha : a < base) : childGoneMem m base count c a = m a := by
  rw [childGoneMem, Memory.put_of_lt (by omega)]

theorem refsIn_agree {m' : Memory} (h : Memory.AgreeFrom base m m') : refsIn m' base count = refsIn m base count :=
  List.map_congr_left fun _ _ => h.field (Nat.le_add_right _ _)

end

end Plexdb.Slots.SlottedInternalPage
