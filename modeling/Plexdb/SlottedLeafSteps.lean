import Mathlib
import Plexdb.ListUpdates
import Plexdb.SlottedLeaf

/-! What the operations of a slotted leaf page do to the entries it represents. -/

namespace Plexdb.Slots

open ByteArea
open SlottedLeafPage (shiftOthers)

theorem u16_sub {a b : Nat} (hle : b ≤ a) (hlt : a < 2 ^ 16) : u16 ((a : Int) - b) = a - b := by
  rw [u16]
  omega

theorem u16_add {a b : Nat} (hlt : a + b < 2 ^ 16) : u16 ((a : Int) + b) = a + b := by
  rw [u16]
  omega

theorem byteCount_natCast {n : Nat} (hlt : n < 2 ^ 64) : byteCount (n : Int) = n := by
  rw [byteCount]
  omega

/-- A negative count of bytes is larger than any page. -/
theorem byteCount_of_neg {x : Int} (hneg : x < 0) (hge : -2 ^ 63 ≤ x) : 2 ^ 63 ≤ byteCount x := by
  rw [byteCount]
  omega

/-! ### The directory -/

section

variable {m : Memory} {i j dst src n : Nat} {bs : Bytes}

theorem leafSlot_put (h : 8 * i + 8 ≤ dst ∨ dst + bs.length ≤ 8 * i) : leafSlot (m.put dst bs) i = leafSlot m i := by
  rw [leafSlot, Memory.field_put_apart (by omega), Memory.field_put_apart (by omega),
    Memory.field_put_apart (by omega), Memory.field_put_apart (by omega), leafSlot]

theorem leafSlot_setField {off len value : Nat} (h : 8 * i + 8 ≤ off ∨ off + len ≤ 8 * i) :
    leafSlot (m.setField off len value) i = leafSlot m i :=
  leafSlot_put (by rwa [Wire.length_leBytes])

theorem leafSlot_moved (hlow : dst ≤ 8 * i) (hhigh : 8 * i + 8 ≤ dst + n) (hsrc : 8 * i - dst + src = 8 * j) :
    leafSlot (m.put dst (m.read src n)) i = leafSlot m j := by
  rw [leafSlot, Memory.field_moved hlow (by omega), Memory.field_moved (by omega) (by omega),
    Memory.field_moved (by omega) (by omega), Memory.field_moved (by omega) (by omega), leafSlot, hsrc,
    show 8 * i + 2 - dst + src = 8 * j + 2 by omega, show 8 * i + 4 - dst + src = 8 * j + 4 by omega,
    show 8 * i + 6 - dst + src = 8 * j + 6 by omega]

theorem leafSlot_lt (m : Memory) (i : Nat) :
    ((leafSlot m i).key.off < 2 ^ 16 ∧ (leafSlot m i).key.len < 2 ^ 16) ∧
      (leafSlot m i).val.off < 2 ^ 16 ∧ (leafSlot m i).val.len < 2 ^ 16 :=
  ⟨⟨m.field_lt _ 2, m.field_lt _ 2⟩, m.field_lt _ 2, m.field_lt _ 2⟩

theorem leafSlot_setKey {key : Piece} (hoff : key.off < 2 ^ 16) (hlen : key.len < 2 ^ 16) :
    leafSlot (setKey m i key) i = ⟨key, (leafSlot m i).val⟩ := by
  rw [leafSlot, setKey, Memory.field_setField_apart (by omega), Memory.field_setField hoff,
    Memory.field_setField hlen, Memory.field_setField_apart (by omega), Memory.field_setField_apart (by omega),
    Memory.field_setField_apart (by omega), Memory.field_setField_apart (by omega), leafSlot]

theorem leafSlot_setVal {val : Piece} (hoff : val.off < 2 ^ 16) (hlen : val.len < 2 ^ 16) :
    leafSlot (setVal m i val) i = ⟨(leafSlot m i).key, val⟩ := by
  rw [leafSlot, setVal, Memory.field_setField_apart (by omega), Memory.field_setField_apart (by omega),
    Memory.field_setField_apart (by omega), Memory.field_setField_apart (by omega),
    Memory.field_setField_apart (by omega), Memory.field_setField hoff, Memory.field_setField hlen, leafSlot]

theorem leafSlot_setKey_ne {key : Piece} (h : i ≠ j) : leafSlot (setKey m i key) j = leafSlot m j := by
  rw [setKey, leafSlot_setField (by omega), leafSlot_setField (by omega)]

theorem leafSlot_setVal_ne {val : Piece} (h : i ≠ j) : leafSlot (setVal m i val) j = leafSlot m j := by
  rw [setVal, leafSlot_setField (by omega), leafSlot_setField (by omega)]

theorem agree_setKey {low : Nat} {m' : Memory} (i : Nat) (key : Piece) (h : Memory.AgreeFrom low m m') (hlow : 8 * i + 8 ≤ low) :
    Memory.AgreeFrom low m (setKey m' i key) :=
  (h.setField (by omega)).setField (by omega)

theorem agree_setVal {low : Nat} {m' : Memory} (i : Nat) (val : Piece) (h : Memory.AgreeFrom low m m') (hlow : 8 * i + 8 ≤ low) :
    Memory.AgreeFrom low m (setVal m' i val) :=
  (h.setField (by omega)).setField (by omega)

def leafSlots (m : Memory) (count : Nat) : List LeafSlot := (List.range count).map (leafSlot m)

theorem length_leafSlots (m : Memory) (count : Nat) : (leafSlots m count).length = count := by
  rw [leafSlots, List.length_map, List.length_range]

theorem getElem_leafSlots {count : Nat} (h : i < (leafSlots m count).length) :
    (leafSlots m count)[i] = leafSlot m i := by
  simp [leafSlots]

end

/-! ### Entries -/

abbrev Entry := Bytes × Bytes

namespace LeafSlot

def pieces (s : LeafSlot) : List Piece := [s.key, s.val]

/-- The bytes of the slot are those of the entry. -/
def Holds (m : Memory) (s : LeafSlot) (e : Entry) : Prop := s.key.read m = e.1 ∧ s.val.read m = e.2

/-- The value was laid before the key. -/
def Above (s : LeafSlot) : Prop := s.key.len = 0 ∨ s.val.len = 0 ∨ s.key.off + s.key.len ≤ s.val.off

theorem Holds.key_len {m : Memory} {s : LeafSlot} {e : Entry} (h : s.Holds m e) : s.key.len = e.1.length := by
  rw [← h.1, Piece.read, Memory.length_read]

theorem Holds.val_len {m : Memory} {s : LeafSlot} {e : Entry} (h : s.Holds m e) : s.val.len = e.2.length := by
  rw [← h.2, Piece.read, Memory.length_read]

end LeafSlot

def pieces (ss : List LeafSlot) : List Piece := ss.flatMap LeafSlot.pieces

theorem mem_pieces {ss : List LeafSlot} {s : LeafSlot} (h : s ∈ ss) : s.key ∈ pieces ss ∧ s.val ∈ pieces ss :=
  ⟨List.mem_flatMap.mpr ⟨s, h, by simp [LeafSlot.pieces]⟩, List.mem_flatMap.mpr ⟨s, h, by simp [LeafSlot.pieces]⟩⟩

theorem pieces_perm {ss ss' : List LeafSlot} (h : ss.Perm ss') : (pieces ss).Perm (pieces ss') :=
  h.flatMap_right LeafSlot.pieces

/-- The bytes of the keys and values. -/
def entryBytes (es : List Entry) : Nat := (es.map fun e => e.1.length + e.2.length).sum

theorem entryBytes_perm {es es' : List Entry} (h : es.Perm es') : entryBytes es = entryBytes es' := by
  rw [entryBytes, entryBytes, (h.map _).sum_eq]

theorem entryBytes_cons (e : Entry) (es : List Entry) :
    entryBytes (e :: es) = e.1.length + e.2.length + entryBytes es := by
  rw [entryBytes, List.map_cons, List.sum_cons, entryBytes]

theorem entryBytes_append (es es' : List Entry) : entryBytes (es ++ es') = entryBytes es + entryBytes es' := by
  rw [entryBytes, List.map_append, List.sum_append, entryBytes, entryBytes]

/-- The page represents the entries: its slots name their bytes, which lie apart from each other between the slots
and the end of the page. -/
structure Represents (p : SlottedLeafPage) (es : List Entry) : Prop where
  size : p.pageSize < 2 ^ 16
  count : p.count = es.length
  slotEnd : p.slotEnd = 8 * p.count
  low : p.slotEnd ≤ p.dataLow
  room : p.dataLow + entryBytes es ≤ p.pageSize
  laid : Laid p.dataLow p.pageSize (pieces (leafSlots p.mem p.count))
  above : ∀ s ∈ leafSlots p.mem p.count, s.Above
  holds : List.Forall₂ (LeafSlot.Holds p.mem) (leafSlots p.mem p.count) es

/-- Slots keep their entries where the bytes of the area are the same. -/
theorem holds_within {low high : Nat} {m m' : Memory} {ss : List LeafSlot} {es : List Entry}
    (hlaid : Laid low high (pieces ss)) (hsame : ∀ a, low ≤ a → a < high → m' a = m a)
    (h : List.Forall₂ (LeafSlot.Holds m) ss es) : List.Forall₂ (LeafSlot.Holds m') ss es := by
  have hkept := forall₂_map_of_mem (f := id) (S := LeafSlot.Holds m') ?_ h
  · rwa [List.map_id] at hkept
  · intro s hs e he
    obtain ⟨hkey, hval⟩ := mem_pieces hs
    exact ⟨(hlaid.read_within hsame hkey).trans he.1, (hlaid.read_within hsame hval).trans he.2⟩

/-! ### Moves and copies within the page -/

section

variable {p : SlottedLeafPage} {m : Memory} {size dst src n : Nat} {bytes : Int} {bs : Bytes} {piece : Piece}

theorem moveIn_eq (hsize : size < 2 ^ 16) (hbytes : bytes = n) (hdst : dst + n ≤ size) (hsrc : src + n ≤ size) :
    moveIn size m dst src bytes = some (m.put dst (m.read src n)) := by
  have hn : byteCount bytes = n := by
    rw [hbytes, byteCount_natCast (by omega)]
  rw [moveIn, hn]
  exact if_pos ⟨hdst, hsrc⟩

theorem copyIn_eq (h : dst + bs.length ≤ size) : copyIn size m dst bs = some (m.put dst bs) := if_pos h

theorem bytesIn_eq (h : piece.off + piece.len ≤ size) : bytesIn size m piece = some (piece.read m) := if_pos h

/-- A move of a negative count leaves the page. -/
theorem moveIn_neg (hsize : size < 2 ^ 16) (hneg : bytes < 0) (hge : -2 ^ 63 ≤ bytes) :
    moveIn size m dst src bytes = none := by
  have hn := byteCount_of_neg hneg hge
  rw [moveIn]
  refine if_neg fun hfits => ?_
  omega

theorem memoryMove_eq (hsize : p.pageSize < 2 ^ 16) (hbytes : bytes = n) (hdst : dst + n ≤ p.pageSize)
    (hsrc : src + n ≤ p.pageSize) :
    p.memoryMove dst src bytes = some { p with mem := p.mem.put dst (p.mem.read src n) } := by
  rw [SlottedLeafPage.memoryMove, moveIn_eq hsize hbytes hdst hsrc]
  rfl

theorem memoryCopy_eq (h : dst + bs.length ≤ p.pageSize) :
    p.memoryCopy dst bs = some { p with mem := p.mem.put dst bs } := by
  rw [SlottedLeafPage.memoryCopy, copyIn_eq h]
  rfl

end

/-! ### A new entry -/

/-- The slot of an entry laid below `low`: the value first, and the key below it. -/
def slotBelow (low : Nat) (e : Entry) : LeafSlot :=
  ⟨⟨low - e.2.length - e.1.length, e.1.length⟩, ⟨low - e.2.length, e.2.length⟩⟩

/-- The memory after the bytes of an entry are laid and its slot is written. -/
def layMem (m : Memory) (low i : Nat) (e : Entry) : Memory :=
  setKey ((setVal (m.put (low - e.2.length) e.2) i (slotBelow low e).val).put (low - e.2.length - e.1.length) e.1) i
    (slotBelow low e).key

section

variable {m : Memory} {count low i j : Nat} {e : Entry}

theorem layMem_agree (hroom : 8 * (i + 1) + e.1.length + e.2.length ≤ low) :
    Memory.AgreeFrom low m (layMem m low i e) := by
  have hval : Memory.AgreeFrom low m (m.put (low - e.2.length) e.2) := (Memory.AgreeFrom.refl low m).put (by omega)
  have hslot := agree_setVal i (slotBelow low e).val hval (by omega)
  exact agree_setKey i _ (hslot.put (by omega)) (by omega)

theorem layMem_holds (hroom : 8 * (i + 1) + e.1.length + e.2.length ≤ low) :
    (slotBelow low e).Holds (layMem m low i e) e := by
  constructor
  · rw [Piece.read, layMem, setKey, slotBelow, Memory.read_setField (by dsimp only; omega),
      Memory.read_setField (by dsimp only; omega)]
    exact Memory.read_put_self _ _ e.1
  · rw [Piece.read, layMem, setKey, slotBelow, Memory.read_setField (by dsimp only; omega),
      Memory.read_setField (by dsimp only; omega), Memory.read_put_apart (by dsimp only; omega), setVal,
      Memory.read_setField (by dsimp only; omega), Memory.read_setField (by dsimp only; omega)]
    exact Memory.read_put_self _ _ e.2

theorem layMem_self (hroom : 8 * (i + 1) + e.1.length + e.2.length ≤ low) (hlow : low < 2 ^ 16) :
    leafSlot (layMem m low i e) i = slotBelow low e := by
  rw [layMem, slotBelow, leafSlot_setKey (by dsimp only; omega) (by dsimp only; omega), leafSlot_put (by omega),
    leafSlot_setVal (by dsimp only; omega) (by dsimp only; omega)]

theorem layMem_ne (hroom : 8 * (j + 1) + e.1.length + e.2.length ≤ low) (hij : i ≠ j) :
    leafSlot (layMem m low i e) j = leafSlot m j := by
  rw [layMem, leafSlot_setKey_ne hij, leafSlot_put (by omega), leafSlot_setVal_ne hij, leafSlot_put (by omega)]

/-- The memory after `place`. -/
def placedMem (m : Memory) (count low i : Nat) (e : Entry) : Memory :=
  layMem (m.put (8 * (i + 1)) (m.read (8 * i) (8 * (count - i)))) low i e

theorem placedMem_agree (hi : i ≤ count) (hroom : 8 * (count + 1) + e.1.length + e.2.length ≤ low) :
    Memory.AgreeFrom low m (placedMem m count low i e) := by
  have hmoved : Memory.AgreeFrom low m (m.put (8 * (i + 1)) (m.read (8 * i) (8 * (count - i)))) :=
    (Memory.AgreeFrom.refl low m).put (by rw [Memory.length_read]; omega)
  exact hmoved.trans (layMem_agree (by omega))

theorem placedMem_before (hroom : 8 * (count + 1) + e.1.length + e.2.length ≤ low) (hi : i ≤ count) (hj : j < i) :
    leafSlot (placedMem m count low i e) j = leafSlot m j := by
  rw [placedMem, layMem_ne (by omega) (by omega), leafSlot_put (by omega)]

theorem placedMem_after (hroom : 8 * (count + 1) + e.1.length + e.2.length ≤ low) (hij : i ≤ j) (hj : j < count) :
    leafSlot (placedMem m count low i e) (j + 1) = leafSlot m j := by
  rw [placedMem, layMem_ne (by omega) (by omega), leafSlot_moved (j := j) (by omega) (by omega) (by omega)]

theorem placedMem_slots (hroom : 8 * (count + 1) + e.1.length + e.2.length ≤ low) (hlow : low < 2 ^ 16) (hi : i ≤ count) :
    leafSlots (placedMem m count low i e) (count + 1) = (leafSlots m count).insertIdx i (slotBelow low e) := by
  rw [leafSlots, map_range_insertIdx hi (fun j hj => placedMem_before hroom hi hj)
    fun j hij hj => placedMem_after hroom hij hj, placedMem, layMem_self (by omega) hlow, leafSlots]

end

section

variable {p : SlottedLeafPage} {es : List Entry} {i : Nat} {k v : Bytes}

theorem place_eq (hsize : p.pageSize < 2 ^ 16) (hlow : p.dataLow ≤ p.pageSize) (hslotEnd : p.slotEnd = 8 * p.count)
    (hi : i ≤ p.count) (hroom : 8 * (p.count + 1) + k.length + v.length ≤ p.dataLow) :
    p.place i k v = some { p with
      mem := placedMem p.mem p.count p.dataLow i (k, v)
      count := p.count + 1
      slotEnd := p.slotEnd + 8
      dataLow := p.dataLow - v.length - k.length } := by
  have hmove : p.memoryMove (8 * (i + 1)) (8 * i) (((p.count : Int) - i) * leafSlotBytes) =
      some { p with mem := p.mem.put (8 * (i + 1)) (p.mem.read (8 * i) (8 * (p.count - i))) } :=
    memoryMove_eq hsize (by rw [leafSlotBytes]; omega) (by omega) (by omega)
  have hval : u16 ((p.dataLow : Int) - v.length) = p.dataLow - v.length := u16_sub (by omega) (by omega)
  have hkey : u16 (((p.dataLow - v.length : Nat) : Int) - k.length) = p.dataLow - v.length - k.length :=
    u16_sub (by omega) (by omega)
  have hend : u16 ((p.slotEnd : Int) + leafSlotBytes) = p.slotEnd + 8 := u16_add (by rw [leafSlotBytes]; omega)
  have hcount : u16 ((p.count : Int) + (1 : Nat)) = p.count + 1 := u16_add (by omega)
  rw [SlottedLeafPage.place, hmove]
  simp only [Option.bind_eq_bind, Option.bind_some, Option.pure_def, hval]
  rw [memoryCopy_eq (by dsimp only; omega)]
  simp only [Option.bind_some, hkey]
  rw [memoryCopy_eq (by dsimp only; omega)]
  simp only [Option.bind_some, hend]
  rw [show u16 ((p.count : Int) + 1) = p.count + 1 from hcount]
  rfl

/-- The new entry's bytes are laid below those of the others. -/
theorem Represents.place (h : Represents p es) (hi : i ≤ es.length)
    (hroom : p.slotEnd + 8 + k.length + v.length ≤ p.dataLow) :
    ∃ p', p.place i k v = some p' ∧ Represents p' (es.insertIdx i (k, v)) ∧
      p'.dataLow + entryBytes (es.insertIdx i (k, v)) = p.dataLow + entryBytes es ∧ p'.pageSize = p.pageSize := by
  have hcount := h.count
  have hend := h.slotEnd
  have hentries := h.room
  have hi' : i ≤ p.count := by omega
  have hroom' : 8 * (p.count + 1) + (k, v).1.length + (k, v).2.length ≤ p.dataLow := by
    dsimp only
    omega
  have hlow : p.dataLow < 2 ^ 16 := by
    have := h.size
    omega
  have hslots := placedMem_slots (m := p.mem) hroom' hlow hi'
  have hlen : i ≤ (leafSlots p.mem p.count).length := by rwa [length_leafSlots]
  have hperm := pieces_perm (List.perm_insertIdx (slotBelow p.dataLow (k, v)) (leafSlots p.mem p.count) hlen)
  have hbytes := entryBytes_perm (List.perm_insertIdx (k, v) es hi)
  rw [entryBytes_cons] at hbytes
  dsimp only at hroom' hbytes
  refine ⟨_, place_eq h.size (by omega) hend hi' hroom', ?_, by dsimp only; omega, rfl⟩
  constructor
  · exact h.size
  · dsimp only
    rw [List.length_insertIdx_of_le_length hi, hcount]
  · dsimp only
    omega
  · dsimp only
    omega
  · dsimp only
    omega
  · dsimp only
    rw [hslots]
    have hval := h.laid.alloc (by omega : v.length ≤ p.dataLow) (by omega)
    have hkey := hval.alloc (by omega : k.length ≤ p.dataLow - v.length) (by omega)
    exact hkey.perm hperm.symm
  · dsimp only
    rw [hslots]
    intro s hs
    rcases (List.mem_insertIdx hlen).mp hs with rfl | hs
    · refine .inr (.inr ?_)
      rw [slotBelow]
      dsimp only
      omega
    · exact h.above s hs
  · dsimp only
    rw [hslots]
    have hkept := holds_within h.laid (fun a ha _ => placedMem_agree (e := (k, v)) hi' hroom' a ha) h.holds
    exact forall₂_insertIdx hkept (layMem_holds (e := (k, v)) (by dsimp only; omega)) i

end

/-! ### A removed entry -/

def LeafSlot.shift (removed : Piece) (s : LeafSlot) : LeafSlot := ⟨removed.shift s.key, removed.shift s.val⟩

theorem pieces_map_shift (removed : Piece) (ss : List LeafSlot) :
    pieces (ss.map (LeafSlot.shift removed)) = (pieces ss).map removed.shift := by
  induction ss with
  | nil => rfl
  | cons s ss ih =>
      rw [pieces, List.map_cons, List.flatMap_cons, pieces, List.flatMap_cons, List.map_append]
      exact congrArg (_ ++ ·) ih

section

variable {m : Memory} {i j n off len : Nat}

theorem leafSlot_setKeyOff {value : Nat} (h : value < 2 ^ 16) :
    leafSlot (m.setField (8 * j) 2 value) j = ⟨⟨value, (leafSlot m j).key.len⟩, (leafSlot m j).val⟩ := by
  rw [leafSlot, Memory.field_setField h, Memory.field_setField_apart (by omega),
    Memory.field_setField_apart (by omega), Memory.field_setField_apart (by omega), leafSlot]

theorem leafSlot_setValOff {value : Nat} (h : value < 2 ^ 16) :
    leafSlot (m.setField (8 * j + 4) 2 value) j = ⟨(leafSlot m j).key, ⟨value, (leafSlot m j).val.len⟩⟩ := by
  rw [leafSlot, Memory.field_setField_apart (by omega), Memory.field_setField_apart (by omega),
    Memory.field_setField h, Memory.field_setField_apart (by omega), leafSlot]

theorem shiftOthers_agree (m : Memory) (i off len n : Nat) :
    Memory.AgreeFrom (8 * n) m (shiftOthers m i off len n) := by
  induction n with
  | zero => exact Memory.AgreeFrom.refl _ m
  | succ n ih =>
      have hprev := ih.mono (by omega : 8 * n ≤ 8 * (n + 1))
      rw [shiftOthers]
      dsimp only
      split_ifs
      · exact hprev
      · exact (hprev.setField (by omega)).setField (by omega)
      · exact hprev.setField (by omega)
      · exact hprev.setField (by omega)
      · exact hprev

/-- The fields that a turn of the loop writes. -/
theorem leafSlot_shifted (hfits : off + len < 2 ^ 16) :
    leafSlot (if (leafSlot m n).val.off < off then
        (if (leafSlot m n).key.off < off then m.setField (8 * n) 2 (u16 ((leafSlot m n).key.off + len)) else m).setField
          (8 * n + 4) 2 (u16 ((leafSlot m n).val.off + len))
      else if (leafSlot m n).key.off < off then m.setField (8 * n) 2 (u16 ((leafSlot m n).key.off + len)) else m) n
      = (leafSlot m n).shift ⟨off, len⟩ := by
  rw [LeafSlot.shift, Piece.shift, Piece.shift]
  dsimp only
  split_ifs with hval hkey hkey
  · rw [u16_add (by omega), u16_add (by omega), leafSlot_setValOff (by omega), leafSlot_setKeyOff (by omega)]
  · rw [u16_add (by omega), leafSlot_setValOff (by omega)]
  · rw [u16_add (by omega), leafSlot_setKeyOff (by omega)]
  · rfl

/-- One turn of the loop shifts one slot. -/
theorem shiftOthers_succ (hfits : off + len < 2 ^ 16) (j : Nat) :
    leafSlot (shiftOthers m i off len (n + 1)) j
      = if j = n ∧ n ≠ i then (leafSlot (shiftOthers m i off len n) n).shift ⟨off, len⟩
        else leafSlot (shiftOthers m i off len n) j := by
  rw [shiftOthers]
  dsimp only
  generalize shiftOthers m i off len n = m
  by_cases hni : n = i
  · rw [if_pos hni, if_neg fun h => h.2 hni]
  · rw [if_neg hni]
    by_cases hj : j = n
    · subst hj
      exact (leafSlot_shifted hfits).trans (if_pos ⟨rfl, hni⟩).symm
    · refine Eq.trans ?_ (if_neg fun h => hj h.1).symm
      split_ifs
      · rw [leafSlot_setField (by omega), leafSlot_setField (by omega)]
      · rw [leafSlot_setField (by omega)]
      · rw [leafSlot_setField (by omega)]
      · rfl

theorem shiftOthers_slot (hfits : off + len < 2 ^ 16) (j : Nat) :
    leafSlot (shiftOthers m i off len n) j
      = if j < n ∧ j ≠ i then (leafSlot m j).shift ⟨off, len⟩ else leafSlot m j := by
  induction n generalizing j with
  | zero => rw [shiftOthers, if_neg fun h => Nat.not_lt_zero j h.1]
  | succ n ih =>
      rw [shiftOthers_succ hfits, ih, ih]
      by_cases hj : j = n
      · subst hj
        by_cases hji : j = i
        · simp [hji]
        · simp [hji]
      · have hlt : j < n + 1 ↔ j < n := by omega
        simp [hj, hlt]

/-- The memory after the bytes of a piece are gone. -/
def gapMem (m : Memory) (low count i : Nat) (r : Piece) : Memory :=
  shiftOthers (Laid.closeGap low r m) i r.off r.len count

theorem gapMem_agree (m : Memory) (low count i : Nat) (r : Piece) :
    Memory.AgreeFrom (8 * count) (Laid.closeGap low r m) (gapMem m low count i r) :=
  shiftOthers_agree _ i r.off r.len count

theorem gapMem_slot {low count : Nat} {r : Piece} (hlow : 8 * count ≤ low) (hfits : r.off + r.len < 2 ^ 16)
    (hj : j < count) :
    leafSlot (gapMem m low count i r) j = if j = i then leafSlot m j else (leafSlot m j).shift r := by
  rw [gapMem, shiftOthers_slot hfits, Laid.closeGap, leafSlot_put (by omega)]
  by_cases hji : j = i
  · rw [if_neg fun h => h.2 hji, if_pos hji]
  · rw [if_pos ⟨hj, hji⟩, if_neg hji]

end

section

variable {p : SlottedLeafPage} {es : List Entry} {i : Nat} {r : Piece}

theorem closeGap_eq (hsize : p.pageSize < 2 ^ 16) (hrlow : p.dataLow ≤ r.off) (hrhigh : r.off + r.len ≤ p.pageSize) :
    p.closeGap i r = some { p with
      mem := gapMem p.mem p.dataLow p.count i r
      dataLow := p.dataLow + r.len } := by
  have hmove : p.memoryMove (p.dataLow + r.len) p.dataLow ((r.off : Int) - p.dataLow) =
      some { p with mem := p.mem.put (p.dataLow + r.len) (p.mem.read p.dataLow (r.off - p.dataLow)) } :=
    memoryMove_eq hsize (by omega) (by omega) (by omega)
  have hlow : u16 ((p.dataLow : Int) + r.len) = p.dataLow + r.len := u16_add (by omega)
  rw [SlottedLeafPage.closeGap, hmove]
  simp only [Option.bind_eq_bind, Option.bind_some, Option.pure_def, hlow]
  rfl

/-- The two moves of `remove` have room: neither piece of the entry lies below the bytes that are in use when it
goes. Only a piece without bytes can. -/
def Removable (p : SlottedLeafPage) (i : Nat) : Prop :=
  p.dataLow ≤ (leafSlot p.mem i).key.off ∧
    p.dataLow + (leafSlot p.mem i).key.len ≤ (leafSlot p.mem i).val.off

instance (p : SlottedLeafPage) (i : Nat) : Decidable (Removable p i) := inferInstanceAs (Decidable (_ ∧ _))

/-- The gap of a piece below the bytes in use cannot be closed. -/
theorem closeGap_none (hsize : p.pageSize < 2 ^ 16) (hlow : p.dataLow ≤ p.pageSize) (hroff : r.off < p.dataLow) :
    p.closeGap i r = none := by
  rw [SlottedLeafPage.closeGap, SlottedLeafPage.memoryMove, moveIn_neg hsize (by omega) (by omega)]
  rfl

/-- Without its own two pieces, the pieces of a page stay laid when the first gap is closed, and so does the second
piece, which is not shifted. -/
theorem laid_after_key {low high : Nat} {s : LeafSlot} {ps : List Piece} (h : Laid low high (s.key :: s.val :: ps))
    (habove : s.Above) : Laid (low + s.key.len) high (s.val :: ps.map s.key.shift) := by
  have hshifted := h.shift
  rw [List.map_cons] at hshifted
  obtain ⟨⟨hvhigh, hvlow, hv⟩, hps⟩ := Laid.cons_iff.mp hshifted
  have hval := (Laid.cons_iff.mp (Laid.cons_iff.mp h).2).1
  rcases habove with hlen | hlen | hoff
  · rwa [Piece.shift_of_empty hlen] at hshifted
  · exact Laid.cons_iff.mpr ⟨⟨hval.1, .inl hlen, fun _ _ => .inl hlen⟩, hps⟩
  · rwa [Piece.shift_of_ge (by omega)] at hshifted

theorem LeafSlot.Above.shift {s : LeafSlot} (h : s.Above) (hkey : r.Apart s.key) (hval : r.Apart s.val) :
    (s.shift r).Above := by
  rcases Nat.eq_zero_or_pos s.key.len with hk | hk
  · exact .inl hk
  rcases Nat.eq_zero_or_pos s.val.len with hv | hv
  · exact .inr (.inl hv)
  rcases h with h | h | h
  · exact .inl h
  · exact .inr (.inl h)
  · exact .inr (.inr (Piece.shift_below hkey hval hk hv h))

/-- The slot of an entry that stays, when the two gaps are closed. -/
def LeafSlot.shiftBoth (removed s : LeafSlot) : LeafSlot := (s.shift removed.key).shift removed.val

theorem pieces_shiftBoth (removed : LeafSlot) (ss : List LeafSlot) :
    pieces (ss.map removed.shiftBoth) = ((pieces ss).map removed.key.shift).map removed.val.shift := by
  rw [← pieces_map_shift, ← pieces_map_shift, List.map_map]
  rfl

/-- The memory after `remove`. -/
def removedMem (m : Memory) (low count i : Nat) : Memory :=
  let s := leafSlot m i
  let m := gapMem (gapMem m low count i s.key) (low + s.key.len) count i s.val
  m.put (8 * i) (m.read (8 * (i + 1)) (8 * (count - i - 1)))

theorem removedMem_slots {m : Memory} (low : Nat) {high count : Nat} (hi : i < count) (hlow : 8 * count ≤ low)
    (hhigh : high < 2 ^ 16) (hkey : (leafSlot m i).key.off + (leafSlot m i).key.len ≤ high)
    (hval : (leafSlot m i).val.off + (leafSlot m i).val.len ≤ high) :
    leafSlots (removedMem m low count i) (count - 1)
      = ((leafSlots m count).eraseIdx i).map (leafSlot m i).shiftBoth := by
  have hslot : ∀ j < count, j ≠ i →
      leafSlot (gapMem (gapMem m low count i (leafSlot m i).key) (low + (leafSlot m i).key.len) count i
        (leafSlot m i).val) j = (leafSlot m i).shiftBoth (leafSlot m j) := by
    intro j hj hji
    rw [gapMem_slot (by omega) (by omega) hj, if_neg hji, gapMem_slot hlow (by omega) hj, if_neg hji,
      LeafSlot.shiftBoth]
  have herase := map_range_eraseIdx (f := fun j => (leafSlot m i).shiftBoth (leafSlot m j))
    (g := leafSlot (removedMem m low count i)) hi ?_ ?_
  · rw [leafSlots, herase, List.eraseIdx_map, leafSlots, List.eraseIdx_map, List.map_map]
    rfl
  · intro j hj
    rw [removedMem, leafSlot_put (by omega), hslot j (by omega) (by omega)]
  · intro j hij hj
    rw [removedMem, leafSlot_moved (j := j + 1) (by omega) (by omega) (by omega), hslot (j + 1) hj (by omega)]

theorem remove_eq {m : Memory} (hm : p.mem = m) (hsize : p.pageSize < 2 ^ 16) (hi : i < p.count)
    (hslotEnd : p.slotEnd = 8 * p.count) (hlow : p.slotEnd ≤ p.dataLow) (hremovable : Removable p i)
    (hkey : (leafSlot m i).key.off + (leafSlot m i).key.len ≤ p.pageSize)
    (hval : (leafSlot m i).val.off + (leafSlot m i).val.len ≤ p.pageSize) :
    p.remove i = some { p with
      mem := removedMem m p.dataLow p.count i
      count := p.count - 1
      slotEnd := p.slotEnd - 8
      dataLow := p.dataLow + (leafSlot m i).key.len + (leafSlot m i).val.len } := by
  subst hm
  obtain ⟨hklow, hvlow⟩ := hremovable
  have hslot : leafSlot (gapMem p.mem p.dataLow p.count i (leafSlot p.mem i).key) i = leafSlot p.mem i := by
    rw [gapMem_slot (by omega) (by omega) hi, if_pos rfl]
  have hend : u16 ((p.slotEnd : Int) - leafSlotBytes) = p.slotEnd - 8 := u16_sub (by rw [leafSlotBytes]; omega) (by omega)
  have hcount : u16 ((p.count : Int) - (1 : Nat)) = p.count - 1 := u16_sub (by omega) (by omega)
  have hsecond := closeGap_eq (i := i) (r := (leafSlot p.mem i).val)
    (p := { p with
      mem := gapMem p.mem p.dataLow p.count i (leafSlot p.mem i).key
      dataLow := p.dataLow + (leafSlot p.mem i).key.len }) hsize hvlow hval
  rw [SlottedLeafPage.remove, closeGap_eq hsize hklow hkey]
  simp only [Option.bind_eq_bind, Option.bind_some, Option.pure_def, hslot]
  rw [hsecond]
  simp only [Option.bind_some]
  rw [memoryMove_eq (n := 8 * (p.count - i - 1)) (by exact hsize) (by rw [leafSlotBytes]; omega) (by dsimp only; omega)
    (by dsimp only; omega)]
  simp only [Option.bind_some, hend]
  rw [show u16 ((p.count : Int) - 1) = p.count - 1 from hcount]
  rfl

/-- What stays is read where it stands after both gaps are closed. -/
theorem read_removedMem {m : Memory} {low high count : Nat} {ps : List Piece} {q : Piece} (hlow : 8 * count ≤ low)
    (hi : i < count) (hlaid : Laid low high ((leafSlot m i).key :: (leafSlot m i).val :: ps))
    (hlaid' : Laid (low + (leafSlot m i).key.len) high ((leafSlot m i).val :: ps.map (leafSlot m i).key.shift))
    (hkey : low ≤ (leafSlot m i).key.off) (hval : low + (leafSlot m i).key.len ≤ (leafSlot m i).val.off) (hq : q ∈ ps) :
    ((leafSlot m i).val.shift ((leafSlot m i).key.shift q)).read (removedMem m low count i) = q.read m := by
  have hq' : (leafSlot m i).key.shift q ∈ ps.map (leafSlot m i).key.shift := List.mem_map_of_mem hq
  have hq'' := List.mem_map_of_mem (f := (leafSlot m i).val.shift) hq'
  have hfirst := gapMem_agree m low count i (leafSlot m i).key
  have hsecond := gapMem_agree (gapMem m low count i (leafSlot m i).key) (low + (leafSlot m i).key.len) count i
    (leafSlot m i).val
  have hthird := hsecond.put (by rw [Memory.length_read]; omega : 8 * i + ((gapMem (gapMem m low count i (leafSlot m i).key)
    (low + (leafSlot m i).key.len) count i (leafSlot m i).val).read (8 * (i + 1)) (8 * (count - i - 1))).length ≤ _)
  have hlaid'' := hlaid'.shift
  calc ((leafSlot m i).val.shift ((leafSlot m i).key.shift q)).read (removedMem m low count i)
      = ((leafSlot m i).val.shift ((leafSlot m i).key.shift q)).read
          (Laid.closeGap (low + (leafSlot m i).key.len) (leafSlot m i).val (gapMem m low count i (leafSlot m i).key)) :=
        hlaid''.read_agree (hthird.mono (by omega)) hq''
    _ = ((leafSlot m i).key.shift q).read (gapMem m low count i (leafSlot m i).key) := hlaid'.read_shift hval hq'
    _ = ((leafSlot m i).key.shift q).read (Laid.closeGap low (leafSlot m i).key m) :=
        (Laid.cons_iff.mp hlaid').2.read_agree (hfirst.mono (by omega)) hq'
    _ = q.read m := hlaid.read_shift hkey (List.mem_cons_of_mem _ hq)

/-- The entry goes and its bytes are free again. -/
theorem Represents.remove (h : Represents p es) (hi : i < es.length) (hremovable : Removable p i) :
    ∃ p', p.remove i = some p' ∧ Represents p' (es.eraseIdx i) ∧
      p'.dataLow + entryBytes (es.eraseIdx i) = p.dataLow + entryBytes es ∧ p'.pageSize = p.pageSize := by
  have hcount := h.count
  have hend := h.slotEnd
  have hlow := h.low
  have hsize := h.size
  have hi' : i < p.count := by omega
  have hlen : i < (leafSlots p.mem p.count).length := by rwa [length_leafSlots]
  have hslot := getElem_leafSlots hlen
  have hholds : (leafSlot p.mem i).Holds p.mem es[i] := by
    rw [← hslot]
    exact h.holds.get hlen hi
  have habove : (leafSlot p.mem i).Above := by
    rw [← hslot]
    exact h.above _ (List.getElem_mem hlen)
  have hperm := List.getElem_cons_eraseIdx_perm hlen
  rw [hslot] at hperm
  have hlaid : Laid p.dataLow p.pageSize ((leafSlot p.mem i).key :: (leafSlot p.mem i).val ::
      pieces ((leafSlots p.mem p.count).eraseIdx i)) := h.laid.perm (pieces_perm hperm).symm
  have hlaid' := laid_after_key hlaid habove
  have hlaid'' := hlaid'.shift
  have hkey := (Laid.cons_iff.mp hlaid).1.1
  have hval := (Laid.cons_iff.mp (Laid.cons_iff.mp hlaid).2).1.1
  have hbytes := entryBytes_perm (List.getElem_cons_eraseIdx_perm hi)
  rw [entryBytes_cons, ← hholds.key_len, ← hholds.val_len] at hbytes
  have hroom := h.room
  have hslots := removedMem_slots p.dataLow hi' (by omega) hsize hkey hval
  refine ⟨_, remove_eq rfl hsize hi' hend hlow hremovable hkey hval, ?_, by dsimp only; omega, rfl⟩
  constructor
  · exact hsize
  · dsimp only
    rw [List.length_eraseIdx_of_lt hi, hcount]
  · dsimp only
    omega
  · dsimp only
    omega
  · dsimp only
    omega
  · dsimp only
    rw [hslots, pieces_shiftBoth]
    exact hlaid''
  · dsimp only
    rw [hslots]
    intro s' hs'
    obtain ⟨s, hs, rfl⟩ := List.mem_map.mp hs'
    obtain ⟨hkmem, hvmem⟩ := mem_pieces hs
    have hapart := (Laid.cons_iff.mp hlaid).1.2.2
    have hapart' := (Laid.cons_iff.mp hlaid').1.2.2
    have hfirst := (h.above s (List.mem_of_mem_eraseIdx hs)).shift (hapart _ (List.mem_cons_of_mem _ hkmem))
      (hapart _ (List.mem_cons_of_mem _ hvmem))
    exact hfirst.shift (hapart' _ (List.mem_map_of_mem hkmem)) (hapart' _ (List.mem_map_of_mem hvmem))
  · dsimp only
    rw [hslots]
    refine forall₂_map_of_mem (fun s hs e he => ?_) (forall₂_eraseIdx h.holds i)
    obtain ⟨hkmem, hvmem⟩ := mem_pieces hs
    constructor
    · exact (read_removedMem (by omega) hi' hlaid hlaid' hremovable.1 hremovable.2 hkmem).trans he.1
    · exact (read_removedMem (by omega) hi' hlaid hlaid' hremovable.1 hremovable.2 hvmem).trans he.2

end

section

variable {p : SlottedLeafPage} {es : List Entry} {i : Nat}

/-- A removal that is carried out had room for its moves. -/
theorem Represents.removable (h : Represents p es) (hi : i < es.length) (hsome : (p.remove i).isSome = true) :
    Removable p i := by
  have hsize := h.size
  have hcount := h.count
  have hlow := h.low
  have hend := h.slotEnd
  have hroom := h.room
  have hlen : i < (leafSlots p.mem p.count).length := by rw [length_leafSlots]; omega
  have hpieces := mem_pieces (List.getElem_mem hlen)
  rw [getElem_leafSlots hlen] at hpieces
  have hkey := h.laid.high _ hpieces.1
  by_contra hnot
  rw [SlottedLeafPage.remove] at hsome
  rcases Nat.lt_or_ge (leafSlot p.mem i).key.off p.dataLow with hklow | hklow
  · rw [closeGap_none hsize (by omega) hklow] at hsome
    exact Bool.noConfusion hsome
  · have hslot : leafSlot (gapMem p.mem p.dataLow p.count i (leafSlot p.mem i).key) i = leafSlot p.mem i := by
      rw [gapMem_slot (by omega) (by omega) (by omega), if_pos rfl]
    rw [closeGap_eq hsize hklow hkey] at hsome
    simp only [Option.bind_eq_bind, Option.bind_some, hslot] at hsome
    rw [closeGap_none (by exact hsize) (by dsimp only; omega)
      (by dsimp only; exact Nat.lt_of_not_le fun hvlow => hnot ⟨hklow, hvlow⟩)] at hsome
    exact Bool.noConfusion hsome

end

/-! ### Entries laid one below the other -/

/-- The slots hold the entries in a memory, whose bytes from `low` to `high` are exactly theirs. -/
structure Stacked (m : Memory) (low high : Nat) (ss : List LeafSlot) (es : List Entry) : Prop where
  laid : Laid low high (pieces ss)
  above : ∀ s ∈ ss, s.Above
  holds : List.Forall₂ (LeafSlot.Holds m) ss es
  full : low + entryBytes es = high

theorem stacked_nil (m : Memory) (high : Nat) : Stacked m high high [] [] :=
  ⟨Laid.nil high high, fun _ hs => absurd hs List.not_mem_nil, .nil, rfl⟩

section

variable {m m' : Memory} {low high : Nat} {ss : List LeafSlot} {es : List Entry} {e : Entry}

theorem Stacked.within (h : Stacked m low high ss es) (m' : Memory) (hsame : ∀ a, low ≤ a → a < high → m' a = m a) :
    Stacked m' low high ss es :=
  ⟨h.laid, h.above, holds_within h.laid hsame h.holds, h.full⟩

theorem Stacked.lay (h : Stacked m low high ss es) (hroom : e.1.length + e.2.length ≤ low)
    (hagree : Memory.AgreeFrom low m m') (hnew : (slotBelow low e).Holds m' e) :
    Stacked m' (low - e.2.length - e.1.length) high (ss ++ [slotBelow low e]) (es ++ [e]) := by
  have hfull := h.full
  have hperm := pieces_perm (List.perm_append_singleton (slotBelow low e) ss)
  refine ⟨?_, ?_, ?_, ?_⟩
  · have hval := h.laid.alloc (by omega : e.2.length ≤ low) (by omega)
    have hkey := hval.alloc (by omega : e.1.length ≤ low - e.2.length) (by omega)
    exact hkey.perm hperm.symm
  · refine forall_mem_append_singleton h.above (.inr (.inr ?_))
    rw [slotBelow]
    dsimp only
    omega
  · exact List.rel_append (holds_within h.laid (fun a ha _ => hagree a ha) h.holds) (.cons hnew .nil)
  · rw [entryBytes_append, entryBytes_cons]
    have hnil : entryBytes [] = 0 := rfl
    omega

end

theorem leafSlots_succ (m : Memory) (n : Nat) : leafSlots m (n + 1) = leafSlots m n ++ [leafSlot m n] := by
  rw [leafSlots, List.range_succ, List.map_append, leafSlots]
  rfl

theorem leafSlots_congr {m m' : Memory} {n : Nat} (h : ∀ j < n, leafSlot m' j = leafSlot m j) :
    leafSlots m' n = leafSlots m n :=
  List.map_congr_left fun j hj => h j (List.mem_range.mp hj)

/-! ### Compaction -/

theorem slotBelow_holds (m : Memory) {low : Nat} {e : Entry} (hroom : e.1.length + e.2.length ≤ low) :
    (slotBelow low e).Holds ((m.put (low - e.2.length) e.2).put (low - e.2.length - e.1.length) e.1) e := by
  constructor
  · exact Memory.read_put_self _ _ e.1
  · rw [Piece.read, slotBelow, Memory.read_put_apart (by dsimp only; omega)]
    exact Memory.read_put_self _ _ e.2

theorem put_put_agree (m : Memory) {low : Nat} {e : Entry} (hroom : e.1.length + e.2.length ≤ low) :
    Memory.AgreeFrom low m ((m.put (low - e.2.length) e.2).put (low - e.2.length - e.1.length) e.1) :=
  ((Memory.AgreeFrom.refl low m).put (by omega)).put (by omega)

theorem entryBytes_take_drop (es : List Entry) (i : Nat) :
    entryBytes (es.take i) + entryBytes (es.drop i) = entryBytes es := by
  rw [← entryBytes_append, List.take_append_drop]

theorem entryBytes_drop {es : List Entry} {i : Nat} (hi : i < es.length) :
    entryBytes (es.drop i) = es[i].1.length + es[i].2.length + entryBytes (es.drop (i + 1)) := by
  rw [List.drop_eq_getElem_cons hi, entryBytes_cons]

/-- How far the loop of `compact` has come: the slots in front name the staged bytes, those behind are as they
were. -/
structure Packed (p : SlottedLeafPage) (es : List Entry) (m staging : Memory) (writePos i : Nat) : Prop where
  agree : Memory.AgreeFrom (8 * p.count) p.mem m
  rest : ∀ j, i ≤ j → j < p.count → leafSlot m j = leafSlot p.mem j
  stacked : Stacked staging writePos p.pageSize (leafSlots m i) (es.take i)

section

variable {p : SlottedLeafPage} {es : List Entry} {m staging : Memory} {writePos i : Nat}

/-- The slot of an entry of a page, and what is read through it. -/
theorem Represents.slot (h : Represents p es) (hi : i < es.length) :
    (leafSlot p.mem i).Holds p.mem es[i] ∧
      (leafSlot p.mem i).key ∈ pieces (leafSlots p.mem p.count) ∧
      (leafSlot p.mem i).val ∈ pieces (leafSlots p.mem p.count) := by
  have hlen : i < (leafSlots p.mem p.count).length := by rwa [length_leafSlots, h.count]
  rw [← getElem_leafSlots hlen]
  exact ⟨h.holds.get hlen hi, mem_pieces (List.getElem_mem hlen)⟩

/-- The bytes of an entry can be copied from a page whose slots alone were changed. -/
theorem Represents.bytesAt (h : Represents p es) (hi : i < es.length)
    (hagree : Memory.AgreeFrom (8 * p.count) p.mem m) :
    SlottedLeafPage.bytesAt { p with mem := m } (leafSlot p.mem i).key = some es[i].1 ∧
      SlottedLeafPage.bytesAt { p with mem := m } (leafSlot p.mem i).val = some es[i].2 := by
  obtain ⟨hholds, hkey, hval⟩ := h.slot hi
  have hlow : 8 * p.count ≤ p.dataLow := h.slotEnd ▸ h.low
  have hagree' := hagree.mono hlow
  constructor
  · rw [SlottedLeafPage.bytesAt, bytesIn_eq (h.laid.high _ hkey), h.laid.read_agree hagree' hkey, hholds.1]
  · rw [SlottedLeafPage.bytesAt, bytesIn_eq (h.laid.high _ hval), h.laid.read_agree hagree' hval, hholds.2]

theorem Packed.step (h : Represents p es) (hpacked : Packed p es m staging writePos i) (hi : i < es.length)
    (left : Nat) :
    ∃ m' staging' writePos', Packed p es m' staging' writePos' (i + 1) ∧
      SlottedLeafPage.packFrom { p with mem := m } staging writePos (left + 1) i
        = SlottedLeafPage.packFrom { p with mem := m' } staging' writePos' left (i + 1) := by
  have hcount := h.count
  have hend := h.slotEnd
  have hlow := h.low
  have hroom := h.room
  have hsize := h.size
  have hfull := hpacked.stacked.full
  have hsplit := entryBytes_take_drop es i
  have hdrop := entryBytes_drop hi
  have hi' : i < p.count := by omega
  obtain ⟨hholds, -, -⟩ := h.slot hi
  have hslot := hpacked.rest i le_rfl hi'
  have hvalPos : u16 ((writePos : Int) - es[i].2.length) = writePos - es[i].2.length := u16_sub (by omega) (by omega)
  have hkeyPos : u16 (((writePos - es[i].2.length : Nat) : Int) - es[i].1.length)
      = writePos - es[i].2.length - es[i].1.length := u16_sub (by omega) (by omega)
  have hagree := agree_setVal i (slotBelow writePos es[i]).val hpacked.agree (by omega)
  have hagree' := agree_setKey i (slotBelow writePos es[i]).key hagree (by omega)
  have hbytesVal := (h.bytesAt hi hpacked.agree).2
  have hbytesKey := (h.bytesAt hi hagree).1
  refine ⟨setKey (setVal m i (slotBelow writePos es[i]).val) i (slotBelow writePos es[i]).key,
    (staging.put (writePos - es[i].2.length) es[i].2).put (writePos - es[i].2.length - es[i].1.length) es[i].1,
    writePos - es[i].2.length - es[i].1.length, ⟨hagree', ?_, ?_⟩, ?_⟩
  · intro j hij hj
    rw [leafSlot_setKey_ne (by omega), leafSlot_setVal_ne (by omega), hpacked.rest j (by omega) hj]
  · have hself : leafSlot (setKey (setVal m i (slotBelow writePos es[i]).val) i (slotBelow writePos es[i]).key) i
        = slotBelow writePos es[i] := by
      rw [leafSlot_setKey (by rw [slotBelow]; dsimp only; omega) (by rw [slotBelow]; dsimp only; omega),
        leafSlot_setVal (by rw [slotBelow]; dsimp only; omega) (by rw [slotBelow]; dsimp only; omega)]
    have hfront : leafSlots (setKey (setVal m i (slotBelow writePos es[i]).val) i (slotBelow writePos es[i]).key) i
        = leafSlots m i := by
      refine leafSlots_congr fun j hj => ?_
      rw [leafSlot_setKey_ne (by omega), leafSlot_setVal_ne (by omega)]
    rw [leafSlots_succ, hself, hfront, List.take_succ_eq_append_getElem hi]
    exact hpacked.stacked.lay (by omega) (put_put_agree staging (by omega)) (slotBelow_holds staging (by omega))
  · rw [SlottedLeafPage.packFrom]
    simp only [hslot, hholds.val_len, hholds.key_len, hvalPos, hbytesVal, Option.bind_eq_bind, Option.bind_some]
    rw [guard, if_pos (by omega)]
    simp only [Option.pure_def, Option.bind_some, hkeyPos]
    rw [slotBelow] at hbytesKey ⊢
    dsimp only at hbytesKey ⊢
    rw [hbytesKey]
    simp only [Option.bind_some]
    rw [guard, if_pos (by omega)]
    rfl

theorem Represents.packFrom (h : Represents p es) (hpacked : Packed p es m staging writePos i) {left : Nat}
    (hleft : i + left = es.length) :
    ∃ m' staging' writePos', Packed p es m' staging' writePos' es.length ∧
      SlottedLeafPage.packFrom { p with mem := m } staging writePos left i
        = some ({ p with mem := m' }, staging', writePos') := by
  induction left generalizing m staging writePos i with
  | zero =>
      obtain rfl : i = es.length := hleft
      exact ⟨m, staging, writePos, hpacked, rfl⟩
  | succ left ih =>
      obtain ⟨m', staging', writePos', hpacked', heq⟩ := hpacked.step h (by omega) left
      obtain ⟨m'', staging'', writePos'', hpacked'', heq'⟩ := ih hpacked' (by omega)
      exact ⟨m'', staging'', writePos'', hpacked'', heq.trans heq'⟩

/-- Compaction keeps the entries, and leaves no byte of the area unused. -/
theorem Represents.compact (h : Represents p es) (staging : Memory) :
    ∃ p', p.compact staging = some p' ∧ Represents p' es ∧ p'.dataLow + entryBytes es = p'.pageSize ∧
      p'.pageSize = p.pageSize ∧ p'.slotEnd = p.slotEnd := by
  have hcount := h.count
  have hend := h.slotEnd
  have hlow := h.low
  have hroom := h.room
  have hsize := h.size
  have hstart : Packed p es p.mem staging p.pageSize 0 :=
    ⟨Memory.AgreeFrom.refl _ _, fun _ _ _ => rfl, stacked_nil staging p.pageSize⟩
  obtain ⟨m', staging', writePos', ⟨hagree, -, hstacked⟩, heq⟩ := h.packFrom hstart (Nat.zero_add es.length)
  rw [List.take_length] at hstacked
  have hfull := hstacked.full
  have hbytes : byteCount ((p.pageSize : Int) - writePos') = p.pageSize - writePos' := by
    rw [← Nat.cast_sub (by omega), byteCount_natCast (by omega)]
  have hslots : leafSlots (m'.put writePos' (staging'.read writePos' (p.pageSize - writePos'))) es.length
      = leafSlots m' es.length := by
    refine leafSlots_congr fun j hj => ?_
    rw [leafSlot_put (by omega)]
  have hfinal := hstacked.within (m'.put writePos' (staging'.read writePos' (p.pageSize - writePos')))
    fun a hlow hhigh => by
      rw [Memory.put, if_pos (by rw [Memory.length_read]; omega), Memory.getD_read (by omega)]
      congr 1
      omega
  refine ⟨{ p with
      mem := m'.put writePos' (staging'.read writePos' (p.pageSize - writePos'))
      dataLow := writePos' }, ?_, ?_, hfull, rfl, rfl⟩
  · rw [SlottedLeafPage.compact, hcount, heq]
    simp only [Option.bind_eq_bind, Option.bind_some, hbytes]
    rw [memoryCopy_eq (by rw [Memory.length_read]; dsimp only; omega)]
    simp only [Option.bind_some, Option.pure_def, hcount]
  · constructor
    · exact hsize
    · exact hcount
    · exact hend
    · dsimp only
      omega
    · exact hfull.le
    · dsimp only
      rw [hcount, hslots]
      exact hfinal.laid
    · dsimp only
      rw [hcount, hslots]
      exact hfinal.above
    · dsimp only
      rw [hcount, hslots]
      exact hfinal.holds

end

/-! ### Insertion -/

/-- The slots and the bytes of the entries have room in a page. -/
def Fits (pageSize : Nat) (es : List Entry) : Prop := 8 * es.length + entryBytes es ≤ pageSize

instance (pageSize : Nat) (es : List Entry) : Decidable (Fits pageSize es) := inferInstanceAs (Decidable (_ ≤ _))

/-- No byte of the area is unused: all that was removed can be used again. -/
def Tight (p : SlottedLeafPage) (es : List Entry) : Prop := p.dataLow + entryBytes es = p.pageSize

section

variable {p : SlottedLeafPage} {es : List Entry} {i : Nat} {k v : Bytes}

theorem Represents.freeSpace (h : Represents p es) : p.freeSpace = p.dataLow - p.slotEnd := by
  have hsize := h.size
  have hroom := h.room
  exact u16_sub h.low (by omega)

theorem needed_eq (hlen : leafSlotBytes + k.length + v.length < 2 ^ 16) :
    SlottedLeafPage.needed k v = 8 + k.length + v.length := by
  rw [SlottedLeafPage.needed, u16]
  rw [leafSlotBytes] at *
  omega

/-- An insertion fails only when the entry does not fit after compaction, and changes no entry then. -/
theorem Represents.insert (h : Represents p es) (staging : Memory) (hi : i ≤ es.length)
    (hlen : leafSlotBytes + k.length + v.length < 2 ^ 16) :
    ∃ p', p.insert staging i k v = some (p', decide (Fits p.pageSize (es.insertIdx i (k, v)))) ∧
      Represents p' (if Fits p.pageSize (es.insertIdx i (k, v)) then es.insertIdx i (k, v) else es) ∧
      (Tight p es → Tight p' (if Fits p.pageSize (es.insertIdx i (k, v)) then es.insertIdx i (k, v) else es)) ∧
      p'.pageSize = p.pageSize := by
  have hcount := h.count
  have hend := h.slotEnd
  have hroom := h.room
  have hlow := h.low
  have hbytes := entryBytes_perm (List.perm_insertIdx (k, v) es hi)
  rw [entryBytes_cons] at hbytes
  have hfits : Fits p.pageSize (es.insertIdx i (k, v)) ↔
      8 * es.length + entryBytes es + (8 + k.length + v.length) ≤ p.pageSize := by
    rw [Fits, hbytes, List.length_insertIdx_of_le_length hi]
    dsimp only
    omega
  rw [SlottedLeafPage.insert, h.freeSpace, needed_eq hlen]
  split_ifs with hfull hyes hyes
  · obtain ⟨q, hq, hrep, htight, hpage, hslotEnd⟩ := h.compact staging
    have hqlow := hrep.low
    obtain ⟨p', hp', hrep', htight', hpage'⟩ := hrep.place (k := k) (v := v) hi (by rw [hfits] at hyes; omega)
    refine ⟨p', ?_, hrep', ?_, hpage'.trans hpage⟩
    · rw [hq]
      simp only [Option.bind_eq_bind, Option.bind_some]
      rw [hrep.freeSpace, if_neg (by rw [hfits] at hyes; omega), hp', decide_eq_true hyes]
      rfl
    · intro _
      rw [Tight]
      omega
  · obtain ⟨q, hq, hrep, htight, hpage, hslotEnd⟩ := h.compact staging
    have hqlow := hrep.low
    refine ⟨q, ?_, hrep, fun _ => htight, hpage⟩
    rw [hq]
    simp only [Option.bind_eq_bind, Option.bind_some]
    rw [hrep.freeSpace, if_pos (by rw [hfits] at hyes; omega), decide_eq_false hyes]
    rfl
  · obtain ⟨p', hp', hrep', htight', hpage'⟩ := h.place (k := k) (v := v) hi (by omega)
    refine ⟨p', ?_, hrep', ?_, hpage'⟩
    · rw [hp', decide_eq_true hyes]
      rfl
    · intro htight
      rw [Tight] at htight ⊢
      omega
  · exact absurd (hfits.mpr (by omega)) hyes

/-- An entry that is too long for a `U16` fails when not even the remainder of its length has room. -/
theorem Represents.insert_long (h : Represents p es) (htight : Tight p es) (staging : Memory) (hi : i ≤ es.length)
    (hlong : 2 ^ 16 ≤ leafSlotBytes + k.length + v.length) (hfree : p.freeSpace < SlottedLeafPage.needed k v) :
    ∃ p', p.insert staging i k v = some (p', decide (Fits p.pageSize (es.insertIdx i (k, v)))) ∧
      ¬ Fits p.pageSize (es.insertIdx i (k, v)) ∧ Represents p' es ∧ Tight p' es ∧ p'.pageSize = p.pageSize := by
  have hsize := h.size
  have hbytes := entryBytes_perm (List.perm_insertIdx (k, v) es hi)
  rw [entryBytes_cons] at hbytes
  have hfits : ¬ Fits p.pageSize (es.insertIdx i (k, v)) := by
    rw [Fits, hbytes, List.length_insertIdx_of_le_length hi]
    rw [leafSlotBytes] at hlong
    dsimp only
    omega
  obtain ⟨q, hq, hrep, hqtight, hpage, hslotEnd⟩ := h.compact staging
  have hlow : q.dataLow = p.dataLow := by
    rw [Tight] at htight
    omega
  refine ⟨q, ?_, hfits, hrep, hqtight, hpage⟩
  have hqfree : q.freeSpace = p.freeSpace := by rw [hrep.freeSpace, h.freeSpace, hlow, hslotEnd]
  rw [SlottedLeafPage.insert, if_pos hfree, hq]
  simp only [Option.bind_eq_bind, Option.bind_some]
  rw [hqfree, if_pos hfree, decide_eq_false hfits]
  rfl

end

/-! ### Copies of a suffix -/

section

variable {src dst : SlottedLeafPage} {es : List Entry} {start i : Nat} {m : Memory} {low : Nat}

theorem copyFrom_step (h : Represents src es) (hsize : dst.pageSize = src.pageSize)
    (hstacked : Stacked m low src.pageSize (leafSlots m i) ((es.drop start).take i)) (hi : start + i < es.length)
    (left : Nat) :
    ∃ m' low', Stacked m' low' src.pageSize (leafSlots m' (i + 1)) ((es.drop start).take (i + 1)) ∧
      SlottedLeafPage.copyFrom src { dst with mem := m, dataLow := low } start (left + 1) i
        = SlottedLeafPage.copyFrom src { dst with mem := m', dataLow := low' } start left (i + 1) := by
  have hcount := h.count
  have hend := h.slotEnd
  have hlow := h.low
  have hroom := h.room
  have hpage := h.size
  have hfull := hstacked.full
  have hi' : i < (es.drop start).length := by
    rw [List.length_drop]
    omega
  have hsplit := entryBytes_take_drop es start
  have hsplit' := entryBytes_take_drop (es.drop start) i
  have hdrop := entryBytes_drop hi'
  obtain ⟨hholds, -, -⟩ := h.slot hi
  have hentry : (es.drop start)[i] = es[start + i] := List.getElem_drop ..
  rw [hentry] at hdrop
  obtain ⟨hkey, hval⟩ := h.bytesAt hi (Memory.AgreeFrom.refl _ src.mem)
  have hvalPos : u16 ((low : Int) - es[start + i].2.length) = low - es[start + i].2.length :=
    u16_sub (by omega) (by omega)
  have hkeyPos : u16 (((low - es[start + i].2.length : Nat) : Int) - es[start + i].1.length)
      = low - es[start + i].2.length - es[start + i].1.length := u16_sub (by omega) (by omega)
  refine ⟨layMem m low i es[start + i], low - es[start + i].2.length - es[start + i].1.length, ?_, ?_⟩
  · have hfront : leafSlots (layMem m low i es[start + i]) i = leafSlots m i :=
      leafSlots_congr fun j hj => layMem_ne (by omega) (by omega)
    rw [leafSlots_succ, hfront, layMem_self (by omega) (by omega), List.take_succ_eq_append_getElem hi', hentry]
    exact hstacked.lay (by omega) (layMem_agree (by omega)) (layMem_holds (by omega))
  · rw [SlottedLeafPage.copyFrom]
    simp only [hholds.val_len, hholds.key_len, hvalPos, Option.bind_eq_bind]
    rw [show src.bytesAt (leafSlot src.mem (start + i)).val = some es[start + i].2 from hval]
    simp only [Option.bind_some]
    rw [memoryCopy_eq (by dsimp only; omega)]
    simp only [Option.bind_some, hkeyPos]
    rw [show src.bytesAt (leafSlot src.mem (start + i)).key = some es[start + i].1 from hkey]
    simp only [Option.bind_some]
    rw [memoryCopy_eq (by dsimp only; omega)]
    rfl

theorem copyFrom_eq (h : Represents src es) (hsize : dst.pageSize = src.pageSize)
    (hstacked : Stacked m low src.pageSize (leafSlots m i) ((es.drop start).take i)) (left : Nat)
    (hleft : start + i + left = es.length) :
    ∃ m' low', Stacked m' low' src.pageSize (leafSlots m' (i + left)) (es.drop start) ∧
      SlottedLeafPage.copyFrom src { dst with mem := m, dataLow := low } start left i
        = some { dst with mem := m', dataLow := low' } := by
  induction left generalizing m low i with
  | zero =>
      rw [List.take_of_length_le (by rw [List.length_drop]; omega)] at hstacked
      exact ⟨m, low, hstacked, rfl⟩
  | succ left ih =>
      obtain ⟨m', low', hstacked', heq⟩ := copyFrom_step h hsize hstacked (by omega) left
      obtain ⟨m'', low'', hstacked'', heq'⟩ := ih hstacked' (by omega)
      rw [show i + 1 + left = i + (left + 1) by omega] at hstacked''
      exact ⟨m'', low'', hstacked'', heq.trans heq'⟩

/-- An empty page takes over the entries from an index on. -/
theorem Represents.copySuffixTo (h : Represents src es) (hdst : Represents dst []) (htight : Tight dst [])
    (hsize : dst.pageSize = src.pageSize) (hstart : start ≤ es.length) :
    ∃ dst', src.copySuffixTo start dst = some dst' ∧ Represents dst' (es.drop start) ∧ Tight dst' (es.drop start) ∧
      dst'.pageSize = dst.pageSize := by
  have hcount := h.count
  have hend := h.slotEnd
  have hlow := h.low
  have hroom := h.room
  have hpage := h.size
  have hdcount : dst.count = 0 := hdst.count
  have hdend := hdst.slotEnd
  have hdlow : dst.dataLow = dst.pageSize := htight
  have hn : u16 ((src.count : Int) - start) = es.length - start := by
    rw [hcount]
    exact u16_sub hstart (by omega)
  have hslotEnd : u16 ((dst.slotEnd : Int) + ((es.length - start : Nat) : Int) * leafSlotBytes)
      = 8 * (es.length - start) := by
    rw [u16, leafSlotBytes]
    omega
  have hstacked : Stacked dst.mem dst.dataLow src.pageSize (leafSlots dst.mem 0) ((es.drop start).take 0) := by
    rw [hdlow, hsize]
    exact stacked_nil dst.mem src.pageSize
  obtain ⟨m', low', hfinal, heq⟩ := copyFrom_eq h hsize hstacked (es.length - start) (by omega)
  rw [Nat.zero_add] at hfinal
  have hfull := hfinal.full
  have hsplit := entryBytes_take_drop es start
  refine ⟨{ dst with mem := m', dataLow := low', slotEnd := 8 * (es.length - start), count := es.length - start },
    ?_, ?_, ?_, rfl⟩
  · rw [SlottedLeafPage.copySuffixTo]
    simp only [hn, Option.bind_eq_bind]
    rw [show SlottedLeafPage.copyFrom src dst start (es.length - start) 0 = _ from heq]
    simp only [Option.bind_some, Option.pure_def, hslotEnd]
  · constructor
    · exact hsize ▸ hpage
    · exact (List.length_drop ..).symm
    · rfl
    · dsimp only
      omega
    · dsimp only
      omega
    · dsimp only
      rw [hsize]
      exact hfinal.laid
    · exact hfinal.above
    · exact hfinal.holds
  · rw [Tight, hsize]
    exact hfull

end

end Plexdb.Slots
