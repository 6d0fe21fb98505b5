import Mathlib
import Plexdb.SlottedInternalArea

/-! What the operations of a slotted internal page do to its keys and children. -/

namespace Plexdb.Slots.SlottedInternalPage

open ByteArea

def keys (p : SlottedInternalPage) : List Bytes := keysIn p.mem p.count

/-- One more than the keys. -/
def children (p : SlottedInternalPage) : List Nat := refsIn p.mem p.usable (p.count + 1)

/-- The keys of the page lie apart from each other between its slots and its children. -/
structure Keyed (p : SlottedInternalPage) : Prop where
  size : p.pageSize < 2 ^ 16
  region : 8 * p.maxChildren ≤ p.pageSize
  slotEnd : p.slotEnd = 4 * p.count
  area : KeyArea p.mem p.dataLow p.usable p.count

/-- The children too have room. -/
structure Valid (p : SlottedInternalPage) : Prop extends Keyed p where
  spare : p.count + 1 ≤ p.maxChildren

/-- An operation on the keys leaves the children where they are. -/
structure SameRegion (p p' : SlottedInternalPage) : Prop where
  size : p'.pageSize = p.pageSize
  maxChildren : p'.maxChildren = p.maxChildren
  agree : Memory.AgreeFrom p.usable p.mem p'.mem

section

variable {p p' p'' : SlottedInternalPage} {m : Memory} {dst src n i j : Nat} {bytes : Int} {bs k : Bytes} {r : Piece}

@[simp] theorem length_keys (p : SlottedInternalPage) : p.keys.length = p.count := length_keysIn _ _

@[simp] theorem length_children (p : SlottedInternalPage) : p.children.length = p.count + 1 := by
  rw [children, refsIn, List.length_map, List.length_range]

theorem usable_eq (hsize : p.pageSize < 2 ^ 16) (hregion : 8 * p.maxChildren ≤ p.pageSize) :
    p.usable = p.pageSize - 8 * p.maxChildren := by
  have hbytes : u16 ((p.maxChildren : Int) * nodeRefBytes) = 8 * p.maxChildren := by
    rw [u16, nodeRefBytes]
    omega
  rw [usable, hbytes]
  exact u16_sub hregion hsize

theorem SameRegion.refl (p : SlottedInternalPage) : SameRegion p p := ⟨rfl, rfl, Memory.AgreeFrom.refl _ _⟩

theorem SameRegion.usable (h : SameRegion p p') : p'.usable = p.usable := by
  rw [SlottedInternalPage.usable, h.size, h.maxChildren, SlottedInternalPage.usable]

theorem SameRegion.trans (h : SameRegion p p') (h' : SameRegion p' p'') : SameRegion p p'' :=
  ⟨h'.size.trans h.size, h'.maxChildren.trans h.maxChildren, h.agree.trans (h.usable ▸ h'.agree)⟩

theorem SameRegion.children (h : SameRegion p p') (hcount : p'.count = p.count) : p'.children = p.children := by
  rw [SlottedInternalPage.children, hcount, h.usable, refsIn_agree h.agree, SlottedInternalPage.children]

theorem Keyed.usable_le (h : Keyed p) : p.usable + 8 * p.maxChildren = p.pageSize := by
  have hregion := h.region
  have := usable_eq h.size hregion
  omega

/-! ### Moves and copies -/

theorem memoryMove_eq (hsize : p.pageSize < 2 ^ 16) (hbytes : bytes = n) (hdst : dst + n ≤ p.pageSize)
    (hsrc : src + n ≤ p.pageSize) :
    p.memoryMove dst src bytes = some { p with mem := p.mem.put dst (p.mem.read src n) } := by
  rw [memoryMove, moveIn_eq hsize hbytes hdst hsrc]
  rfl

theorem memoryCopy_eq (h : dst + bs.length ≤ p.pageSize) :
    p.memoryCopy dst bs = some { p with mem := p.mem.put dst bs } := by
  rw [memoryCopy, copyIn_eq h]
  rfl

theorem lay_eq (hsize : p.pageSize < 2 ^ 16) (hlow : p.dataLow ≤ p.pageSize) (hlen : k.length ≤ p.dataLow) :
    p.lay i k = some { p with mem := layMem p.mem p.dataLow i k, dataLow := p.dataLow - k.length } := by
  have hpos : u16 ((p.dataLow : Int) - k.length) = p.dataLow - k.length := u16_sub hlen (by omega)
  rw [lay]
  simp only [hpos, Option.bind_eq_bind]
  rw [memoryCopy_eq (by dsimp only; omega)]
  rfl

theorem closeGap_eq (hsize : p.pageSize < 2 ^ 16) (hrlow : p.dataLow ≤ r.off) (hrhigh : r.off + r.len ≤ p.pageSize) :
    p.closeGap r = some { p with
      mem := gapMem p.mem p.dataLow p.count r
      dataLow := p.dataLow + r.len } := by
  have hmove : p.memoryMove (p.dataLow + r.len) p.dataLow ((r.off : Int) - p.dataLow) =
      some { p with mem := p.mem.put (p.dataLow + r.len) (p.mem.read p.dataLow (r.off - p.dataLow)) } :=
    memoryMove_eq hsize (by omega) (by omega) (by omega)
  have hlow : u16 ((p.dataLow : Int) + r.len) = p.dataLow + r.len := u16_add (by omega)
  rw [closeGap, hmove]
  simp only [Option.bind_eq_bind, Option.bind_some, Option.pure_def, hlow]
  rfl

/-- The gap of a key below the bytes in use cannot be closed. -/
theorem closeGap_none (hsize : p.pageSize < 2 ^ 16) (hlow : p.dataLow ≤ p.pageSize) (hroff : r.off < p.dataLow) :
    p.closeGap r = none := by
  rw [closeGap, memoryMove, moveIn_neg hsize (by omega) (by omega)]
  rfl

end

/-! ### Compaction -/

/-- The slots name bytes of the page outside the directory, which have room together. The slot whose key was just
removed may name bytes of others. -/
structure Readable (p : SlottedInternalPage) : Prop where
  size : p.pageSize < 2 ^ 16
  region : 8 * p.maxChildren ≤ p.pageSize
  slotEnd : p.slotEnd = 4 * p.count
  high : ∀ j < p.count, (internalSlot p.mem j).off + (internalSlot p.mem j).len ≤ p.pageSize
  below : ∀ j < p.count, (internalSlot p.mem j).len = 0 ∨ 4 * p.count ≤ (internalSlot p.mem j).off
  room : 4 * p.count + keyBytes p.keys ≤ p.usable

/-- How far the loop of `compact` has come: the slots in front name the staged bytes, those behind are as they
were. -/
structure Packed (p : SlottedInternalPage) (m staging : Memory) (writePos i : Nat) : Prop where
  agree : Memory.AgreeFrom (4 * p.count) p.mem m
  rest : ∀ j, i ≤ j → j < p.count → internalSlot m j = internalSlot p.mem j
  laid : Laid writePos p.usable (slots m i)
  reads : ∀ j < i, (internalSlot m j).read staging = keyIn p.mem j
  full : writePos + keyBytes (keysIn p.mem i) = p.usable

theorem keyBytes_succ (m : Memory) (i : Nat) :
    keyBytes (keysIn m (i + 1)) = keyBytes (keysIn m i) + (internalSlot m i).len := by
  rw [keysIn_succ, keyBytes_append, keyBytes_cons, length_keyIn]
  rfl

theorem keyBytes_mono (m : Memory) {i n : Nat} (h : i ≤ n) : keyBytes (keysIn m i) ≤ keyBytes (keysIn m n) := by
  induction n, h using Nat.le_induction with
  | base => exact le_rfl
  | succ n _ ih =>
      rw [keyBytes_succ]
      omega

section

variable {p : SlottedInternalPage} {m staging : Memory} {writePos i : Nat}

theorem Keyed.readable (h : Keyed p) : Readable p := by
  have hbelow := h.area.below
  have hroom := h.area.room
  have husable := h.usable_le
  have hkeys : keyBytes p.keys = keyBytes (keysIn p.mem p.count) := rfl
  refine ⟨h.size, h.region, h.slotEnd, fun j hj => ?_, fun j hj => ?_, by omega⟩
  · have := h.area.key_high hj
    omega
  · exact (h.area.laid.low _ (mem_slots hj)).imp_right hbelow.trans

theorem Packed.step (h : Readable p) (hpacked : Packed p m staging writePos i) (hi : i < p.count) (left : Nat) :
    ∃ m' staging' writePos', Packed p m' staging' writePos' (i + 1) ∧
      packFrom { p with mem := m } staging writePos (left + 1) i
        = packFrom { p with mem := m' } staging' writePos' left (i + 1) := by
  have hfull := hpacked.full
  have hroom := h.room
  have hsize := h.size
  have husable := usable_eq hsize h.region
  have hbytes := keyBytes_succ p.mem i
  have hmono : keyBytes (keysIn p.mem (i + 1)) ≤ keyBytes p.keys := keyBytes_mono p.mem hi
  have hslot := hpacked.rest i le_rfl hi
  have hread : (internalSlot p.mem i).read m = keyIn p.mem i := by
    refine Memory.read_congr fun a ha => ?_
    rcases h.below i hi with hlen | hbelow
    · omega
    · exact hpacked.agree _ (by omega)
  have hbytesIn : bytesIn p.pageSize m (internalSlot p.mem i) = some (keyIn p.mem i) := by
    rw [bytesIn_eq (h.high i hi), hread]
  have hpos : u16 ((writePos : Int) - (internalSlot p.mem i).len) = writePos - (internalSlot p.mem i).len :=
    u16_sub (by omega) (by omega)
  have hself : internalSlot (setSlot m i ⟨writePos - (internalSlot p.mem i).len, (internalSlot p.mem i).len⟩) i
      = ⟨writePos - (internalSlot p.mem i).len, (internalSlot p.mem i).len⟩ :=
    internalSlot_setSlot (by dsimp only; omega) (by dsimp only; omega)
  have hother : ∀ j, j ≠ i → internalSlot
      (setSlot m i ⟨writePos - (internalSlot p.mem i).len, (internalSlot p.mem i).len⟩) j = internalSlot m j :=
    fun j hji => internalSlot_setSlot_ne hji.symm
  refine ⟨setSlot m i ⟨writePos - (internalSlot p.mem i).len, (internalSlot p.mem i).len⟩,
    staging.put (writePos - (internalSlot p.mem i).len) (keyIn p.mem i), writePos - (internalSlot p.mem i).len,
    ⟨?_, ?_, ?_, ?_, ?_⟩, ?_⟩
  · exact agree_setSlot hpacked.agree (by omega)
  · intro j hij hj
    rw [hother j (by omega), hpacked.rest j (by omega) hj]
  · rw [slots_succ, hself, slots_congr fun j hj => hother j (by omega)]
    exact (hpacked.laid.alloc (by omega) (by omega)).perm (List.perm_append_singleton _ _).symm
  · intro j hj
    rcases Nat.lt_or_ge j i with hji | hji
    · have hagree : Memory.AgreeFrom writePos staging
          (staging.put (writePos - (internalSlot p.mem i).len) (keyIn p.mem i)) :=
        (Memory.AgreeFrom.refl _ _).put (by rw [length_keyIn]; omega)
      rw [hother j (by omega), hpacked.laid.read_agree hagree (mem_slots hji), hpacked.reads j hji]
    · obtain rfl : j = i := by omega
      have hput := Memory.read_put_self staging (writePos - (internalSlot p.mem j).len) (keyIn p.mem j)
      rw [length_keyIn] at hput
      rw [hself]
      exact hput
  · omega
  · rw [packFrom]
    simp only [hslot, hpos, hbytesIn, Option.bind_eq_bind, Option.bind_some]
    rw [show SlottedInternalPage.usable { p with mem := m } = p.usable from rfl,
      copyIn_eq (by rw [length_keyIn]; omega)]
    rfl

theorem Readable.packFrom (h : Readable p) (hpacked : Packed p m staging writePos i) {left : Nat}
    (hleft : i + left = p.count) :
    ∃ m' staging' writePos', Packed p m' staging' writePos' p.count ∧
      SlottedInternalPage.packFrom { p with mem := m } staging writePos left i
        = some ({ p with mem := m' }, staging', writePos') := by
  induction left generalizing m staging writePos i with
  | zero =>
      obtain rfl : i = p.count := hleft
      exact ⟨m, staging, writePos, hpacked, rfl⟩
  | succ left ih =>
      obtain ⟨m', staging', writePos', hpacked', heq⟩ := hpacked.step h (by omega) left
      obtain ⟨m'', staging'', writePos'', hpacked'', heq'⟩ := ih hpacked' (by omega)
      exact ⟨m'', staging'', writePos'', hpacked'', heq.trans heq'⟩

/-- Compaction keeps the keys, and leaves no byte of their area unused. -/
theorem Readable.compact (h : Readable p) (staging : Memory) :
    ∃ p', p.compact staging = some p' ∧ Keyed p' ∧ p'.keys = p.keys ∧ p'.count = p.count ∧
      p'.dataLow + keyBytes p.keys = p.usable ∧ SameRegion p p' := by
  have hroom := h.room
  have hsize := h.size
  have husable := usable_eq hsize h.region
  have hstart : Packed p p.mem staging p.usable 0 :=
    ⟨Memory.AgreeFrom.refl _ _, fun _ _ _ => rfl, Laid.nil _ _, fun j hj => absurd hj (Nat.not_lt_zero j), rfl⟩
  obtain ⟨m', staging', writePos', ⟨hagree, -, hlaid, hreads, hfull⟩, heq⟩ := h.packFrom hstart (Nat.zero_add _)
  have hfull' : writePos' + keyBytes p.keys = p.usable := hfull
  have hbytes : byteCount ((p.usable : Int) - writePos') = p.usable - writePos' := by
    rw [← Nat.cast_sub (by omega), byteCount_natCast (by omega)]
  have hslot : ∀ j < p.count,
      internalSlot (m'.put writePos' (staging'.read writePos' (p.usable - writePos'))) j = internalSlot m' j :=
    fun j hj => internalSlot_put (by omega)
  have hcopied : ∀ a, writePos' ≤ a → a < p.usable →
      m'.put writePos' (staging'.read writePos' (p.usable - writePos')) a = staging' a := by
    intro a hlow hhigh
    rw [Memory.put, if_pos (by rw [Memory.length_read]; omega), Memory.getD_read (by omega)]
    congr 1
    omega
  have hkeys : keysIn (m'.put writePos' (staging'.read writePos' (p.usable - writePos'))) p.count = p.keys := by
    refine keysIn_congr fun j hj => ?_
    rw [keyIn, hslot j hj, hlaid.read_within hcopied (mem_slots hj), hreads j hj]
  refine ⟨{ p with
      mem := m'.put writePos' (staging'.read writePos' (p.usable - writePos'))
      dataLow := writePos' }, ?_, ?_, hkeys, rfl, hfull', rfl, rfl, ?_⟩
  · rw [SlottedInternalPage.compact, show p.packFrom staging p.usable p.count 0 = _ from heq]
    simp only [Option.bind_eq_bind, Option.bind_some]
    rw [show SlottedInternalPage.usable { p with mem := m' } = p.usable from rfl, hbytes,
      memoryCopy_eq (by rw [Memory.length_read]; dsimp only; omega)]
    rfl
  · refine ⟨hsize, h.region, h.slotEnd, by dsimp only; omega, ?_, ?_⟩
    · exact (congrArg (writePos' + keyBytes ·) hkeys).trans_le hfull'.le
    · dsimp only
      rw [slots_congr hslot]
      exact hlaid
  · exact (hagree.mono (by omega)).put (by rw [Memory.length_read]; omega)

end

/-! ### Insertion -/

section

variable {p : SlottedInternalPage} {m : Memory} {i c ref : Nat} {k : Bytes}

theorem Keyed.freeSpace (h : Keyed p) : p.freeSpace = p.dataLow - 4 * p.count := by
  have hbelow := h.area.below
  have hroom := h.area.room
  have hsize := h.size
  have husable := h.usable_le
  rw [SlottedInternalPage.freeSpace, h.slotEnd]
  exact u16_sub hbelow (by omega)

theorem place_eq (h : Keyed p) (hi : i ≤ p.count) (hroom : 4 * (p.count + 1) + k.length ≤ p.dataLow) :
    p.place i k = some { p with
      mem := layMem (openMem p.mem p.count i) p.dataLow i k
      count := p.count + 1
      slotEnd := p.slotEnd + 4
      dataLow := p.dataLow - k.length } := by
  have hsize := h.size
  have hend := h.slotEnd
  have hlow := h.area.room
  have husable := h.usable_le
  have hmove : p.memoryMove (4 * (i + 1)) (4 * i) (((p.count : Int) - i) * internalSlotBytes) =
      some { p with mem := p.mem.put (4 * (i + 1)) (p.mem.read (4 * i) (4 * (p.count - i))) } :=
    memoryMove_eq hsize (by rw [internalSlotBytes]; omega) (by omega) (by omega)
  have hslotEnd : u16 ((p.slotEnd : Int) + internalSlotBytes) = p.slotEnd + 4 := u16_add (by rw [internalSlotBytes]; omega)
  have hcount : u16 ((p.count : Int) + (1 : Nat)) = p.count + 1 := u16_add (by omega)
  rw [place, hmove]
  simp only [Option.bind_eq_bind, Option.bind_some, Option.pure_def]
  rw [lay_eq (by exact hsize) (by dsimp only; omega) (by dsimp only; omega)]
  simp only [Option.bind_some, hslotEnd]
  rw [show u16 ((p.count : Int) + 1) = p.count + 1 from hcount]
  rfl

/-- The new key's bytes are laid below those of the others. -/
theorem Keyed.place (h : Keyed p) (hi : i ≤ p.count) (hroom : 4 * (p.count + 1) + k.length ≤ p.dataLow) :
    ∃ p', p.place i k = some p' ∧ Keyed p' ∧ p'.keys = p.keys.insertIdx i k ∧ p'.count = p.count + 1 ∧
      SameRegion p p' := by
  have hend := h.slotEnd
  have hlow := h.area.room
  have husable := h.usable_le
  have hsize := h.size
  obtain ⟨hvacant, hopened⟩ := h.area.openSlot hi (by omega : 4 * (p.count + 1) ≤ p.dataLow)
  obtain ⟨harea, hkeys⟩ := hvacant.lay (k := k) (by omega) (by omega) (by omega) hroom
  refine ⟨_, place_eq h hi hroom, ⟨hsize, h.region, ?_, harea⟩, ?_, rfl, rfl, rfl, ?_⟩
  · dsimp only
    omega
  · rw [keys, hkeys, hopened, set_insertIdx_self]
    rfl
  · have hagree := (openMem_agree (m := p.mem) hi (by omega : 4 * (p.count + 1) ≤ p.dataLow)).trans
      (layMem_agree (i := i) (k := k) (by omega) (by omega))
    exact hagree.mono (by omega)

theorem needed_eq (hlen : internalSlotBytes + k.length < 2 ^ 16) : needed k = 4 + k.length := by
  rw [needed, u16]
  rw [internalSlotBytes] at *
  omega

/-- The key and its slot have room after compaction. -/
def FitsKey (p : SlottedInternalPage) (k : Bytes) : Prop := 4 * p.count + keyBytes p.keys + needed k ≤ p.usable

instance (p : SlottedInternalPage) (k : Bytes) : Decidable (FitsKey p k) := inferInstanceAs (Decidable (_ ≤ _))

theorem Keyed.insertKey_fails (h : Keyed p) (staging : Memory) (i : Nat) (hfull : ¬ FitsKey p k) :
    ∃ p', p.insertKey staging i k = some (p', false) ∧ Keyed p' ∧ p'.keys = p.keys ∧ p'.count = p.count ∧
      SameRegion p p' := by
  have hbelow := h.area.below
  have hroom : p.dataLow + keyBytes p.keys ≤ p.usable := h.area.room
  obtain ⟨q, hq, hkeyed, hkeys, hcount, hlow, hregion⟩ := h.readable.compact staging
  refine ⟨q, ?_, hkeyed, hkeys, hcount, hregion⟩
  rw [FitsKey] at hfull
  rw [insertKey, h.freeSpace, if_pos (by omega), hq]
  simp only [Option.bind_eq_bind, Option.bind_some]
  rw [hkeyed.freeSpace, hcount, if_pos (by omega)]
  rfl

theorem Keyed.insertKey (h : Keyed p) (staging : Memory) (hi : i ≤ p.count)
    (hlen : internalSlotBytes + k.length < 2 ^ 16) (hfits : FitsKey p k) :
    ∃ p', p.insertKey staging i k = some (p', true) ∧ Keyed p' ∧ p'.keys = p.keys.insertIdx i k ∧
      p'.count = p.count + 1 ∧ SameRegion p p' := by
  have hbelow := h.area.below
  rw [FitsKey, needed_eq hlen] at hfits
  rw [SlottedInternalPage.insertKey, h.freeSpace, needed_eq hlen]
  split_ifs with hfull
  · obtain ⟨q, hq, hkeyed, hkeys, hcount, hlow, hregion⟩ := h.readable.compact staging
    obtain ⟨p', hp', hkeyed', hkeys', hcount', hregion'⟩ := hkeyed.place (k := k) (hi.trans_eq hcount.symm)
      (by omega)
    refine ⟨p', ?_, hkeyed', ?_, ?_, hregion.trans hregion'⟩
    · rw [hq]
      simp only [Option.bind_eq_bind, Option.bind_some]
      rw [hkeyed.freeSpace, hcount, if_neg (by omega), hp']
      rfl
    · rw [hkeys', hkeys]
    · rw [hcount', hcount]
  · obtain ⟨p', hp', hplaced⟩ := h.place (k := k) hi (by omega)
    refine ⟨p', ?_, hplaced⟩
    rw [hp']
    rfl

/-- An insertion that reports failure has not placed the key. -/
theorem Keyed.insertKey_false (h : Keyed p) {staging : Memory} {p' : SlottedInternalPage}
    (hfails : p.insertKey staging i k = some (p', false)) : ¬ FitsKey p k := by
  intro hfits
  obtain ⟨q, hq, hkeyed, hkeys, hcount, hlow, hregion⟩ := h.readable.compact staging
  rw [FitsKey] at hfits
  rw [SlottedInternalPage.insertKey] at hfails
  split_ifs at hfails
  · rw [hq] at hfails
    simp only [Option.bind_eq_bind, Option.bind_some] at hfails
    rw [hkeyed.freeSpace, hcount, if_neg (by omega)] at hfails
    obtain ⟨r, -, hr⟩ := Option.bind_eq_some_iff.mp hfails
    cases hr
  · obtain ⟨r, -, hr⟩ := Option.bind_eq_some_iff.mp hfails
    cases hr

/-! ### Children -/

/-- Writes within the children leave the keys. -/
theorem Keyed.childrenOnly (h : Keyed p) (hsame : ∀ a < p.usable, m a = p.mem a) :
    Keyed { p with mem := m } ∧ keys { p with mem := m } = p.keys := by
  obtain ⟨harea, hkeys⟩ := h.area.within _ hsame
  exact ⟨⟨h.size, h.region, h.slotEnd, harea⟩, hkeys⟩

/-- The children before the new one stay, the others move up; the count is already the new one. -/
theorem insertChild_eq (h : Keyed p) (hspare : p.count + 1 ≤ p.maxChildren) (hc : c ≤ p.count) :
    p.insertChild c ref = some { p with mem := childMem p.mem p.usable p.count c ref } := by
  have husable := h.usable_le
  have hmove : p.memoryMove (p.usable + nodeRefBytes * (c + 1)) (p.usable + nodeRefBytes * c)
      (((p.count : Int) - c) * nodeRefBytes) =
      some { p with
        mem := p.mem.put (p.usable + nodeRefBytes * (c + 1))
          (p.mem.read (p.usable + nodeRefBytes * c) (nodeRefBytes * (p.count - c))) } :=
    memoryMove_eq h.size (by rw [nodeRefBytes]; omega) (by rw [nodeRefBytes]; omega) (by rw [nodeRefBytes]; omega)
  rw [insertChild, hmove]
  rfl

/-- A new key with a child. -/
theorem Keyed.insert (h : Keyed p) (staging : Memory) (hi : i ≤ p.count) (hc : c ≤ p.count + 1)
    (hlen : internalSlotBytes + k.length < 2 ^ 16) (hfits : FitsKey p k) (hspare : p.count + 2 ≤ p.maxChildren)
    (href : ref < 256 ^ nodeRefBytes) :
    ∃ q p', p.insertKey staging i k = some (q, true) ∧ q.insertChild c ref = some p' ∧ Valid p' ∧
      p'.keys = p.keys.insertIdx i k ∧ p'.children = p.children.insertIdx c ref ∧
      p'.pageSize = p.pageSize ∧ p'.maxChildren = p.maxChildren := by
  obtain ⟨q, hq, hkeyed, hkeys, hcount, hregion⟩ := h.insertKey staging hi hlen hfits
  have hmax := hregion.maxChildren
  have hspare' : q.count + 1 ≤ q.maxChildren := by omega
  have hc' : c ≤ q.count := by omega
  obtain ⟨hkeyed', hkeys'⟩ := hkeyed.childrenOnly (m := childMem q.mem q.usable q.count c ref)
    fun a ha => childMem_below ha
  refine ⟨q, _, hq, insertChild_eq hkeyed hspare' hc', ⟨hkeyed', hspare'⟩, hkeys'.trans hkeys, ?_, hregion.size, hmax⟩
  have hold : refsIn q.mem q.usable q.count = p.children := by
    rw [hcount, hregion.usable, refsIn_agree hregion.agree, children]
  exact (refsIn_childMem hc' href).trans (congrArg (·.insertIdx c ref) hold)

end

/-! ### Replacement -/

section

variable {p : SlottedInternalPage} {i : Nat} {k : Bytes}

/-- What stands where the key stood, when its gap is closed from below. -/
def stale (p : SlottedInternalPage) (i : Nat) : Bytes :=
  (internalSlot p.mem i).read (Laid.closeGap p.dataLow (internalSlot p.mem i) p.mem)

/-- A replacement finds room: below the keys, or after a compaction that still counts the bytes of the old key. -/
def FitsInstead (p : SlottedInternalPage) (i : Nat) (k : Bytes) : Prop :=
  4 * p.count + k.length ≤ p.dataLow + (internalSlot p.mem i).len ∨ 4 * p.count + keyBytes p.keys + k.length ≤ p.usable

instance (p : SlottedInternalPage) (i : Nat) (k : Bytes) : Decidable (FitsInstead p i k) :=
  inferInstanceAs (Decidable (_ ∨ _))

/-- The state of a page after the gap of a key is closed. -/
structure Gapped (p : SlottedInternalPage) (i : Nat) (q : SlottedInternalPage) : Prop where
  size : q.pageSize = p.pageSize
  readable : Readable q
  vacant : Vacant q.mem q.dataLow q.usable q.count i
  keys : q.keys = p.keys.set i (p.stale i)
  count : q.count = p.count
  low : q.dataLow = p.dataLow + (internalSlot p.mem i).len
  region : SameRegion p q

theorem Keyed.gapped (h : Keyed p) (hi : i < p.count) (hlow : p.dataLow ≤ (internalSlot p.mem i).off) :
    ∃ q, p.closeGap (internalSlot p.mem i) = some q ∧ Gapped p i q := by
  have hbelow := h.area.below
  have hroom := h.area.room
  have husable := h.usable_le
  have hsize := h.size
  have hhigh := h.area.key_high hi
  have hbytes := keyBytes_eraseIdx (m := p.mem) hi
  obtain ⟨hvacant, hkeys⟩ := h.area.gap hi (by omega) hlow
  have hslot : ∀ j < p.count, internalSlot (gapMem p.mem p.dataLow p.count (internalSlot p.mem i)) j
      = (internalSlot p.mem i).shift (internalSlot p.mem j) := fun j hj => gapMem_slot hbelow (by omega) hj
  have hself : (internalSlot p.mem i).shift (internalSlot p.mem i) = internalSlot p.mem i := Piece.shift_of_ge le_rfl
  have hstale : (internalSlot p.mem i).read (gapMem p.mem p.dataLow p.count (internalSlot p.mem i)) = p.stale i :=
    Memory.read_congr fun a _ => gapMem_agree p.mem p.dataLow p.count _ _ (by omega)
  rw [hstale] at hkeys
  refine ⟨_, closeGap_eq hsize hlow (by omega), ⟨rfl, ⟨hsize, h.region, h.slotEnd, ?_, ?_, ?_⟩, hvacant, hkeys, rfl, rfl,
    ⟨rfl, rfl, ?_⟩⟩⟩
  · intro j hj
    dsimp only at hj ⊢
    by_cases hji : j = i
    · rw [hslot j hj, hji, hself]
      omega
    · have := hvacant.laid.high _ (mem_eraseIdx_slots hj hji)
      omega
  · intro j hj
    dsimp only at hj ⊢
    by_cases hji : j = i
    · rw [hslot j hj, hji, hself]
      omega
    · exact (hvacant.laid.low _ (mem_eraseIdx_slots hj hji)).imp_right fun hle => by omega
  · have hlen : (p.stale i).length = (internalSlot p.mem i).len := Memory.length_read _ _ _
    have hset := keyBytes_set (k := p.stale i) (by rwa [length_keysIn] : i < (keysIn p.mem p.count).length)
    have hfits : 4 * p.count + keyBytes ((keysIn p.mem p.count).set i (p.stale i)) ≤ p.usable := by
      rw [hset]
      omega
    rw [SlottedInternalPage.keys, hkeys]
    exact hfits
  · exact gapMem_above hbelow hlow (by omega)

/-- A new key's bytes are laid, and the slot without one names them. -/
theorem lay_vacant {q : SlottedInternalPage} (hsize : q.pageSize < 2 ^ 16) (hregion : 8 * q.maxChildren ≤ q.pageSize)
    (hend : q.slotEnd = 4 * q.count) (hvacant : Vacant q.mem q.dataLow q.usable q.count i) (hi : i < q.count)
    (hroom : 4 * q.count + k.length ≤ q.dataLow) :
    ∃ p', q.lay i k = some p' ∧ Keyed p' ∧ p'.keys = q.keys.set i k ∧ p'.count = q.count ∧ SameRegion q p' := by
  have husable := usable_eq hsize hregion
  have hlow := hvacant.room
  obtain ⟨harea, hkeys⟩ := hvacant.lay (k := k) hi (by omega) (by omega) hroom
  refine ⟨_, lay_eq hsize (by omega) (by omega), ⟨hsize, hregion, hend, harea⟩, hkeys, rfl, rfl, rfl, ?_⟩
  exact (layMem_agree (by omega) (by omega)).mono (by omega)

/-- A replacement that does not find room leaves whatever stands where the old key stood. -/
theorem Keyed.replaceKey (h : Keyed p) (staging : Memory) (hi : i < p.count)
    (hlow : p.dataLow ≤ (internalSlot p.mem i).off) :
    ∃ p', p.replaceKey staging i k = some (p', decide (FitsInstead p i k)) ∧ Keyed p' ∧
      p'.keys = p.keys.set i (if FitsInstead p i k then k else p.stale i) ∧ p'.count = p.count ∧ SameRegion p p' := by
  have hbelow := h.area.below
  obtain ⟨q, hq, hgapped⟩ := h.gapped hi hlow
  have hqcount := hgapped.count
  have hqlow := hgapped.low
  have hqsize := hgapped.readable.size
  have hqusable := hgapped.region.usable
  have hqroom := hgapped.vacant.room
  have husable := h.usable_le
  have hsize := hgapped.size
  have hfree : q.freeSpace = q.dataLow - 4 * q.count := by
    rw [SlottedInternalPage.freeSpace, hgapped.readable.slotEnd]
    exact u16_sub (by omega) (by omega)
  have hbytes : keyBytes q.keys = keyBytes p.keys := by
    have hlen : i < p.keys.length := by rwa [length_keys]
    have hstale : (p.stale i).length = (internalSlot p.mem i).len := Memory.length_read _ _ _
    rw [hgapped.keys, keyBytes_set hlen, hstale, keys, keyBytes_eraseIdx hi]
  obtain ⟨c, hc, hckeyed, hckeys, hccount, hcfull, hcregion⟩ := hgapped.readable.compact staging
  rw [SlottedInternalPage.replaceKey, hq]
  simp only [Option.bind_eq_bind, Option.bind_some]
  rw [hfree, hqlow, hqcount]
  by_cases hdirect : 4 * p.count + k.length ≤ p.dataLow + (internalSlot p.mem i).len
  · obtain ⟨p', hp', hkeyed, hkeys, hcount, hregion⟩ := lay_vacant (k := k) hqsize hgapped.readable.region
      hgapped.readable.slotEnd hgapped.vacant (hi.trans_eq hqcount.symm) (by omega)
    have hfits : FitsInstead p i k := .inl hdirect
    refine ⟨p', ?_, hkeyed, ?_, hcount.trans hqcount, hgapped.region.trans hregion⟩
    · rw [if_neg (by omega), hp', decide_eq_true hfits]
      rfl
    · rw [hkeys, hgapped.keys, List.set_set, if_pos hfits]
  · rw [if_pos (by omega), hc]
    simp only [Option.bind_some]
    rw [hckeyed.freeSpace, hccount, hqcount]
    by_cases hcompacted : 4 * p.count + keyBytes p.keys + k.length ≤ p.usable
    · have hi' : i < c.count := by omega
      obtain ⟨p', hp', hkeyed, hkeys, hcount, hregion⟩ := lay_vacant (k := k) hckeyed.size hckeyed.region
        hckeyed.slotEnd (hckeyed.area.vacate hi') hi' (by omega)
      have hfits : FitsInstead p i k := .inr hcompacted
      refine ⟨p', ?_, hkeyed, ?_, by omega, (hgapped.region.trans hcregion).trans hregion⟩
      · rw [if_neg (by omega), hp', decide_eq_true hfits]
        rfl
      · rw [hkeys, hckeys, hgapped.keys, List.set_set, if_pos hfits]
    · have hfits : ¬ FitsInstead p i k := fun hfits => hfits.elim hdirect hcompacted
      refine ⟨c, ?_, hckeyed, ?_, by omega, hgapped.region.trans hcregion⟩
      · rw [if_pos (by omega), decide_eq_false hfits]
        rfl
      · rw [hckeys, hgapped.keys, if_neg hfits]

/-- Only the gap of a key in use can be closed. -/
theorem Keyed.inUse_of_closeGap (h : Keyed p) (hsome : (p.closeGap (internalSlot p.mem i)).isSome = true) :
    p.dataLow ≤ (internalSlot p.mem i).off := by
  have hroom := h.area.room
  have husable := h.usable_le
  by_contra hlow
  rw [closeGap_none h.size (by omega) (by omega)] at hsome
  cases hsome

end

/-! ### Removal -/

section

variable {p q : SlottedInternalPage} {i c : Nat}

/-- The page without a slot and a child, once the gap of the slot's key is closed. -/
def dropped (q : SlottedInternalPage) (i c : Nat) : SlottedInternalPage :=
  { q with
    mem := childGoneMem (dropMem q.mem q.count i) q.usable (q.count + 1) c
    slotEnd := q.slotEnd - 4
    count := q.count - 1 }

theorem Gapped.dropped (h : Gapped p i q) (hspare : p.count + 1 ≤ p.maxChildren) (hi : i < p.count) (hc : c ≤ p.count) :
    Valid (q.dropped i c) ∧ (q.dropped i c).keys = p.keys.eraseIdx i ∧
      (q.dropped i c).children = p.children.eraseIdx c := by
  have hcount := h.count
  have hend := h.readable.slotEnd
  have hmax := h.region.maxChildren
  have husable := usable_eq h.readable.size h.readable.region
  have hbelow := h.vacant.below
  have hroom := h.vacant.room
  have hi' : i < q.count := by omega
  obtain ⟨harea, hkeys⟩ := h.vacant.dropSlot hi'
  obtain ⟨harea', hkeys'⟩ := harea.within
    (childGoneMem (dropMem q.mem q.count i) q.usable (q.count + 1) c) fun a ha => childGoneMem_below ha
  have hagree : Memory.AgreeFrom q.usable q.mem (dropMem q.mem q.count i) := (dropMem_agree hi' hbelow).mono (by omega)
  refine ⟨⟨⟨h.readable.size, h.readable.region, ?_, harea'⟩, ?_⟩, ?_, ?_⟩
  · rw [SlottedInternalPage.dropped]
    dsimp only
    omega
  · rw [SlottedInternalPage.dropped]
    dsimp only
    omega
  · calc keysIn (childGoneMem (dropMem q.mem q.count i) q.usable (q.count + 1) c) (q.count - 1)
        = keysIn (dropMem q.mem q.count i) (q.count - 1) := hkeys'
      _ = q.keys.eraseIdx i := hkeys
      _ = p.keys.eraseIdx i := by rw [h.keys, List.eraseIdx_set_eq]
  · have hchildren := refsIn_childGoneMem (dropMem q.mem q.count i) q.usable (by omega : c < q.count + 1)
    rw [refsIn_agree hagree, Nat.add_sub_cancel] at hchildren
    have hold : refsIn q.mem q.usable (q.count + 1) = p.children := h.region.children hcount
    rw [hold] at hchildren
    rw [SlottedInternalPage.children, SlottedInternalPage.dropped]
    dsimp only
    rw [show q.count - 1 + 1 = q.count by omega]
    exact hchildren

theorem remove_eq (h : Gapped p i q) (hspare : p.count + 1 ≤ p.maxChildren) (hi : i < p.count)
    (hq : p.closeGap (internalSlot p.mem i) = some q) : p.remove i = some (q.dropped i (i + 1)) := by
  have hcount := h.count
  have hsize := h.readable.size
  have hend := h.readable.slotEnd
  have hmax := h.region.maxChildren
  have hregion := h.readable.region
  have husable := usable_eq hsize hregion
  have hbelow := h.vacant.below
  have hroom := h.vacant.room
  have hslotEnd : u16 ((q.slotEnd : Int) - internalSlotBytes) = q.slotEnd - 4 :=
    u16_sub (by rw [internalSlotBytes]; omega) (by omega)
  have hcount' : u16 ((q.count : Int) - (1 : Nat)) = q.count - 1 := u16_sub (by omega) (by omega)
  rw [remove, hq]
  simp only [Option.bind_eq_bind, Option.bind_some, Option.pure_def]
  rw [memoryMove_eq (n := 4 * (q.count - i - 1)) hsize (by rw [internalSlotBytes]; omega) (by omega) (by omega)]
  simp only [Option.bind_some, hslotEnd]
  rw [memoryMove_eq (n := nodeRefBytes * (q.count - i - 1)) (by exact hsize) (by rw [nodeRefBytes]; omega)
    (by rw [nodeRefBytes]; exact (by omega : q.usable + 8 * (i + 1) + 8 * (q.count - i - 1) ≤ q.pageSize))
    (by rw [nodeRefBytes]; exact (by omega : q.usable + 8 * (i + 2) + 8 * (q.count - i - 1) ≤ q.pageSize))]
  simp only [Option.bind_some]
  rw [show u16 ((q.count : Int) - 1) = q.count - 1 from hcount', dropped, childGoneMem, dropMem,
    show q.count + 1 - (i + 1) - 1 = q.count - i - 1 by omega]
  rfl

theorem removeFront_eq (h : Gapped p 0 q) (hspare : p.count + 1 ≤ p.maxChildren) (hi : 0 < p.count)
    (hq : p.closeGap (internalSlot p.mem 0) = some q) : p.removeFront = some (q.dropped 0 0) := by
  have hcount := h.count
  have hsize := h.readable.size
  have hend := h.readable.slotEnd
  have hmax := h.region.maxChildren
  have hregion := h.readable.region
  have husable := usable_eq hsize hregion
  have hbelow := h.vacant.below
  have hroom := h.vacant.room
  have hslotEnd : u16 ((q.slotEnd : Int) - internalSlotBytes) = q.slotEnd - 4 :=
    u16_sub (by rw [internalSlotBytes]; omega) (by omega)
  have hcount' : u16 ((q.count : Int) - (1 : Nat)) = q.count - 1 := u16_sub (by omega) (by omega)
  rw [removeFront, hq]
  simp only [Option.bind_eq_bind, Option.bind_some]
  rw [memoryMove_eq (n := 4 * (q.count - 0 - 1)) hsize (by rw [internalSlotBytes]; omega) (by omega) (by omega)]
  simp only [Option.bind_some, hslotEnd]
  rw [show u16 ((q.count : Int) - 1) = q.count - 1 from hcount',
    memoryMove_eq (n := nodeRefBytes * (q.count + 1 - 0 - 1)) (by exact hsize)
      (by rw [nodeRefBytes]; omega)
      (by rw [nodeRefBytes]; exact (by omega : q.usable + 8 * (q.count + 1 - 0 - 1) ≤ q.pageSize))
      (by rw [nodeRefBytes]; exact (by omega : q.usable + 8 + 8 * (q.count + 1 - 0 - 1) ≤ q.pageSize)), dropped,
    childGoneMem, dropMem]
  rfl

/-- The key goes, and with it the child behind it. -/
theorem Valid.remove (h : Valid p) (hi : i < p.count) (hlow : p.dataLow ≤ (internalSlot p.mem i).off) :
    ∃ p', p.remove i = some p' ∧ Valid p' ∧ p'.keys = p.keys.eraseIdx i ∧
      p'.children = p.children.eraseIdx (i + 1) ∧ p'.pageSize = p.pageSize ∧ p'.maxChildren = p.maxChildren := by
  obtain ⟨q, hq, hgapped⟩ := h.toKeyed.gapped hi hlow
  obtain ⟨hvalid, hkeys, hchildren⟩ := hgapped.dropped h.spare hi hi
  exact ⟨_, remove_eq hgapped h.spare hi hq, hvalid, hkeys, hchildren, hgapped.size, hgapped.region.maxChildren⟩

/-- The first key goes, and with it the first child. -/
theorem Valid.removeFront (h : Valid p) (hi : 0 < p.count) (hlow : p.dataLow ≤ (internalSlot p.mem 0).off) :
    ∃ p', p.removeFront = some p' ∧ Valid p' ∧ p'.keys = p.keys.tail ∧ p'.children = p.children.tail ∧
      p'.pageSize = p.pageSize ∧ p'.maxChildren = p.maxChildren := by
  obtain ⟨q, hq, hgapped⟩ := h.toKeyed.gapped hi hlow
  obtain ⟨hvalid, hkeys, hchildren⟩ := hgapped.dropped h.spare hi (Nat.zero_le p.count)
  rw [List.eraseIdx_zero] at hkeys hchildren
  exact ⟨_, removeFront_eq hgapped h.spare hi hq, hvalid, hkeys, hchildren, hgapped.size, hgapped.region.maxChildren⟩

end

/-! ### Copies of a suffix -/

section

variable {src dst : SlottedInternalPage} {start i low : Nat} {m : Memory}

/-- The keys of the suffix have room below the area of the other page. -/
def FitsSuffix (src : SlottedInternalPage) (start : Nat) (dst : SlottedInternalPage) : Prop :=
  4 * (src.count - start) + keyBytes (src.keys.drop start) ≤ dst.dataLow

instance (src : SlottedInternalPage) (start : Nat) (dst : SlottedInternalPage) : Decidable (FitsSuffix src start dst) :=
  inferInstanceAs (Decidable (_ ≤ _))

/-- How far the loop of `copy_suffix_to` has come. -/
structure Copied (src : SlottedInternalPage) (start : Nat) (dst : SlottedInternalPage) (m : Memory) (low i : Nat) :
    Prop where
  area : KeyArea m low dst.usable i
  keys : keysIn m i = (src.keys.drop start).take i
  full : low + keyBytes ((src.keys.drop start).take i) = dst.dataLow
  agree : Memory.AgreeFrom dst.usable dst.mem m

theorem Copied.step (h : Copied src start dst m low i) (hsrc : Keyed src) (hdst : Keyed dst)
    (hfits : FitsSuffix src start dst) (hi : start + i < src.count) (left : Nat) :
    ∃ m' low', Copied src start dst m' low' (i + 1) ∧
      copyFrom src { dst with mem := m, dataLow := low } start (left + 1) i
        = copyFrom src { dst with mem := m', dataLow := low' } start left (i + 1) := by
  have hlen : i < (src.keys.drop start).length := by
    rw [List.length_drop, length_keys]
    omega
  have hkey : (src.keys.drop start)[i] = keyIn src.mem (start + i) := by
    rw [List.getElem_drop]
    exact getElem_keysIn _
  have htake := List.take_succ_eq_append_getElem hlen
  rw [hkey] at htake
  have hbytes := keyBytes_append ((src.keys.drop start).take i) [keyIn src.mem (start + i)]
  rw [← htake, keyBytes_cons, show keyBytes [] = 0 from rfl] at hbytes
  have hall := keyBytes_take_drop (src.keys.drop start) (i + 1)
  have hfull := h.full
  have harea := h.area.room
  have hdroom := hdst.area.room
  have hdusable := hdst.usable_le
  have hdsize := hdst.size
  have husable := hsrc.usable_le
  have hhigh := hsrc.area.key_high hi
  rw [FitsSuffix] at hfits
  have hroom : 4 * (i + 1) + (keyIn src.mem (start + i)).length ≤ low := by omega
  obtain ⟨harea', hkeys'⟩ := h.area.append (by omega) hroom
  refine ⟨_, _, ⟨harea', ?_, ?_, ?_⟩, ?_⟩
  · rw [hkeys', h.keys, htake]
  · omega
  · exact h.agree.trans ((layMem_agree (by omega) (by omega)).mono (by omega))
  · rw [copyFrom]
    simp only [Option.bind_eq_bind]
    rw [bytesIn_eq (by omega), Option.bind_some,
      show (internalSlot src.mem (start + i)).read src.mem = keyIn src.mem (start + i) from rfl,
      lay_eq (by exact hdsize) (by dsimp only; omega) (by dsimp only; omega)]
    rfl

theorem Copied.run (h : Copied src start dst m low i) (hsrc : Keyed src) (hdst : Keyed dst)
    (hfits : FitsSuffix src start dst) {left : Nat} (hleft : start + i + left = src.count) :
    ∃ m' low', Copied src start dst m' low' (i + left) ∧
      copyFrom src { dst with mem := m, dataLow := low } start left i = some { dst with mem := m', dataLow := low' } := by
  induction left generalizing m low i with
  | zero => exact ⟨m, low, h, rfl⟩
  | succ left ih =>
      obtain ⟨m', low', h', heq⟩ := h.step hsrc hdst hfits (by omega) left
      obtain ⟨m'', low'', h'', heq'⟩ := ih h' (by omega)
      rw [show i + 1 + left = i + (left + 1) by omega] at h''
      exact ⟨m'', low'', h'', heq.trans heq'⟩

/-- An empty page takes over the keys from an index on, and their children. -/
theorem Valid.copySuffixTo (hsrc : Valid src) (hdst : Valid dst) (hempty : dst.count = 0)
    (hsize : dst.pageSize = src.pageSize) (hmax : dst.maxChildren = src.maxChildren) (hstart : start ≤ src.count)
    (hfits : FitsSuffix src start dst) :
    ∃ dst', src.copySuffixTo start dst = some dst' ∧ Valid dst' ∧ dst'.keys = src.keys.drop start ∧
      dst'.children = src.children.drop start ∧ dst'.pageSize = dst.pageSize ∧ dst'.maxChildren = dst.maxChildren := by
  have hspare := hsrc.spare
  have hpage := hsrc.size
  have husable := hsrc.usable_le
  have hdusable := hdst.usable_le
  have hdend := hdst.slotEnd
  have hdroom := hdst.area.room
  have hbelow := hsrc.area.below
  have hroom := hsrc.area.room
  have hn : u16 ((src.count : Int) - start) = src.count - start := u16_sub hstart (by omega)
  have hslotEnd : u16 ((dst.slotEnd : Int) + ((src.count - start : Nat) : Int) * internalSlotBytes)
      = 4 * (src.count - start) := by
    rw [u16, internalSlotBytes]
    omega
  have hbytes : byteCount ((((src.count - start : Nat) : Int) + 1) * nodeRefBytes) = 8 * (src.count - start + 1) := by
    rw [byteCount, nodeRefBytes]
    omega
  have hbegin : Copied src start dst dst.mem dst.dataLow 0 :=
    ⟨⟨Nat.zero_le _, by rw [keysIn]; exact (Nat.le_add_right _ _).trans hdroom, Laid.nil _ _⟩, rfl, rfl,
      Memory.AgreeFrom.refl _ _⟩
  obtain ⟨m', low', hcopied, heq⟩ := hbegin.run hsrc.toKeyed hdst.toKeyed hfits
    (by omega : start + 0 + (src.count - start) = src.count)
  rw [Nat.zero_add] at hcopied
  have hall : (src.keys.drop start).take (src.count - start) = src.keys.drop start :=
    List.take_of_length_le (by rw [List.length_drop, length_keys])
  obtain ⟨harea, hkeys⟩ := hcopied.area.within
    (m'.put dst.usable (src.mem.read (src.usable + 8 * start) (8 * (src.count - start + 1))))
    fun a ha => Memory.put_of_lt ha
  refine ⟨{ dst with
      mem := m'.put dst.usable (src.mem.read (src.usable + 8 * start) (8 * (src.count - start + 1)))
      dataLow := low'
      slotEnd := 4 * (src.count - start)
      count := src.count - start }, ?_, ⟨⟨hdst.size, hdst.region, rfl, harea⟩, ?_⟩, ?_, ?_, rfl, rfl⟩
  · rw [SlottedInternalPage.copySuffixTo]
    simp only [hn, Option.bind_eq_bind]
    rw [show copyFrom src dst start (src.count - start) 0 = _ from heq]
    simp only [Option.bind_some, hslotEnd, hbytes]
    rw [nodeRefBytes, bytesIn_eq (by dsimp only; omega), Option.bind_some, Piece.read]
    exact memoryCopy_eq (by
      rw [Memory.length_read]
      exact (by omega : dst.usable + 8 * (src.count - start + 1) ≤ dst.pageSize))
  · dsimp only
    omega
  · exact hkeys.trans (hcopied.keys.trans hall)
  · apply List.ext_getElem
    · rw [length_children, List.length_drop, length_children]
      dsimp only
      omega
    · intro j hj hj'
      rw [length_children] at hj
      dsimp only at hj
      rw [List.getElem_drop]
      simp only [children, refsIn, List.getElem_map, List.getElem_range, nodeRefBytes]
      rw [show SlottedInternalPage.usable { dst with
          mem := m'.put dst.usable (src.mem.read (src.usable + 8 * start) (8 * (src.count - start + 1)))
          dataLow := low'
          slotEnd := 4 * (src.count - start)
          count := src.count - start } = dst.usable from rfl, Memory.field_moved (by omega) (by omega),
        show dst.usable + 8 * j - dst.usable + (src.usable + 8 * start) = src.usable + 8 * (start + j) by omega]

end

end Plexdb.Slots.SlottedInternalPage
