import Mathlib
import Plexdb.SlottedLeaf

/-! `SlottedInternalPage` (`core/btree/btree.slots.cppm`): a directory of slots from the start of a page, the keys of
variable length below the children, and the children in a region of fixed size at the end of the page. -/

namespace Plexdb.Slots

open ByteArea

/-- `sizeof(SlotEntry<true, false>)`. -/
def internalSlotBytes : Nat := 4

/-- `sizeof(NodeRef)`. -/
def nodeRefBytes : Nat := 8

/-- `SlotEntry<true, false>`: where a key lies. -/
def internalSlot (m : Memory) (i : Nat) : Piece := ⟨m.field (4 * i) 2, m.field (4 * i + 2) 2⟩

def setSlot (m : Memory) (i : Nat) (key : Piece) : Memory :=
  (m.setField (4 * i) 2 key.off).setField (4 * i + 2) 2 key.len

structure SlottedInternalPage where
  mem : Memory
  count : Nat
  slotEnd : Nat
  dataLow : Nat
  pageSize : Nat
  maxChildren : Nat

namespace SlottedInternalPage

/-- `usable_capacity`, which is also where the children start. -/
def usable (p : SlottedInternalPage) : Nat := u16 ((p.pageSize : Int) - u16 (p.maxChildren * nodeRefBytes))

def childAt (p : SlottedInternalPage) (j : Nat) : Nat := p.mem.field (p.usable + nodeRefBytes * j) nodeRefBytes

def freeSpace (p : SlottedInternalPage) : Nat := u16 ((p.dataLow : Int) - p.slotEnd)

def memoryMove (p : SlottedInternalPage) (dst src : Nat) (bytes : Int) : Option SlottedInternalPage :=
  (moveIn p.pageSize p.mem dst src bytes).map fun mem => { p with mem }

def memoryCopy (p : SlottedInternalPage) (dst : Nat) (bs : Bytes) : Option SlottedInternalPage :=
  (copyIn p.pageSize p.mem dst bs).map fun mem => { p with mem }

/-- The loop of `compact`; the staging buffer has the size of the area of the keys and slots. -/
def packFrom (p : SlottedInternalPage) (staging : Memory) (writePos : Nat) :
    (left i : Nat) → Option (SlottedInternalPage × Memory × Nat)
  | 0, _ => some (p, staging, writePos)
  | left + 1, i => do
      let e := internalSlot p.mem i
      let writePos := u16 ((writePos : Int) - e.len)
      let bytes ← bytesIn p.pageSize p.mem e
      let staging ← copyIn p.usable staging writePos bytes
      let p := { p with mem := setSlot p.mem i ⟨writePos, e.len⟩ }
      packFrom p staging writePos left (i + 1)

def compact (p : SlottedInternalPage) (staging : Memory) : Option SlottedInternalPage := do
  let (p, staging, writePos) ← p.packFrom staging p.usable p.count 0
  let p ← p.memoryCopy writePos (staging.read writePos (byteCount ((p.usable : Int) - writePos)))
  pure { p with dataLow := writePos }

/-- The loop over the slots that shifts those below a removed key; the loops of `remove` and `remove_front` leave out
the slot of that key, which is not below itself. -/
def shiftBelow (m : Memory) (off len : Nat) : (count : Nat) → Memory
  | 0 => m
  | j + 1 =>
      let m := shiftBelow m off len j
      let e := internalSlot m j
      if e.off < off then m.setField (4 * j) 2 (u16 (e.off + len)) else m

/-- The bytes of a key go, those below it move up. -/
def closeGap (p : SlottedInternalPage) (key : Piece) : Option SlottedInternalPage := do
  let p ← p.memoryMove (p.dataLow + key.len) p.dataLow ((key.off : Int) - p.dataLow)
  let p := { p with dataLow := u16 (p.dataLow + key.len) }
  pure { p with mem := shiftBelow p.mem key.off key.len p.count }

/-- A key's bytes are laid below the others and its slot names them. -/
def lay (p : SlottedInternalPage) (i : Nat) (k : Bytes) : Option SlottedInternalPage := do
  let p := { p with dataLow := u16 ((p.dataLow : Int) - k.length) }
  let p ← p.memoryCopy p.dataLow k
  pure { p with mem := setSlot p.mem i ⟨p.dataLow, k.length⟩ }

def replaceKey (p : SlottedInternalPage) (staging : Memory) (i : Nat) (k : Bytes) :
    Option (SlottedInternalPage × Bool) := do
  let p ← p.closeGap (internalSlot p.mem i)
  if p.freeSpace < k.length then
    let p ← p.compact staging
    if p.freeSpace < k.length then pure (p, false)
    else
      let p ← p.lay i k
      pure (p, true)
  else
    let p ← p.lay i k
    pure (p, true)

/-- `needed` is a `U16`. -/
def needed (k : Bytes) : Nat := u16 (internalSlotBytes + k.length)

/-- The part of `insert_key` behind the tests for room. -/
def place (p : SlottedInternalPage) (i : Nat) (k : Bytes) : Option SlottedInternalPage := do
  let p ← p.memoryMove (4 * (i + 1)) (4 * i) (((p.count : Int) - i) * internalSlotBytes)
  let p ← p.lay i k
  pure { p with slotEnd := u16 (p.slotEnd + internalSlotBytes), count := u16 (p.count + 1) }

def insertKey (p : SlottedInternalPage) (staging : Memory) (i : Nat) (k : Bytes) :
    Option (SlottedInternalPage × Bool) := do
  if p.freeSpace < needed k then
    let p ← p.compact staging
    if p.freeSpace < needed k then pure (p, false)
    else
      let p ← p.place i k
      pure (p, true)
  else
    let p ← p.place i k
    pure (p, true)

/-- The count is already that of the keys with the new one. -/
def insertChild (p : SlottedInternalPage) (c ref : Nat) : Option SlottedInternalPage := do
  let p ← p.memoryMove (p.usable + nodeRefBytes * (c + 1)) (p.usable + nodeRefBytes * c)
    (((p.count : Int) - c) * nodeRefBytes)
  pure { p with mem := p.mem.setField (p.usable + nodeRefBytes * c) nodeRefBytes ref }

def remove (p : SlottedInternalPage) (i : Nat) : Option SlottedInternalPage := do
  let p ← p.closeGap (internalSlot p.mem i)
  let p ← p.memoryMove (4 * i) (4 * (i + 1)) (((p.count : Int) - i - 1) * internalSlotBytes)
  let p := { p with slotEnd := u16 ((p.slotEnd : Int) - internalSlotBytes) }
  let p ← p.memoryMove (p.usable + nodeRefBytes * (i + 1)) (p.usable + nodeRefBytes * (i + 2))
    (((p.count : Int) - i - 1) * nodeRefBytes)
  pure { p with count := u16 ((p.count : Int) - 1) }

def removeFront (p : SlottedInternalPage) : Option SlottedInternalPage := do
  let p ← p.closeGap (internalSlot p.mem 0)
  let p ← p.memoryMove 0 4 (((p.count : Int) - 1) * internalSlotBytes)
  let p := { p with slotEnd := u16 ((p.slotEnd : Int) - internalSlotBytes), count := u16 ((p.count : Int) - 1) }
  p.memoryMove p.usable (p.usable + nodeRefBytes) (((p.count : Int) + 1) * nodeRefBytes)

/-- The loop of `copy_suffix_to`. -/
def copyFrom (src dst : SlottedInternalPage) (start : Nat) : (left i : Nat) → Option SlottedInternalPage
  | 0, _ => some dst
  | left + 1, i => do
      let e := internalSlot src.mem (start + i)
      let bytes ← bytesIn src.pageSize src.mem e
      let dst ← dst.lay i bytes
      copyFrom src dst start left (i + 1)

def copySuffixTo (src : SlottedInternalPage) (start : Nat) (dst : SlottedInternalPage) :
    Option SlottedInternalPage := do
  let n := u16 ((src.count : Int) - start)
  let dst ← copyFrom src dst start n 0
  let dst := { dst with slotEnd := u16 (dst.slotEnd + n * internalSlotBytes), count := n }
  let bytes ← bytesIn src.pageSize src.mem
    ⟨src.usable + nodeRefBytes * start, byteCount (((n : Int) + 1) * nodeRefBytes)⟩
  dst.memoryCopy dst.usable bytes

end SlottedInternalPage

end Plexdb.Slots
