import Mathlib
import Plexdb.ByteArea

/-! `SlottedLeafPage` (`core/btree/btree.slots.cppm`): a directory of slots that grows from the start of a page, and
the keys and values of variable length, which are laid down from its end. -/

namespace Plexdb.Slots

open ByteArea

/-- The conversion to a `U16`. -/
def u16 (x : Int) : Nat := (x % 2 ^ 16).toNat

/-- The conversion of an `int` to the `U64` that counts bytes. -/
def byteCount (x : Int) : Nat := (x % 2 ^ 64).toNat

/-- `memory_move` within a memory of `size` bytes, to which both ends belong. -/
def moveIn (size : Nat) (m : Memory) (dst src : Nat) (bytes : Int) : Option Memory :=
  let n := byteCount bytes
  if dst + n ≤ size ∧ src + n ≤ size then some (m.put dst (m.read src n)) else none

/-- `memory_copy` of other bytes into the memory. -/
def copyIn (size : Nat) (m : Memory) (dst : Nat) (bs : Bytes) : Option Memory :=
  if dst + bs.length ≤ size then some (m.put dst bs) else none

/-- Bytes of the memory that are copied elsewhere. -/
def bytesIn (size : Nat) (m : Memory) (piece : Piece) : Option Bytes :=
  if piece.off + piece.len ≤ size then some (piece.read m) else none

/-- `sizeof(SlotEntry<true, true>)`. -/
def leafSlotBytes : Nat := 8

/-- `SlotEntry<true, true>`: where the key and the value of an entry lie. -/
structure LeafSlot where
  key : Piece
  val : Piece
deriving DecidableEq

def leafSlot (m : Memory) (i : Nat) : LeafSlot :=
  ⟨⟨m.field (8 * i) 2, m.field (8 * i + 2) 2⟩, ⟨m.field (8 * i + 4) 2, m.field (8 * i + 6) 2⟩⟩

def setKey (m : Memory) (i : Nat) (key : Piece) : Memory :=
  (m.setField (8 * i) 2 key.off).setField (8 * i + 2) 2 key.len

def setVal (m : Memory) (i : Nat) (val : Piece) : Memory :=
  (m.setField (8 * i + 4) 2 val.off).setField (8 * i + 6) 2 val.len

structure SlottedLeafPage where
  mem : Memory
  count : Nat
  slotEnd : Nat
  dataLow : Nat
  pageSize : Nat

namespace SlottedLeafPage

def freeSpace (p : SlottedLeafPage) : Nat := u16 ((p.dataLow : Int) - p.slotEnd)

def memoryMove (p : SlottedLeafPage) (dst src : Nat) (bytes : Int) : Option SlottedLeafPage :=
  (moveIn p.pageSize p.mem dst src bytes).map fun mem => { p with mem }

def memoryCopy (p : SlottedLeafPage) (dst : Nat) (bs : Bytes) : Option SlottedLeafPage :=
  (copyIn p.pageSize p.mem dst bs).map fun mem => { p with mem }

def bytesAt (p : SlottedLeafPage) (piece : Piece) : Option Bytes := bytesIn p.pageSize p.mem piece

/-- The loop of `compact`: the entries' bytes are staged from the end of the page down, and the slots of the page
already name their new places. -/
def packFrom (p : SlottedLeafPage) (staging : Memory) (writePos : Nat) :
    (left i : Nat) → Option (SlottedLeafPage × Memory × Nat)
  | 0, _ => some (p, staging, writePos)
  | left + 1, i => do
      let e := leafSlot p.mem i
      let writePos := u16 ((writePos : Int) - e.val.len)
      let bytes ← p.bytesAt e.val
      guard (writePos + bytes.length ≤ p.pageSize)
      let staging := staging.put writePos bytes
      let p := { p with mem := setVal p.mem i ⟨writePos, e.val.len⟩ }
      let writePos := u16 ((writePos : Int) - e.key.len)
      let bytes ← p.bytesAt e.key
      guard (writePos + bytes.length ≤ p.pageSize)
      let staging := staging.put writePos bytes
      let p := { p with mem := setKey p.mem i ⟨writePos, e.key.len⟩ }
      packFrom p staging writePos left (i + 1)

/-- The staging buffer holds whatever it holds at first. -/
def compact (p : SlottedLeafPage) (staging : Memory) : Option SlottedLeafPage := do
  let (p, staging, writePos) ← p.packFrom staging p.pageSize p.count 0
  let p ← p.memoryCopy writePos (staging.read writePos (byteCount ((p.pageSize : Int) - writePos)))
  pure { p with dataLow := writePos }

/-- The part of `insert` behind the tests for room. -/
def place (p : SlottedLeafPage) (i : Nat) (k v : Bytes) : Option SlottedLeafPage := do
  let p ← p.memoryMove (8 * (i + 1)) (8 * i) (((p.count : Int) - i) * leafSlotBytes)
  let p := { p with dataLow := u16 ((p.dataLow : Int) - v.length) }
  let p ← p.memoryCopy p.dataLow v
  let p := { p with mem := setVal p.mem i ⟨p.dataLow, v.length⟩ }
  let p := { p with dataLow := u16 ((p.dataLow : Int) - k.length) }
  let p ← p.memoryCopy p.dataLow k
  let p := { p with mem := setKey p.mem i ⟨p.dataLow, k.length⟩ }
  pure { p with slotEnd := u16 (p.slotEnd + leafSlotBytes), count := u16 (p.count + 1) }

/-- `needed` is a `U16`. -/
def needed (k v : Bytes) : Nat := u16 (leafSlotBytes + k.length + v.length)

def insert (p : SlottedLeafPage) (staging : Memory) (i : Nat) (k v : Bytes) : Option (SlottedLeafPage × Bool) := do
  if p.freeSpace < needed k v then
    let p ← p.compact staging
    if p.freeSpace < needed k v then pure (p, false)
    else
      let p ← p.place i k v
      pure (p, true)
  else
    let p ← p.place i k v
    pure (p, true)

/-- The loop over the other slots after the bytes at `off` were removed. -/
def shiftOthers (m : Memory) (i off len : Nat) : (count : Nat) → Memory
  | 0 => m
  | j + 1 =>
      let m := shiftOthers m i off len j
      if j = i then m
      else
        let e := leafSlot m j
        let m := if e.key.off < off then m.setField (8 * j) 2 (u16 (e.key.off + len)) else m
        if e.val.off < off then m.setField (8 * j + 4) 2 (u16 (e.val.off + len)) else m

/-- One of the two blocks of `remove`: the bytes of the piece go, those below it move up. -/
def closeGap (p : SlottedLeafPage) (i : Nat) (piece : Piece) : Option SlottedLeafPage := do
  let p ← p.memoryMove (p.dataLow + piece.len) p.dataLow ((piece.off : Int) - p.dataLow)
  let p := { p with dataLow := u16 (p.dataLow + piece.len) }
  pure { p with mem := shiftOthers p.mem i piece.off piece.len p.count }

def remove (p : SlottedLeafPage) (i : Nat) : Option SlottedLeafPage := do
  let p ← p.closeGap i (leafSlot p.mem i).key
  let p ← p.closeGap i (leafSlot p.mem i).val
  let p ← p.memoryMove (8 * i) (8 * (i + 1)) (((p.count : Int) - i - 1) * leafSlotBytes)
  pure { p with slotEnd := u16 ((p.slotEnd : Int) - leafSlotBytes), count := u16 ((p.count : Int) - 1) }

/-- The loop of `copy_suffix_to`. -/
def copyFrom (src dst : SlottedLeafPage) (start : Nat) : (left i : Nat) → Option SlottedLeafPage
  | 0, _ => some dst
  | left + 1, i => do
      let e := leafSlot src.mem (start + i)
      let dst := { dst with dataLow := u16 ((dst.dataLow : Int) - e.val.len) }
      let bytes ← src.bytesAt e.val
      let dst ← dst.memoryCopy dst.dataLow bytes
      let dst := { dst with mem := setVal dst.mem i ⟨dst.dataLow, e.val.len⟩ }
      let dst := { dst with dataLow := u16 ((dst.dataLow : Int) - e.key.len) }
      let bytes ← src.bytesAt e.key
      let dst ← dst.memoryCopy dst.dataLow bytes
      let dst := { dst with mem := setKey dst.mem i ⟨dst.dataLow, e.key.len⟩ }
      copyFrom src dst start left (i + 1)

def copySuffixTo (src : SlottedLeafPage) (start : Nat) (dst : SlottedLeafPage) : Option SlottedLeafPage := do
  let n := u16 ((src.count : Int) - start)
  let dst ← copyFrom src dst start n 0
  pure { dst with slotEnd := u16 (dst.slotEnd + n * leafSlotBytes), count := n }

end SlottedLeafPage

end Plexdb.Slots
