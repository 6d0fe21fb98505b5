import Mathlib
import Plexdb.Runs

/-! The arena allocator (`core/arena/arena.cpp`). A page is known by the number of its allocation. `none` is a
failed assertion, a null pointer that is dereferenced, or a block that is freed without being allocated. -/

namespace Plexdb.Arena

def headerSize : Nat := 128

def u64 (x : Nat) : Nat := x % 2 ^ 64

/-- `align_pow2`, on `U64`. -/
def alignPow2 (x b : Nat) : Nat := ((UInt64.ofNat x + UInt64.ofNat b - 1) &&& ~~~ (UInt64.ofNat b - 1)).toNat

structure ArenaPage where
  prev : Option Nat
  current : Nat
  freeStack : Option Nat
  pageOffset : Nat
  pageSize : Nat
  baseOffset : Nat
  deriving DecidableEq

/-! ### Blocks -/

/-- The blocks that are allocated, how many were, and which of them were freed. The first page of an arena over a
backing buffer is no block of the allocator. -/
structure Memory where
  page : Nat → Option ArenaPage
  next : Nat
  freed : List Nat
  backing : Option Nat

namespace Memory

/-- Writes to a page. -/
def modify (m : Memory) (id : Nat) (f : ArenaPage → ArenaPage) : Memory :=
  { m with page := Function.update m.page id ((m.page id).map f) }

/-- `allocate`. -/
def allocate (m : Memory) (pageSize : Nat) : Memory × Nat :=
  let arena : ArenaPage := ⟨none, m.next, none, headerSize, pageSize, 0⟩
  ({ m with page := Function.update m.page m.next (some arena), next := m.next + 1 }, m.next)

/-- `os::deallocate`. -/
def free (m : Memory) (id : Nat) : Option Memory := do
  let _ ← m.page id
  if m.backing = some id then none
  else some { m with page := Function.update m.page id none, freed := id :: m.freed }

/-- The loops of `deallocate`, along `prev` up to `stop`. -/
def freeChain (stop : Option Nat) : (fuel : Nat) → Memory → Option Nat → Option Memory
  | 0, _, _ => none
  | _ + 1, m, none => some m
  | fuel + 1, m, some x =>
      if some x = stop then some m
      else do
        let page ← m.page x
        let m ← m.free x
        freeChain stop fuel m page.prev

/-- `deallocate`: the pages on the free stack, and then those before the first page. -/
def deallocate (m : Memory) (root : Nat) : Option Memory := do
  let arena ← m.page root
  let m ← freeChain (some root) (m.next + 1) m arena.freeStack
  freeChain none (m.next + 1) m (some root)

/-- The page that a request for `size` bytes gets when the current one is full: the top of the free stack if it is
large enough, else a new page, if the system grants it. -/
def takePage (m : Memory) (root : Nat) (arena current : ArenaPage) (size align : Nat) (granted : Bool) :
    Option (Memory × Nat) :=
  let newPageSize := if size > current.pageSize then alignPow2 size align else current.pageSize
  let newPage := if granted then some (m.allocate newPageSize) else none
  match arena.freeStack with
  | none => newPage
  | some top =>
      match m.page top with
      | none => none
      | some page =>
          if page.pageSize > size then
            let rest := if page.prev = some root then none else page.prev
            some ((m.modify root fun p => { p with freeStack := rest }).modify top fun p =>
              { p with current := top, pageOffset := headerSize }, top)
          else newPage

/-- `push`: the page and the offset in it of the region that is returned. -/
def push (m : Memory) (root size align : Nat) (granted : Bool) : Option (Memory × Nat × Nat) := do
  let arena ← m.page root
  let current ← m.page arena.current
  let before := alignPow2 current.pageOffset align
  let after := u64 (before + size)
  if after > u64 (headerSize + current.pageSize) then
    let (m, new) ← takePage m root arena current size align granted
    let m := m.modify new fun p =>
      { p with baseOffset := u64 (current.baseOffset + headerSize + current.pageSize), prev := some arena.current }
    let m := m.modify root fun p => { p with current := new }
    let page ← m.page new
    let before := alignPow2 page.pageOffset align
    let after := u64 (before + size)
    if after ≤ u64 (headerSize + page.pageSize) then
      some (m.modify new fun p => { p with pageOffset := after }, new, before)
    else none
  else some (m.modify arena.current fun p => { p with pageOffset := after }, arena.current, before)

/-- `offset`. -/
def offset (m : Memory) (root : Nat) : Option Nat := do
  let arena ← m.page root
  let current ← m.page arena.current
  some (u64 (current.baseOffset + current.pageOffset))

/-- `pop_to`: the loop over the pages behind the offset, and what stands after it. -/
def popTo (root offset : Nat) : (fuel : Nat) → Memory → Option Memory
  | 0, _ => none
  | fuel + 1, m => do
      let arena ← m.page root
      let current ← m.page arena.current
      if offset < u64 (current.baseOffset + headerSize) then
        let prev ← current.prev
        let m ← (m.modify root fun p => { p with current := prev }).free arena.current
        popTo root offset fuel m
      else if current.baseOffset < offset ∧ offset < u64 (current.baseOffset + headerSize) then none
      else some (m.modify arena.current fun p => { p with pageOffset := max (offset - current.baseOffset) headerSize })

/-- `clear`. -/
def clear (m : Memory) (root : Nat) : Option Memory := do
  let arena ← m.page root
  let m := m.modify root fun p => { p with pageOffset := headerSize }
  if arena.current ≠ root then
    some (m.modify root fun p => { p with freeStack := some p.current, current := root })
  else some m

end Memory

/-! ### Arenas -/

/-- A region that `push` returned. -/
structure Region where
  page : Nat
  start : Nat
  size : Nat
  align : Nat
  deriving DecidableEq

/-- What is live: a region, or an offset that was asked for. -/
inductive Entry where
  | region (r : Region)
  | mark (offset : Nat)
  deriving DecidableEq

/-- An arena and what its user holds of it, the latest first. -/
structure Sys where
  mem : Memory
  root : Nat
  held : List Entry

inductive Op where
  | push (size align : Nat) (granted : Bool)
  | offset
  | popTo (index : Nat)
  | clear
  deriving DecidableEq

namespace Sys

def create (pageSize : Nat) (backing : Bool) : Sys :=
  let (m, root) := Memory.allocate ⟨fun _ => none, 0, [], none⟩ pageSize
  ⟨{ m with backing := if backing then some root else none }, root, []⟩

/-- A pop goes to the `index`-th of what is held, an offset; the regions behind it are gone then, and so are the
offsets. -/
def step (s : Sys) : Op → Option Sys
  | .push size align granted =>
      (s.mem.push s.root size align granted).map fun r =>
        { s with mem := r.1, held := .region ⟨r.2.1, r.2.2, size, align⟩ :: s.held }
  | .offset => (s.mem.offset s.root).map fun offset => { s with held := .mark offset :: s.held }
  | .popTo index =>
      match s.held[index]? with
      | some (.mark offset) =>
          (Memory.popTo s.root offset (s.mem.next + 1) s.mem).map fun m =>
            { s with mem := m, held := s.held.drop index }
      | some (.region _) => none
      | none => none
  | .clear => (s.mem.clear s.root).map fun m => { s with mem := m, held := [] }

/-- The destructor. -/
def destroy (s : Sys) : Option Memory := s.mem.deallocate s.root

def regions (s : Sys) : List Region := s.held.filterMap fun
  | .region r => some r
  | .mark _ => none

end Sys

end Plexdb.Arena
