import Mathlib

/-! Nodes of the B+tree with keys and values of fixed size (`core/btree/btree.node.cppm`, `btree.slots.cppm` and the
occupancy rules of `btree.algorithm.cppm`). A node is `node_size` bytes: the number of keys, the links to the nodes
on its left and right, the keys, and the values of a leaf or the children of an internal node. -/

namespace Plexdb.BTree

abbrev NodeRef := Nat

structure Header where
  depth : Nat
  size : Nat
  root : NodeRef
  leaves : NodeRef
  maxKeyBytes : Nat
  deriving DecidableEq, Repr

/-- A leaf: its keys, each with its value. -/
structure Leaf (κ ν : Type) where
  prev : NodeRef
  next : NodeRef
  entries : List (κ × ν)
  deriving DecidableEq, Repr

/-- An internal node; its children are references, or the subtrees they stand for. -/
structure Internal (κ τ : Type) where
  prev : NodeRef
  next : NodeRef
  keys : List κ
  children : List τ
  deriving DecidableEq, Repr

def Leaf.keys {κ ν : Type} (l : Leaf κ ν) : List κ := l.entries.map (·.1)

def Internal.map {κ τ τ' : Type} (f : τ → τ') (n : Internal κ τ) : Internal κ τ' :=
  ⟨n.prev, n.next, n.keys, n.children.map f⟩

/-! ### Sizes -/

def u16 (n : Nat) : Nat := n % 2 ^ 16

/-- `sizeof(Node)`. -/
def nodeHeaderBytes : Nat := 24

/-- `max_keys_internal`; the node has room for one key. -/
def maxKeysInternal (nodeSize keyStride : Nat) : Option Nat :=
  if nodeHeaderBytes + keyStride + 2 * 8 ≤ nodeSize then
    some (min ((nodeSize - nodeHeaderBytes - 8) / (keyStride + 8)) (2 ^ 16 - 1))
  else none

/-- `max_keys_leaf`; the node has room for one key. -/
def maxKeysLeaf (nodeSize keyStride valueStride : Nat) : Option Nat :=
  if nodeHeaderBytes + keyStride + valueStride ≤ nodeSize then
    some (min ((nodeSize - nodeHeaderBytes) / (keyStride + valueStride)) (2 ^ 16 - 1))
  else none

/-- How nodes lie in the pages of a store. `copyNode dst src` is what `dst` holds after the iterator has copied
`src` over it, and `valueAt` the value the iterator reads from its copy; both know the node size as a `U16`. -/
structure Layout (P κ ν : Type) where
  nodeSize : Nat
  keyStride : Nat
  valueStride : Nat
  blank : P
  header : P → Header
  setHeader : Header → P → P
  prev : P → NodeRef
  next : P → NodeRef
  setPrev : NodeRef → P → P
  setNext : NodeRef → P → P
  entries : P → List (κ × ν)
  setEntries : List (κ × ν) → P → P
  keys : P → List κ
  children : P → List NodeRef
  setInternal : List κ → List NodeRef → P → P
  copyNode : P → P → P
  valueAt : P → Nat → Option ν

namespace Layout

variable {P κ ν : Type} (L : Layout P κ ν)

def leaf (p : P) : Leaf κ ν := ⟨L.prev p, L.next p, L.entries p⟩

def internal (p : P) : Internal κ NodeRef := ⟨L.prev p, L.next p, L.keys p, L.children p⟩

def leafCapacity : Nat := (maxKeysLeaf L.nodeSize L.keyStride L.valueStride).getD 0

def internalCapacity : Nat := (maxKeysInternal L.nodeSize L.keyStride).getD 0

def leafWidth : Nat := L.keyStride + L.valueStride

def internalWidth : Nat := L.keyStride + 8

def isLeafFull (l : Leaf κ ν) : Bool := L.leafCapacity ≤ l.entries.length

def isInternalFull {τ : Type} (n : Internal κ τ) : Bool := L.internalCapacity ≤ n.keys.length

/-- The byte counts are `U16`s. -/
def isUnderfullLeaf (l : Leaf κ ν) : Bool :=
  u16 (l.entries.length * L.leafWidth) * 2 < u16 (L.leafCapacity * L.leafWidth)

def isUnderfullInternal {τ : Type} (n : Internal κ τ) : Bool :=
  n.keys.length = 0 ∨ u16 (n.keys.length * L.internalWidth) * 2 < u16 (L.internalCapacity * L.internalWidth)

/-- What reading a node gives after it was written. -/
structure Lawful (Fits : NodeRef → Prop) (FitsSize : Nat → Prop) : Prop where
  fits_prev : ∀ p, Fits (L.prev p)
  fits_next : ∀ p, Fits (L.next p)
  fits_children : ∀ p, ∀ c ∈ L.children p, Fits c
  fitsSize_of_le : ∀ {m n}, m ≤ n → FitsSize n → FitsSize m
  leaf_blank : L.leaf L.blank = ⟨0, 0, []⟩
  internal_blank : L.internal L.blank = ⟨0, 0, [], [0]⟩
  header_setHeader : ∀ {hd p}, FitsSize hd.depth → FitsSize hd.size → Fits hd.root → Fits hd.leaves →
    hd.maxKeyBytes < 2 ^ 16 → L.header (L.setHeader hd p) = hd
  leaf_setPrev : ∀ {r p}, Fits r → L.leaf (L.setPrev r p) = { L.leaf p with prev := r }
  leaf_setNext : ∀ {r p}, Fits r → L.leaf (L.setNext r p) = { L.leaf p with next := r }
  internal_setPrev : ∀ {r p}, Fits r → L.internal (L.setPrev r p) = { L.internal p with prev := r }
  internal_setNext : ∀ {r p}, Fits r → L.internal (L.setNext r p) = { L.internal p with next := r }
  leaf_setEntries : ∀ {es p}, es.length ≤ L.leafCapacity → L.leaf (L.setEntries es p) = { L.leaf p with entries := es }
  internal_setInternal : ∀ {ks cs p}, ks.length ≤ L.internalCapacity → cs.length = ks.length + 1 →
    (∀ c ∈ cs, Fits c) → L.internal (L.setInternal ks cs p) = { L.internal p with keys := ks, children := cs }
  copyNode : L.nodeSize < 2 ^ 16 → ∀ {dst src}, L.copyNode dst src = src
  valueAt : L.nodeSize < 2 ^ 16 → ∀ {p i}, L.valueAt p i = ((L.leaf p).entries[i]?).map (·.2)

end Layout

/-! ### Search within a node -/

/-- The loop of `binary_search` between `lo` and `hi`; `below` says whether a key is to the left. -/
def searchLoop {κ : Type} (below : κ → Bool) (keys : List κ) : (fuel lo hi : Nat) → Nat
  | 0, lo, _ => lo
  | fuel + 1, lo, hi =>
      if lo < hi then
        let mid := lo + (hi - lo) / 2
        match keys[mid]? with
        | some k => if below k then searchLoop below keys fuel (mid + 1) hi else searchLoop below keys fuel lo mid
        | none => lo
      else lo

def binarySearch {κ : Type} (below : κ → Bool) (keys : List κ) : Nat :=
  searchLoop below keys keys.length 0 keys.length

section

variable {κ ν τ : Type} [LinearOrder κ]

def bsearchGeq (keys : List κ) (key : κ) : Nat := binarySearch (· < key) keys

def bsearchGt (keys : List κ) (key : κ) : Nat := binarySearch (· ≤ key) keys

/-- `leaf_bsearch_lt`: the number of keys where there is none. -/
def bsearchLt (keys : List κ) (key : κ) : Nat :=
  if bsearchGeq keys key = 0 then keys.length else bsearchGeq keys key - 1

def bsearchLeq (keys : List κ) (key : κ) : Nat :=
  if bsearchGt keys key = 0 then keys.length else bsearchGt keys key - 1

def keyEq (keys : List κ) (idx : Nat) (key : κ) : Bool := keys[idx]? = some key

/-! ### Changes to a node -/

/-- `leaf_upsert`, and whether the key is new. -/
def Leaf.upsert (l : Leaf κ ν) (idx : Nat) (key : κ) (value : ν) : Leaf κ ν × Bool :=
  if keyEq l.keys idx key then ({ l with entries := l.entries.set idx (key, value) }, false)
  else ({ l with entries := l.entries.insertIdx idx (key, value) }, true)

def Leaf.remove (l : Leaf κ ν) (idx : Nat) : Leaf κ ν := { l with entries := l.entries.eraseIdx idx }

/-- `split_index_leaf` and `split_index_internal`. -/
def splitIndex (keyCount : Nat) : Nat := (keyCount + 1) / 2

/-- The left half, the separator and the right half; the right one is not linked yet. -/
def Leaf.split (l : Leaf κ ν) : Option (Leaf κ ν × κ × Leaf κ ν) := do
  let m := splitIndex l.entries.length
  let sep ← l.keys[m]?
  some ({ l with entries := l.entries.take m }, sep, ⟨0, 0, l.entries.drop m⟩)

def Internal.split (n : Internal κ τ) : Option (Internal κ τ × κ × Internal κ τ) := do
  let m := splitIndex n.keys.length
  let sep ← n.keys[m - 1]?
  some ({ n with keys := n.keys.take (m - 1), children := n.children.take m }, sep,
    ⟨0, 0, n.keys.drop m, n.children.drop m⟩)

/-- `internal_insert_entry`. -/
def Internal.insertEntry (n : Internal κ τ) (idx : Nat) (sep : κ) (child : τ) : Internal κ τ :=
  { n with keys := n.keys.insertIdx idx sep, children := n.children.insertIdx (idx + 1) child }

/-- Remove the key at `idx` and the child behind it. -/
def Internal.removeEntry (n : Internal κ τ) (idx : Nat) : Internal κ τ :=
  { n with keys := n.keys.eraseIdx idx, children := n.children.eraseIdx (idx + 1) }

def Internal.setSep (n : Internal κ τ) (idx : Nat) (sep : κ) : Internal κ τ := { n with keys := n.keys.set idx sep }

/-- `transfer_from_left` between leaves: the separator, the left node and the node itself. -/
def Leaf.transferFromLeft (left node : Leaf κ ν) : Option (κ × Leaf κ ν × Leaf κ ν) := do
  let e ← left.entries.getLast?
  some (e.1, { left with entries := left.entries.dropLast }, { node with entries := e :: node.entries })

/-- `transfer_from_left` between internal nodes, through the separator `sep` of the parent. -/
def Internal.transferFromLeft (sep : κ) (left node : Internal κ τ) : Option (κ × Internal κ τ × Internal κ τ) := do
  let k ← left.keys.getLast?
  let child ← left.children.getLast?
  some (k, { left with keys := left.keys.dropLast, children := left.children.dropLast },
    { node with keys := sep :: node.keys, children := child :: node.children })

/-- `transfer_from_right` between leaves: the separator, the node itself and the right node. -/
def Leaf.transferFromRight (node right : Leaf κ ν) : Option (κ × Leaf κ ν × Leaf κ ν) := do
  let e ← right.entries.head?
  let first ← right.entries.tail.head?
  some (first.1, { node with entries := node.entries ++ [e] }, { right with entries := right.entries.tail })

def Internal.transferFromRight (sep : κ) (node right : Internal κ τ) :
    Option (κ × Internal κ τ × Internal κ τ) := do
  let k ← right.keys.head?
  let child ← right.children.head?
  some (k, { node with keys := node.keys ++ [sep], children := node.children ++ [child] },
    { right with keys := right.keys.tail, children := right.children.tail })

/-- `merge`: the left node takes over what the right one holds, and its link to the right. -/
def Leaf.merge (a b : Leaf κ ν) : Leaf κ ν := { a with next := b.next, entries := a.entries ++ b.entries }

def Internal.merge (sep : κ) (a b : Internal κ τ) : Internal κ τ :=
  { a with next := b.next, keys := a.keys ++ sep :: b.keys, children := a.children ++ b.children }

end

end Plexdb.BTree
