import Plexdb.BTreeNode
import Plexdb.PageProgram

/-! The operations of the B+tree (`core/btree/btree.algorithm.cppm`), as programs on the pages of any store. The
header of a tree is the page `header`; a failed assertion is `fail`. -/

namespace Plexdb.BTree

open PageProgram (assert ofOption)

variable {P κ ν α : Type}

/-! ### Access to the nodes -/

def readNode (ref : NodeRef) : PageProgram P P := .rpage ref .done

/-- `update_node`, before anything is written through the pointer. -/
def updateNode (ref : NodeRef) : PageProgram P P := .rwpage ref id .done

def writeNode (ref : NodeRef) (write : P → P) : PageProgram P Unit := .rwpage ref write fun _ => .done ()

/-- `create_internal` and `create_leaf`. -/
def createNode : PageProgram P NodeRef := .newPage .done

def deleteNode (ref : NodeRef) : PageProgram P Unit := .deletePage ref (.done ())

variable [LinearOrder κ] (L : Layout P κ ν) (header : NodeRef)

def readHeader : PageProgram P Header := do
  let p ← readNode header
  pure (L.header p)

def updateHeader (update : Header → Header) : PageProgram P Unit :=
  writeNode header fun p => L.setHeader (update (L.header p)) p

def readLeaf (ref : NodeRef) : PageProgram P (Leaf κ ν) := do
  let p ← readNode ref
  pure (L.leaf p)

def readInternal (ref : NodeRef) : PageProgram P (Internal κ NodeRef) := do
  let p ← readNode ref
  pure (L.internal p)

def updateLeaf (ref : NodeRef) : PageProgram P (Leaf κ ν) := do
  let p ← updateNode ref
  pure (L.leaf p)

def updateInternal (ref : NodeRef) : PageProgram P (Internal κ NodeRef) := do
  let p ← updateNode ref
  pure (L.internal p)

/-- Write the entries of a leaf; its links are not touched. -/
def writeLeaf (ref : NodeRef) (l : Leaf κ ν) : PageProgram P Unit := writeNode ref (L.setEntries l.entries)

def writeInternal (ref : NodeRef) (n : Internal κ NodeRef) : PageProgram P Unit :=
  writeNode ref (L.setInternal n.keys n.children)

def writeNext (ref next : NodeRef) : PageProgram P Unit := writeNode ref (L.setNext next)

def writePrev (ref prev : NodeRef) : PageProgram P Unit := writeNode ref (L.setPrev prev)

/-- `assert_sorted_leaf` and `assert_sorted_internal`. -/
def assertSorted (keys : List κ) : PageProgram P Unit := assert (keys.Pairwise (· < ·))

/-! ### `insert_impl` -/

/-- `insert_child_to_right`. -/
def insertChildToRight (parent : NodeRef) (idx : Nat) (sep : κ) (childRef : NodeRef) : PageProgram P Unit := do
  let n ← updateInternal L parent
  assert (n.keys.length < L.internalCapacity)
  writeInternal L parent (n.insertEntry idx sep childRef)
  let prevRef ← ofOption (n.insertEntry idx sep childRef).children[idx]?
  let prev ← updateNode prevRef
  writeNext L childRef (L.next prev)
  writePrev L childRef prevRef
  writeNext L prevRef childRef

def splitLeafChild (parent : NodeRef) (childIdx : Nat) : PageProgram P Unit := do
  let n ← updateInternal L parent
  let leftRef ← ofOption n.children[childIdx]?
  let left ← updateLeaf L leftRef
  let rightRef ← createNode
  assert (0 < left.entries.length)
  let (left', sep, right') ← ofOption left.split
  writeLeaf L rightRef right'
  writeLeaf L leftRef left'
  assert (1 ≤ left'.entries.length)
  assert (1 ≤ right'.entries.length)
  assert (left'.entries.length + right'.entries.length = left.entries.length)
  assertSorted left'.keys
  assertSorted right'.keys
  insertChildToRight L parent childIdx sep rightRef

def splitInternalChild (parent : NodeRef) (childIdx : Nat) : PageProgram P Unit := do
  let n ← updateInternal L parent
  let leftRef ← ofOption n.children[childIdx]?
  let left ← updateInternal L leftRef
  let rightRef ← createNode
  assert (0 < left.keys.length)
  assert (2 ≤ splitIndex left.keys.length)
  assert (splitIndex left.keys.length < left.keys.length)
  let (left', sep, right') ← ofOption left.split
  writeInternal L rightRef right'
  writeInternal L leftRef left'
  assert (1 ≤ left'.keys.length)
  assert (1 ≤ right'.keys.length)
  assert (left'.keys.length + right'.keys.length + 1 = left.keys.length)
  assertSorted left'.keys
  assertSorted right'.keys
  insertChildToRight L parent childIdx sep rightRef

def splitChild (parent : NodeRef) (childIdx : Nat) (isChildLeaf : Bool) : PageProgram P Unit :=
  if isChildLeaf then splitLeafChild L parent childIdx else splitInternalChild L parent childIdx

def isFull (isLeaf : Bool) (ref : NodeRef) : PageProgram P Bool := do
  let p ← readNode ref
  pure (if isLeaf then L.isLeafFull (L.leaf p) else L.isInternalFull (L.internal p))

def countNewKey (h : Header) : Header :=
  { h with size := h.size + 1, maxKeyBytes := max h.maxKeyBytes L.keyStride }

/-- The child to descend into, after it was split if it is full. -/
def childForInsert (ref : NodeRef) (isChildLeaf : Bool) (key : κ) : PageProgram P NodeRef := do
  let n ← readInternal L ref
  let childIdx := bsearchGt n.keys key
  let childRef ← ofOption n.children[childIdx]?
  let full ← isFull L isChildLeaf childRef
  if full then do
    splitChild L ref childIdx isChildLeaf
    let n ← readInternal L ref
    let sep ← ofOption n.keys[childIdx]?
    ofOption n.children[if key < sep then childIdx else childIdx + 1]?
  else pure childRef

/-- `insert_recursive` at a node with `height` levels below it. -/
def insertRecursive (key : κ) (value : ν) : (height : Nat) → NodeRef → PageProgram P Bool
  | 0, ref => do
      let l ← updateLeaf L ref
      let (l, isNew) := l.upsert (bsearchGeq l.keys key) key value
      writeLeaf L ref l
      assertSorted l.keys
      if isNew then do
        updateHeader L header (countNewKey L)
        pure true
      else pure false
  | height + 1, ref => do
      let childRef ← childForInsert L ref (height = 0) key
      insertRecursive key value height childRef

/-- The start of `insert_impl`: a full root becomes the only child of a new one, and is split. -/
def splitRoot : PageProgram P Unit := do
  let h ← readHeader L header
  let full ← isFull L (h.depth = 0) h.root
  if full then do
    let newRoot ← createNode
    writeNode newRoot (L.setInternal [] [h.root])
    splitChild L newRoot 0 (h.depth = 0)
    updateHeader L header fun h => { h with root := newRoot, depth := h.depth + 1 }
  else pure ()

def insertImpl (key : κ) (value : ν) : PageProgram P Bool := do
  splitRoot L header
  let h ← readHeader L header
  insertRecursive L header key value h.depth h.root

/-! ### `search_impl` -/

/-- The descent to the leaf where the key belongs. -/
def descend (key : κ) : (height : Nat) → NodeRef → PageProgram P NodeRef
  | 0, ref => pure ref
  | height + 1, ref => do
      let n ← readInternal L ref
      let childRef ← ofOption n.children[bsearchGt n.keys key]?
      descend key height childRef

def tfind (key : κ) : PageProgram P (Option ν) := do
  let h ← readHeader L header
  let ref ← descend L key h.depth h.root
  let l ← readLeaf L ref
  let idx := bsearchGeq l.keys key
  pure (if keyEq l.keys idx key then (l.entries[idx]?).map (·.2) else none)

def size : PageProgram P Nat := do
  let h ← readHeader L header
  pure h.size

/-! ### `remove_impl` -/

def transferFromLeft (parentRef leftRef nodeRef : NodeRef) (nodeIdx : Nat) (isLeaf : Bool) : PageProgram P Unit := do
  assert (1 ≤ nodeIdx)
  let parent ← readInternal L parentRef
  if isLeaf then do
    let left ← readLeaf L leftRef
    let node ← readLeaf L nodeRef
    assert (node.entries.length < L.leafCapacity)
    let (sep, left', node') ← ofOption (left.transferFromLeft node)
    writeLeaf L nodeRef node'
    writeInternal L parentRef (parent.setSep (nodeIdx - 1) sep)
    writeLeaf L leftRef left'
    assertSorted node'.keys
    assertSorted left'.keys
    assertSorted (parent.setSep (nodeIdx - 1) sep).keys
  else do
    let left ← readInternal L leftRef
    let node ← readInternal L nodeRef
    let sep ← ofOption parent.keys[nodeIdx - 1]?
    let (sep', left', node') ← ofOption (left.transferFromLeft sep node)
    writeInternal L nodeRef node'
    writeInternal L parentRef (parent.setSep (nodeIdx - 1) sep')
    writeInternal L leftRef left'
    assertSorted node'.keys
    assertSorted left'.keys
    assertSorted (parent.setSep (nodeIdx - 1) sep').keys

def transferFromRight (parentRef rightRef nodeRef : NodeRef) (nodeIdx : Nat) (isLeaf : Bool) : PageProgram P Unit := do
  let parent ← readInternal L parentRef
  assert (nodeIdx < parent.keys.length)
  if isLeaf then do
    let right ← readLeaf L rightRef
    let node ← readLeaf L nodeRef
    assert (node.entries.length < L.leafCapacity)
    let (sep, node', right') ← ofOption (node.transferFromRight right)
    writeLeaf L nodeRef node'
    writeLeaf L rightRef right'
    writeInternal L parentRef (parent.setSep nodeIdx sep)
    assertSorted node'.keys
    assertSorted right'.keys
    assertSorted (parent.setSep nodeIdx sep).keys
  else do
    let right ← readInternal L rightRef
    let node ← readInternal L nodeRef
    let sep ← ofOption parent.keys[nodeIdx]?
    let (sep', node', right') ← ofOption (node.transferFromRight sep right)
    writeInternal L nodeRef node'
    writeInternal L parentRef (parent.setSep nodeIdx sep')
    writeInternal L rightRef right'
    assertSorted node'.keys
    assertSorted right'.keys
    assertSorted (parent.setSep nodeIdx sep').keys

/-- The node `b` is emptied into `a`, on its left. -/
def merge (aRef bRef parentRef : NodeRef) (aIdx : Nat) (isLeaf : Bool) : PageProgram P Unit := do
  let parent ← readInternal L parentRef
  assert (aIdx < parent.keys.length)
  if isLeaf then do
    let a ← readLeaf L aRef
    let b ← readLeaf L bRef
    writeNext L aRef (a.merge b).next
    writeLeaf L aRef (a.merge b)
    writeInternal L parentRef (parent.removeEntry aIdx)
    assertSorted (a.merge b).keys
  else do
    let a ← readInternal L aRef
    let b ← readInternal L bRef
    let sep ← ofOption parent.keys[aIdx]?
    writeNext L aRef (a.merge sep b).next
    writeInternal L aRef (a.merge sep b)
    writeInternal L parentRef (parent.removeEntry aIdx)
    assertSorted (a.merge sep b).keys
  assertSorted (parent.removeEntry aIdx).keys

def keyCount (isLeaf : Bool) (p : P) : Nat := if isLeaf then (L.leaf p).entries.length else (L.internal p).keys.length

def isUnderfull (isLeaf : Bool) (p : P) : Bool :=
  if isLeaf then L.isUnderfullLeaf (L.leaf p) else L.isUnderfullInternal (L.internal p)

/-- Whether a sibling, none at the reference zero, can give away an entry. -/
def hasSpare (ref : NodeRef) (isLeaf : Bool) : PageProgram P Bool :=
  if ref = 0 then pure false
  else do
    let p ← updateNode ref
    pure (2 ≤ keyCount L isLeaf p && !isUnderfull L isLeaf p)

def leftSibling (parent : Internal κ NodeRef) (idx : Nat) : PageProgram P NodeRef :=
  if 0 < idx then ofOption parent.children[idx - 1]? else pure 0

def rightSibling (parent : Internal κ NodeRef) (idx : Nat) : PageProgram P NodeRef :=
  if idx < parent.keys.length then ofOption parent.children[idx + 1]? else pure 0

def countRemovedKey (h : Header) : Header := { h with size := h.size - 1 }

/-- The loop's way out at the root: a root without keys gives way to its only child. -/
def finishAtRoot (rootRef : NodeRef) (isLeaf : Bool) : PageProgram P Unit := do
  let p ← readNode rootRef
  let h ← readHeader L header
  if isUnderfull L isLeaf p ∧ keyCount L isLeaf p = 0 ∧ h.depth ≠ 0 then do
    let newRoot ← ofOption (L.internal p).children[0]?
    deleteNode rootRef
    updateHeader L header fun h => { h with root := newRoot, depth := h.depth - 1, size := h.size - 1 }
  else updateHeader L header countRemovedKey

/-- The loop that repairs an underfull node from its siblings, up the stack of its ancestors. -/
def repair : (stack : List (NodeRef × Nat)) → NodeRef → (isLeaf : Bool) → PageProgram P Unit
  | [], nodeRef, isLeaf => finishAtRoot L header nodeRef isLeaf
  | (parentRef, itemIdx) :: stack, nodeRef, isLeaf => do
      let p ← readNode nodeRef
      if isUnderfull L isLeaf p then do
        let parent ← updateInternal L parentRef
        let leftRef ← leftSibling parent itemIdx
        let leftHasSpare ← hasSpare L leftRef isLeaf
        if leftHasSpare then do
          transferFromLeft L parentRef leftRef nodeRef itemIdx isLeaf
          updateHeader L header countRemovedKey
        else do
          let rightRef ← rightSibling parent itemIdx
          let rightHasSpare ← hasSpare L rightRef isLeaf
          if rightHasSpare then do
            transferFromRight L parentRef rightRef nodeRef itemIdx isLeaf
            updateHeader L header countRemovedKey
          else do
            assert (leftRef ≠ 0 ∨ rightRef ≠ 0)
            if leftRef ≠ 0 then do
              merge L leftRef nodeRef parentRef (itemIdx - 1) isLeaf
              deleteNode nodeRef
            else do
              merge L nodeRef rightRef parentRef itemIdx isLeaf
              deleteNode rightRef
            repair stack parentRef false
      else updateHeader L header countRemovedKey

/-- The descent of `remove_impl`, with the way back up. -/
def descendForRemove (key : κ) : (height : Nat) → NodeRef → (stack : List (NodeRef × Nat)) →
    PageProgram P (NodeRef × List (NodeRef × Nat))
  | 0, ref, stack => pure (ref, stack)
  | height + 1, ref, stack => do
      let n ← readInternal L ref
      assert (1 ≤ n.keys.length)
      let idx := bsearchGt n.keys key
      let childRef ← ofOption n.children[idx]?
      descendForRemove key height childRef ((ref, idx) :: stack)

def removeImpl (key : κ) : PageProgram P Bool := do
  let h ← readHeader L header
  let (ref, stack) ← descendForRemove L key h.depth h.root []
  let l ← readLeaf L ref
  let idx := bsearchGeq l.keys key
  if keyEq l.keys idx key then do
    writeLeaf L ref (l.remove idx)
    assertSorted (l.remove idx).keys
    repair L header stack ref true
    pure true
  else pure false

/-! ### `truncate_impl` -/

/-- Free a node and those behind it, up to the last, which is handed on. -/
def deleteChain (link : P → NodeRef) : (fuel : Nat) → NodeRef → PageProgram P NodeRef
  | 0, _ => .fail
  | fuel + 1, ref => do
      let p ← readNode ref
      if link p ≠ 0 then do
        deleteNode ref
        deleteChain link fuel (link p)
      else pure ref

/-- The levels below the root, each from the node its first or last parent leads to. -/
def deleteLevels (fuel : Nat) : (height : Nat) → NodeRef → PageProgram P Unit
  | 0, _ => pure ()
  | height + 1, ref => do
      let p ← readNode ref
      if L.prev p = 0 then do
        let last ← deleteChain L.next fuel ref
        let n ← readInternal L last
        deleteNode last
        if height ≠ 0 then do
          let child ← ofOption n.children[n.keys.length]?
          deleteLevels fuel height child
        else pure ()
      else do
        assert (L.next p = 0)
        let first ← deleteChain L.prev fuel ref
        let n ← readInternal L first
        deleteNode first
        if height ≠ 0 then do
          let child ← ofOption n.children[0]?
          deleteLevels fuel height child
        else pure ()

def truncateImpl (fuel : Nat) : PageProgram P Unit := do
  let h ← readHeader L header
  let root ← updateInternal L h.root
  if 0 < h.depth then do
    let first ← ofOption root.children[0]?
    deleteLevels L fuel h.depth first
  else pure ()
  let newRoot ← createNode
  updateHeader L header fun _ => ⟨0, 0, newRoot, newRoot, 0⟩
  deleteNode h.root

/-! ### Iteration -/

/-- A copy of a leaf, and a position in it; at the end there is none. -/
structure Iterator (P : Type) where
  leaf : P
  ref : NodeRef
  idx : Nat

def Iterator.key (it : Iterator P) : Option κ := ((L.leaf it.leaf).entries[it.idx]?).map (·.1)

def Iterator.value (it : Iterator P) : Option ν := L.valueAt it.leaf it.idx

/-- The leaf at the end of the chain of first children, or of last ones. -/
def descendToEnd (last : Bool) : (height : Nat) → NodeRef → PageProgram P NodeRef
  | 0, ref => pure ref
  | height + 1, ref => do
      let n ← readInternal L ref
      assert (0 < n.keys.length)
      let childRef ← ofOption n.children[if last then n.keys.length else 0]?
      descendToEnd last height childRef

def begin_ : PageProgram P (Option (Iterator P)) := do
  let h ← readHeader L header
  if h.size = 0 then pure none
  else do
    let ref ← descendToEnd L false h.depth h.root
    let p ← readNode ref
    assert (0 < (L.leaf p).entries.length)
    pure (some ⟨p, ref, 0⟩)

def rbegin : PageProgram P (Option (Iterator P)) := do
  let h ← readHeader L header
  if h.size = 0 then pure none
  else do
    let ref ← descendToEnd L true h.depth h.root
    let p ← readNode ref
    assert (0 < (L.leaf p).entries.length)
    pure (some ⟨p, ref, (L.leaf p).entries.length - 1⟩)

/-- `next_iterator_inplace`. -/
def Iterator.advance (it : Iterator P) : PageProgram P (Option (Iterator P)) :=
  if it.idx + 1 = (L.leaf it.leaf).entries.length then
    if L.next it.leaf ≠ 0 then do
      let p ← readNode (L.next it.leaf)
      pure (some ⟨L.copyNode it.leaf p, L.next it.leaf, 0⟩)
    else pure none
  else pure (some { it with idx := it.idx + 1 })

/-- `prev_iterator_inplace`. -/
def Iterator.retreat (it : Iterator P) : PageProgram P (Option (Iterator P)) :=
  if it.idx = 0 then
    if L.prev it.leaf ≠ 0 then do
      let p ← readNode (L.prev it.leaf)
      let leaf := L.copyNode it.leaf p
      pure (some ⟨leaf, L.prev it.leaf, u16 ((L.leaf leaf).entries.length + (2 ^ 16 - 1))⟩)
    else pure none
  else pure (some { it with idx := it.idx - 1 })

/-- `search_iterator_impl` at the first key that is not below, or the first above: `search` gives the index in
the leaf. -/
def findFirst (search : List κ → κ → Nat) (key : κ) : PageProgram P (Option (Iterator P)) := do
  let h ← readHeader L header
  let ref ← descend L key h.depth h.root
  let p ← readNode ref
  let idx := search (L.leaf p).keys key
  if idx < (L.leaf p).entries.length then pure (some ⟨p, ref, idx⟩)
  else if L.next p ≠ 0 then do
    let next ← readNode (L.next p)
    pure (some ⟨next, L.next p, 0⟩)
  else pure none

/-- `search_iterator_impl` at the last key below, or not above. -/
def findLast (search : List κ → κ → Nat) (key : κ) : PageProgram P (Option (Iterator P)) := do
  let h ← readHeader L header
  let ref ← descend L key h.depth h.root
  let p ← readNode ref
  let idx := search (L.leaf p).keys key
  if idx < (L.leaf p).entries.length then pure (some ⟨p, ref, idx⟩)
  else if L.prev p ≠ 0 then do
    let prev ← readNode (L.prev p)
    if 0 < (L.leaf prev).entries.length then
      pure (some ⟨prev, L.prev p, (L.leaf prev).entries.length - 1⟩)
    else pure none
  else pure none

def findFirstGeq (key : κ) : PageProgram P (Option (Iterator P)) := findFirst L header bsearchGeq key

def findFirstGt (key : κ) : PageProgram P (Option (Iterator P)) := findFirst L header bsearchGt key

def findLastLt (key : κ) : PageProgram P (Option (Iterator P)) := findLast L header bsearchLt key

def findLastLeq (key : κ) : PageProgram P (Option (Iterator P)) := findLast L header bsearchLeq key

/-- `create_paged`; a tree in memory begins the same way. -/
def create : PageProgram P NodeRef := do
  let headerPage ← createNode
  let root ← createNode
  writeNode headerPage (L.setHeader ⟨0, 0, root, root, 0⟩)
  pure headerPage

end Plexdb.BTree
