import Plexdb.BTreeNode

/-! B+trees as trees. The references of the nodes and the links between them are kept, so that a tree says what the
pages of its nodes hold. -/

namespace Plexdb.BTree

variable {κ ν : Type}

/-- What the page `ref` holds. -/
structure Located (α : Type) where
  ref : NodeRef
  node : α

/-- The root node of a tree with `n` levels below the root. -/
def Content (κ ν : Type) : Nat → Type
  | 0 => Leaf κ ν
  | n + 1 => Internal κ (Located (Content κ ν n))

abbrev Tree (κ ν : Type) (n : Nat) := Located (Content κ ν n)

namespace Content

def keyCount : {n : Nat} → Content κ ν n → Nat
  | 0, (l : Leaf κ ν) => l.entries.length
  | _ + 1, (c : Internal κ (Tree κ ν _)) => c.keys.length

def prev : {n : Nat} → Content κ ν n → NodeRef
  | 0, (l : Leaf κ ν) => l.prev
  | _ + 1, (c : Internal κ (Tree κ ν _)) => c.prev

def next : {n : Nat} → Content κ ν n → NodeRef
  | 0, (l : Leaf κ ν) => l.next
  | _ + 1, (c : Internal κ (Tree κ ν _)) => c.next

def setPrev (r : NodeRef) : {n : Nat} → Content κ ν n → Content κ ν n
  | 0, (l : Leaf κ ν) => ({ l with prev := r } : Leaf κ ν)
  | _ + 1, (c : Internal κ (Tree κ ν _)) => ({ c with prev := r } : Internal κ (Tree κ ν _))

def setNext (r : NodeRef) : {n : Nat} → Content κ ν n → Content κ ν n
  | 0, (l : Leaf κ ν) => ({ l with next := r } : Leaf κ ν)
  | _ + 1, (c : Internal κ (Tree κ ν _)) => ({ c with next := r } : Internal κ (Tree κ ν _))

def split : {n : Nat} → Content κ ν n → Option (Content κ ν n × κ × Content κ ν n)
  | 0, (l : Leaf κ ν) => Leaf.split l
  | _ + 1, (c : Internal κ (Tree κ ν _)) => Internal.split c

def merge (sep : κ) : {n : Nat} → Content κ ν n → Content κ ν n → Content κ ν n
  | 0, (a : Leaf κ ν), (b : Leaf κ ν) => Leaf.merge a b
  | _ + 1, (a : Internal κ (Tree κ ν _)), (b : Internal κ (Tree κ ν _)) => Internal.merge sep a b

def transferFromLeft (sep : κ) : {n : Nat} → Content κ ν n → Content κ ν n →
    Option (κ × Content κ ν n × Content κ ν n)
  | 0, (a : Leaf κ ν), (b : Leaf κ ν) => Leaf.transferFromLeft a b
  | _ + 1, (a : Internal κ (Tree κ ν _)), (b : Internal κ (Tree κ ν _)) => Internal.transferFromLeft sep a b

def transferFromRight (sep : κ) : {n : Nat} → Content κ ν n → Content κ ν n →
    Option (κ × Content κ ν n × Content κ ν n)
  | 0, (a : Leaf κ ν), (b : Leaf κ ν) => Leaf.transferFromRight a b
  | _ + 1, (a : Internal κ (Tree κ ν _)), (b : Internal κ (Tree κ ν _)) => Internal.transferFromRight sep a b

section

variable {P : Type} (L : Layout P κ ν)

def capacity : Nat → Nat
  | 0 => L.leafCapacity
  | _ + 1 => L.internalCapacity

def isFull {n : Nat} (c : Content κ ν n) : Bool := capacity L n ≤ c.keyCount

def isUnderfull : {n : Nat} → Content κ ν n → Bool
  | 0, (l : Leaf κ ν) => L.isUnderfullLeaf l
  | _ + 1, (c : Internal κ (Tree κ ν _)) => L.isUnderfullInternal c

def hasSpare {n : Nat} (c : Content κ ν n) : Bool := 2 ≤ c.keyCount && !c.isUnderfull L

end

end Content

namespace Tree

/-- The root node of a tree that is only a leaf. -/
abbrev leaf (t : Tree κ ν 0) : Leaf κ ν := t.node

abbrev internal {n : Nat} (t : Tree κ ν (n + 1)) : Internal κ (Tree κ ν n) := t.node

def ofLeaf (ref : NodeRef) (l : Leaf κ ν) : Tree κ ν 0 := ⟨ref, l⟩

def branch {n : Nat} (ref prev next : NodeRef) (keys : List κ) (children : List (Tree κ ν n)) : Tree κ ν (n + 1) :=
  ⟨ref, (⟨prev, next, keys, children⟩ : Internal κ (Tree κ ν n))⟩

/-! ### What a tree holds -/

/-- The references of the nodes. -/
def refs : {n : Nat} → Tree κ ν n → List NodeRef
  | 0, t => [t.ref]
  | _ + 1, t => t.ref :: (internal t).children.flatMap refs

def entries : {n : Nat} → Tree κ ν n → List (κ × ν)
  | 0, t => (leaf t).entries
  | _ + 1, t => (internal t).children.flatMap entries

end Tree

/-- A key where it stands in a tree from left to right: a separator, or the key of an entry. -/
inductive Mark (κ : Type) where
  | sep (k : κ)
  | key (k : κ)

/-- The marks of a node: those of its children, with its separators between them. -/
def interleave : List κ → List (List (Mark κ)) → List (Mark κ)
  | k :: ks, m :: ms => m ++ .sep k :: interleave ks ms
  | _, ms => ms.flatten

def Tree.marks : {n : Nat} → Tree κ ν n → List (Mark κ)
  | 0, t => (leaf t).keys.map .key
  | _ + 1, t => interleave (internal t).keys ((internal t).children.map marks)

/-- Of two keys the left one is below, and a separator may equal the key on its right. -/
def Mark.Before [LinearOrder κ] : Mark κ → Mark κ → Prop
  | .sep a, .sep b => a < b
  | .sep a, .key b => a ≤ b
  | .key a, .sep b => a < b
  | .key a, .key b => a < b

namespace Tree

def Ordered [LinearOrder κ] {n : Nat} (t : Tree κ ν n) : Prop := t.marks.Pairwise Mark.Before

/-! ### The shape -/

section

variable {P : Type} (L : Layout P κ ν)

/-- No node is beyond its capacity, and none but the root is without keys. -/
def Shaped : {n : Nat} → Tree κ ν n → Prop
  | 0, t => (leaf t).entries.length ≤ L.leafCapacity
  | _ + 1, t => (internal t).keys.length ≤ L.internalCapacity ∧
      (internal t).children.length = (internal t).keys.length + 1 ∧
      ∀ c ∈ (internal t).children, Shaped c ∧ 0 < c.node.keyCount

end

/-! ### The links -/

/-- The leftmost node of each level. -/
def firsts : {n : Nat} → Tree κ ν n → Nat → NodeRef
  | _, t, 0 => t.ref
  | 0, _, _ + 1 => 0
  | _ + 1, t, k + 1 => match (internal t).children with
      | [] => 0
      | c :: _ => firsts c k

/-- The nodes to the right of a list of trees: `exits` says what is behind the last. -/
def firstsOf {n : Nat} : List (Tree κ ν n) → (Nat → NodeRef) → Nat → NodeRef
  | [], exits => exits
  | c :: _, _ => c.firsts

/-- Each tree satisfies `R` with what is to its right. -/
def Chain {n : Nat} (R : Tree κ ν n → (Nat → NodeRef) → Prop) : List (Tree κ ν n) → (Nat → NodeRef) → Prop
  | [], _ => True
  | c :: cs, exits => R c (firstsOf cs exits) ∧ Chain R cs exits

/-- Each node is linked to the node on its right in its level; `exits` says what is to the right of the tree. -/
def Linked : {n : Nat} → Tree κ ν n → (exits : Nat → NodeRef) → Prop
  | 0, t, exits => t.node.next = exits 0
  | _ + 1, t, exits => t.node.next = exits 0 ∧
      Chain (fun c e => Linked c e) (internal t).children fun k => exits (k + 1)

/-! ### In a heap -/

/-- The pages of the nodes hold them. -/
def Stored {P : Type} (L : Layout P κ ν) (h : Nat → Option P) : {n : Nat} → Tree κ ν n → Prop
  | 0, t => ∃ p, h t.ref = some p ∧ L.leaf p = leaf t
  | _ + 1, t => (∃ p, h t.ref = some p ∧ L.internal p = (internal t).map Located.ref) ∧
      ∀ c ∈ (internal t).children, Stored L h c

end Tree

/-! ### Trees by their parts -/

namespace Tree

variable {P : Type} {L : Layout P κ ν} {n : Nat} {ref prev next : NodeRef} {keys : List κ}
  {children : List (Tree κ ν n)}
  {l : Leaf κ ν} {exits : Nat → NodeRef} {h : Nat → Option P}

theorem exists_branch (t : Tree κ ν (n + 1)) : ∃ prev next keys children, t = branch t.ref prev next keys children :=
  ⟨_, _, _, _, rfl⟩

theorem exists_ofLeaf (t : Tree κ ν 0) : ∃ l, t = ofLeaf t.ref l := ⟨_, rfl⟩

@[simp] theorem ref_branch : (branch ref prev next keys children).ref = ref := rfl

@[simp] theorem ref_ofLeaf : (ofLeaf ref l).ref = ref := rfl

@[simp] theorem keyCount_branch : (branch ref prev next keys children).node.keyCount = keys.length := rfl

@[simp] theorem keyCount_ofLeaf : (ofLeaf ref l).node.keyCount = l.entries.length := rfl

@[simp] theorem refs_branch : (branch ref prev next keys children).refs = ref :: children.flatMap refs := rfl

@[simp] theorem refs_ofLeaf : (ofLeaf ref l).refs = [ref] := rfl

@[simp] theorem entries_branch : (branch ref prev next keys children).entries = children.flatMap entries := rfl

@[simp] theorem entries_ofLeaf : (ofLeaf ref l).entries = l.entries := rfl

@[simp] theorem marks_branch : (branch ref prev next keys children).marks = interleave keys (children.map marks) := rfl

@[simp] theorem marks_ofLeaf : (ofLeaf ref l).marks = l.keys.map .key := rfl

theorem shaped_branch : (branch ref prev next keys children).Shaped L ↔ keys.length ≤ L.internalCapacity ∧
    children.length = keys.length + 1 ∧ ∀ c ∈ children, c.Shaped L ∧ 0 < c.node.keyCount := Iff.rfl

theorem shaped_ofLeaf : (ofLeaf ref l).Shaped L ↔ l.entries.length ≤ L.leafCapacity := Iff.rfl

theorem linked_branch : (branch ref prev next keys children).Linked exits ↔ next = exits 0 ∧
    Chain Linked children fun k => exits (k + 1) := Iff.rfl

theorem linked_ofLeaf : (ofLeaf ref l).Linked exits ↔ l.next = exits 0 := Iff.rfl

theorem stored_branch : (branch ref prev next keys children).Stored L h ↔
    (∃ p, h ref = some p ∧ L.internal p = ⟨prev, next, keys, children.map Located.ref⟩) ∧
      ∀ c ∈ children, c.Stored L h := Iff.rfl

theorem stored_ofLeaf : (ofLeaf ref l).Stored L h ↔ ∃ p, h ref = some p ∧ L.leaf p = l := Iff.rfl

theorem firsts_zero (t : Tree κ ν n) : t.firsts 0 = t.ref := by
  cases n <;> rfl

theorem firsts_branch_cons {c : Tree κ ν n} {k : Nat} :
    (branch ref prev next keys (c :: children)).firsts (k + 1) = c.firsts k := rfl

theorem ref_mem_refs (t : Tree κ ν n) : t.ref ∈ t.refs := by
  cases n with
  | zero => exact List.mem_singleton_self _
  | succ n => exact List.mem_cons_self

/-- The pages outside a tree may change. -/
theorem Stored.congr {h' : Nat → Option P} {t : Tree κ ν n} (ht : t.Stored L h) (heq : ∀ i ∈ t.refs, h' i = h i) :
    t.Stored L h' := by
  induction n with
  | zero =>
      obtain ⟨p, hp, hleaf⟩ := ht
      exact ⟨p, (heq _ t.ref_mem_refs).trans hp, hleaf⟩
  | succ n ih =>
      obtain ⟨⟨p, hp, hnode⟩, hchildren⟩ := ht
      refine ⟨⟨p, (heq _ t.ref_mem_refs).trans hp, hnode⟩, fun c hc => ih (hchildren c hc) fun i hi => ?_⟩
      exact heq i (List.mem_cons_of_mem _ (List.mem_flatMap_of_mem hc hi))

theorem Stored.exists_page {t : Tree κ ν n} (ht : t.Stored L h) {i : NodeRef} (hi : i ∈ t.refs) :
    ∃ p, h i = some p := by
  induction n with
  | zero =>
      obtain ⟨p, hp, -⟩ := ht
      exact ⟨p, (List.mem_singleton.mp hi) ▸ hp⟩
  | succ n ih =>
      obtain ⟨⟨p, hp, -⟩, hchildren⟩ := ht
      rcases List.mem_cons.mp hi with rfl | hi
      · exact ⟨p, hp⟩
      · obtain ⟨c, hc, hi⟩ := List.mem_flatMap.mp hi
        exact ih (hchildren c hc) hi

end Tree

end Plexdb.BTree
