import Plexdb.BTreeAccess
import Plexdb.BTreeBalance

/-! Paths into a B+tree: the nodes above a subtree, each with what stands on both sides of the way down. -/

namespace Plexdb.BTree

/-- A node without one of its children. -/
structure Frame (κ ν : Type) (n : Nat) where
  ref : NodeRef
  prev : NodeRef
  next : NodeRef
  kl : List κ
  kr : List κ
  cl : List (Tree κ ν n)
  cr : List (Tree κ ν n)

/-- The way from a subtree with `n` levels below its root up to the root of a tree with `N`. -/
inductive Path (κ ν : Type) (N : Nat) : Nat → Type where
  | top : Path κ ν N N
  | step {n : Nat} (frame : Frame κ ν n) (up : Path κ ν N (n + 1)) : Path κ ν N n

variable {κ ν : Type} {N n : Nat}

def Frame.plug (f : Frame κ ν n) (c : Tree κ ν n) : Tree κ ν (n + 1) :=
  Tree.branch f.ref f.prev f.next (f.kl ++ f.kr) (f.cl ++ c :: f.cr)

namespace Path

/-- The whole tree. -/
def plug : {n : Nat} → Path κ ν N n → Tree κ ν n → Tree κ ν N
  | _, top, c => c
  | _, step f up, c => up.plug (f.plug c)

/-- The stack of `remove_impl`. -/
def stack : {n : Nat} → Path κ ν N n → List (NodeRef × Nat)
  | _, top => []
  | _, step f up => (f.ref, f.cl.length) :: up.stack

section

variable {P : Type} (L : Layout P κ ν)

/-- The nodes of the path have keys, between as many children, and no more than there is room for. -/
def Shaped : {n : Nat} → Path κ ν N n → Prop
  | _, top => True
  | _, step f up => f.kl.length = f.cl.length ∧ f.kr.length = f.cr.length ∧ 0 < (f.kl ++ f.kr).length ∧
      (f.kl ++ f.kr).length ≤ L.internalCapacity ∧ (∀ c ∈ f.cl ++ f.cr, c.Shaped L ∧ 0 < c.node.keyCount) ∧ up.Shaped

end

@[simp] theorem plug_top (c : Tree κ ν N) : (top : Path κ ν N N).plug c = c := rfl

@[simp] theorem plug_step (f : Frame κ ν n) (up : Path κ ν N (n + 1)) (c : Tree κ ν n) :
    (step f up).plug c = up.plug (f.plug c) := rfl

@[simp] theorem stack_top : (top : Path κ ν N N).stack = [] := rfl

@[simp] theorem stack_step (f : Frame κ ν n) (up : Path κ ν N (n + 1)) :
    (step f up).stack = (f.ref, f.cl.length) :: up.stack := rfl

end Path

/-! ### What a path carries up -/

variable {P : Type} {L : Layout P κ ν} {h h' : Nat → Option P} {c c' : Tree κ ν n} {freed : List NodeRef}

theorem Path.Shaped.plug {p : Path κ ν N n} (hp : p.Shaped L) (hc : c.Shaped L) (hpos : 0 < c.node.keyCount) :
    (p.plug c).Shaped L ∧ 0 < (p.plug c).node.keyCount := by
  induction p with
  | top => exact ⟨hc, hpos⟩
  | step f up ih =>
      obtain ⟨hl, hr, hkeys, hcap, hsiblings, hup⟩ := hp
      refine ih hup (Tree.shaped_branch.mpr ⟨hcap, ?_, fun d hd => ?_⟩) hkeys
      · simp only [List.length_append, List.length_cons]
        omega
      · rcases List.mem_append.mp hd with hd | hd
        · exact hsiblings d (List.mem_append_left _ hd)
        · rcases List.mem_cons.mp hd with rfl | hd
          · exact ⟨hc, hpos⟩
          · exact hsiblings d (List.mem_append_right _ hd)

/-- The entries on both sides of a subtree. -/
theorem Path.entries_plug (p : Path κ ν N n) : ∃ A B, ∀ c, (p.plug c).entries = A ++ (c.entries ++ B) := by
  induction p with
  | top => exact ⟨[], [], fun c => (List.append_nil _).symm⟩
  | step f up ih =>
      obtain ⟨A, B, hup⟩ := ih
      refine ⟨A ++ f.cl.flatMap Tree.entries, f.cr.flatMap Tree.entries ++ B, fun c => ?_⟩
      rw [Path.plug_step, hup, Frame.plug, Tree.entries_branch, List.flatMap_append, List.flatMap_cons]
      simp only [List.append_assoc]

theorem Path.refs_subset (p : Path κ ν N n) (c : Tree κ ν n) : ∀ i ∈ c.refs, i ∈ (p.plug c).refs := by
  induction p with
  | top => exact fun i hi => hi
  | step f up ih =>
      intro i hi
      refine ih (f.plug c) i (List.mem_cons_of_mem _ (List.mem_flatMap_of_mem ?_ hi))
      exact List.mem_append_right _ List.mem_cons_self

theorem Path.shaped_of_plug (p : Path κ ν N n) (hp : (p.plug c).Shaped L) : c.Shaped L := by
  induction p with
  | top => exact hp
  | step f up ih => exact ((Tree.shaped_branch.mp (ih hp)).2.2 c (List.mem_append_right _ List.mem_cons_self)).1

theorem Path.stored_of_plug (p : Path κ ν N n) (hp : (p.plug c).Stored L h) : c.Stored L h := by
  induction p with
  | top => exact hp
  | step f up ih => exact (Tree.stored_branch.mp (ih hp)).2 c (List.mem_append_right _ List.mem_cons_self)

theorem Path.nodup_of_plug (p : Path κ ν N n) (hp : (p.plug c).refs.Nodup) : c.refs.Nodup := by
  induction p with
  | top => exact hp
  | step f up ih =>
      have hnodup := (List.nodup_cons.mp (ih hp)).2
      change ((f.cl ++ c :: f.cr).flatMap Tree.refs).Nodup at hnodup
      rw [List.flatMap_append, List.flatMap_cons] at hnodup
      exact (List.nodup_append.mp (List.nodup_append.mp hnodup).2.1).1

/-- A subtree is rewritten and the nodes outside it are as they were. -/
theorem Path.stored_replace (p : Path κ ν N n) (hp : (p.plug c).Stored L h) (hnodup : (p.plug c).refs.Nodup)
    (hc : c'.Stored L h') (href : c'.ref = c.ref) (hframe : ∀ i ∈ (p.plug c).refs, i ∉ c.refs → h' i = h i) :
    (p.plug c').Stored L h' := by
  induction p with
  | top => exact hc
  | step f up ih =>
      have hsub : ∀ i ∈ c.refs, i ∈ (f.plug c).refs := fun i hi =>
        List.mem_cons_of_mem _ (List.mem_flatMap_of_mem (List.mem_append_right _ List.mem_cons_self) hi)
      refine ih hp hnodup ?_ rfl fun i hi hic => hframe i hi fun hmem => hic (hsub i hmem)
      refine Tree.Stored.replace (up.stored_of_plug hp) (up.nodup_of_plug hnodup) hc href fun i hi hic => ?_
      exact hframe i (up.refs_subset _ i hi) hic

variable [LinearOrder κ]

theorem Path.ordered_of_plug {p : Path κ ν N n} (hshape : p.Shaped L) (hp : (p.plug c).Ordered) : c.Ordered := by
  induction p with
  | top => exact hp
  | step f up ih =>
      obtain ⟨hl, -, -, -, -, hup⟩ := hshape
      have hctx := (Tree.ordered_around (A := []) (B := []) hl).mp (by
        rw [List.nil_append, List.append_nil]
        exact ih hup hp)
      exact (List.pairwise_append.mp (List.pairwise_append.mp hctx).2.1).1

theorem Stands.plug {p : Path κ ν N n} (hp : p.Shaped L) (hc : Stands c c' freed) : Stands (p.plug c)
    (p.plug c') freed := by
  induction p with
  | top => exact hc
  | step f up ih => exact ih hp.2.2.2.2.2 (hc.around hp.1)

end Plexdb.BTree
