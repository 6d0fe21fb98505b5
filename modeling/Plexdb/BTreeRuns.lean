import Plexdb.BTreeRemove
import Plexdb.BTreeSearch
import Plexdb.Runs

/-! A B+tree over whole runs, next to the dictionary it stands for. -/

namespace Plexdb.BTree

open PageProgram SortedEntries

/-! ### Calls -/

/-- A call of the interface. A walk visits so many entries, from the first one on, or from a key on. -/
inductive TreeOp (κ ν : Type) where
  | insert (key : κ) (value : ν)
  | remove (key : κ)
  | find (key : κ)
  | size
  | walk (steps : Nat)
  | walkGeq (key : κ) (steps : Nat)
  | walkGt (key : κ) (steps : Nat)

inductive Answer (κ ν : Type) where
  | flag (b : Bool)
  | value (v : Option ν)
  | count (n : Nat)
  | entries (es : List (Option κ × Option ν))
  deriving DecidableEq

variable {σ P κ ν β : Type} [LinearOrder κ]

namespace TreeOp

def program (L : Layout P κ ν) (header : NodeRef) : TreeOp κ ν → PageProgram P (Answer κ ν)
  | insert key value => do
      let isNew ← insertImpl L header key value
      pure (.flag isNew)
  | remove key => do
      let found ← removeImpl L header key
      pure (.flag found)
  | find key => do
      let value ← tfind L header key
      pure (.value value)
  | size => do
      let n ← BTree.size L header
      pure (.count n)
  | walk steps => do
      let it ← begin_ L header
      let es ← collect L steps it
      pure (.entries es)
  | walkGeq key steps => do
      let it ← findFirstGeq L header key
      let es ← collect L steps it
      pure (.entries es)
  | walkGt key steps => do
      let it ← findFirstGt L header key
      let es ← collect L steps it
      pure (.entries es)

/-- What the call makes of the dictionary. -/
def effect : TreeOp κ ν → Dict κ ν → Dict κ ν
  | insert key value, d => d.set key value
  | remove key, d => d.erase key
  | _, d => d

def visited (steps : Nat) (es : List (κ × ν)) : List (Option κ × Option ν) :=
    (es.take steps).map fun e => (some e.1, some e.2)

def answer : TreeOp κ ν → Dict κ ν → Answer κ ν
  | insert key _, d => .flag (d.get key).isNone
  | remove key, d => .flag (d.get key).isSome
  | find key, d => .value (d.get key)
  | size, d => .count d.size
  | walk steps, d => .entries (visited steps d.entries)
  | walkGeq key steps, d => .entries (visited steps (d.entries.filter fun e => key ≤ e.1))
  | walkGt key steps, d => .entries (visited steps (d.entries.filter fun e => key < e.1))

/-- The call changes nothing. -/
def reads : TreeOp κ ν → Bool
  | insert _ _ => false
  | remove _ => false
  | _ => true

end TreeOp

/-- A store with a tree in it, and the dictionary the tree should be. -/
structure TreeSys (σ κ ν : Type) [LinearOrder κ] where
  store : σ
  dict : Dict κ ν

namespace TreeSys

def step (S : PageStore σ P) (L : Layout P κ ν) (header : NodeRef) (t : TreeSys σ κ ν) (op : TreeOp κ ν) :
    Option (TreeSys σ κ ν) :=
  ((op.program L header).run S t.store).map fun r => ⟨r.1, op.effect t.dict⟩

/-- Each allocation of the call finds what it must, and one more entry can be counted. -/
def Safe (S : PageStore σ P) (Cond : σ → Prop) (FitsSize : Nat → Prop) (L : Layout P κ ν)
    (header : NodeRef) (t : TreeSys σ κ ν)
    (op : TreeOp κ ν) : Prop :=
  FitsSize (t.dict.size + 1) ∧ (op.program L header).Meets S Cond t.store

end TreeSys

/-! ### One call -/

/-- What a call that reads needs of its store are the rules for reads. -/
theorem does_reads {S : PageStore σ P} {Cond : σ → Prop} {L : Layout P κ ν} {Fits : NodeRef → Prop}
    {FitsSize : Nat → Prop}
    (rules : ReadRules S Cond) (law : L.Lawful Fits FitsSize) (hsize : L.nodeSize < 2 ^ 16) {s : σ} {live : Finset Nat}
    {h : Nat → Option P} {header : NodeRef} {n : Nat} {t : Tree κ ν n} {d : Dict κ ν} (hs : rules.Views s live h)
    (ht : IsTree L Fits FitsSize header h t) (hd : t.entries = d.entries) {op : TreeOp κ ν} (hop : op.reads = true) :
    (op.program L header).Ensures S Cond (fun s' a => a = op.answer d ∧ rules.Views s' live h) s := by
  have hwalk : ∀ (es : List (κ × ν)) s' it steps, rules.Views s' live h → Iterator.At L t es it →
      (collect L steps it >>= fun es => pure (Answer.entries es)).Ensures S Cond (fun s' a =>
        a = .entries (TreeOp.visited steps es) ∧ rules.Views s' live h) s' := by
    intro es s' it steps hs' hat
    exact ensures_bind.mpr (does_collect rules law hsize hs' ht hat fun s'' hs'' => ⟨rfl, hs''⟩)
  cases op with
  | insert key value => cases hop
  | remove key => cases hop
  | find key =>
      refine ensures_bind.mpr (does_tfind rules hs ht fun s' hs' => ⟨?_, hs'⟩)
      rw [hd]
      rfl
  | size =>
      obtain ⟨p, hp, -, hlen, -⟩ := ht.page
      refine ensures_bind.mpr (does_readHeader rules hs hp fun s' hs' => ⟨?_, hs'⟩)
      rw [hlen, hd]
      rfl
  | walk steps =>
      refine does_begin rules hs ht fun s' it hs' hat => ?_
      rw [hd] at hat
      exact hwalk _ s' it steps hs' hat
  | walkGeq key steps =>
      refine does_findFirst rules (finds_geq key) hs ht fun s' it hs' hat => ?_
      rw [hd] at hat
      exact hwalk _ s' it steps hs' hat
  | walkGt key steps =>
      refine does_findFirst rules (finds_gt key) hs ht fun s' it hs' hat => ?_
      rw [hd] at hat
      exact hwalk _ s' it steps hs' hat

section

variable {S : PageStore σ P} {Cond : σ → Prop} {L : Layout P κ ν} {Fits : NodeRef → Prop} {FitsSize : Nat → Prop}
  (rules : HeapRules S Cond L.blank Fits) (law : L.Lawful Fits FitsSize) {s : σ}
    {live : Finset Nat} {h : Nat → Option P}
  {header : NodeRef}

include rules law

theorem does_op (hsize : L.nodeSize < 2 ^ 16) (hleaf : 2 ≤ L.leafCapacity) (hinternal : 3 ≤ L.internalCapacity)
    (hstride : L.keyStride < 2 ^ 16) {n : Nat} {t : Tree κ ν n} {d : Dict κ ν} (hs : rules.Views s live h)
    (ht : IsTree L Fits FitsSize header h t) (hd : t.entries = d.entries)
    (hfits : FitsSize (d.size + 1)) (op : TreeOp κ ν) :
    (op.program L header).Ensures S Cond (fun s' a => a = op.answer d ∧ ∃ live' h' m, ∃ t' : Tree κ ν m,
      rules.Views s' live' h' ∧
      IsTree L Fits FitsSize header h' t' ∧ t'.entries = (op.effect d).entries ∧
      Replaced live live' h h' (header :: t.refs) (header :: t'.refs)) s := by
  have hreads : ∀ op : TreeOp κ ν, op.reads = true → op.effect d = d → (op.program L header).Ensures S Cond (fun s' a =>
      a = op.answer d ∧ ∃ live' h' m, ∃ t' : Tree κ ν m, rules.Views s' live' h' ∧ IsTree L Fits FitsSize header h' t' ∧
        t'.entries = (op.effect d).entries ∧ Replaced live live' h h' (header :: t.refs) (header :: t'.refs)) s := by
    intro op hop heffect
    refine (does_reads rules law hsize hs ht hd hop).mono fun s' a hres => ?_
    exact ⟨hres.1, live, h, n, t, hres.2, ht, by rw [heffect, hd], Replaced.refl (ht.mem_live rules hs)⟩
  cases op with
  | insert key value =>
      refine ensures_bind.mpr (does_insertImpl rules law hleaf hinternal hstride hs ht (by rw [hd]; exact hfits) ?_)
      intro s' live' h' m t' hs' ht' hentries hreplaced
      refine ⟨congrArg Answer.flag ?_, live', h', m, t', hs', ht', hentries.trans (by rw [hd]; rfl), hreplaced⟩
      rw [hd, decide_not, Dict.decide_mem_keys, Option.not_isSome]
  | remove key =>
      refine ensures_bind.mpr (does_removeImpl rules law hsize hleaf hinternal hs ht ?_)
      intro s' live' h' m t' hs' ht' hentries hreplaced
      refine ⟨congrArg Answer.flag ?_, live', h', m, t', hs', ht', hentries.trans (by rw [hd]; rfl), hreplaced⟩
      rw [hd, Dict.decide_mem_keys]
  | find key => exact hreads _ rfl rfl
  | size => exact hreads _ rfl rfl
  | walk steps => exact hreads _ rfl rfl
  | walkGeq key steps => exact hreads _ rfl rfl
  | walkGt key steps => exact hreads _ rfl rfl

/-- A new tree is empty. -/
theorem does_create (hzero : FitsSize 0) (hs : rules.Views s live h) :
    (create L).Ensures S Cond (fun s' header => ∃ live' h', ∃ t' : Tree κ ν 0, rules.Views s' live' h' ∧
      IsTree L Fits FitsSize header h' t' ∧ t'.entries = [] ∧ Replaced live live' h h' [] (header :: t'.refs)) s := by
  unfold create
  refine does_createNode rules hs fun s₁ header hheader _ hs₁ => ?_
  refine does_createNode rules hs₁ fun s₂ root hroot hfits hs₂ => ?_
  rw [Finset.mem_insert, not_or] at hroot
  refine does_writeNode rules hs₂
    ((Function.update_of_ne (Ne.symm hroot.1) _ _).trans (Function.update_self _ _ _)) fun s₃ hs₃ => ?_
  have hread : HeaderFits Fits FitsSize ⟨0, 0, root, root, 0⟩ := ⟨hzero, hzero, hfits, hfits, Nat.two_pow_pos 16⟩
  refine ⟨_, _, Tree.ofLeaf root ⟨0, 0, []⟩, hs₃,
    ⟨⟨_, Function.update_self _ _ _, ?_⟩, ⟨Nat.zero_le _, fun h => absurd rfl h,
    List.Pairwise.nil, ⟨L.blank, ?_, law.leaf_blank⟩, List.nodup_singleton root⟩, rfl, ?_⟩, rfl, ?_, ?_, ?_⟩
  · rw [hread.read law]
    exact ⟨rfl, rfl, rfl, hread⟩
  · rw [Tree.ref_ofLeaf, Function.update_of_ne hroot.1, Function.update_self]
  · exact fun hmem => hroot.1 (List.mem_singleton.mp hmem).symm
  · ext i
    simp
    tauto
  · intro i hi
    rcases List.mem_cons.mp hi with rfl | hi
    · exact Or.inr hheader
    · rw [List.mem_singleton.mp hi]
      exact Or.inr hroot.2
  · intro i hlive _
    have hne : i ≠ header := fun heq => hheader (heq ▸ hlive)
    have hne' : i ≠ root := fun heq => hroot.2 (heq ▸ hlive)
    rw [Function.update_of_ne hne, Function.update_of_ne hne', Function.update_of_ne hne]

end

/-! ### Space -/

section

variable {L : Layout P κ ν}

omit [LinearOrder κ] in
/-- A tree whose root has a key has fewer nodes than twice its entries, and at most logarithmically many levels. -/
theorem Tree.Shaped.size {n : Nat} {t : Tree κ ν n} (ht : t.Shaped L) (hpos : 0 < t.node.keyCount) :
    t.refs.length + 1 ≤ 2 * t.entries.length ∧ 2 ^ n ≤ t.entries.length := by
  induction n with
  | zero =>
      obtain ⟨l, hl⟩ := t.exists_ofLeaf
      rw [hl] at hpos ⊢
      rw [Tree.keyCount_ofLeaf] at hpos
      simp only [Tree.refs_ofLeaf, Tree.entries_ofLeaf, List.length_singleton, Nat.pow_zero]
      omega
  | succ n ih =>
      obtain ⟨prev, next, keys, children, hc⟩ := t.exists_branch
      rw [hc] at ht hpos ⊢
      obtain ⟨-, hlen, hchildren⟩ := Tree.shaped_branch.mp ht
      rw [Tree.keyCount_branch] at hpos
      have hsum : ∀ cs : List (Tree κ ν n), (∀ c ∈ cs, c ∈ children) →
          (cs.flatMap Tree.refs).length + cs.length ≤ 2 * (cs.flatMap Tree.entries).length ∧
            cs.length * 2 ^ n ≤ (cs.flatMap Tree.entries).length := by
        intro cs hcs
        induction cs with
        | nil => simp
        | cons c cs ihcs =>
            obtain ⟨h₁, h₂⟩ := ihcs fun d hd => hcs d (List.mem_cons_of_mem _ hd)
            obtain ⟨h₃, h₄⟩ := ih (hchildren c (hcs c List.mem_cons_self)).1 (hchildren c (hcs c List.mem_cons_self)).2
            rw [List.flatMap_cons, List.flatMap_cons, List.length_append, List.length_append, List.length_cons,
              Nat.add_one_mul cs.length]
            omega
      obtain ⟨hrefs, hentries⟩ := hsum children fun _ h => h
      rw [Tree.refs_branch, Tree.entries_branch, List.length_cons, Nat.pow_succ]
      have htwo : 2 * 2 ^ n ≤ children.length * 2 ^ n := Nat.mul_le_mul_right _ (by omega)
      omega

end

/-! ### Runs -/

section

variable {S : PageStore σ P} {Cond : σ → Prop} {L : Layout P κ ν} {Fits : NodeRef → Prop} {FitsSize : Nat → Prop}
  (rules : HeapRules S Cond L.blank Fits) {s : σ} {live : Finset Nat} {h : Nat → Option P} {header : NodeRef}

/-- The tree stands for the dictionary, on pages of its own; the pages that were live before it are as they were. -/
def TreeSys.Stands (FitsSize : Nat → Prop) (live : Finset Nat) (h : Nat → Option P) (header : NodeRef)
    (t : TreeSys σ κ ν) : Prop :=
  ∃ live' h' n, ∃ tree : Tree κ ν n, rules.Views t.store live' h' ∧ IsTree L Fits FitsSize header h' tree ∧
    tree.entries = t.dict.entries ∧ Replaced live live' h h' [] (header :: tree.refs)

variable (law : L.Lawful Fits FitsSize) (hsize : L.nodeSize < 2 ^ 16) (hleaf : 2 ≤ L.leafCapacity)
  (hinternal : 3 ≤ L.internalCapacity) (hstride : L.keyStride < 2 ^ 16)

include law hsize hleaf hinternal hstride

theorem TreeSys.Stands.op {t : TreeSys σ κ ν} (ht : t.Stands rules FitsSize live h header)
    (hfits : FitsSize (t.dict.size + 1))
    (op : TreeOp κ ν) : (op.program L header).Ensures S Cond (fun s' a => a = op.answer t.dict ∧
      TreeSys.Stands rules FitsSize live h header ⟨s', op.effect t.dict⟩) t.store := by
  obtain ⟨live', h', n, tree, hs, htree, hd, howned⟩ := ht
  refine (does_op rules law hsize hleaf hinternal hstride hs htree hd hfits op).mono fun s' a hres => ?_
  obtain ⟨ha, live'', h'', m, tree', hs', htree', hd', hreplaced⟩ := hres
  exact ⟨ha, live'', h'', m, tree', hs', htree', hd', howned.trans hreplaced⟩

theorem TreeSys.Stands.step {t t' : TreeSys σ κ ν} (ht : t.Stands rules FitsSize live h header) {op : TreeOp κ ν}
    (hsafe : t.Safe S Cond FitsSize L header op) (hstep : t.step S L header op = some t') :
      t'.Stands rules FitsSize live h header := by
  obtain ⟨⟨s', a⟩, hrun, rfl⟩ := Option.map_eq_some_iff.mp hstep
  exact ((ht.op rules law hsize hleaf hinternal hstride hsafe.1 op).of_run hsafe.2 hrun).2

/-- After every run from a new tree on. -/
theorem TreeSys.stands_of_run (hs : rules.Views s live h) (hzero : FitsSize 0)
    (hmeets : (create L).Meets S Cond s) {s' : σ}
    (hcreate : (create L).run S s = some (s', header)) {ops : List (TreeOp κ ν)} {t : TreeSys σ κ ν}
    (hrun : Run (TreeSys.step S L header) (TreeSys.Safe S Cond FitsSize L header) ⟨s', Dict.empty⟩ ops t) :
    t.Stands rules FitsSize live h header := by
  obtain ⟨live', h', tree, hs', htree, hentries, hreplaced⟩ := (does_create rules law hzero hs).of_run hmeets hcreate
  exact hrun.invariant (fun _ _ _ ht hsafe hstep => ht.step rules law hsize hleaf hinternal hstride hsafe hstep)
    ⟨live', h', 0, tree, hs', htree, hentries, hreplaced⟩

/-- After every run the tree owns its header page and the pages of its nodes, each once, and nothing else was allocated
or changed. There are fewer than twice as many as entries, and at most logarithmically many levels. -/
theorem btree_owns (hs : rules.Views s live h) (hzero : FitsSize 0) (hmeets : (create L).Meets S Cond s) {s' : σ}
    (hcreate : (create L).run S s = some (s', header)) {ops : List (TreeOp κ ν)} {t : TreeSys σ κ ν}
    (hrun : Run (TreeSys.step S L header) (TreeSys.Safe S Cond FitsSize L header) ⟨s', Dict.empty⟩ ops t) :
    ∃ live' h' n, ∃ tree : Tree κ ν n, rules.Views t.store live' h' ∧ IsTree L Fits FitsSize header h' tree ∧
      tree.entries = t.dict.entries ∧ (header :: tree.refs).Nodup ∧ Replaced live live' h h' [] (header :: tree.refs) ∧
      (header :: tree.refs).length ≤ max 2 (2 * t.dict.size) ∧ 2 ^ n ≤ max 1 t.dict.size := by
  obtain ⟨live', h', n, tree, hs', htree, hentries, hreplaced⟩ :=
    TreeSys.stands_of_run rules law hsize hleaf hinternal hstride hs hzero hmeets hcreate hrun
  refine ⟨live', h', n, tree, hs', htree, hentries, List.nodup_cons.mpr ⟨htree.out, htree.sound.nodup⟩, hreplaced, ?_⟩
  have hlen : tree.entries.length = t.dict.size := congrArg List.length hentries
  rw [List.length_cons]
  rcases Nat.eq_zero_or_pos tree.node.keyCount with hzero | hpos
  · cases n with
    | zero => simp [Tree.refs]
    | succ n => exact absurd hzero (htree.sound.pos (Nat.succ_ne_zero n)).ne'
  · obtain ⟨hrefs, hpow⟩ := htree.sound.shaped.size hpos
    omega

end

end Plexdb.BTree
