import Plexdb.BTreeGrowth
import Plexdb.BTreeProgram
import Plexdb.HeapRules

/-! A B+tree in a heap: what its pages hold, the rules for the accesses of its programs, and what an operation
changes. -/

namespace Plexdb.BTree

open PageProgram

/-! ### Trees in a heap -/

section

variable {P κ ν : Type} [LinearOrder κ] {L : Layout P κ ν} {Fits : NodeRef → Prop} {FitsSize : Nat → Prop}
  {live : Finset Nat} {h : Nat → Option P}

/-- A tree as it lies in a heap. -/
structure Tree.Sound (L : Layout P κ ν) (h : Nat → Option P) {n : Nat} (t : Tree κ ν n) : Prop where
  shaped : t.Shaped L
  pos : n ≠ 0 → 0 < t.node.keyCount
  ordered : t.Ordered
  stored : t.Stored L h
  nodup : t.refs.Nodup

theorem Tree.Sound.child {n : Nat} {ref prev next : NodeRef} {kl kr : List κ} {c : Tree κ ν n}
    {cl cr : List (Tree κ ν n)}
    (ht : (Tree.branch ref prev next (kl ++ kr) (cl ++ c :: cr)).Sound L h)
    (hl : kl.length = cl.length) : c.Sound L h where
  shaped := ((Tree.shaped_branch.mp ht.shaped).2.2 c (by simp)).1
  pos := fun _ => ((Tree.shaped_branch.mp ht.shaped).2.2 c (by simp)).2
  ordered := by
    have hctx := (Tree.ordered_around (A := []) (B := []) hl).mp (by
      rw [List.nil_append, List.append_nil]
      exact ht.ordered)
    exact (List.pairwise_append.mp (List.pairwise_append.mp hctx).2.1).1
  stored := (Tree.stored_branch.mp ht.stored).2 c (by simp)
  nodup := by
    have hnodup := (List.nodup_cons.mp ht.nodup).2
    change ((cl ++ c :: cr).flatMap Tree.refs).Nodup at hnodup
    rw [List.flatMap_append, List.flatMap_cons] at hnodup
    exact (List.nodup_append.mp (List.nodup_append.mp hnodup).2.1).1

omit [LinearOrder κ] in
/-- A tree with an entry has no more levels than entries. -/
theorem Tree.Shaped.height_lt {n : Nat} {t : Tree κ ν n} (ht : t.Shaped L) (hpos : 0 < t.node.keyCount) :
    n < t.entries.length := by
  induction n with
  | zero => exact hpos
  | succ n ih =>
      obtain ⟨prev, next, keys, children, hc⟩ := t.exists_branch
      rw [hc] at ht hpos ⊢
      obtain ⟨-, hlen, hchildren⟩ := Tree.shaped_branch.mp ht
      rw [Tree.keyCount_branch] at hpos
      obtain ⟨c, cs, rfl⟩ := List.exists_cons_of_length_pos (l := children) (by omega)
      obtain ⟨d, cs, rfl⟩ := List.exists_cons_of_length_pos (l := cs) (by rw [List.length_cons] at hlen; omega)
      have h₁ := ih (hchildren c (by simp)).1 (hchildren c (by simp)).2
      have h₂ := ih (hchildren d (by simp)).1 (hchildren d (by simp)).2
      rw [Tree.entries_branch, List.flatMap_cons, List.flatMap_cons, List.length_append, List.length_append]
      omega

/-- The fields of a header fit the page. -/
structure HeaderFits (Fits : NodeRef → Prop) (FitsSize : Nat → Prop) (hd : Header) : Prop where
  depth : FitsSize hd.depth
  size : FitsSize hd.size
  root : Fits hd.root
  leaves : Fits hd.leaves
  maxKeyBytes : hd.maxKeyBytes < 2 ^ 16

omit [LinearOrder κ] in
theorem HeaderFits.read (law : L.Lawful Fits FitsSize) {hd : Header} (hfits : HeaderFits Fits FitsSize hd) (p : P) :
    L.header (L.setHeader hd p) = hd :=
  law.header_setHeader hfits.depth hfits.size hfits.root hfits.leaves hfits.maxKeyBytes

/-- The tree whose header is the page `header`. -/
structure IsTree (L : Layout P κ ν) (Fits : NodeRef → Prop) (FitsSize : Nat → Prop)
    (header : NodeRef) (h : Nat → Option P)
    {n : Nat} (t : Tree κ ν n) : Prop where
  page : ∃ p, h header = some p ∧ (L.header p).depth = n ∧ (L.header p).size = t.entries.length ∧
    (L.header p).root = t.ref ∧ HeaderFits Fits FitsSize (L.header p)
  sound : t.Sound L h
  linked : t.Linked fun _ => 0
  out : header ∉ t.refs

theorem IsTree.congr {header : NodeRef} {n : Nat} {t : Tree κ ν n} {h' : Nat → Option P}
    (ht : IsTree L Fits FitsSize header h t) (heq : ∀ i ∈ header :: t.refs, h' i = h i) :
    IsTree L Fits FitsSize header h' t where
  page := by
    obtain ⟨p, hp, hheader⟩ := ht.page
    exact ⟨p, (heq header List.mem_cons_self).trans hp, hheader⟩
  sound := { ht.sound with
    stored := ht.sound.stored.congr fun i hi => heq i (List.mem_cons_of_mem _ hi) }
  linked := ht.linked
  out := ht.out

omit [LinearOrder κ] in
theorem mem_live_of_stored {σ : Type} {S : PageStore σ P} {Cond : σ → Prop} {s : σ}
    (rules : HeapRules S Cond L.blank Fits) {n : Nat} {t : Tree κ ν n} (hs : rules.Views s live h)
    (hstored : t.Stored L h) :
    ∀ i ∈ t.refs, i ∈ live := fun i hi => by
  obtain ⟨p, hp⟩ := hstored.exists_page hi
  exact rules.mem_live hs hp

omit [LinearOrder κ] in
/-- A tree whose child was rewritten and whose other nodes are as they were. -/
theorem Tree.Stored.replace {n : Nat} {ref prev next : NodeRef} {keys : List κ} {c c' : Tree κ ν n}
    {cl cr : List (Tree κ ν n)}
    {h' : Nat → Option P} (hstored : (Tree.branch ref prev next keys (cl ++ c :: cr)).Stored L h)
    (hnodup : (Tree.branch ref prev next keys (cl ++ c :: cr)).refs.Nodup) (hc : c'.Stored L h') (href : c'.ref = c.ref)
    (hframe : ∀ i ∈ (Tree.branch ref prev next keys (cl ++ c :: cr)).refs, i ∉ c.refs → h' i = h i) :
    (Tree.branch ref prev next keys (cl ++ c' :: cr)).Stored L h' := by
  obtain ⟨⟨p, hp, hnode⟩, hbelow⟩ := Tree.stored_branch.mp hstored
  rw [Tree.refs_branch] at hnodup hframe
  obtain ⟨href', hchildren⟩ := List.nodup_cons.mp hnodup
  rw [List.flatMap_append, List.flatMap_cons] at hchildren
  obtain ⟨-, hright, hleft⟩ := List.nodup_append.mp hchildren
  obtain ⟨-, -, hcr⟩ := List.nodup_append.mp hright
  have hsibling : ∀ d ∈ cl ++ cr, d.Stored L h' := fun d hd => by
    have hdc : d ∈ cl ++ c :: cr := by
      rcases List.mem_append.mp hd with hd | hd
      · exact List.mem_append_left _ hd
      · exact List.mem_append_right _ (List.mem_cons_of_mem _ hd)
    refine (hbelow d hdc).congr fun i hi =>
      hframe i (List.mem_cons_of_mem _ (List.mem_flatMap_of_mem hdc hi)) fun hic => ?_
    rcases List.mem_append.mp hd with hd | hd
    · exact hleft i (List.mem_flatMap_of_mem hd hi) i (List.mem_append_left _ hic) rfl
    · exact hcr i hic i (List.mem_flatMap_of_mem hd hi) rfl
  refine Tree.stored_branch.mpr ⟨⟨p, ?_, ?_⟩, fun d hd => ?_⟩
  · rw [hframe ref List.mem_cons_self fun hic => href' (List.mem_flatMap_of_mem (by simp) hic)]
    exact hp
  · rw [hnode]
    simp [href]
  · rcases List.mem_append.mp hd with hd | hd
    · exact hsibling d (List.mem_append_left _ hd)
    · rcases List.mem_cons.mp hd with rfl | hd
      · exact hc
      · exact hsibling d (List.mem_append_right _ hd)

omit [LinearOrder κ] in
/-- The same after a change of the pages of the child and of the header. -/
theorem Tree.Stored.around {n : Nat} {ref prev next header : NodeRef} {keys : List κ} {c c' : Tree κ ν n}
    {cl cr : List (Tree κ ν n)} {live' : Finset Nat} {h' : Nat → Option P} {fresh freed : List NodeRef}
    (hstored : (Tree.branch ref prev next keys (cl ++ c :: cr)).Stored L h)
    (hnodup : (Tree.branch ref prev next keys (cl ++ c :: cr)).refs.Nodup)
    (hheader : header ∉ (Tree.branch ref prev next keys (cl ++ c :: cr)).refs)
    (hlive : ∀ i ∈ (Tree.branch ref prev next keys (cl ++ c :: cr)).refs, i ∈ live) (hc : c'.Stored L h')
    (href : c'.ref = c.ref) (hchange : HeapChange live live' h h' (header :: c.refs) fresh freed) :
    (Tree.branch ref prev next keys (cl ++ c' :: cr)).Stored L h' := by
  refine hstored.replace hnodup hc href fun i hi hic => ?_
  refine hchange.frame i (fun hmem => ?_) fun hfresh => hchange.unused i hfresh (hlive i hi)
  rcases List.mem_cons.mp hmem with rfl | hmem
  · exact hheader hi
  · exact hic hmem

end

/-! ### What an operation changes -/

theorem HeapChange.of_alloc {P : Type} {live : Finset Nat} {h h' : Nat → Option P} {new : Nat} {old : List Nat}
    (hnew : new ∉ live) (hframe : ∀ i, i ∉ old → i ≠ new → h' i = h i) :
    HeapChange live (insert new live) h h' old [new] [] where
  live_eq := by
    ext i
    simp
  unused := by simpa using hnew
  nodup := List.nodup_singleton new
  frame := fun i hi hf => hframe i hi (List.ne_of_not_mem_cons hf)

/-- What an operation did to a heap: it owned `pages` and owns `pages'` now; other pages are as they were. -/
structure Replaced {P : Type} (live live' : Finset Nat) (h h' : Nat → Option P) (pages pages' : List Nat) : Prop where
  live_eq : live' = (live \ pages.toFinset) ∪ pages'.toFinset
  owned : ∀ i ∈ pages', i ∈ pages ∨ i ∉ live
  frame : ∀ i ∈ live, i ∉ pages → h' i = h i

namespace Replaced

variable {P : Type} {live live' live'' : Finset Nat} {h h' h'' : Nat → Option P} {pages pages' pages'' : List Nat}

theorem refl (hlive : ∀ i ∈ pages, i ∈ live) : Replaced live live h h pages pages where
  live_eq := by
    rw [Finset.sdiff_union_of_subset]
    exact fun i hi => hlive i (List.mem_toFinset.mp hi)
  owned := fun i hi => Or.inl hi
  frame := fun _ _ _ => rfl

theorem trans (h₁ : Replaced live live' h h' pages pages') (h₂ : Replaced live' live'' h' h'' pages' pages'') :
    Replaced live live'' h h'' pages pages'' where
  live_eq := by
    rw [h₂.live_eq, h₁.live_eq]
    ext i
    have := h₁.owned i
    simp only [Finset.mem_union, Finset.mem_sdiff, List.mem_toFinset]
    tauto
  owned := fun i hi => by
    rcases h₂.owned i hi with hi | hi
    · exact h₁.owned i hi
    · rw [h₁.live_eq, Finset.mem_union, Finset.mem_sdiff, List.mem_toFinset, List.mem_toFinset] at hi
      tauto
  frame := fun i hlive hi => by
    have hi' : i ∉ pages' := fun hmem => (h₁.owned i hmem).elim hi fun h => h hlive
    rw [h₂.frame i _ hi', h₁.frame i hlive hi]
    rw [h₁.live_eq, Finset.mem_union, Finset.mem_sdiff, List.mem_toFinset]
    exact Or.inl ⟨hlive, hi⟩

/-- A heap change that has freed some of the old pages. -/
theorem of_change {old fresh freed : List Nat} (hc : HeapChange live live' h h' old fresh freed)
    (hold : ∀ i ∈ old, i ∈ pages)
    (hlive : ∀ i ∈ pages, i ∈ live) (hperm : (freed ++ pages').Perm (fresh ++ pages))
    (hfreed : ∀ i ∈ freed, i ∉ pages') : Replaced live live' h h' pages pages' where
  live_eq := by
    rw [hc.live_eq]
    ext i
    have hmem := hperm.mem_iff (a := i)
    have h₁ := hc.unused i
    have h₂ := hlive i
    have h₃ := hfreed i
    simp only [List.mem_append] at hmem
    simp only [Finset.mem_union, Finset.mem_sdiff, List.mem_toFinset]
    tauto
  owned := fun i hi => by
    have hmem := hperm.mem_iff (a := i)
    rw [List.mem_append, List.mem_append] at hmem
    rcases hmem.mp (Or.inr hi) with hi | hi
    · exact Or.inr (hc.unused i hi)
    · exact Or.inl hi
  frame := fun i hlive hi => hc.frame i (fun hmem => hi (hold i hmem)) fun hmem => hc.unused i hmem hlive

theorem congr {owns owns' : List Nat} (hr : Replaced live live' h h' pages pages') (howns : ∀ i, i ∈ owns ↔ i ∈ pages)
    (howns' : ∀ i, i ∈ owns' ↔ i ∈ pages') : Replaced live live' h h' owns owns' where
  live_eq := by
    have heq : owns.toFinset = pages.toFinset := Finset.ext fun i => by simp [howns]
    have heq' : owns'.toFinset = pages'.toFinset := Finset.ext fun i => by simp [howns']
    rw [heq, heq']
    exact hr.live_eq
  owned := fun i hi => by
    rw [howns]
    exact hr.owned i ((howns' i).mp hi)
  frame := fun i hlive hi => hr.frame i hlive fun hmem => hi ((howns i).mpr hmem)

/-- Pages beside it stay as they are, and apart. -/
theorem beside {others : List Nat} (hr : Replaced live live' h h' pages pages') (hlive : ∀ i ∈ others, i ∈ live)
    (hnodup : (pages ++ others).Nodup) (hpages' : pages'.Nodup) :
    (pages' ++ others).Nodup ∧ (∀ i ∈ others, h' i = h i) ∧
      Replaced live live' h h' (pages ++ others) (pages' ++ others) := by
  obtain ⟨-, hothers, hapart⟩ := List.nodup_append.mp hnodup
  have hnot : ∀ i ∈ others, i ∉ pages := fun i hi hmem => hapart i hmem i hi rfl
  have hnot' : ∀ i ∈ others, i ∉ pages' := fun i hi hmem =>
    (hr.owned i hmem).elim (hnot i hi) fun hfresh => hfresh (hlive i hi)
  refine ⟨List.nodup_append.mpr ⟨hpages', hothers, fun i hi j hj heq => hnot' j hj (heq ▸ hi)⟩,
    fun i hi => hr.frame i (hlive i hi) (hnot i hi), ?_, ?_, ?_⟩
  · rw [hr.live_eq]
    ext i
    have h₁ := hlive i
    have h₂ := hnot i
    simp only [Finset.mem_union, Finset.mem_sdiff, List.mem_toFinset, List.mem_append]
    tauto
  · intro i hi
    rcases List.mem_append.mp hi with hi | hi
    · exact (hr.owned i hi).imp_left fun hmem => List.mem_append_left _ hmem
    · exact .inl (List.mem_append_right _ hi)
  · exact fun i hi hout => hr.frame i hi fun hmem => hout (List.mem_append_left _ hmem)

end Replaced

/-! ### Rules for the accesses to a node -/

section

variable {σ P κ ν β : Type} {S : PageStore σ P} {Cond : σ → Prop} {L : Layout P κ ν} (rules : ReadRules S Cond) {s : σ}
  {live : Finset Nat} {h : Nat → Option P} {ref : NodeRef} {p : P} {Q : σ → β → Prop}

include rules

theorem does_readNode {f : P → PageProgram P β} (hs : rules.Views s live h) (hp : h ref = some p)
    (hQ : ∀ s', rules.Views s' live h → (f p).Ensures S Cond Q s') : (readNode ref >>= f).Ensures S Cond Q s :=
  ensures_bind.mpr (rules.rpage hs hp hQ)

theorem does_readHeader {header : NodeRef} {f : Header → PageProgram P β} (hs : rules.Views s live h)
    (hp : h header = some p) (hQ : ∀ s', rules.Views s' live h → (f (L.header p)).Ensures S Cond Q s') :
    (readHeader L header >>= f).Ensures S Cond Q s :=
  ensures_bind.mpr (does_readNode rules hs hp hQ)

theorem does_readLeaf {f : Leaf κ ν → PageProgram P β} (hs : rules.Views s live h) (hp : h ref = some p)
    (hQ : ∀ s', rules.Views s' live h → (f (L.leaf p)).Ensures S Cond Q s') :
    (readLeaf L ref >>= f).Ensures S Cond Q s :=
  ensures_bind.mpr (does_readNode rules hs hp hQ)

theorem does_readInternal {f : Internal κ NodeRef → PageProgram P β} (hs : rules.Views s live h)
    (hp : h ref = some p) (hQ : ∀ s', rules.Views s' live h → (f (L.internal p)).Ensures S Cond Q s') :
    (readInternal L ref >>= f).Ensures S Cond Q s :=
  ensures_bind.mpr (does_readNode rules hs hp hQ)

end

section

variable {σ P κ ν β : Type} {S : PageStore σ P} {Cond : σ → Prop} {L : Layout P κ ν}
  {Fits : NodeRef → Prop} (rules : HeapRules S Cond L.blank Fits) {s : σ} {live : Finset Nat} {h : Nat → Option P}
  {ref : NodeRef} {p : P} {Q : σ → β → Prop}

include rules

theorem does_updateNode {f : P → PageProgram P β} (hs : rules.Views s live h) (hp : h ref = some p)
    (hQ : ∀ s', rules.Views s' live h → (f p).Ensures S Cond Q s') : (updateNode ref >>= f).Ensures S Cond Q s := by
  refine ensures_bind.mpr (rules.rwpage hs hp fun s' hs' => hQ s' ?_)
  rwa [id, ← hp, Function.update_eq_self] at hs'

theorem does_updateLeaf {f : Leaf κ ν → PageProgram P β} (hs : rules.Views s live h) (hp : h ref = some p)
    (hQ : ∀ s', rules.Views s' live h → (f (L.leaf p)).Ensures S Cond Q s') :
    (updateLeaf L ref >>= f).Ensures S Cond Q s :=
  ensures_bind.mpr (does_updateNode rules hs hp hQ)

theorem does_updateInternal {f : Internal κ NodeRef → PageProgram P β} (hs : rules.Views s live h)
    (hp : h ref = some p) (hQ : ∀ s', rules.Views s' live h → (f (L.internal p)).Ensures S Cond Q s') :
    (updateInternal L ref >>= f).Ensures S Cond Q s :=
  ensures_bind.mpr (does_updateNode rules hs hp hQ)

/-- A write changes one page. -/
theorem does_writeNode {write : P → P} {f : Unit → PageProgram P β} (hs : rules.Views s live h) (hp : h ref = some p)
    (hQ : ∀ s', rules.Views s' live (Function.update h ref (some (write p))) → (f ()).Ensures S Cond Q s') :
    (writeNode ref write >>= f).Ensures S Cond Q s := by
  refine ensures_bind.mpr ?_
  change (PageProgram.rwpage ref write .done >>= fun _ => .done ()).Ensures S Cond _ s
  exact ensures_bind.mpr (rules.rwpage hs hp hQ)

theorem does_createNode {f : NodeRef → PageProgram P β} (hs : rules.Views s live h)
    (hQ : ∀ s' new, new ∉ live → Fits new →
      rules.Views s' (insert new live) (Function.update h new (some L.blank)) → (f new).Ensures S Cond Q s') :
    (createNode >>= f).Ensures S Cond Q s :=
  ensures_bind.mpr (rules.newPage hs hQ)

theorem does_deleteNode {f : Unit → PageProgram P β} (hs : rules.Views s live h) (href : ref ∈ live)
    (hQ : ∀ s', rules.Views s' (live.erase ref) (Function.update h ref none) → (f ()).Ensures S Cond Q s') :
    (deleteNode ref >>= f).Ensures S Cond Q s :=
  ensures_bind.mpr (rules.deletePage hs href hQ)

end

theorem does_assertSorted {σ P κ β : Type} [LinearOrder κ] {S : PageStore σ P} {Cond : σ → Prop} {s : σ} {keys : List κ}
    {f : Unit → PageProgram P β} {Q : σ → β → Prop} (hkeys : keys.Pairwise (· < ·))
    (hQ : (f ()).Ensures S Cond Q s) : (assertSorted keys >>= f).Ensures S Cond Q s :=
  ensures_assert_bind hkeys hQ

end Plexdb.BTree
