import Plexdb.BTreeAccess

/-! The program of an insertion does to the pages what `Inserted` says of the tree. -/

namespace Plexdb.BTree

open PageProgram SortedEntries

/-! ### Splitting a child -/

/-- The children of a node with one more child in it. -/
theorem insertEntry_split {κ τ : Type} {prev next : NodeRef} {kl kr : List κ} {cl cr : List τ} {c new : τ} {sep : κ}
    (hl : kl.length = cl.length) :
    (⟨prev, next, kl ++ kr, cl ++ c :: cr⟩ : Internal κ τ).insertEntry cl.length sep new =
      ⟨prev, next, kl ++ sep :: kr, cl ++ c :: new :: cr⟩ := by
  rw [Internal.insertEntry, insertIdx_length_succ, ← hl, insertIdx_length]

theorem Internal.split_eq {κ τ : Type} {prev next : NodeRef} {k₁ k₂ : List κ} {c₁ c₂ : List τ} {sep : κ}
    (hm : k₁.length + 1 = splitIndex (k₁ ++ sep :: k₂).length) (hlen : c₁.length = k₁.length + 1) :
    (⟨prev, next, k₁ ++ sep :: k₂, c₁ ++ c₂⟩ : Internal κ τ).split =
      some (⟨prev, next, k₁, c₁⟩, sep, ⟨0, 0, k₂, c₂⟩) := by
  have htake : (c₁ ++ c₂).take (k₁.length + 1) = c₁ := by rw [← hlen, List.take_left]
  have hdrop : (c₁ ++ c₂).drop (k₁.length + 1) = c₂ := by rw [← hlen, List.drop_left]
  have hkeys : (k₁ ++ sep :: k₂).drop (k₁.length + 1) = k₂ := by simp
  rw [Internal.split, ← hm]
  dsimp only
  rw [Nat.add_sub_cancel, getElem?_length, htake, hdrop, hkeys, List.take_left]
  rfl

theorem Leaf.split_eq_some {κ ν : Type} {l l₁ r : Leaf κ ν} {sep : κ} (h : l.split = some (l₁, sep, r)) :
    l₁ = { l with entries := l₁.entries } ∧ r = ⟨0, 0, r.entries⟩ := by
  obtain ⟨sep', -, heq⟩ := Option.bind_eq_some_iff.mp h
  cases heq
  exact ⟨rfl, rfl⟩

section

variable {σ P κ ν β : Type} [LinearOrder κ] {S : PageStore σ P} {Cond : σ → Prop} {L : Layout P κ ν}
  {Fits : NodeRef → Prop} {FitsSize : Nat → Prop} (rules : HeapRules S Cond L.blank Fits) (law : L.Lawful Fits FitsSize)
  {s : σ} {live : Finset Nat} {h : Nat → Option P} {Q : σ → β → Prop}

include rules

omit [LinearOrder κ] in
/-- The pages of the parent, of the new child and of its left sibling after `insert_child_to_right`. -/
theorem does_insertChildToRight {parent left right : NodeRef} {idx : Nat} {sep : κ} {pp pl pr : P}
    {f : Unit → PageProgram P β} (hs : rules.Views s live h) (hparent : h parent = some pp) (hleft : h left = some pl)
    (hright : h right = some pr) (hpl : left ≠ parent) (hpr : right ≠ parent) (hlr : left ≠ right)
    (hroom : (L.internal pp).keys.length < L.internalCapacity)
    (hchild : ((L.internal pp).insertEntry idx sep right).children[idx]? = some left)
    (hQ : ∀ s' h', rules.Views s' live h' →
      h' parent = some (L.setInternal ((L.internal pp).insertEntry idx sep right).keys
        ((L.internal pp).insertEntry idx sep right).children pp) →
      h' right = some (L.setPrev left (L.setNext (L.next pl) pr)) → h' left = some (L.setNext right pl) →
      (∀ i, i ≠ parent → i ≠ right → i ≠ left → h' i = h i) → (f ()).Ensures S Cond Q s') :
    (insertChildToRight L parent idx sep right >>= f).Ensures S Cond Q s := by
  unfold insertChildToRight
  simp only [bind_assoc]
  refine does_updateInternal rules hs hparent fun s₁ hs₁ => ?_
  refine ensures_assert_bind hroom ?_
  refine does_writeNode rules hs₁ hparent fun s₂ hs₂ => ?_
  refine ensures_ofOption_bind hchild ?_
  refine does_updateNode rules hs₂ (by rw [Function.update_of_ne hpl]; exact hleft) fun s₃ hs₃ => ?_
  refine does_writeNode rules hs₃ (by rw [Function.update_of_ne hpr]; exact hright) fun s₄ hs₄ => ?_
  refine does_writeNode rules hs₄ (Function.update_self _ _ _) fun s₅ hs₅ => ?_
  rw [Function.update_idem] at hs₅
  refine does_writeNode rules hs₅
    (by rw [Function.update_of_ne hlr, Function.update_of_ne hpl]; exact hleft) fun s₆ hs₆ => ?_
  refine hQ s₆ _ hs₆ ?_ ?_ (Function.update_self _ _ _) fun i hip hir hil => ?_
  · rw [Function.update_of_ne hpl.symm, Function.update_of_ne hpr.symm, Function.update_self]
  · rw [Function.update_of_ne hlr.symm, Function.update_self]
  · rw [Function.update_of_ne hil, Function.update_of_ne hir, Function.update_of_ne hip]

include law

omit [LinearOrder κ] rules in
theorem fits_child {p : P} {n : Internal κ NodeRef} {c : NodeRef} (hnode : L.internal p = n) (hc : c ∈ n.children) :
    Fits c :=
  law.fits_children p c (by rw [← hnode] at hc; exact hc)

omit [LinearOrder κ] rules in
theorem internal_insertEntry {prev next c new : NodeRef} {kl kr : List κ} {cl cr : List NodeRef} {sep : κ} {p : P}
    (hnode : L.internal p = ⟨prev, next, kl ++ kr, cl ++ c :: cr⟩) (hl : kl.length = cl.length)
    (hr : kr.length = cr.length) (hroom : (kl ++ kr).length < L.internalCapacity) (hnew : Fits new) :
    L.internal (L.setInternal ((L.internal p).insertEntry cl.length sep new).keys
        ((L.internal p).insertEntry cl.length sep new).children p) =
      ⟨prev, next, kl ++ sep :: kr, cl ++ c :: new :: cr⟩ := by
  have hfits : ∀ d ∈ cl ++ c :: cr, Fits d := fun d hd => fits_child law hnode hd
  rw [hnode, insertEntry_split hl, law.internal_setInternal, hnode]
  · simp only [List.length_append, List.length_cons] at hroom ⊢
    omega
  · simp only [List.length_append, List.length_cons]
    omega
  · intro d hd
    simp only [List.mem_append, List.mem_cons] at hd hfits
    rcases hd with hd | rfl | rfl | hd
    · exact hfits d (Or.inl hd)
    · exact hfits d (Or.inr (Or.inl rfl))
    · exact hnew
    · exact hfits d (Or.inr (Or.inr hd))

omit law rules in
theorem Leaf.split_sorted {l l₁ r : Leaf κ ν} (hsorted : (l.entries.map (·.1)).Pairwise (· < ·))
    (hentries : l₁.entries ++ r.entries = l.entries) : l₁.keys.Pairwise (· < ·) ∧ r.keys.Pairwise (· < ·) := by
  rw [← hentries, List.map_append, List.pairwise_append] at hsorted
  exact ⟨hsorted.1, hsorted.2.1⟩

/-- What splitting a full leaf does to the pages. -/
theorem does_splitLeafChild {ref parent prev next : NodeRef} {l : Leaf κ ν} {kl kr : List κ} {cl cr : List NodeRef}
    {pp : P} {f : Unit → PageProgram P β} (hleaf : 2 ≤ L.leafCapacity) (hs : rules.Views s live h)
    (hparent : h parent = some pp) (hnode : L.internal pp = ⟨prev, next, kl ++ kr, cl ++ ref :: cr⟩)
    (hl : kl.length = cl.length) (hr : kr.length = cr.length) (hroom : (kl ++ kr).length < L.internalCapacity)
    (hfull : l.entries.length = L.leafCapacity) (hsorted : (l.entries.map (·.1)).Pairwise (· < ·))
    (hstored : (Tree.ofLeaf ref l).Stored L h) (hne : parent ≠ ref)
    (hQ : ∀ s' h' left right sep new, SplitsInto (Tree.ofLeaf ref l) left right sep new →
      rules.Views s' (insert new live) h' →
      (∃ p, h' parent = some p ∧ L.internal p = ⟨prev, next, kl ++ sep :: kr, cl ++ left.ref :: right.ref :: cr⟩) →
      left.Stored L h' → right.Stored L h' → HeapChange live (insert new live) h h' [parent, ref] [new] [] →
      Fits new → (f ()).Ensures S Cond Q s') :
    (splitLeafChild L parent cl.length >>= f).Ensures S Cond Q s := by
  obtain ⟨pl, hpl, hpage⟩ := hstored
  change L.leaf pl = l at hpage
  have hchild : (L.internal pp).children[cl.length]? = some ref := by
    rw [hnode]
    exact getElem?_length
  unfold splitLeafChild
  simp only [bind_assoc]
  refine does_updateInternal rules hs hparent fun s₁ hs₁ => ?_
  refine ensures_ofOption_bind hchild ?_
  refine does_updateLeaf rules hs₁ hpl fun s₂ hs₂ => ?_
  refine does_createNode rules hs₂ fun s₃ new hnew hfits hs₃ => ?_
  rw [hpage]
  obtain ⟨l₁, sep, r, hsplit, hpos₁, hpos₂, hentries, left, right, hinto, -⟩ :=
    @Leaf.exists_split _ _ _ _ _ ref new l hleaf hfull
  obtain ⟨hl₁, hr₁⟩ := Leaf.split_eq_some hsplit
  obtain ⟨hsorted₁, hsorted₂⟩ := Leaf.split_sorted hsorted hentries
  have hlens := congrArg List.length hentries
  rw [List.length_append] at hlens
  have hnl : new ≠ ref := fun heq => hnew (heq ▸ rules.mem_live hs hpl)
  have hnp : new ≠ parent := fun heq => hnew (heq ▸ rules.mem_live hs hparent)
  refine ensures_assert_bind (by omega) (ensures_ofOption_bind hsplit ?_)
  refine does_writeNode rules hs₃ (Function.update_self _ _ _) fun s₄ hs₄ => ?_
  rw [Function.update_idem] at hs₄
  refine does_writeNode rules hs₄ (by rw [Function.update_of_ne hnl.symm]; exact hpl) fun s₅ hs₅ => ?_
  refine ensures_assert_bind hpos₁ (ensures_assert_bind hpos₂ (ensures_assert_bind hlens ?_))
  refine does_assertSorted hsorted₁ (does_assertSorted hsorted₂ ?_)
  refine @does_insertChildToRight _ _ _ _ _ _ _ _ _ rules _ _ _ _ _ _ _ _ _ pp _
    (L.setEntries r.entries L.blank) _ hs₅ ?_
    (Function.update_self _ _ _) ?_ hne.symm hnp hnl.symm ?_ ?_ fun s₆ h₆ hs₆ hparent₆ hright₆ hleft₆ hframe₆ => ?_
  · rw [Function.update_of_ne hne, Function.update_of_ne hnp.symm]
    exact hparent
  · rw [Function.update_of_ne hnl, Function.update_self]
  · rw [hnode]
    exact hroom
  · rw [hnode, insertEntry_split hl]
    exact getElem?_length
  have hpage₁ : L.leaf (L.setEntries l₁.entries pl) = l₁ := by
    rw [law.leaf_setEntries (by omega), hpage]
    exact hl₁.symm
  have hpage₂ : L.leaf (L.setEntries r.entries L.blank) = r := by
    rw [law.leaf_setEntries (by omega), law.leaf_blank]
    exact hr₁.symm
  have hnext : L.next (L.setEntries l₁.entries pl) = l.next := by
    rw [hl₁] at hpage₁
    exact congrArg Leaf.next hpage₁
  obtain ⟨l₁', r', hsplit', rfl, rfl⟩ := id hinto
  cases Option.some.inj (hsplit.symm.trans hsplit')
  refine hQ s₆ h₆ _ _ sep new hinto hs₆ ⟨_, hparent₆, internal_insertEntry law hnode hl hr hroom hfits⟩ ?_ ?_
    (HeapChange.of_alloc hnew fun i hi hin => ?_) hfits
  · refine ⟨_, hleft₆, ?_⟩
    rw [law.leaf_setNext hfits, hpage₁]
    rfl
  · refine ⟨_, hright₆, ?_⟩
    rw [law.leaf_setPrev (fits_child law hnode (List.mem_append_right _ List.mem_cons_self)),
      law.leaf_setNext (law.fits_next _),
      hpage₂, hnext]
    rfl
  · have hi : i ≠ parent ∧ i ≠ ref := by simpa using hi
    rw [hframe₆ i hi.1 hin hi.2, Function.update_of_ne hi.2, Function.update_of_ne hin]

/-- What splitting a full internal node does to the pages. -/
theorem does_splitInternalChild {n : Nat} {ref parent prev next prev' next' : NodeRef} {keys kl kr : List κ}
    {children : List (Tree κ ν n)} {cl cr : List NodeRef} {pp : P} {f : Unit → PageProgram P β}
    (hinternal : 3 ≤ L.internalCapacity) (hs : rules.Views s live h) (hparent : h parent = some pp)
    (hnode : L.internal pp = ⟨prev, next, kl ++ kr, cl ++ ref :: cr⟩) (hl : kl.length = cl.length)
    (hr : kr.length = cr.length) (hroom : (kl ++ kr).length < L.internalCapacity)
    (hfull : keys.length = L.internalCapacity) (hshape : (Tree.branch ref prev' next' keys children).Shaped L)
    (hsorted : keys.Pairwise (· < ·)) (hstored : (Tree.branch ref prev' next' keys children).Stored L h)
    (hnodup : (Tree.branch ref prev' next' keys children).refs.Nodup)
    (hout : parent ∉ (Tree.branch ref prev' next' keys children).refs)
    (hQ : ∀ s' h' left right sep new, SplitsInto (Tree.branch ref prev' next' keys children) left right sep new →
      rules.Views s' (insert new live) h' →
      (∃ p, h' parent = some p ∧ L.internal p = ⟨prev, next, kl ++ sep :: kr, cl ++ left.ref :: right.ref :: cr⟩) →
      left.Stored L h' → right.Stored L h' → HeapChange live (insert new live) h h' [parent, ref] [new] [] →
      Fits new → (f ()).Ensures S Cond Q s') :
    (splitInternalChild L parent cl.length >>= f).Ensures S Cond Q s := by
  obtain ⟨⟨pl, hpl, hpage⟩, hbelow⟩ := Tree.stored_branch.mp hstored
  have hchild : (L.internal pp).children[cl.length]? = some ref := by
    rw [hnode]
    exact getElem?_length
  rw [Tree.refs_branch] at hnodup hout
  have hne : parent ≠ ref := List.ne_of_not_mem_cons hout
  have hrefFits : Fits ref := fits_child law hnode (List.mem_append_right _ List.mem_cons_self)
  unfold splitInternalChild
  simp only [bind_assoc]
  refine does_updateInternal rules hs hparent fun s₁ hs₁ => ?_
  refine ensures_ofOption_bind hchild ?_
  refine does_updateInternal rules hs₁ hpl fun s₂ hs₂ => ?_
  refine does_createNode rules hs₂ fun s₃ new hnew hfits hs₃ => ?_
  rw [hpage]
  obtain ⟨k₁, sep, k₂, c₁, c₂, rfl, rfl, hlen₁, hlen₂, hpos₁, hpos₂, hm, left, right, rfl, rfl, hinto, -⟩ :=
    @Internal.exists_split _ _ _ _ _ n ref new prev' next' keys children hinternal hfull hshape
  rw [List.map_append]
  have hlens : (k₁ ++ sep :: k₂).length = k₁.length + k₂.length + 1 := by
    rw [List.length_append, List.length_cons, Nat.add_assoc]
  have hsplit := @Internal.split_eq κ NodeRef prev' next' k₁ k₂ (c₁.map Located.ref) (c₂.map Located.ref) sep hm
    (by rw [List.length_map]; exact hlen₁)
  obtain ⟨hsorted₁, hsorted₂, -⟩ := List.pairwise_append.mp hsorted
  have hnl : new ≠ ref := fun heq => hnew (heq ▸ rules.mem_live hs hpl)
  have hnp : new ≠ parent := fun heq => hnew (heq ▸ rules.mem_live hs hparent)
  have hcapacity : (k₁ ++ sep :: k₂).length = L.internalCapacity := hfull
  have hchildFits : ∀ c ∈ (c₁ ++ c₂).map Located.ref, Fits c := fun c hc => fits_child law hpage hc
  rw [List.map_append] at hchildFits
  refine ensures_assert_bind (show 0 < (k₁ ++ sep :: k₂).length by omega) ?_
  refine ensures_assert_bind (show 2 ≤ splitIndex (k₁ ++ sep :: k₂).length by omega) ?_
  refine ensures_assert_bind (show splitIndex (k₁ ++ sep :: k₂).length < (k₁ ++ sep :: k₂).length by omega) ?_
  refine ensures_ofOption_bind hsplit ?_
  refine does_writeNode rules hs₃ (Function.update_self _ _ _) fun s₄ hs₄ => ?_
  rw [Function.update_idem] at hs₄
  refine does_writeNode rules hs₄ (by rw [Function.update_of_ne hnl.symm]; exact hpl) fun s₅ hs₅ => ?_
  refine ensures_assert_bind hpos₁ (ensures_assert_bind hpos₂ (ensures_assert_bind hlens.symm ?_))
  refine does_assertSorted hsorted₁ (does_assertSorted (List.pairwise_cons.mp hsorted₂).2 ?_)
  refine @does_insertChildToRight _ _ _ _ _ _ _ _ _ rules _ _ _ _ _ _ _ _ _ pp _
    (L.setInternal k₂ (c₂.map Located.ref) L.blank) _ hs₅ ?_
    (Function.update_self _ _ _) ?_ hne.symm hnp hnl.symm ?_ ?_ fun s₆ h₆ hs₆ hparent₆ hright₆ hleft₆ hframe₆ => ?_
  · rw [Function.update_of_ne hne, Function.update_of_ne hnp.symm]
    exact hparent
  · rw [Function.update_of_ne hnl, Function.update_self]
  · rw [hnode]
    exact hroom
  · rw [hnode, insertEntry_split hl]
    exact getElem?_length
  have hpage₁ : L.internal (L.setInternal k₁ (c₁.map Located.ref) pl) = ⟨prev', next', k₁, c₁.map Located.ref⟩ := by
    rw [law.internal_setInternal (by omega) (by rw [List.length_map]; exact hlen₁)
      fun c hc => hchildFits c (List.mem_append_left _ hc), hpage]
  have hpage₂ : L.internal (L.setInternal k₂ (c₂.map Located.ref) L.blank) = ⟨0, 0, k₂, c₂.map Located.ref⟩ := by
    rw [law.internal_setInternal (by omega) (by rw [List.length_map]; exact hlen₂)
      fun c hc => hchildFits c (List.mem_append_right _ hc), law.internal_blank]
  have hnext : L.next (L.setInternal k₁ (c₁.map Located.ref) pl) = next' := congrArg Internal.next hpage₁
  have hframe : ∀ i, i ∉ [parent, ref] → i ≠ new → h₆ i = h i := fun i hi hin => by
    have hi : i ≠ parent ∧ i ≠ ref := by simpa using hi
    rw [hframe₆ i hi.1 hin hi.2, Function.update_of_ne hi.2, Function.update_of_ne hin]
  have hkept : ∀ c ∈ c₁ ++ c₂, c.Stored L h₆ := fun c hc => by
    refine (hbelow c hc).congr fun i hi => hframe i ?_ ?_
    · have hmem : i ∈ (c₁ ++ c₂).flatMap Tree.refs := List.mem_flatMap_of_mem hc hi
      have hip : i ≠ parent := fun heq => hout (heq ▸ List.mem_cons_of_mem _ hmem)
      have hir : i ≠ ref := fun heq => (List.nodup_cons.mp hnodup).1 (heq ▸ hmem)
      simpa using And.intro hip hir
    · obtain ⟨p, hp⟩ := (hbelow c hc).exists_page hi
      exact fun heq => hnew (heq ▸ rules.mem_live hs hp)
  refine hQ s₆ h₆ _ _ sep new hinto hs₆ ⟨_, hparent₆, internal_insertEntry law hnode hl hr hroom hfits⟩ ?_ ?_
    (HeapChange.of_alloc hnew hframe) hfits
  · refine Tree.stored_branch.mpr ⟨⟨_, hleft₆, ?_⟩, fun c hc => hkept c (List.mem_append_left _ hc)⟩
    rw [law.internal_setNext hfits, hpage₁]
  · refine Tree.stored_branch.mpr ⟨⟨_, hright₆, ?_⟩, fun c hc => hkept c (List.mem_append_right _ hc)⟩
    rw [law.internal_setPrev hrefFits, law.internal_setNext (law.fits_next _), hpage₂, hnext]

/-- What splitting a full child does to the pages. -/
theorem does_splitChild {n : Nat} {c : Tree κ ν n} {parent prev next : NodeRef} {kl kr : List κ} {cl cr : List NodeRef}
    {pp : P} {f : Unit → PageProgram P β} (hleaf : 2 ≤ L.leafCapacity) (hinternal : 3 ≤ L.internalCapacity)
    (hs : rules.Views s live h) (hparent : h parent = some pp)
    (hnode : L.internal pp = ⟨prev, next, kl ++ kr, cl ++ c.ref :: cr⟩) (hl : kl.length = cl.length)
    (hr : kr.length = cr.length) (hroom : (kl ++ kr).length < L.internalCapacity) (hshape : c.Shaped L)
    (hfull : c.node.isFull L = true) (hordered : c.Ordered) (hstored : c.Stored L h) (hnodup : c.refs.Nodup)
    (hout : parent ∉ c.refs)
    (hQ : ∀ s' h' left right sep new, SplitsInto c left right sep new → rules.Views s' (insert new live) h' →
      (∃ p, h' parent = some p ∧ L.internal p = ⟨prev, next, kl ++ sep :: kr, cl ++ left.ref :: right.ref :: cr⟩) →
      left.Stored L h' → right.Stored L h' → HeapChange live (insert new live) h h' [parent, c.ref] [new] [] →
      Fits new → (f ()).Ensures S Cond Q s') :
    (splitChild L parent cl.length (n = 0) >>= f).Ensures S Cond Q s := by
  have hcount : c.node.keyCount = Content.capacity L n :=
    Nat.le_antisymm (Tree.keyCount_le_capacity hshape) (of_decide_eq_true hfull)
  cases n with
  | zero =>
      obtain ⟨l, hc⟩ := c.exists_ofLeaf
      rw [hc] at hordered hstored hcount hQ
      have hpc : parent ≠ c.ref := fun heq => hout (heq ▸ c.ref_mem_refs)
      exact does_splitLeafChild rules law hleaf hs hparent hnode hl hr hroom hcount
        (Tree.Ordered.keys hordered) hstored hpc hQ
  | succ n =>
      obtain ⟨prev', next', keys, children, hc⟩ := c.exists_branch
      rw [hc] at hordered hstored hcount hshape hnodup hout hQ
      exact does_splitInternalChild rules law hinternal hs hparent hnode hl hr hroom hcount hshape
        (Tree.Ordered.separators hordered hshape) hstored hnodup hout hQ

/-! ### The descent of an insertion -/

omit rules in
/-- The header after an insertion of a key. -/
def headerAfter (L : Layout P κ ν) (hd : Header) (es : List (κ × ν)) (key : κ) : Header :=
  if key ∈ es.map (·.1) then hd else countNewKey L hd

/-- What `insert_recursive` leaves of a subtree. -/
structure InsertedAt (L : Layout P κ ν) (key : κ) (value : ν) (header : NodeRef) (hd : Header) {n : Nat}
    (live live' : Finset Nat)
    (h h' : Nat → Option P) (t : Tree κ ν n) : Prop where
  result : ∃ t' fresh, Inserted L key value t t' fresh ∧ t'.Stored L h' ∧
    HeapChange live live' h h' (header :: t.refs) fresh []
  header : ∃ p, h' header = some p ∧ L.header p = headerAfter L hd t.entries key

/-- What `insert_recursive` does at the nodes with `n` levels below them. -/
def InsertsAt (FitsSize : Nat → Prop) (L : Layout P κ ν) (header : NodeRef) (key : κ) (value : ν) (n : Nat) : Prop :=
  ∀ {s : σ} {live : Finset Nat} {h : Nat → Option P} {t : Tree κ ν n} {ph : P} {Q : σ → Bool → Prop},
    rules.Views s live h → h header = some ph → HeaderFits Fits FitsSize (countNewKey L (L.header ph)) → t.Sound L h →
    t.node.isFull L = false → header ∉ t.refs →
    (∀ s' live' h', rules.Views s' live' h' → InsertedAt L key value header (L.header ph) live live' h h' t →
      Q s' (decide (key ∉ t.entries.map (·.1)))) →
    (insertRecursive L header key value n t.ref).Ensures S Cond Q s

theorem insertsAt_leaf {header : NodeRef} {key : κ} {value : ν} (hleaf : 2 ≤ L.leafCapacity)
    (hinternal : 3 ≤ L.internalCapacity) : InsertsAt rules FitsSize L header key value 0 := by
  intro s live h t ph Q hs hheader hcount hsound hroom hout hQ
  obtain ⟨l, hc⟩ := t.exists_ofLeaf
  rw [hc] at hsound hroom hout hQ
  have ⟨hshape, _, hordered, hstored, _⟩ := hsound
  obtain ⟨pl, hpl, hpage⟩ := hstored
  change L.leaf pl = l at hpage
  have hsorted : l.keys.Pairwise (· < ·) := Tree.Ordered.keys hordered
  have hlen : (upsert key value l.entries).length ≤ L.leafCapacity := by
    have hlt : l.entries.length < L.leafCapacity := not_le.mp (of_decide_eq_false hroom)
    exact (length_upsert_le hsorted).2.trans hlt
  have hpage' : L.leaf (L.setEntries (upsert key value l.entries) pl) =
      { l with entries := upsert key value l.entries } := by
    rw [law.leaf_setEntries hlen, hpage]
  have hinserted : Inserted L key value (Tree.ofLeaf t.ref l)
      (Tree.ofLeaf t.ref { l with entries := upsert key value l.entries }) [] := by
    have hleaf : Inserted L key value (Tree.ofLeaf t.ref l) _ [] := Inserted.leaf t.ref l
    rwa [Leaf.upsert_eq hsorted] at hleaf
  have hht : header ≠ t.ref := fun heq => hout (heq ▸ List.mem_singleton_self _)
  have hsorted' : ((upsert key value l.entries).map (·.1)).Pairwise (· < ·) :=
    Tree.Ordered.keys (hinserted.grows_whole hleaf hinternal hshape hroom (fun h => absurd rfl h) hordered).2.1
  have hstored' : (Tree.ofLeaf t.ref { l with entries := upsert key value l.entries }).Stored L
      (Function.update h t.ref (some (L.setEntries (upsert key value l.entries) pl))) :=
    ⟨_, Function.update_self _ _ _, hpage'⟩
  rw [insertRecursive]
  refine does_updateLeaf rules hs hpl fun s₁ hs₁ => ?_
  rw [hpage, Leaf.upsert_eq hsorted]
  refine does_writeNode rules hs₁ hpl fun s₂ hs₂ => does_assertSorted hsorted' ?_
  by_cases hmem : key ∈ l.keys
  · rw [decide_eq_false (not_not_intro hmem), if_neg Bool.false_ne_true]
    have hres : Q s₂ (decide (key ∉ l.keys)) :=
      hQ s₂ live _ hs₂ ⟨⟨_, [], hinserted, hstored', HeapChange.write live h (by simp)⟩, ph, ?_, ?_⟩
    · rwa [decide_eq_false (not_not_intro hmem)] at hres
    · rw [Function.update_of_ne hht]
      exact hheader
    · exact (if_pos hmem).symm
  · rw [decide_eq_true hmem, if_pos rfl]
    refine does_writeNode rules hs₂ (by rw [Function.update_of_ne hht]; exact hheader) fun s₃ hs₃ => ?_
    have hres : Q s₃ (decide (key ∉ l.keys)) := hQ s₃ live _ hs₃ ⟨⟨_, [], hinserted, hstored'.congr fun i hi => ?_,
      (HeapChange.write live h (by simp)).trans (HeapChange.write live _ (List.mem_cons_self ..))
        (fun i hi => Or.inl hi)
        (fun i hi => absurd hi List.not_mem_nil)⟩, _, Function.update_self _ _ _, ?_⟩
    · rwa [decide_eq_true hmem] at hres
    · rw [List.mem_singleton.mp hi]
      exact Function.update_of_ne hht.symm _ _
    · rw [hcount.read law]
      exact (if_neg hmem).symm

omit [LinearOrder κ] law in
theorem does_isFull {n : Nat} {c : Tree κ ν n} {f : Bool → PageProgram P β} (hs : rules.Views s live h)
    (hstored : c.Stored L h) (hQ : ∀ s', rules.Views s' live h → (f (c.node.isFull L)).Ensures S Cond Q s') :
    (isFull L (n = 0) c.ref >>= f).Ensures S Cond Q s := by
  unfold isFull
  simp only [bind_assoc]
  cases n with
  | zero =>
      obtain ⟨p, hp, hpage⟩ := hstored
      refine does_readNode rules hs hp fun s₁ hs₁ => ?_
      rw [PageProgram.pure_bind, decide_eq_true rfl, if_pos rfl, hpage]
      exact hQ s₁ hs₁
  | succ n =>
      obtain ⟨⟨p, hp, hpage⟩, -⟩ := hstored
      refine does_readNode rules hs hp fun s₁ hs₁ => ?_
      rw [PageProgram.pure_bind, decide_eq_false (Nat.succ_ne_zero n), if_neg Bool.false_ne_true, hpage]
      exact hQ s₁ hs₁

omit law in
/-- An insertion into a child, seen from its parent. -/
theorem does_insertChild {n : Nat} {header ref prev next : NodeRef} {key : κ} {value : ν}
    {kl kr : List κ} {c : Tree κ ν n}
    {cl cr : List (Tree κ ν n)} {ph : P} (hsub : InsertsAt rules FitsSize L header key value n)
    (hs : rules.Views s live h) (hheader : h header = some ph)
    (hcount : HeaderFits Fits FitsSize (countNewKey L (L.header ph)))
    (hsound : (Tree.branch ref prev next (kl ++ kr) (cl ++ c :: cr)).Sound L h) (hl : kl.length = cl.length)
    (hr : kr.length = cr.length) (hkl : ∀ k ∈ kl, k ≤ key) (hkr : ∀ k ∈ kr, key < k) (hroom : c.node.isFull L = false)
    (hout : header ∉ (Tree.branch ref prev next (kl ++ kr) (cl ++ c :: cr)).refs) {Q : σ → Bool → Prop}
    (hQ : ∀ s' live' h' c' fresh, rules.Views s' live' h' → Inserted L key value c c' fresh →
      (Tree.branch ref prev next (kl ++ kr) (cl ++ c' :: cr)).Stored L h' →
      HeapChange live live' h h' (header :: c.refs) fresh [] →
      (∃ p, h' header = some p ∧
        L.header p = headerAfter L (L.header ph) (Tree.branch ref prev next (kl ++ kr) (cl ++ c :: cr)).entries key) →
      Q s' (decide (key ∉ (Tree.branch ref prev next (kl ++ kr) (cl ++ c :: cr)).entries.map (·.1)))) :
    (insertRecursive L header key value n c.ref).Ensures S Cond Q s := by
  have hc := hsound.child hl
  have hmem := Tree.mem_keys_route hl hr hkl hkr hsound.ordered
  have houtc : header ∉ c.refs := fun hh =>
    hout (List.mem_cons_of_mem _ (List.mem_flatMap_of_mem (List.mem_append_right cl List.mem_cons_self) hh))
  refine hsub hs hheader hcount hc hroom houtc fun s' live' h' hs' hat => ?_
  obtain ⟨⟨c', fresh, hinserted, hstored', hchange⟩, p, hp, hhd⟩ := hat
  have hres := hQ s' live' h' c' fresh hs' hinserted
    (hsound.stored.around hsound.nodup hout (mem_live_of_stored rules hs hsound.stored)
      hstored' hinserted.ref hchange) hchange
    ⟨p, hp, ?_⟩
  · rwa [decide_eq_decide.mpr (not_congr hmem)] at hres
  · rw [hhd, headerAfter, headerAfter]
    exact if_congr hmem.symm rfl rfl

omit law rules in
/-- A node stays sound when a full child of it is split. -/
theorem Tree.Sound.split {n : Nat} {ref prev next new : NodeRef} {kl kr : List κ} {sep : κ} {c left right : Tree κ ν n}
    {cl cr : List (Tree κ ν n)} {live' : Finset Nat} {h' : Nat → Option P}
    (ht : (Tree.branch ref prev next (kl ++ kr) (cl ++ c :: cr)).Sound L h) (hl : kl.length = cl.length)
    (hroom : (kl ++ kr).length < L.internalCapacity) (hsplit : IsSplit L c left right sep new)
    (hlive : ∀ i ∈ (Tree.branch ref prev next (kl ++ kr) (cl ++ c :: cr)).refs, i ∈ live)
    (hpage : ∃ p, h' ref = some p ∧
      L.internal p = ⟨prev, next, kl ++ sep :: kr, (cl ++ left :: right :: cr).map Located.ref⟩)
    (hleft : left.Stored L h') (hright : right.Stored L h')
    (hchange : HeapChange live live' h h' [ref, c.ref] [new] []) :
    (Tree.branch ref prev next (kl ++ sep :: kr) (cl ++ left :: right :: cr)).Sound L h' ∧
      (Tree.branch ref prev next (kl ++ sep :: kr) (cl ++ left :: right :: cr)).refs.Perm
        (new :: (Tree.branch ref prev next (kl ++ kr) (cl ++ c :: cr)).refs) := by
  have hctx : ([] ++ ((Tree.branch ref prev next (kl ++ kr) (cl ++ c :: cr)).marks ++ [])).Pairwise Mark.Before := by
    rw [List.nil_append, List.append_nil]
    exact ht.ordered
  have hgrows := hsplit.around hl hroom ht.shaped hctx
  have hordered := hgrows.ordered
  rw [List.nil_append, List.append_nil] at hordered
  have hnew : new ∉ (Tree.branch ref prev next (kl ++ kr) (cl ++ c :: cr)).refs := fun hmem =>
    hchange.unused new (List.mem_singleton_self _) (hlive new hmem)
  obtain ⟨href, hchildren⟩ := List.nodup_cons.mp ht.nodup
  change ((cl ++ c :: cr).flatMap Tree.refs).Nodup at hchildren
  rw [List.flatMap_append, List.flatMap_cons] at hchildren
  obtain ⟨-, hrest, hcl⟩ := List.nodup_append.mp hchildren
  obtain ⟨-, -, hcr⟩ := List.nodup_append.mp hrest
  have hbelow := (Tree.stored_branch.mp ht.stored).2
  have hsibling : ∀ d ∈ cl ++ cr, d.Stored L h' := fun d hd => by
    have hdc : d ∈ cl ++ c :: cr := by
      rcases List.mem_append.mp hd with hd | hd
      · exact List.mem_append_left _ hd
      · exact List.mem_append_right _ (List.mem_cons_of_mem _ hd)
    refine (hbelow d hdc).congr fun i hi => ?_
    have hmem : i ∈ (cl ++ c :: cr).flatMap Tree.refs := List.mem_flatMap_of_mem hdc hi
    have hir : i ≠ ref := fun heq => href (heq ▸ hmem)
    have hin : i ≠ new := fun heq => hnew (heq ▸ List.mem_cons_of_mem _ hmem)
    have hic : i ≠ c.ref := fun heq => by
      rcases List.mem_append.mp hd with hd | hd
      · exact hcl i (List.mem_flatMap_of_mem hd hi) i (List.mem_append_left _ (heq ▸ c.ref_mem_refs)) rfl
      · exact hcr i (heq ▸ c.ref_mem_refs) i (List.mem_flatMap_of_mem hd hi) rfl
    exact hchange.frame i (by simp [hir, hic]) (by simp [hin])
  refine ⟨⟨hgrows.shaped, fun _ =>
    hgrows.pos, hordered, Tree.stored_branch.mpr ⟨hpage, fun d hd => ?_⟩, ?_⟩, hgrows.refs⟩
  · rcases List.mem_append.mp hd with hd | hd
    · exact hsibling d (List.mem_append_left _ hd)
    · rcases List.mem_cons.mp hd with rfl | hd
      · exact hleft
      · rcases List.mem_cons.mp hd with rfl | hd
        · exact hright
        · exact hsibling d (List.mem_append_right _ hd)
  · exact hgrows.refs.nodup_iff.mpr (List.nodup_cons.mpr ⟨hnew, ht.nodup⟩)

theorem insertsAt_node {n : Nat} {header : NodeRef} {key : κ} {value : ν} (hleaf : 2 ≤ L.leafCapacity)
    (hinternal : 3 ≤ L.internalCapacity) (hsub : InsertsAt rules FitsSize L header key value n) :
    InsertsAt rules FitsSize L header key value (n + 1) := by
  intro s live h t ph Q hs hheader hcount hsound hroom hout hQ
  obtain ⟨prev, next, keys, children, hc⟩ := t.exists_branch
  rw [hc] at hsound hroom hout hQ
  obtain ⟨⟨pn, hpn, hpage⟩, hbelow⟩ := Tree.stored_branch.mp hsound.stored
  have hroom' : keys.length < L.internalCapacity := not_le.mp (of_decide_eq_false hroom)
  obtain ⟨kl, kr, cl, c, cr, rfl, rfl, hl, hr, hidx, hkl, hkr⟩ :=
    exists_route (Tree.Ordered.separators hsound.ordered hsound.shaped) (Tree.shaped_branch.mp hsound.shaped).2.1 key
  have hchild := hsound.child hl
  have hlive := mem_live_of_stored rules hs hsound.stored
  have hrefs : ∀ i ∈ c.refs, i ∈ (Tree.branch t.ref prev next (kl ++ kr) (cl ++ c :: cr)).refs := fun i hi =>
    List.mem_cons_of_mem _ (List.mem_flatMap_of_mem (List.mem_append_right cl List.mem_cons_self) hi)
  rw [insertRecursive]
  unfold childForInsert
  simp only [bind_assoc]
  refine does_readInternal rules hs hpn fun s₁ hs₁ => ?_
  rw [hpage]
  dsimp only
  rw [hidx]
  refine ensures_ofOption_bind (getElem?_map_length Located.ref) ?_
  refine does_isFull rules hs₁ hchild.stored fun s₂ hs₂ => ?_
  cases hfull : c.node.isFull L with
  | false =>
      rw [if_neg Bool.false_ne_true, PageProgram.pure_bind]
      refine does_insertChild rules hsub hs₂ hheader hcount hsound hl hr hkl hkr hfull hout
        fun s' live' h' c' fresh hs' hinserted hstored' hchange hhd => ?_
      refine hQ s' live' h' hs' ⟨⟨_, fresh, Inserted.child hl hr hkl hkr hfull hinserted, hstored',
        hchange.mono ?_⟩, hhd⟩
      exact fun i hi => (List.mem_cons.mp hi).elim (fun h => h ▸ List.mem_cons_self) fun h =>
        List.mem_cons_of_mem _ (hrefs i h)
  | true =>
      rw [if_pos rfl, ← show (cl.map Located.ref).length = cl.length from List.length_map _]
      simp only [bind_assoc]
      rw [List.map_append, List.map_cons] at hpage
      have hl' : kl.length = (cl.map Located.ref).length := hl.trans (List.length_map _).symm
      have hr' : kr.length = (cr.map Located.ref).length := hr.trans (List.length_map _).symm
      have hrc : t.ref ∉ c.refs := fun hmem =>
        (List.nodup_cons.mp hsound.nodup).1 (List.mem_flatMap_of_mem (List.mem_append_right cl List.mem_cons_self) hmem)
      refine does_splitChild rules law hleaf hinternal hs₂ hpn hpage hl' hr' hroom' hchild.shaped hfull hchild.ordered
        hchild.stored hchild.nodup hrc fun s₃ h₃ left right sep new hinto hs₃ hpn₃ hleft hright hchange hfits => ?_
      obtain ⟨pn₃, hpn₃, hpage₃⟩ := hpn₃
      have his := hinto.isSplit hleaf hinternal hchild.shaped hfull
      obtain ⟨hsound₃, hperm⟩ := hsound.split hl hroom' his hlive ⟨pn₃, hpn₃,
        by simpa using hpage₃⟩ hleft hright hchange
      have hnew : header ≠ new := fun heq =>
        hchange.unused new (List.mem_singleton_self _) (heq ▸ rules.mem_live hs hheader)
      have hheader₃ : h₃ header = some ph := by
        refine (hchange.frame header ?_ (by simp [hnew])).trans hheader
        refine fun hmem => hout ?_
        rcases List.mem_cons.mp hmem with rfl | hmem
        · exact List.mem_cons_self
        · rw [List.mem_singleton.mp hmem]
          exact List.mem_cons_of_mem _ (List.mem_flatMap_of_mem
            (List.mem_append_right cl List.mem_cons_self) c.ref_mem_refs)
      have hout₃ : header ∉ (Tree.branch t.ref prev next (kl ++ sep :: kr) (cl ++ left :: right :: cr)).refs := by
        rw [hperm.mem_iff]
        exact fun hmem => (List.mem_cons.mp hmem).elim hnew hout
      have hentries : (Tree.branch t.ref prev next (kl ++ sep :: kr) (cl ++ left :: right :: cr)).entries =
          (Tree.branch t.ref prev next (kl ++ kr) (cl ++ c :: cr)).entries := by
        simp [← his.entries]
      have hcover : ∀ i ∈ [t.ref, c.ref], i ∈ header ::
        (Tree.branch t.ref prev next (kl ++ kr) (cl ++ c :: cr)).refs := by
        refine fun i hi => List.mem_cons_of_mem _ ?_
        rcases List.mem_cons.mp hi with rfl | hi
        · exact List.mem_cons_self
        · exact hrefs i (List.mem_singleton.mp hi ▸ c.ref_mem_refs)
      have hhalf : ∀ d, d = left ∨ d = right → ∀ i ∈ header :: d.refs,
          i ∈ header :: (Tree.branch t.ref prev next (kl ++ kr) (cl ++ c :: cr)).refs ∨ i ∈ [new] := by
        intro d hd i hi
        rcases List.mem_cons.mp hi with rfl | hi
        · exact Or.inl List.mem_cons_self
        · have hmem : i ∈ left.refs ++ right.refs := by
            rcases hd with rfl | rfl
            · exact List.mem_append_left _ hi
            · exact List.mem_append_right _ hi
          rcases List.mem_cons.mp (his.refs.mem_iff.mp hmem) with rfl | hi
          · exact Or.inr (List.mem_singleton_self _)
          · exact Or.inl (List.mem_cons_of_mem _ (hrefs i hi))
      refine does_readInternal rules hs₃ hpn₃ fun s₄ hs₄ => ?_
      rw [hpage₃]
      refine ensures_ofOption_bind (by rw [← hl']; exact getElem?_length) ?_
      rcases lt_or_ge key sep with hkey | hkey
      · rw [if_pos hkey]
        refine ensures_ofOption_bind getElem?_length ?_
        refine does_insertChild rules hsub hs₄ hheader₃ hcount hsound₃ hl (congrArg Nat.succ hr) hkl
          (List.forall_mem_cons.mpr ⟨hkey, hkr⟩) his.room_left hout₃
          fun s' live' h' c' fresh hs' hinserted hstored' hchange' hhd => ?_
        rw [hentries] at hhd ⊢
        refine hQ s' live' h' hs' ⟨⟨_, new :: fresh,
          Inserted.splitLeft hl hr hkl hkr hfull hinto hkey hinserted, hstored', ?_⟩, hhd⟩
        exact (hchange.mono hcover).trans hchange' (hhalf left (Or.inl rfl)) fun i _ => List.not_mem_nil
      · rw [if_neg (not_lt.mpr hkey)]
        refine ensures_ofOption_bind getElem?_length_succ ?_
        rw [List.append_cons kl sep, List.append_cons cl left] at hsound₃ hout₃ hentries
        refine does_insertChild rules hsub hs₄ hheader₃ hcount hsound₃ (by simp [hl]) hr ?_ hkr his.room_right hout₃
          fun s' live' h' c' fresh hs' hinserted hstored' hchange' hhd => ?_
        · intro k hk
          rcases List.mem_append.mp hk with hk | hk
          · exact hkl k hk
          · exact List.mem_singleton.mp hk ▸ hkey
        rw [hentries] at hhd ⊢
        rw [← List.append_cons kl sep, ← List.append_cons cl left] at hstored'
        refine hQ s' live' h' hs' ⟨⟨_, new :: fresh,
          Inserted.splitRight hl hr hkl hkr hfull hinto hkey hinserted, hstored', ?_⟩, hhd⟩
        exact (hchange.mono hcover).trans hchange' (hhalf right (Or.inr rfl)) fun i _ => List.not_mem_nil

theorem insertsAt {header : NodeRef} {key : κ} {value : ν} (hleaf : 2 ≤ L.leafCapacity)
    (hinternal : 3 ≤ L.internalCapacity)
    (n : Nat) : InsertsAt rules FitsSize L header key value n := by
  induction n with
  | zero => exact insertsAt_leaf rules law hleaf hinternal
  | succ n ih => exact insertsAt_node rules law hleaf hinternal ih

/-! ### The whole tree -/

omit rules in
/-- The tree under the new root that takes in the halves of the old one. -/
theorem IsTree.split_root {n : Nat} {header new new' : NodeRef} {t left right : Tree κ ν n} {sep : κ}
    {h h' : Nat → Option P}
    (ht : IsTree L Fits FitsSize header h t) (hinternal : 3 ≤ L.internalCapacity)
    (hlive : ∀ i ∈ header :: t.refs, i ∈ live) (hsplit : IsSplit L t left right sep new)
    (hpage : ∃ p, h' new' = some p ∧ L.internal p = ⟨0, 0, [sep], [left.ref, right.ref]⟩) (hleft : left.Stored L h')
    (hright : right.Stored L h')
    (hheader : ∃ p ph, h header = some ph ∧ h' header = some p ∧
      L.header p = { L.header ph with root := new', depth := (L.header ph).depth + 1 })
    (hnew : new ∉ live) (hnew' : new' ∉ live) (hne : new' ≠ new) (hfits : Fits new') :
    IsTree L Fits FitsSize header h' (Tree.branch new' 0 0 [sep] [left, right]) ∧
      (Tree.branch new' 0 0 [sep] [left, right]).refs.Perm (new' :: new :: t.refs) ∧
      (Tree.branch new' 0 0 [sep] [left, right]).entries = t.entries ∧
      (Tree.branch new' 0 0 [sep] [left, right]).node.isFull L = false := by
  obtain ⟨ph, hph, hdepth, hsize, hroot, hfitsh⟩ := ht.page
  obtain ⟨p, ph', hph', hp, hhd⟩ := hheader
  cases Option.some.inj (hph.symm.trans hph')
  have hentries : (Tree.branch new' 0 0 [sep] [left, right]).entries = t.entries := by
    rw [← hsplit.entries]
    simp
  have hrefs : (Tree.branch new' 0 0 [sep] [left, right]).refs.Perm (new' :: new :: t.refs) := by
    have hperm := hsplit.refs.cons new'
    simpa using hperm
  have hshaped : (Tree.branch new' 0 0 [sep] [left, right]).Shaped L := by
    refine Tree.shaped_branch.mpr ⟨by simp only [List.length_singleton]; omega, rfl, fun c hc => ?_⟩
    rcases List.mem_cons.mp hc with rfl | hc
    · exact ⟨hsplit.shaped_left, hsplit.pos_left⟩
    · rw [List.mem_singleton.mp hc]
      exact ⟨hsplit.shaped_right, hsplit.pos_right⟩
  have hordered : (Tree.branch new' 0 0 [sep] [left, right]).Ordered := by
    have := hsplit.ordered [] [] (by rw [List.nil_append, List.append_nil]; exact ht.sound.ordered)
    simpa [Tree.Ordered, interleave] using this
  refine ⟨⟨⟨p, hp, ?_⟩, ⟨hshaped, fun _ => Nat.one_pos, hordered, ?_, ?_⟩, ⟨rfl, ?_⟩, ?_⟩, hrefs, hentries, ?_⟩
  · have hheight := hshaped.height_lt Nat.one_pos
    rw [hentries, ← hsize] at hheight
    rw [hhd, hentries]
    exact ⟨congrArg (· + 1) hdepth, hsize, rfl, ⟨hdepth ▸ law.fitsSize_of_le hheight.le hfitsh.size, hfitsh.size, hfits,
      hfitsh.leaves, hfitsh.maxKeyBytes⟩⟩
  · refine Tree.stored_branch.mpr ⟨hpage, fun c hc => ?_⟩
    rcases List.mem_cons.mp hc with rfl | hc
    · exact hleft
    · rw [List.mem_singleton.mp hc]
      exact hright
  · refine hrefs.nodup_iff.mpr (List.nodup_cons.mpr ⟨fun hmem =>
    ?_, List.nodup_cons.mpr ⟨fun hmem => ?_, ht.sound.nodup⟩⟩)
    · exact (List.mem_cons.mp hmem).elim hne fun hmem => hnew' (hlive _ (List.mem_cons_of_mem _ hmem))
    · exact hnew (hlive _ (List.mem_cons_of_mem _ hmem))
  · obtain ⟨hl, hr⟩ := hsplit.linked _ ht.linked
    exact ⟨hl, hr, trivial⟩
  · have hheader := hlive _ List.mem_cons_self
    rw [hrefs.mem_iff]
    intro hmem
    rcases List.mem_cons.mp hmem with rfl | hmem
    · exact hnew' hheader
    · rcases List.mem_cons.mp hmem with rfl | hmem
      · exact hnew hheader
      · exact ht.out hmem
  · refine decide_eq_false ?_
    change ¬ L.internalCapacity ≤ 1
    omega

omit law rules in
theorem IsTree.mem_live {σ : Type} {S : PageStore σ P} {Cond : σ → Prop} {s : σ} (rules : HeapRules S Cond L.blank Fits)
    {n : Nat} {header : NodeRef} {t : Tree κ ν n} (ht : IsTree L Fits FitsSize header h t) (hs : rules.Views s live h) :
    ∀ i ∈ header :: t.refs, i ∈ live := fun i hi => by
  rcases List.mem_cons.mp hi with rfl | hi
  · obtain ⟨p, hp, -⟩ := ht.page
    exact rules.mem_live hs hp
  · exact mem_live_of_stored rules hs ht.sound.stored i hi

/-- A full root gets a new root above it. -/
theorem does_splitRoot {n : Nat} {header : NodeRef} {t : Tree κ ν n} {f : Unit → PageProgram P β}
    (hleaf : 2 ≤ L.leafCapacity)
    (hinternal : 3 ≤ L.internalCapacity) (hs : rules.Views s live h) (ht : IsTree L Fits FitsSize header h t)
    (hQ : ∀ s' live' h' m (t' : Tree κ ν m), rules.Views s' live' h' → IsTree L Fits FitsSize header h' t' →
      t'.entries = t.entries → t'.node.isFull L = false → Replaced live live' h h' (header :: t.refs)
        (header :: t'.refs) →
      (f ()).Ensures S Cond Q s') :
    (splitRoot L header >>= f).Ensures S Cond Q s := by
  obtain ⟨ph, hph, hdepth, hsize, hroot, hfits⟩ := ht.page
  have hlive := ht.mem_live rules hs
  unfold splitRoot
  simp only [bind_assoc]
  refine does_readHeader rules hs hph fun s₁ hs₁ => ?_
  rw [hdepth, hroot]
  refine does_isFull rules hs₁ ht.sound.stored fun s₂ hs₂ => ?_
  cases hfull : t.node.isFull L with
  | false =>
      rw [if_neg Bool.false_ne_true, PageProgram.pure_bind]
      exact hQ s₂ live h n t hs₂ ht rfl hfull (Replaced.refl hlive)
  | true =>
      rw [if_pos rfl]
      simp only [bind_assoc]
      refine does_createNode rules hs₂ fun s₃ new' hnew' hfits' hs₃ => ?_
      have hne : ∀ i ∈ header :: t.refs, i ≠ new' := fun i hi heq => hnew' (heq ▸ hlive i hi)
      refine does_writeNode rules hs₃ (Function.update_self _ _ _) fun s₄ hs₄ => ?_
      rw [Function.update_idem] at hs₄
      have hpage : L.internal (L.setInternal [] [t.ref] L.blank) = ⟨0, 0, [] ++ [], [] ++ t.ref :: []⟩ := by
        rw [law.internal_setInternal (Nat.zero_le _) rfl fun c hc => ?_, law.internal_blank]
        · rfl
        · rw [List.mem_singleton.mp hc, ← hroot]
          exact hfits.root
      have hstored : t.Stored L (Function.update h new' (some (L.setInternal [] [t.ref] L.blank))) :=
        ht.sound.stored.congr fun i hi => Function.update_of_ne (hne i (List.mem_cons_of_mem _ hi)) _ _
      change (splitChild L new' ([] : List NodeRef).length (n = 0) >>= _).Ensures S Cond Q s₄
      refine does_splitChild (c := t) rules law hleaf hinternal hs₄ (Function.update_self _ _ _) hpage rfl rfl ?_
        ht.sound.shaped hfull ht.sound.ordered hstored ht.sound.nodup (fun hmem =>
          hne new' (List.mem_cons_of_mem _ hmem) rfl)
        fun s₅ h₅ left right sep new hinto hs₅ hroot₅ hleft hright hchange hfitsnew => ?_
      · change 0 < L.internalCapacity
        omega
      have hcount : t.node.keyCount = Content.capacity L n :=
        Nat.le_antisymm (Tree.keyCount_le_capacity ht.sound.shaped) (of_decide_eq_true hfull)
      have his := hinto.isSplit hleaf hinternal ht.sound.shaped hfull
      have hnew : new ∉ insert new' live := hchange.unused new (List.mem_singleton_self _)
      rw [Finset.mem_insert, not_or] at hnew
      have hheader : h₅ header = some ph := by
        rw [hchange.frame header ?_ ?_, Function.update_of_ne (hne header List.mem_cons_self)]
        · exact hph
        · have : header ≠ t.ref := fun heq => ht.out (heq ▸ t.ref_mem_refs)
          simp [hne header List.mem_cons_self, this]
        · have : header ≠ new := fun heq => hnew.2 (heq ▸ hlive header List.mem_cons_self)
          simp [this]
      refine does_writeNode rules hs₅ hheader fun s₆ hs₆ => ?_
      have hne' : ∀ i, i ≠ header → Function.update h₅ header (some (L.setHeader
          { L.header ph with root := new', depth := (L.header ph).depth + 1 } ph)) i = h₅ i :=
        fun i hi => Function.update_of_ne hi _ _
      have hhalf : ∀ d, d = left ∨ d = right → ∀ i ∈ d.refs, i ≠ header := fun d hd i hi heq => by
        have hmem : i ∈ left.refs ++ right.refs := by
          rcases hd with rfl | rfl
          · exact List.mem_append_left _ hi
          · exact List.mem_append_right _ hi
        rcases List.mem_cons.mp (his.refs.mem_iff.mp hmem) with rfl | hi
        · exact hnew.2 (heq ▸ hlive header List.mem_cons_self)
        · exact ht.out (heq ▸ hi)
      have hheight : n < t.entries.length :=
        ht.sound.shaped.height_lt (by rw [hcount]; cases n <;> simp only [Content.capacity] <;> omega)
      have hfits₆ : HeaderFits Fits FitsSize { L.header ph with root := new', depth := (L.header ph).depth + 1 } :=
        ⟨law.fitsSize_of_le (by rw [hsize, hdepth]; exact hheight) hfits.size, hfits.size, hfits', hfits.leaves,
          hfits.maxKeyBytes⟩
      obtain ⟨pr, hpr, hprpage⟩ := hroot₅
      obtain ⟨ht₆, hperm, hentries, hroom⟩ := ht.split_root law hinternal hlive his
        ⟨pr, (hne' new' (hne header List.mem_cons_self).symm).trans hpr, by simpa using hprpage⟩
        (hleft.congr fun i hi => hne' i (hhalf left (Or.inl rfl) i hi))
        (hright.congr fun i hi => hne' i (hhalf right (Or.inr rfl) i hi))
        ⟨_, ph, hph, Function.update_self _ _ _, hfits₆.read law ph⟩ hnew.2 hnew' (Ne.symm hnew.1) hfits'
      have hall : HeapChange live (insert new (insert new' live)) h (Function.update h₅ header (some (L.setHeader
          { L.header ph with root := new', depth := (L.header ph).depth + 1 } ph)))
            (header :: t.refs) [new', new] [] := by
        refine ⟨?_, ?_, ?_, fun i hi hf => ?_⟩
        · ext i
          simp only [Finset.mem_insert, Finset.mem_sdiff, Finset.mem_union, List.mem_toFinset,
            List.mem_cons, List.not_mem_nil]
          tauto
        · simpa using ⟨hnew', hnew.2⟩
        · simpa using Ne.symm hnew.1
        · rw [List.mem_cons, not_or] at hi hf
          have hit : i ≠ t.ref := fun heq => hi.2 (heq ▸ t.ref_mem_refs)
          rw [hne' i hi.1, hchange.frame i (by simp [hf.1, hit]) hf.2, Function.update_of_ne hf.1]
      refine hQ s₆ _ _ _ _ hs₆ ht₆ hentries hroom (Replaced.of_change hall (fun i hi => hi) hlive ?_ fun i hi =>
        absurd hi List.not_mem_nil)
      refine (hperm.cons header).trans ?_
      exact (@List.perm_middle _ header [new', new] t.refs).symm

omit rules law in
theorem HeaderFits.after {hd : Header} {es : List (κ × ν)} {key : κ} (hfits : HeaderFits Fits FitsSize hd)
    (hcount : HeaderFits Fits FitsSize (countNewKey L hd)) : HeaderFits Fits FitsSize (headerAfter L hd es key) := by
  unfold headerAfter
  split_ifs
  · exact hfits
  · exact hcount

/-- `insert` enters the key, or changes its value, and says whether the key is new. -/
theorem does_insertImpl {n : Nat} {header : NodeRef} {t : Tree κ ν n} {key : κ} {value : ν} (hleaf : 2 ≤ L.leafCapacity)
    (hinternal : 3 ≤ L.internalCapacity) (hstride : L.keyStride < 2 ^ 16) (hs : rules.Views s live h)
    (ht : IsTree L Fits FitsSize header h t) (hsize : FitsSize (t.entries.length + 1)) {Q : σ → Bool → Prop}
    (hQ : ∀ s' live' h' m (t' : Tree κ ν m), rules.Views s' live' h' → IsTree L Fits FitsSize header h' t' →
      t'.entries = upsert key value t.entries → Replaced live live' h h' (header :: t.refs) (header :: t'.refs) →
      Q s' (decide (key ∉ t.entries.map (·.1)))) :
    (insertImpl L header key value).Ensures S Cond Q s := by
  unfold insertImpl
  refine does_splitRoot rules law hleaf hinternal hs ht fun s₁ live₁ h₁ m t₁ hs₁ ht₁ hentries hroom hreplaced => ?_
  rw [← hentries] at hsize hQ
  obtain ⟨ph, hph, hdepth, hlen, hroot, hfits⟩ := ht₁.page
  refine does_readHeader rules hs₁ hph fun s₂ hs₂ => ?_
  have hcount : HeaderFits Fits FitsSize (countNewKey L (L.header ph)) :=
    ⟨hfits.depth, by rw [countNewKey, hlen]; exact hsize, hfits.root, hfits.leaves, max_lt hfits.maxKeyBytes hstride⟩
  rw [hdepth, hroot]
  refine insertsAt rules law hleaf hinternal m hs₂ hph hcount ht₁.sound hroom ht₁.out fun s₃ live₃ h₃ hs₃ hat => ?_
  obtain ⟨⟨t', fresh, hinserted, hstored, hchange⟩, p, hp, hhd⟩ := hat
  obtain ⟨hgrows, hordered, hupsert⟩ :=
    hinserted.grows_whole hleaf hinternal ht₁.sound.shaped hroom ht₁.sound.pos ht₁.sound.ordered
  have hlive := ht₁.mem_live rules hs₁
  have hfresh : ∀ i ∈ fresh, i ∉ header :: t₁.refs := fun i hi hmem => hchange.unused i hi (hlive i hmem)
  have ht' : IsTree L Fits FitsSize header h₃ t' := by
    refine ⟨⟨p, hp, ?_⟩, ⟨hgrows.shaped, fun _ => hgrows.pos, hordered, hstored, ?_⟩, hgrows.linked _ ht₁.linked, ?_⟩
    · have hlength : (upsert key value t₁.entries).length = _ := length_upsert ht₁.sound.ordered.keys
      rw [hhd, hupsert, hlength]
      refine ⟨?_, ?_, ?_, hfits.after hcount⟩
      · unfold headerAfter
        split_ifs <;> exact hdepth
      · unfold headerAfter
        split_ifs
        · exact hlen
        · exact congrArg (· + 1) hlen
      · unfold headerAfter
        split_ifs <;> exact hroot.trans hgrows.ref.symm
    · refine hgrows.refs.nodup_iff.mpr (List.nodup_append.mpr ⟨hchange.nodup, ht₁.sound.nodup, fun i hi j hj heq => ?_⟩)
      exact hfresh i hi (List.mem_cons_of_mem _ (heq ▸ hj))
    · rw [hgrows.refs.mem_iff, List.mem_append, not_or]
      exact ⟨fun hmem => hfresh header hmem List.mem_cons_self, ht₁.out⟩
  refine hQ s₃ live₃ h₃ m t' hs₃ ht' hupsert (hreplaced.trans ?_)
  refine Replaced.of_change hchange (fun i hi => hi) hlive ?_ fun i hi => absurd hi List.not_mem_nil
  exact (hgrows.refs.cons header).trans List.perm_middle.symm

end

end Plexdb.BTree
