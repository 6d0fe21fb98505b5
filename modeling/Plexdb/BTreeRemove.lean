import Plexdb.BTreeNeighbours

/-! The removal of a key: the way down, the repair of the nodes on the way back up, and what is left at the root. -/

namespace Plexdb.BTree

open PageProgram SortedEntries

section

variable {P κ ν : Type} [LinearOrder κ] {L : Layout P κ ν} {Fits : NodeRef → Prop} {FitsSize : Nat → Prop}
  {live : Finset Nat} {h h' : Nat → Option P} {N n : Nat} {header : NodeRef} {freed : List NodeRef}

/-! ### A tree on the way back up -/

/-- A tree in a heap that has lost an entry at the end of a path: the header still counts it, and the node there may
have too few keys. -/
structure Hole (L : Layout P κ ν) (Fits : NodeRef → Prop) (FitsSize : Nat → Prop)
    (header : NodeRef) (h : Nat → Option P)
    (p : Path κ ν N n) (c : Tree κ ν n) : Prop where
  page : ∃ q, h header = some q ∧ (L.header q).depth = N ∧ (L.header q).size = (p.plug c).entries.length + 1 ∧
    (L.header q).root = (p.plug c).ref ∧ HeaderFits Fits FitsSize (L.header q)
  path : p.Shaped L
  shaped : c.Shaped L
  ordered : (p.plug c).Ordered
  stored : (p.plug c).Stored L h
  nodup : (p.plug c).refs.Nodup
  linked : (p.plug c).Linked fun _ => 0
  out : header ∉ (p.plug c).refs

/-- A repaired node takes the place of the old one. -/
theorem Hole.up {f : Frame κ ν n} {up : Path κ ν N (n + 1)} {c : Tree κ ν n} {g : Tree κ ν (n + 1)}
    (hh : Hole L Fits FitsSize header h (.step f up) c) (hg : Stands (f.plug c) g freed)
    (hentries : g.entries = (f.plug c).entries)
    (hshaped : g.Shaped L) (hstored : g.Stored L h') (hframe : ∀ i, i ∉ (f.plug c).refs → h' i = h i) :
    Hole L Fits FitsSize header h' up g := by
  obtain ⟨q, hq, hdepth, hsize, hroot, hfits⟩ := hh.page
  have hup : up.Shaped L := hh.path.2.2.2.2.2
  have hplug := hg.plug hup
  obtain ⟨A, B, hplugged⟩ := up.entries_plug
  have hall : (up.plug g).entries = (up.plug (f.plug c)).entries := by rw [hplugged, hplugged, hentries]
  have hordered := hplug.ordered [] [] (by
    rw [List.nil_append, List.append_nil]
    exact hh.ordered)
  rw [List.nil_append, List.append_nil] at hordered
  have hnodup := hplug.refs.nodup_iff.mpr hh.nodup
  refine ⟨⟨q, ?_, hdepth, ?_, hroot.trans hplug.ref.symm, hfits⟩, hup, hshaped, hordered, ?_,
    (List.nodup_append.mp hnodup).2.1,
    hplug.linked _ hh.linked, fun hmem => hh.out (hplug.refs.subset (List.mem_append_right _ hmem))⟩
  · rw [hframe header fun hmem => hh.out (up.refs_subset _ header hmem)]
    exact hq
  · rw [hall]
    exact hsize
  · exact up.stored_replace hh.stored hh.nodup hstored hg.ref fun i _ hi => hframe i hi

omit [LinearOrder κ] in
theorem erase_eq_sdiff (live : Finset Nat) (i : Nat) : live.erase i = live \ [i].toFinset := by
  ext j
  rw [Finset.mem_erase, Finset.mem_sdiff, List.mem_toFinset, List.mem_singleton]
  exact and_comm

omit [LinearOrder κ] in
theorem Replaced.of_frame {pages : List NodeRef} (hlive : ∀ i ∈ pages, i ∈ live)
    (hframe : ∀ i, i ∉ pages → h' i = h i) :
    Replaced live live h h' pages pages where
  live_eq := by
    rw [Finset.sdiff_union_of_subset]
    exact fun i hi => hlive i (List.mem_toFinset.mp hi)
  owned := fun i hi => Or.inl hi
  frame := fun i _ hi => hframe i hi

omit [LinearOrder κ] in
theorem Replaced.of_perm {pages pages' : List NodeRef} (hperm : (freed ++ pages').Perm pages)
    (hnodup : (header :: pages).Nodup)
    (hlive : ∀ i ∈ header :: pages, i ∈ live) (hframe : ∀ i, i ∉ header :: pages → h' i = h i) :
    Replaced live (live \ freed.toFinset) h h' (header :: pages) (header :: pages') where
  live_eq := by
    obtain ⟨hheader, hpages⟩ := List.nodup_cons.mp hnodup
    obtain ⟨-, -, hdisjoint⟩ := List.nodup_append.mp (hperm.nodup_iff.mpr hpages)
    ext i
    have hmem := hperm.mem_iff (a := i)
    have h₁ := hlive i
    have h₂ : i ∈ freed → i ∉ pages' := fun hi hi' => hdisjoint i hi i hi' rfl
    have h₃ : i = header → i ∉ pages := fun heq => heq ▸ hheader
    simp only [List.mem_append] at hmem
    simp only [Finset.mem_union, Finset.mem_sdiff, List.mem_toFinset, List.mem_cons] at h₁ ⊢
    tauto
  owned := fun i hi => by
    rcases List.mem_cons.mp hi with rfl | hi
    · exact Or.inl List.mem_cons_self
    · exact Or.inl (List.mem_cons_of_mem _ (hperm.subset (List.mem_append_right _ hi)))
  frame := fun i _ hi => hframe i hi

end

section

variable {σ P κ ν β : Type} [LinearOrder κ] {S : PageStore σ P} {Cond : σ → Prop} {L : Layout P κ ν}
  {Fits : NodeRef → Prop} {FitsSize : Nat → Prop} (rules : HeapRules S Cond L.blank Fits) (law : L.Lawful Fits FitsSize)
  {s : σ} {live : Finset Nat} {h : Nat → Option P} {Q : σ → β → Prop} {N n : Nat} {header : NodeRef}

include rules law

/-- A tree whose nodes all have enough keys again, once the entry is not counted any more. -/
theorem does_countRemovedKey {p : Path κ ν N n} {c : Tree κ ν n} {f : Unit → PageProgram P β}
    (hs : rules.Views s live h)
    (hh : Hole L Fits FitsSize header h p c) (hshaped : (p.plug c).Shaped L)
    (hpos : N ≠ 0 → 0 < (p.plug c).node.keyCount)
    (hQ : ∀ s' h', rules.Views s' live h' → IsTree L Fits FitsSize header h' (p.plug c) →
      Replaced live live h h' (header :: (p.plug c).refs) (header :: (p.plug c).refs) → (f ()).Ensures S Cond Q s') :
    (updateHeader L header countRemovedKey >>= f).Ensures S Cond Q s := by
  obtain ⟨q, hq, hdepth, hsize, hroot, hfits⟩ := hh.page
  have hfits' : HeaderFits Fits FitsSize (countRemovedKey (L.header q)) :=
    ⟨hfits.depth, law.fitsSize_of_le (Nat.sub_le _ 1) hfits.size, hfits.root, hfits.leaves, hfits.maxKeyBytes⟩
  refine does_writeNode rules hs hq fun s' hs' => ?_
  have hlive : ∀ i ∈ header :: (p.plug c).refs, i ∈ live := fun i hi => by
    rcases List.mem_cons.mp hi with rfl | hi
    · exact rules.mem_live hs hq
    · exact mem_live_of_stored rules hs hh.stored i hi
  refine hQ s' _ hs' ⟨⟨_, Function.update_self _ _ _, ?_⟩, ⟨hshaped, hpos, hh.ordered, ?_, hh.nodup⟩,
    hh.linked, hh.out⟩ ?_
  · rw [hfits'.read law]
    exact ⟨hdepth, by rw [countRemovedKey, hsize, Nat.add_sub_cancel], hroot, hfits'⟩
  · exact hh.stored.congr fun i hi => Function.update_of_ne (fun heq : i = header => hh.out (heq ▸ hi)) _ _
  · exact Replaced.of_frame hlive fun i hi => Function.update_of_ne (List.ne_of_not_mem_cons hi) _ _

/-! ### The root -/

omit rules law [LinearOrder κ] in
/-- What a page says of the occupancy of its node. -/
theorem Tree.Stored.exists_occupancy {c : Tree κ ν n} (hc : c.Stored L h) : ∃ p, h c.ref = some p ∧
    keyCount L (n = 0) p = c.node.keyCount ∧ isUnderfull L (n = 0) p = c.node.isUnderfull L := by
  cases n with
  | zero =>
      obtain ⟨p, hp, hpage⟩ := hc
      exact ⟨p, hp, congrArg (fun l : Leaf κ ν => l.entries.length) hpage, congrArg L.isUnderfullLeaf hpage⟩
  | succ n =>
      obtain ⟨⟨p, hp, hpage⟩, -⟩ := hc
      exact ⟨p, hp, congrArg (fun l : Internal κ NodeRef => l.keys.length) hpage, congrArg L.isUnderfullInternal hpage⟩

omit rules law in
/-- The only child of a root without keys is the tree. -/
theorem Hole.collapse {c : Tree κ ν (n + 1)} (hh : Hole L Fits FitsSize header h (.top : Path κ ν (n + 1) (n + 1)) c)
    (hempty : c.node.keyCount = 0) : ∃ prev next d, c = Tree.branch c.ref prev next [] [d] ∧ d.Shaped L ∧
      0 < d.node.keyCount ∧
      d.Ordered ∧ d.Linked (fun _ => 0) ∧ c.entries = d.entries := by
  obtain ⟨prev, next, keys, children, hc⟩ := c.exists_branch
  have hshaped := hh.shaped
  have hordered : c.Ordered := hh.ordered
  have hlinked : c.Linked fun _ => 0 := hh.linked
  rw [hc] at hempty hshaped hordered hlinked
  obtain rfl := List.eq_nil_of_length_eq_zero hempty
  obtain ⟨-, hlen, hchildren⟩ := Tree.shaped_branch.mp hshaped
  obtain ⟨d, rfl⟩ := List.length_eq_one_iff.mp hlen
  obtain ⟨hd, hpos⟩ := hchildren d (List.mem_singleton_self d)
  refine ⟨prev, next, d, hc, hd, hpos, ?_, (Tree.linked_branch.mp hlinked).2.1, ?_⟩
  · simpa [Tree.Ordered, interleave] using hordered
  · rw [hc]
    simp

omit law in
theorem Hole.mem_live {p : Path κ ν N n} {c : Tree κ ν n} (hh : Hole L Fits FitsSize header h p c)
    (hs : rules.Views s live h) :
    ∀ i ∈ header :: (p.plug c).refs, i ∈ live := fun i hi => by
  rcases List.mem_cons.mp hi with rfl | hi
  · obtain ⟨q, hq, -⟩ := hh.page
    exact rules.mem_live hs hq
  · exact mem_live_of_stored rules hs hh.stored i hi

/-- At the root the removal ends: one without keys gives way to its only child. -/
theorem does_finishAtRoot {c : Tree κ ν N} {f : Unit → PageProgram P β} (hs : rules.Views s live h)
    (hh : Hole L Fits FitsSize header h (.top : Path κ ν N N) c)
    (hQ : ∀ s' live' h' m (t' : Tree κ ν m), rules.Views s' live' h' → IsTree L Fits FitsSize header h' t' →
      t'.entries = c.entries → Replaced live live' h h' (header :: c.refs) (header :: t'.refs) →
        (f ()).Ensures S Cond Q s') :
    (finishAtRoot L header c.ref (N = 0) >>= f).Ensures S Cond Q s := by
  obtain ⟨q, hq, hdepth, hsize, hroot, hfits⟩ := hh.page
  obtain ⟨pc, hpc, hcount, hunderfull⟩ := Tree.Stored.exists_occupancy (c := c) hh.stored
  have hlive := hh.mem_live rules hs
  unfold finishAtRoot
  simp only [PageProgram.bind_assoc]
  refine does_readNode rules hs hpc fun s₁ hs₁ => ?_
  refine does_readHeader rules hs₁ hq fun s₂ hs₂ => ?_
  rw [hcount, hunderfull, hdepth]
  by_cases hempty : c.node.keyCount = 0 ∧ N ≠ 0
  · obtain ⟨hempty, hN⟩ := hempty
    cases N with
    | zero => exact absurd rfl hN
    | succ N =>
        have hunder : c.node.isUnderfull L = true := decide_eq_true (Or.inl hempty)
        rw [if_pos ⟨hunder, hempty, hN⟩]
        obtain ⟨prev, next, d, hc, hshaped, hpos, hordered, hlinked, hentries⟩ := hh.collapse hempty
        have hstored : c.Stored L h := hh.stored
        have hnodup : c.refs.Nodup := hh.nodup
        rw [hc] at hstored hnodup
        obtain ⟨⟨pc', hpc', hpage⟩, hbelow⟩ := Tree.stored_branch.mp hstored
        obtain rfl : pc = pc' := Option.some.inj (hpc.symm.trans hpc')
        rw [Tree.refs_branch, List.flatMap_singleton] at hnodup
        obtain ⟨hcd, hnodup⟩ := List.nodup_cons.mp hnodup
        have hrefs : c.refs = c.ref :: d.refs := by
          rw [hc]
          simp
        have hout := hh.out
        rw [Path.plug_top, hrefs, List.mem_cons, not_or] at hout
        have hfits' : HeaderFits Fits FitsSize
            { L.header q with root := d.ref, depth := (L.header q).depth - 1, size := (L.header q).size - 1 } :=
          ⟨law.fitsSize_of_le (Nat.sub_le _ 1) hfits.depth, law.fitsSize_of_le (Nat.sub_le _ 1) hfits.size,
            fits_child law hpage (List.mem_singleton_self _), hfits.leaves, hfits.maxKeyBytes⟩
        simp only [PageProgram.bind_assoc]
        refine ensures_ofOption_bind (a := d.ref) (by rw [hpage]; rfl) ?_
        refine does_deleteNode rules hs₂ (hlive _ (List.mem_cons_of_mem _ c.ref_mem_refs)) fun s₃ hs₃ => ?_
        refine does_writeNode rules hs₃ ((Function.update_of_ne hout.1 _ _).trans hq) fun s₄ hs₄ => ?_
        refine hQ s₄ _ _ N d hs₄ ⟨⟨_, Function.update_self _ _ _, ?_⟩,
          ⟨hshaped, fun _ => hpos, hordered, ?_, hnodup⟩, hlinked,
          hout.2⟩ hentries.symm ?_
        · rw [hfits'.read law]
          refine ⟨by rw [hdepth]; rfl, ?_, rfl, hfits'⟩
          rw [hsize, ← hentries]
          rfl
        · refine (hbelow d (List.mem_singleton_self d)).congr fun i hi => ?_
          rw [Function.update_of_ne fun heq : i = header => hout.2 (heq ▸ hi),
            Function.update_of_ne fun heq : i = c.ref => hcd (heq ▸ hi)]
        · rw [erase_eq_sdiff]
          refine Replaced.of_perm (List.Perm.of_eq hrefs.symm)
            (List.nodup_cons.mpr ⟨hh.out, hh.nodup⟩) hlive fun i hi => ?_
          rw [List.mem_cons, not_or] at hi
          rw [Function.update_of_ne hi.1, Function.update_of_ne fun heq : i = c.ref => hi.2 (heq ▸ c.ref_mem_refs)]
  · rw [if_neg fun hcond => hempty ⟨hcond.2.1, hcond.2.2⟩]
    refine does_countRemovedKey rules law hs₂ hh hh.shaped (fun hN =>
      Nat.pos_of_ne_zero fun hzero => hempty ⟨hzero, hN⟩)
      fun s' h' hs' ht hreplaced => ?_
    exact hQ s' live h' N c hs' ht rfl hreplaced

/-! ### The siblings of a node -/

omit rules law [LinearOrder κ] in
/-- The reference of a sibling, zero for none. -/
def siblingRef (o : Option (Tree κ ν n)) : NodeRef := o.elim 0 Located.ref

omit rules law [LinearOrder κ] in
theorem does_leftSibling {prev next : NodeRef} {keys : List κ} {cl cs : List (Tree κ ν n)}
    {f : NodeRef → PageProgram P β}
    (h : (f (siblingRef cl.getLast?)).Ensures S Cond Q s) :
    (leftSibling (⟨prev, next, keys, (cl ++ cs).map Located.ref⟩ : Internal κ NodeRef) cl.length >>=
      f).Ensures S Cond Q s := by
  unfold leftSibling
  rcases List.eq_nil_or_concat' cl with rfl | ⟨cl, a, rfl⟩
  · exact h
  · rw [if_pos (by simp)]
    rw [List.getLast?_concat] at h
    refine ensures_ofOption_bind (a := a.ref) ?_ h
    simp

omit rules law [LinearOrder κ] in
theorem does_rightSibling {prev next : NodeRef} {keys : List κ} {c : Tree κ ν n} {cl cr : List (Tree κ ν n)}
    {f : NodeRef → PageProgram P β} (hlen : keys.length = cl.length + cr.length)
    (h : (f (siblingRef cr.head?)).Ensures S Cond Q s) :
    (rightSibling (⟨prev, next, keys, (cl ++ c :: cr).map Located.ref⟩ : Internal κ NodeRef) cl.length >>=
      f).Ensures S Cond Q s := by
  unfold rightSibling
  cases cr with
  | nil =>
      rw [if_neg (by rw [hlen]; exact lt_irrefl _)]
      exact h
  | cons b cr =>
      rw [if_pos (by rw [hlen]; exact Nat.lt_add_of_pos_right (Nat.succ_pos _))]
      refine ensures_ofOption_bind (a := b.ref) ?_ h
      simp

omit law [LinearOrder κ] in
theorem does_hasSpare {o : Option (Tree κ ν n)} {f : Bool → PageProgram P β} (hs : rules.Views s live h)
    (ho : ∀ a ∈ o, a.Stored L h)
    (hQ : ∀ s', rules.Views s' live h → (f (o.any fun a => a.node.hasSpare L)).Ensures S Cond Q s') :
    (hasSpare L (siblingRef o) (n = 0) >>= f).Ensures S Cond Q s := by
  unfold hasSpare
  cases o with
  | none => exact hQ s hs
  | some a =>
      obtain ⟨p, hp, hcount, hunderfull⟩ := (ho a rfl).exists_occupancy
      rw [if_neg (rules.ne_zero hs hp : siblingRef (some a) ≠ 0)]
      simp only [PageProgram.bind_assoc]
      refine does_updateNode rules hs hp fun s₁ hs₁ => ?_
      rw [hcount, hunderfull]
      exact hQ s₁ hs₁

/-! ### The repair -/

omit rules law in
/-- A node next to its left sibling. -/
theorem Hole.besideLeft {ref prev next : NodeRef} {kl kr : List κ} {sep : κ}
    {cl cr : List (Tree κ ν n)} {a c : Tree κ ν n}
    {up : Path κ ν N (n + 1)}
    (hh : Hole L Fits FitsSize header h (.step ⟨ref, prev, next, kl ++ [sep], kr, cl ++ [a], cr⟩ up) c) :
    Frame.plug ⟨ref, prev, next, kl ++ [sep], kr, cl ++ [a], cr⟩ c =
        Tree.branch ref prev next (kl ++ sep :: kr) (cl ++ a :: c :: cr) ∧
      Beside L h ref prev next kl sep kr cl a c cr := by
  have hplug : Frame.plug ⟨ref, prev, next, kl ++ [sep], kr, cl ++ [a], cr⟩ c =
      Tree.branch ref prev next (kl ++ sep :: kr) (cl ++ a :: c :: cr) := by
    rw [Frame.plug, ← List.append_cons, ← List.append_cons]
  have hstored := up.stored_of_plug hh.stored
  have hnodup := up.nodup_of_plug hh.nodup
  obtain ⟨hl, hr, hkeys, hcap, hsiblings, hup⟩ := hh.path
  have hordered := Path.ordered_of_plug hup hh.ordered
  rw [hplug] at hstored hnodup hordered
  dsimp only at hl hr hcap hsiblings
  rw [List.length_append, List.length_append] at hl
  refine ⟨hplug, hstored, hnodup, hordered, Nat.add_right_cancel hl, hr, by rwa [List.append_cons], ?_,
    hh.shaped, fun d hd => ?_⟩
  · exact (hsiblings a (List.mem_append_left _ (List.mem_append_right _ (List.mem_singleton_self a)))).1
  · refine hsiblings d ?_
    rcases List.mem_append.mp hd with hd | hd
    · exact List.mem_append_left _ (List.mem_append_left _ hd)
    · exact List.mem_append_right _ hd

omit rules law in
theorem Hole.besideRight {ref prev next : NodeRef} {kl kr : List κ} {sep : κ}
    {cl cr : List (Tree κ ν n)} {b c : Tree κ ν n}
    {up : Path κ ν N (n + 1)}
    (hh : Hole L Fits FitsSize header h (.step ⟨ref, prev, next, kl, sep :: kr, cl, b :: cr⟩ up) c) :
    Beside L h ref prev next kl sep kr cl c b cr := by
  obtain ⟨hl, hr, hkeys, hcap, hsiblings, hup⟩ := hh.path
  refine ⟨up.stored_of_plug hh.stored, up.nodup_of_plug hh.nodup, Path.ordered_of_plug hup hh.ordered, hl,
    Nat.succ.inj hr, hcap,
    hh.shaped, ?_, fun d hd => ?_⟩
  · exact (hsiblings b (List.mem_append_right _ List.mem_cons_self)).1
  · refine hsiblings d ?_
    rcases List.mem_append.mp hd with hd | hd
    · exact List.mem_append_left _ hd
    · exact List.mem_append_right _ (List.mem_cons_of_mem _ hd)

omit rules law [LinearOrder κ] in
/-- Outside the node that was repaired nothing has changed. -/
theorem Beside.frame {ref prev next : NodeRef} {kl kr : List κ} {sep : κ} {cl cr : List (Tree κ ν n)} {a b : Tree κ ν n}
    {h' : Nat → Option P} (hframe : ∀ i, i ≠ ref → i ≠ a.ref → i ≠ b.ref → h' i = h i) :
    ∀ i, i ∉ (Tree.branch ref prev next (kl ++ sep :: kr) (cl ++ a :: b :: cr)).refs → h' i = h i := fun i hi => by
  rw [Tree.refs_branch, List.flatMap_append, List.flatMap_cons, List.flatMap_cons] at hi
  refine hframe i (fun heq => hi ?_) (fun heq => hi ?_) fun heq => hi ?_
  · exact heq ▸ List.mem_cons_self
  · refine List.mem_cons_of_mem _ (List.mem_append_right _ (List.mem_append_left _ ?_))
    exact heq ▸ a.ref_mem_refs
  · refine List.mem_cons_of_mem _ (List.mem_append_right _ (List.mem_append_right _ (List.mem_append_left _ ?_)))
    exact heq ▸ b.ref_mem_refs

/-- After a transfer the entry is not counted any more, and the removal ends. -/
theorem does_countAfterTransfer {f : Frame κ ν n} {up : Path κ ν N (n + 1)} {c a b : Tree κ ν n}
    {ref prev next : NodeRef}
    {kl kr : List κ} {sep : κ} {cl cr : List (Tree κ ν n)} {s' : σ} {h' : Nat → Option P} {g : Unit → PageProgram P β}
    (hh : Hole L Fits FitsSize header h (.step f up) c) (hs : rules.Views s live h)
    (hplug : f.plug c = Tree.branch ref prev next (kl ++ sep :: kr) (cl ++ a :: b :: cr))
    (hb : Beside L h ref prev next kl sep kr cl a b cr) (hs' : rules.Views s' live h')
    (ht : Transferred L h h' ref prev next kl sep kr cl a b cr)
    (hQ : ∀ s'' live' h'' m (t' : Tree κ ν m), rules.Views s'' live' h'' → IsTree L Fits FitsSize header h'' t' →
      t'.entries = (up.plug (f.plug c)).entries →
      Replaced live live' h h'' (header :: (up.plug (f.plug c)).refs) (header :: t'.refs) →
        (g ()).Ensures S Cond Q s'') :
    (updateHeader L header countRemovedKey >>= g).Ensures S Cond Q s' := by
  obtain ⟨⟨a', b', sep', hrot, hstored⟩, hframe⟩ := ht
  have hstands : Stands (f.plug c) (Tree.branch ref prev next (kl ++ sep' :: kr) (cl ++ a' :: b' :: cr)) [] := by
    rw [hplug]
    exact hrot.around hb.left
  have hentries : (Tree.branch ref prev next (kl ++ sep' :: kr)
    (cl ++ a' :: b' :: cr)).entries = (f.plug c).entries := by
    rw [hplug]
    exact hrot.entries_around
  have hframe' : ∀ i, i ∉ (f.plug c).refs → h' i = h i := by
    rw [hplug]
    exact Beside.frame hframe
  have hshaped := hb.shaped_rotated hrot
  have hhole := hh.up hstands hentries hshaped hstored hframe'
  obtain ⟨hwhole, hpos⟩ := Path.Shaped.plug hhole.path hshaped (by
    rw [Tree.keyCount_branch, List.length_append, List.length_cons]
    omega)
  have hup := hstands.plug hhole.path
  have hchange : Replaced live _ h h' _ _ := Replaced.of_perm hup.refs (List.nodup_cons.mpr ⟨hh.out, hh.nodup⟩)
    (hh.mem_live rules hs) fun i hi => hframe' i fun hmem => hi (List.mem_cons_of_mem _ (up.refs_subset _ i hmem))
  rw [List.toFinset_nil, Finset.sdiff_empty] at hchange
  obtain ⟨A, B, hplugged⟩ := up.entries_plug
  refine does_countRemovedKey rules law hs' hhole hwhole (fun _ => hpos) fun s'' h'' hs'' htree hreplaced => ?_
  exact hQ s'' live h'' N _ hs'' htree (by rw [hplugged, hplugged, hentries]) (hchange.trans hreplaced)

omit rules law in
/-- After a merge the parent may have too few keys. -/
theorem Hole.merged {f : Frame κ ν n} {up : Path κ ν N (n + 1)} {c a b m : Tree κ ν n} {ref prev next : NodeRef}
    {kl kr : List κ} {sep : κ} {cl cr : List (Tree κ ν n)} {h' : Nat → Option P}
    (hh : Hole L Fits FitsSize header h (.step f up) c) (hlive : ∀ i ∈ header :: (up.plug (f.plug c)).refs, i ∈ live)
    (hplug : f.plug c = Tree.branch ref prev next (kl ++ sep :: kr) (cl ++ a :: b :: cr))
    (hb : Beside L h ref prev next kl sep kr cl a b cr) (hm : Merged L a b m sep)
    (hstored : (Tree.branch ref prev next (kl ++ kr) (cl ++ m :: cr)).Stored L h')
    (hframe : ∀ i, i ≠ ref → i ≠ a.ref → i ≠ b.ref → h' i = h i) :
    Hole L Fits FitsSize header h' up (Tree.branch ref prev next (kl ++ kr) (cl ++ m :: cr)) ∧
      (up.plug (Tree.branch ref prev next (kl ++ kr) (cl ++ m :: cr))).entries = (up.plug (f.plug c)).entries ∧
      Replaced live (live.erase b.ref) h h' (header :: (up.plug (f.plug c)).refs)
        (header :: (up.plug (Tree.branch ref prev next (kl ++ kr) (cl ++ m :: cr))).refs) := by
  have hstands : Stands (f.plug c) (Tree.branch ref prev next (kl ++ kr) (cl ++ m :: cr)) [b.ref] := by
    rw [hplug]
    exact hm.around hb.left
  have hentries : (Tree.branch ref prev next (kl ++ kr) (cl ++ m :: cr)).entries = (f.plug c).entries := by
    rw [hplug]
    exact hm.entries_around
  have hframe' : ∀ i, i ∉ (f.plug c).refs → h' i = h i := by
    rw [hplug]
    exact Beside.frame hframe
  have hhole := hh.up hstands hentries (hb.shaped_merged hm) hstored hframe'
  obtain ⟨A, B, hplugged⟩ := up.entries_plug
  refine ⟨hhole, by rw [hplugged, hplugged, hentries], ?_⟩
  rw [erase_eq_sdiff]
  exact Replaced.of_perm (hstands.plug hhole.path).refs (List.nodup_cons.mpr ⟨hh.out, hh.nodup⟩) hlive
    fun i hi => hframe' i fun hmem => hi (List.mem_cons_of_mem _ (up.refs_subset _ i hmem))

omit rules law [LinearOrder κ] in
theorem Content.le_capacity (hleaf : 2 ≤ L.leafCapacity) (hinternal : 3 ≤ L.internalCapacity) (n : Nat) :
    min n 1 + 2 ≤ Content.capacity L n := by
  cases n with
  | zero => exact hleaf
  | succ n =>
      rw [Nat.min_eq_right (Nat.le_add_left 1 n)]
      exact hinternal

omit rules law [LinearOrder κ] in
/-- An underfull node and a sibling that has no entry to spare fit into one. -/
theorem Content.merge_room (hsize : L.nodeSize < 2 ^ 16) (hleaf : 2 ≤ L.leafCapacity)
    (hinternal : 3 ≤ L.internalCapacity)
    {c d : Content κ ν n} (hc : c.keyCount ≤ Content.capacity L n) (hd : d.keyCount ≤ Content.capacity L n)
    (hunder : c.isUnderfull L = true) (hspare : d.hasSpare L = false) :
    c.keyCount + d.keyCount + min n 1 ≤ Content.capacity L n := by
  rw [Content.isUnderfull_iff hsize (by omega) (by omega) hc] at hunder
  rw [← Bool.not_eq_true, Content.hasSpare_iff hsize (by omega) (by omega) hd] at hspare
  have hcapacity := Content.le_capacity hleaf hinternal n
  have hmin : min n 1 ≤ 1 := min_le_right n 1
  omega

/-- The repair gives every node enough keys, and keeps the entries. -/
theorem does_repair (hsize : L.nodeSize < 2 ^ 16) (hleaf : 2 ≤ L.leafCapacity) (hinternal : 3 ≤ L.internalCapacity)
    {p : Path κ ν N n} {c : Tree κ ν n} {g : Unit → PageProgram P β} (hs : rules.Views s live h)
    (hh : Hole L Fits FitsSize header h p c)
    (hQ : ∀ s' live' h' m (t' : Tree κ ν m), rules.Views s' live' h' → IsTree L Fits FitsSize header h' t' →
      t'.entries = (p.plug c).entries → Replaced live live' h h' (header :: (p.plug c).refs) (header :: t'.refs) →
      (g ()).Ensures S Cond Q s') :
    (repair L header p.stack c.ref (n = 0) >>= g).Ensures S Cond Q s := by
  induction p generalizing s live h with
  | top =>
      rw [Path.stack_top, repair]
      exact does_finishAtRoot rules law hs hh hQ
  | @step n f up ih =>
      obtain ⟨ref, prev, next, kl, kr, cl, cr⟩ := f
      obtain ⟨hl, hr, hkeys, hcap, hsiblings, hup⟩ := id hh.path
      dsimp only at hl hr hkeys hcap hsiblings
      have hlive := hh.mem_live rules hs
      obtain ⟨⟨pp, hpp, hpage⟩, hbelow⟩ := Tree.stored_branch.mp (up.stored_of_plug hh.stored)
      obtain ⟨pc, hpc, -, hunderfull⟩ := (hbelow c (List.mem_append_right _ List.mem_cons_self)).exists_occupancy
      have hc : c.node.keyCount ≤ Content.capacity L n := Tree.keyCount_le_capacity hh.shaped
      have hcapacity := Content.le_capacity hleaf hinternal n
      have hunder := Content.isUnderfull_iff hsize (by omega) (by omega) hc
      rw [Path.stack_step, repair]
      simp only [PageProgram.bind_assoc]
      refine does_readNode rules hs hpc fun s₁ hs₁ => ?_
      rw [hunderfull]
      cases hcase : c.node.isUnderfull L with
      | false =>
          rw [if_neg Bool.false_ne_true]
          have hpos : 0 < c.node.keyCount := by
            rw [← Bool.not_eq_true, hunder] at hcase
            omega
          obtain ⟨hwhole, hpos⟩ := Path.Shaped.plug hh.path hh.shaped hpos
          refine does_countRemovedKey rules law hs₁ hh hwhole (fun _ => hpos) fun s' h' hs' htree hreplaced => ?_
          exact hQ s' live h' N _ hs' htree rfl hreplaced
      | true =>
          rw [hunder] at hcase
          rw [if_pos rfl]
          simp only [PageProgram.bind_assoc]
          refine does_updateInternal rules hs₁ hpp fun s₂ hs₂ => ?_
          rw [hpage]
          refine does_leftSibling ?_
          refine does_hasSpare rules hs₂ (fun a ha => hbelow a (List.mem_append_left _ (List.mem_of_getLast? ha)))
            fun s₃ hs₃ => ?_
          cases hspare : cl.getLast?.any fun a => a.node.hasSpare L with
          | true =>
              rw [if_pos rfl]
              simp only [PageProgram.bind_assoc]
              rcases List.eq_nil_or_concat' cl with rfl | ⟨cl, a, rfl⟩
              · cases hspare
              obtain ⟨kl, sep, rfl⟩ : ∃ ks k, kl = ks ++ [k] :=
                ⟨_, _, (List.dropLast_append_getLast
                  (List.ne_nil_of_length_eq_add_one (by rw [hl, List.length_append]; rfl))).symm⟩
              obtain ⟨hplug, hb⟩ := hh.besideLeft
              rw [List.getLast?_concat] at hspare ⊢
              have hcount := (Content.hasSpare_iff hsize (by omega) (by omega)
                (Tree.keyCount_le_capacity hb.shaped_left)).mp hspare
              rw [List.length_append, List.length_singleton]
              refine does_transferFromLeft rules law hb hs₃ hcount.1 (by omega) fun s₄ h₄ hs₄ ht => ?_
              exact does_countAfterTransfer rules law hh hs hplug hb hs₄ ht hQ
          | false =>
              rw [if_neg Bool.false_ne_true]
              simp only [PageProgram.bind_assoc]
              refine does_rightSibling (by rw [List.length_append, hl, hr]) ?_
              refine does_hasSpare rules hs₃ (fun b hb => hbelow b ?_) fun s₄ hs₄ => ?_
              · exact List.mem_append_right _ (List.mem_cons_of_mem _ (List.mem_of_head? hb))
              cases hspare' : cr.head?.any fun b => b.node.hasSpare L with
              | true =>
                  rw [if_pos rfl]
                  simp only [PageProgram.bind_assoc]
                  cases cr with
                  | nil => cases hspare'
                  | cons b cr =>
                      obtain ⟨sep, kr, rfl⟩ := List.exists_cons_of_length_eq_add_one hr
                      have hb := hh.besideRight
                      have hcount :=
                        (Content.hasSpare_iff hsize (by omega) (by omega)
                          (Tree.keyCount_le_capacity hb.shaped_right)).mp hspare'
                      refine does_transferFromRight rules law hb hs₄ hcount.1 (by omega) fun s₅ h₅ hs₅ ht => ?_
                      exact does_countAfterTransfer rules law hh hs rfl hb hs₅ ht hQ
              | false =>
                  rw [if_neg Bool.false_ne_true]
                  simp only [PageProgram.bind_assoc]
                  rcases List.eq_nil_or_concat' cl with rfl | ⟨cl, a, rfl⟩
                  · obtain rfl := List.eq_nil_of_length_eq_zero hl
                    obtain ⟨sep, kr, rfl⟩ := List.exists_cons_of_length_pos hkeys
                    obtain ⟨b, cr, rfl⟩ := List.exists_cons_of_length_eq_add_one hr.symm
                    have hb := hh.besideRight
                    obtain ⟨pb, hpb⟩ := hb.stored_right.exists_page b.ref_mem_refs
                    have hbref : b.ref ≠ 0 := rules.ne_zero hs hpb
                    have hbpos := (hsiblings b (by simp)).2
                    have hroom := Content.merge_room hsize hleaf hinternal hc
                      (Tree.keyCount_le_capacity hb.shaped_right)
                      (hunder.mpr hcase) hspare'
                    refine ensures_assert_bind (Or.inr hbref) ?_
                    rw [List.getLast?_nil, if_neg fun h : siblingRef (none : Option (Tree κ ν n)) ≠ 0 => h rfl]
                    simp only [PageProgram.bind_assoc]
                    refine does_mergeNodes rules law hb hs₄ hroom (by omega) fun s₅ h₅ hs₅ hm hframe => ?_
                    obtain ⟨m, hm, hstored⟩ := hm
                    obtain ⟨hhole, hentries, hreplaced⟩ := hh.merged hlive rfl hb hm hstored hframe
                    refine ih hs₅ hhole fun s' live' h' N' t' hs' htree hentries' hreplaced' => ?_
                    exact hQ s' live' h' N' t' hs' htree (hentries'.trans hentries) (hreplaced.trans hreplaced')
                  · obtain ⟨kl, sep, rfl⟩ : ∃ ks k, kl = ks ++ [k] :=
                      ⟨_, _, (List.dropLast_append_getLast
                        (List.ne_nil_of_length_eq_add_one (by rw [hl, List.length_append]; rfl))).symm⟩
                    obtain ⟨hplug, hb⟩ := hh.besideLeft
                    rw [List.getLast?_concat] at hspare ⊢
                    obtain ⟨pa, hpa⟩ := hb.stored_left.exists_page a.ref_mem_refs
                    have haref : a.ref ≠ 0 := rules.ne_zero hs hpa
                    have hapos := (hsiblings a (by simp)).2
                    have hroom := Content.merge_room hsize hleaf hinternal hc (Tree.keyCount_le_capacity hb.shaped_left)
                      (hunder.mpr hcase) hspare
                    rw [Nat.add_comm c.node.keyCount] at hroom
                    refine ensures_assert_bind (Or.inl haref) ?_
                    rw [if_pos (show siblingRef (some a) ≠ 0 from haref), List.length_append,
                      List.length_singleton, Nat.add_sub_cancel]
                    simp only [PageProgram.bind_assoc]
                    refine does_mergeNodes rules law hb hs₄ hroom (by omega) fun s₅ h₅ hs₅ hm hframe => ?_
                    obtain ⟨m, hm, hstored⟩ := hm
                    obtain ⟨hhole, hentries, hreplaced⟩ := hh.merged hlive hplug hb hm hstored hframe
                    refine ih hs₅ hhole fun s' live' h' N' t' hs' htree hentries' hreplaced' => ?_
                    exact hQ s' live' h' N' t' hs' htree (hentries'.trans hentries) (hreplaced.trans hreplaced')

/-! ### The way down -/

omit law in
/-- The descent ends at the leaf where the key belongs, and its stack leads back up. -/
theorem does_descendForRemove {p : Path κ ν N n} {t : Tree κ ν n} {key : κ} {A B : List (κ × ν)}
    {f : NodeRef × List (NodeRef × Nat) → PageProgram P β} (hs : rules.Views s live h)
    (ht : t.Sound L h) (hp : p.Shaped L)
    (hplug : ∀ c, (p.plug c).entries = A ++ (c.entries ++ B)) (hA : ∀ e ∈ A, e.1 < key) (hB : ∀ e ∈ B, key < e.1)
    (hQ : ∀ s' (p' : Path κ ν N 0) l A' B', rules.Views s' live h → p'.plug l = p.plug t → p'.Shaped L →
      (∀ c, (p'.plug c).entries = A' ++ (c.entries ++ B')) → (∀ e ∈ A', e.1 < key) → (∀ e ∈ B', key < e.1) →
      (f (l.ref, p'.stack)).Ensures S Cond Q s') :
    (descendForRemove L key n t.ref p.stack >>= f).Ensures S Cond Q s := by
  induction n generalizing s A B with
  | zero =>
      rw [descendForRemove, PageProgram.pure_bind]
      exact hQ s p t A B hs rfl hp hplug hA hB
  | succ n ih =>
      obtain ⟨prev, next, keys, children, hc⟩ := t.exists_branch
      rw [hc] at ht hQ
      obtain ⟨⟨pn, hpn, hpage⟩, -⟩ := Tree.stored_branch.mp ht.stored
      obtain ⟨kl, kr, cl, c, cr, rfl, rfl, hl, hr, hidx, hkl, hkr⟩ :=
        exists_route (Tree.Ordered.separators ht.ordered ht.shaped) (Tree.shaped_branch.mp ht.shaped).2.1 key
      have hctx : ([] ++ ((Tree.branch t.ref prev next (kl ++ kr) (cl ++ c :: cr)).marks ++ [])).Pairwise
        Mark.Before := by
        rw [List.nil_append, List.append_nil]
        exact ht.ordered
      obtain ⟨-, hbefore, hbehind, -⟩ :=
        Tree.route_context hl hr hkl hkr hctx (fun _ h => absurd h List.not_mem_nil) fun _ h =>
          absurd h List.not_mem_nil
      have hpos : 0 < (kl ++ kr).length := ht.pos (Nat.succ_ne_zero n)
      rw [descendForRemove]
      simp only [PageProgram.bind_assoc]
      refine does_readInternal rules hs hpn fun s₁ hs₁ => ?_
      rw [hpage]
      refine ensures_assert_bind hpos ?_
      dsimp only
      rw [hidx]
      refine ensures_ofOption_bind (a := c.ref) (by simp) ?_
      have hstep : Path.Shaped L (.step ⟨t.ref, prev, next, kl, kr, cl, cr⟩ p) := by
        obtain ⟨hcap, -, hchildren⟩ := Tree.shaped_branch.mp ht.shaped
        refine ⟨hl, hr, hpos, hcap, fun d hd => hchildren d ?_, hp⟩
        rcases List.mem_append.mp hd with hd | hd
        · exact List.mem_append_left _ hd
        · exact List.mem_append_right _ (List.mem_cons_of_mem _ hd)
      refine ih (p := .step ⟨t.ref, prev, next, kl, kr, cl, cr⟩ p) hs₁ (ht.child hl) hstep
        (A := A ++ cl.flatMap Tree.entries) (B := cr.flatMap Tree.entries ++ B) (fun d => ?_) ?_ ?_ hQ
      · rw [Path.plug_step, hplug, Frame.plug, Tree.entries_branch, List.flatMap_append, List.flatMap_cons]
        simp only [List.append_assoc]
      · intro e he
        rcases List.mem_append.mp he with he | he
        · exact hA e he
        · obtain ⟨d, hd, he⟩ := List.mem_flatMap.mp he
          exact hbefore _ (mem_interleave hl.le hd (Tree.key_mem_marks he))
      · intro e he
        rcases List.mem_append.mp he with he | he
        · obtain ⟨d, hd, he⟩ := List.mem_flatMap.mp he
          exact hbehind _ (List.mem_append_left _ (mem_trail hr.le hd (Tree.key_mem_marks he)))
        · exact hB e he

/-! ### `remove_impl` -/

omit rules law in
/-- A leaf that has lost an entry. -/
theorem Leaf.stands_remove {ref prev next : NodeRef} {front rest : List (κ × ν)} {e : κ × ν} :
    Stands (Tree.ofLeaf ref ⟨prev, next, front ++ e :: rest⟩) (Tree.ofLeaf ref ⟨prev, next, front ++ rest⟩) [] where
  ref := rfl
  firsts k := by cases k <;> rfl
  refs := List.Perm.refl _
  ordered A B h := by
    refine h.sublist ((List.Sublist.refl A).append (List.Sublist.append ?_ (List.Sublist.refl B)))
    exact (((List.Sublist.refl front).append (List.sublist_cons_self e rest)).map _).map _
  linked _ h := h

omit rules law in
/-- A tree becomes one that has lost an entry. -/
theorem IsTree.hole {p : Path κ ν N n} {c c' : Tree κ ν n} {h' : Nat → Option P}
    (ht : IsTree L Fits FitsSize header h (p.plug c))
    (hp : p.Shaped L) (hc : Stands c c' []) (hshaped : c'.Shaped L)
    (hcount : (p.plug c).entries.length = (p.plug c').entries.length + 1) (hstored : c'.Stored L h')
    (hframe : ∀ i, i ∉ c.refs → h' i = h i) : Hole L Fits FitsSize header h' p c' := by
  obtain ⟨q, hq, hdepth, hsize, hroot, hfits⟩ := ht.page
  have hplug := hc.plug hp
  have hordered := hplug.ordered [] [] (by
    rw [List.nil_append, List.append_nil]
    exact ht.sound.ordered)
  rw [List.nil_append, List.append_nil] at hordered
  refine ⟨⟨q, ?_, hdepth, hsize.trans hcount, hroot.trans hplug.ref.symm, hfits⟩, hp, hshaped, hordered, ?_,
    hplug.refs.nodup_iff.mpr ht.sound.nodup, hplug.linked _ ht.linked, fun hmem => ht.out (hplug.refs.subset hmem)⟩
  · rw [hframe header fun hmem => ht.out (p.refs_subset _ header hmem)]
    exact hq
  · exact p.stored_replace ht.sound.stored ht.sound.nodup hstored hc.ref fun i _ hi => hframe i hi

/-- `remove` takes out the entry of the key, and says whether there was one. -/
theorem does_removeImpl {t : Tree κ ν N} {key : κ} (hsize : L.nodeSize < 2 ^ 16) (hleaf : 2 ≤ L.leafCapacity)
    (hinternal : 3 ≤ L.internalCapacity) (hs : rules.Views s live h) (ht : IsTree L Fits FitsSize header h t)
    {Q : σ → Bool → Prop}
    (hQ : ∀ s' live' h' m (t' : Tree κ ν m), rules.Views s' live' h' → IsTree L Fits FitsSize header h' t' →
      t'.entries = erase key t.entries → Replaced live live' h h' (header :: t.refs) (header :: t'.refs) →
      Q s' (decide (key ∈ t.entries.map (·.1)))) :
    (removeImpl L header key).Ensures S Cond Q s := by
  obtain ⟨q, hq, hdepth, -, hroot, -⟩ := ht.page
  unfold removeImpl
  refine does_readHeader rules hs hq fun s₁ hs₁ => ?_
  rw [hdepth, hroot]
  refine does_descendForRemove rules (p := .top) (A := [])
    (B := []) hs₁ ht.sound trivial (fun c => (List.append_nil _).symm)
    (fun _ h => absurd h List.not_mem_nil) (fun _ h => absurd h List.not_mem_nil)
    fun s₂ p l A B hs₂ hplug hp hentries hA hB => ?_
  rw [Path.plug_top] at hplug
  subst hplug
  have hordered := Path.ordered_of_plug hp ht.sound.ordered
  obtain ⟨ref, ⟨prev, next, es⟩, rfl⟩ : ∃ ref lf, l = Tree.ofLeaf ref lf := ⟨_, _, rfl⟩
  obtain ⟨pl, hpl, hpage⟩ := p.stored_of_plug ht.sound.stored
  change L.leaf pl = ⟨prev, next, es⟩ at hpage
  obtain ⟨front, mid, rest, rfl, hfront, hrest, hmid⟩ := exists_parts (Tree.Ordered.keys hordered) key
  have hidx : bsearchGeq (⟨prev, next, front ++ (mid ++ rest)⟩ : Leaf κ ν).keys key = front.length :=
    bsearchGeq_parts hfront hrest hmid
  have hfound : keyEq (⟨prev, next, front ++ (mid ++ rest)⟩ : Leaf κ ν).keys front.length key = !mid.isEmpty :=
    keyEq_parts hrest hmid
  have hall : (p.plug (Tree.ofLeaf ref ⟨prev, next, front ++ (mid ++ rest)⟩)).entries =
        (A ++ front) ++ (mid ++ (rest ++ B)) := by
    rw [hentries]
    simp
  obtain ⟨herase, hkey⟩ := @erase_parts _ _ _ key (A ++ front) mid (rest ++ B)
    (fun e he => (List.mem_append.mp he).elim (hA e) (hfront e))
    (fun e he => (List.mem_append.mp he).elim (hrest e) (hB e)) hmid
  rw [hall, herase, hkey] at hQ
  dsimp only
  refine does_readLeaf rules hs₂ hpl fun s₃ hs₃ => ?_
  rw [hpage, hidx, hfound]
  rcases hmid with rfl | ⟨v, rfl⟩
  · rw [List.isEmpty_nil, Bool.not_true, if_neg Bool.false_ne_true]
    exact hQ s₃ live h N _ hs₃ ht hall (Replaced.refl (ht.mem_live rules hs))
  · rw [List.isEmpty_cons, Bool.not_false, if_pos rfl]
    have hcap : (front ++ (key, v) :: rest).length ≤ L.leafCapacity := p.shaped_of_plug ht.sound.shaped
    rw [List.length_append, List.length_cons, ← Nat.add_assoc, ← List.length_append] at hcap
    have hpage' : L.leaf (L.setEntries (front ++ rest) pl) = ⟨prev, next, front ++ rest⟩ := by
      rw [law.leaf_setEntries ((Nat.le_succ _).trans hcap), hpage]
    have hremove : (⟨prev, next, front ++ ([(key, v)] ++ rest)⟩ : Leaf κ ν).remove front.length =
        ⟨prev, next, front ++ rest⟩ := by
      rw [Leaf.remove, List.singleton_append, eraseIdx_length]
    have hstands : Stands (Tree.ofLeaf ref ⟨prev, next, front ++ ([(key, v)] ++ rest)⟩)
      (Tree.ofLeaf ref ⟨prev, next, front ++ rest⟩) [] :=
      Leaf.stands_remove
    have hsorted : (Tree.ofLeaf ref ⟨prev, next, front ++ rest⟩).Ordered := by
      have := hstands.ordered [] [] (by rwa [List.nil_append, List.append_nil])
      rwa [List.nil_append, List.append_nil] at this
    have hleft : (p.plug (Tree.ofLeaf ref ⟨prev, next, front ++ rest⟩)).entries = (A ++ front) ++ (rest ++ B) := by
      rw [hentries]
      simp
    have hlive := ht.mem_live rules hs
    have hnodup := List.nodup_cons.mpr ⟨ht.out, ht.sound.nodup⟩
    rw [hremove]
    refine does_writeNode rules hs₃ hpl fun s₄ hs₄ => ?_
    have hframe : ∀ i, i ∉ (Tree.ofLeaf ref ⟨prev, next, front ++ ([(key, v)] ++ rest)⟩).refs →
        Function.update h ref (some (L.setEntries (front ++ rest) pl)) i = h i := fun i hi =>
      Function.update_of_ne (List.ne_of_not_mem_cons hi) _ _
    have hhole := ht.hole hp hstands ((Nat.le_succ _).trans hcap) (by
      rw [hall, hleft]
      simp only [List.length_append, List.length_cons, List.length_nil]
      omega) ⟨_, Function.update_self _ _ _, hpage'⟩ hframe
    refine does_assertSorted (Tree.Ordered.keys hsorted) ?_
    refine does_repair (c := Tree.ofLeaf ref ⟨prev, next, front ++ rest⟩) rules law hsize hleaf hinternal hs₄ hhole
      fun s' live' h' m t' hs' htree hentries' hreplaced => ?_
    refine hQ s' live' h' m t' hs' htree (hentries'.trans hleft) (Replaced.trans ?_ hreplaced)
    have hchange : Replaced live _ h _ _ _ := Replaced.of_perm (hstands.plug hp).refs hnodup hlive
      fun i hi => hframe i fun hmem => hi (List.mem_cons_of_mem _ (p.refs_subset _ i hmem))
    rw [List.toFinset_nil, Finset.sdiff_empty] at hchange
    exact hchange

end

end Plexdb.BTree
