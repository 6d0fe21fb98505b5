import Plexdb.BTreeAccess

/-! Searching a B+tree and walking it. The leaves are a chain, and what an iterator has not visited yet is a suffix of
the entries. -/

namespace Plexdb.BTree

open PageProgram SortedEntries

/-! ### The chain of leaves -/

namespace Tree

variable {κ ν P : Type} {L : Layout P κ ν}

def leaves : {n : Nat} → Tree κ ν n → List (Tree κ ν 0)
  | 0, t => [t]
  | _ + 1, t => (internal t).children.flatMap leaves

variable {n : Nat} {ref prev next : NodeRef} {keys : List κ} {children : List (Tree κ ν n)}
  {exits exits' : Nat → NodeRef}

@[simp] theorem leaves_branch : (branch ref prev next keys children).leaves = children.flatMap leaves := rfl

@[simp] theorem leaves_zero (t : Tree κ ν 0) : t.leaves = [t] := rfl

theorem entries_leaves (t : Tree κ ν n) : t.leaves.flatMap entries = t.entries := by
  induction n with
  | zero => exact List.append_nil _
  | succ n ih =>
      obtain ⟨prev, next, keys, children, ht⟩ := t.exists_branch
      rw [ht, leaves_branch, entries_branch, List.flatMap_assoc]
      exact List.flatMap_congr fun c _ => ih c

/-- The leftmost leaf. -/
theorem Shaped.exists_leaf {t : Tree κ ν n} (ht : t.Shaped L) : ∃ l ls, t.leaves = l :: ls ∧ l.ref = t.firsts n := by
  induction n with
  | zero => exact ⟨t, [], rfl, rfl⟩
  | succ n ih =>
      obtain ⟨prev, next, keys, children, hc⟩ := t.exists_branch
      rw [hc] at ht ⊢
      obtain ⟨-, hlen, hchildren⟩ := shaped_branch.mp ht
      obtain ⟨c, cs, rfl⟩ := List.exists_cons_of_length_eq_add_one hlen
      obtain ⟨l, ls, hleaves, href⟩ := ih (hchildren c List.mem_cons_self).1
      refine ⟨l, ls ++ cs.flatMap leaves, ?_, href⟩
      rw [leaves_branch, List.flatMap_cons, hleaves]
      rfl

/-- A chain of leaves depends on what is behind it in their level alone. -/
theorem chain_leaves_congr {ls : List (Tree κ ν 0)} (h : exits 0 = exits' 0) (hc : Chain Linked ls exits) :
    Chain Linked ls exits' := by
  induction ls with
  | nil => trivial
  | cons l ls ih =>
      refine ⟨?_, ih hc.2⟩
      cases ls with
      | nil => exact (show l.node.next = exits 0 from hc.1).trans h
      | cons l' ls => exact hc.1

/-- The leaves of a tree are linked one to the next. -/
theorem Linked.leaves {t : Tree κ ν n} (hshape : t.Shaped L) (ht : t.Linked exits) :
    Chain Linked t.leaves fun _ => exits n := by
  induction n generalizing exits with
  | zero => exact ⟨ht, trivial⟩
  | succ n ih =>
      obtain ⟨prev, next, keys, children, hc⟩ := t.exists_branch
      rw [hc] at hshape ht ⊢
      obtain ⟨-, -, hchildren⟩ := shaped_branch.mp hshape
      obtain ⟨-, hchain⟩ := linked_branch.mp ht
      rw [leaves_branch]
      clear hc hshape ht
      induction children with
      | nil => trivial
      | cons c cs ihcs =>
          rw [List.flatMap_cons]
          refine chain_append.mpr ⟨?_, ihcs (fun d hd => hchildren d (List.mem_cons_of_mem _ hd)) hchain.2⟩
          refine chain_leaves_congr ?_ (ih (hchildren c List.mem_cons_self).1 hchain.1)
          cases cs with
          | nil => rfl
          | cons d ds =>
              obtain ⟨l, ls, hleaves, href⟩ := Shaped.exists_leaf (hchildren d (by simp)).1
              rw [List.flatMap_cons, hleaves, List.cons_append]
              exact href.symm

theorem Stored.leaves {h : Nat → Option P} {t : Tree κ ν n} (ht : t.Stored L h) : ∀ l ∈ t.leaves, l.Stored L h := by
  induction n with
  | zero => exact fun l hl => List.mem_singleton.mp hl ▸ ht
  | succ n ih =>
      intro l hl
      obtain ⟨c, hc, hl⟩ := List.mem_flatMap.mp hl
      exact ih (ht.2 c hc) l hl

/-- No leaf of a tree with more than one is empty. -/
theorem Shaped.leaves_pos {t : Tree κ ν n} (ht : t.Shaped L) (hpos : 0 < t.node.keyCount) :
    ∀ l ∈ t.leaves, 0 < l.entries.length := by
  induction n with
  | zero => exact fun l hl => List.mem_singleton.mp hl ▸ hpos
  | succ n ih =>
      intro l hl
      obtain ⟨c, hc, hl⟩ := List.mem_flatMap.mp hl
      exact ih (ht.2.2 c hc).1 (ht.2.2 c hc).2 l hl

end Tree

/-! ### The descents -/

section

variable {σ P κ ν β : Type} [LinearOrder κ] {S : PageStore σ P} {Cond : σ → Prop} {L : Layout P κ ν}
  {Fits : NodeRef → Prop} {FitsSize : Nat → Prop} (rules : ReadRules S Cond) {s : σ} {live : Finset Nat}
  {h : Nat → Option P} {Q : σ → β → Prop}

include rules

/-- A descent ends at the leaf where the key belongs: what is in front of it is below the key, what is behind it
above. -/
theorem does_descend {n : Nat} {t : Tree κ ν n} {key : κ} {f : NodeRef → PageProgram P β} (hs : rules.Views s live h)
    (ht : t.Sound L h)
    (hQ : ∀ s' ls l rs, rules.Views s' live h → t.leaves = ls ++ l :: rs → (∀ e ∈ ls.flatMap Tree.entries, e.1 < key) →
      (∀ e ∈ rs.flatMap Tree.entries, key < e.1) → (f l.ref).Ensures S Cond Q s') :
    (descend L key n t.ref >>= f).Ensures S Cond Q s := by
  induction n generalizing s with
  | zero =>
      rw [descend, PageProgram.pure_bind]
      exact hQ s [] t [] hs rfl (fun _ h => absurd h List.not_mem_nil) fun _ h => absurd h List.not_mem_nil
  | succ n ih =>
      obtain ⟨prev, next, keys, children, hc⟩ := t.exists_branch
      rw [hc] at ht hQ
      obtain ⟨⟨pn, hpn, hpage⟩, -⟩ := Tree.stored_branch.mp ht.stored
      obtain ⟨kl, kr, cl, c, cr, rfl, rfl, hl, hr, hidx, hkl, hkr⟩ :=
        exists_route (Tree.Ordered.separators ht.ordered ht.shaped) (Tree.shaped_branch.mp ht.shaped).2.1 key
      have hctx : ([] ++ ((Tree.branch t.ref prev next (kl ++ kr) (cl ++ c :: cr)).marks ++ [])).Pairwise
        Mark.Before := by
        rw [List.nil_append, List.append_nil]
        exact ht.ordered
      obtain ⟨-, hbefore, hbehind, -⟩ :=
        Tree.route_context hl hr hkl hkr hctx (fun _ h => absurd h List.not_mem_nil) fun _ h =>
          absurd h List.not_mem_nil
      rw [descend]
      simp only [bind_assoc]
      refine does_readInternal rules hs hpn fun s₁ hs₁ => ?_
      rw [hpage]
      dsimp only
      rw [hidx]
      refine ensures_ofOption_bind (getElem?_map_length Located.ref) ?_
      refine ih hs₁ (ht.child hl) fun s₂ ls l rs hs₂ hleaves hls hrs => ?_
      refine hQ s₂ (cl.flatMap Tree.leaves ++ ls) l (rs ++ cr.flatMap Tree.leaves) hs₂ ?_ ?_ ?_
      · simp [hleaves]
      · intro e he
        rw [List.flatMap_append, List.mem_append] at he
        rcases he with he | he
        · rw [List.flatMap_assoc] at he
          obtain ⟨d, hd, he⟩ := List.mem_flatMap.mp he
          rw [Tree.entries_leaves] at he
          exact hbefore _ (mem_interleave hl.le hd (Tree.key_mem_marks he))
        · exact hls e he
      · intro e he
        rw [List.flatMap_append, List.mem_append] at he
        rcases he with he | he
        · exact hrs e he
        · rw [List.flatMap_assoc] at he
          obtain ⟨d, hd, he⟩ := List.mem_flatMap.mp he
          rw [Tree.entries_leaves] at he
          exact hbehind _ (List.mem_append_left _ (mem_trail hr.le hd (Tree.key_mem_marks he)))

/-- The descent along the first children. -/
theorem does_descendToFirst {n : Nat} {t : Tree κ ν n} {f : NodeRef → PageProgram P β} (hs : rules.Views s live h)
    (ht : t.Sound L h) (hQ : ∀ s' l rs, rules.Views s' live h → t.leaves = l :: rs → (f l.ref).Ensures S Cond Q s') :
    (descendToEnd L false n t.ref >>= f).Ensures S Cond Q s := by
  induction n generalizing s with
  | zero =>
      rw [descendToEnd, PageProgram.pure_bind]
      exact hQ s t [] hs rfl
  | succ n ih =>
      obtain ⟨prev, next, keys, children, hc⟩ := t.exists_branch
      rw [hc] at ht hQ
      obtain ⟨⟨pn, hpn, hpage⟩, -⟩ := Tree.stored_branch.mp ht.stored
      obtain ⟨c, cs, rfl⟩ := List.exists_cons_of_length_eq_add_one (Tree.shaped_branch.mp ht.shaped).2.1
      rw [descendToEnd]
      simp only [bind_assoc]
      refine does_readInternal rules hs hpn fun s₁ hs₁ => ?_
      rw [hpage]
      refine ensures_assert_bind (ht.pos (Nat.succ_ne_zero n)) ?_
      rw [if_neg Bool.false_ne_true]
      refine ensures_ofOption_bind rfl ?_
      have hfirst : (Tree.branch t.ref prev next ([] ++ keys) ([] ++ c :: cs)).Sound L h := ht
      refine ih hs₁ (hfirst.child rfl) fun s₂ l rs hs₂ hleaves => ?_
      refine hQ s₂ l (rs ++ cs.flatMap Tree.leaves) hs₂ ?_
      rw [Tree.leaves_branch, List.flatMap_cons, hleaves]
      rfl

/-! ### `search_impl` -/

omit rules in
/-- What a leaf answers. -/
theorem lookup_leaf {key : κ} {es : List (κ × ν)} (hsorted : (es.map (·.1)).Pairwise (· < ·)) :
    (if keyEq (es.map (·.1)) (bsearchGeq (es.map (·.1)) key) key then
      (es[bsearchGeq (es.map (·.1)) key]?).map (·.2) else none) = lookup key es := by
  obtain ⟨front, mid, rest, rfl, hfront, hrest, hmid⟩ := exists_parts hsorted key
  rw [bsearchGeq_parts hfront hrest hmid, keyEq_parts hrest hmid, lookup_parts hfront hrest]
  rcases hmid with rfl | ⟨v, rfl⟩
  · rfl
  · rw [List.singleton_append, getElem?_length]
    simp [lookup]

omit [LinearOrder κ] rules in
/-- The entries of a tree around one of its leaves. -/
theorem Tree.entries_around {n : Nat} {t : Tree κ ν n} {ls rs : List (Tree κ ν 0)} {l : Tree κ ν 0}
    (h : t.leaves = ls ++ l :: rs) : t.entries = ls.flatMap entries ++ (l.entries ++ rs.flatMap entries) := by
  rw [← t.entries_leaves, h, List.flatMap_append, List.flatMap_cons]

omit rules in
theorem Tree.Ordered.leaf {n : Nat} {t : Tree κ ν n} (ht : t.Ordered) {ls rs : List (Tree κ ν 0)} {l : Tree κ ν 0}
    (h : t.leaves = ls ++ l :: rs) : (l.entries.map (·.1)).Pairwise (· < ·) := by
  have hsorted := ht.keys
  rw [Tree.entries_around h, List.map_append, List.map_append] at hsorted
  exact (List.pairwise_append.mp (List.pairwise_append.mp hsorted).2.1).1

/-- `find` gives the value of the key. -/
theorem does_tfind {n : Nat} {header : NodeRef} {t : Tree κ ν n} {key : κ} {Q : σ → Option ν → Prop}
    (hs : rules.Views s live h) (ht : IsTree L Fits FitsSize header h t)
    (hQ : ∀ s', rules.Views s' live h → Q s' (lookup key t.entries)) : (tfind L header key).Ensures S Cond Q s := by
  obtain ⟨ph, hph, hdepth, -, hroot, -⟩ := ht.page
  unfold tfind
  refine does_readHeader rules hs hph fun s₁ hs₁ => ?_
  rw [hdepth, hroot]
  refine does_descend rules hs₁ ht.sound fun s₂ ls l rs hs₂ hleaves hls hrs => ?_
  obtain ⟨pl, hpl, hpage⟩ := ht.sound.stored.leaves l (hleaves ▸ List.mem_append_right ls List.mem_cons_self)
  refine does_readLeaf rules hs₂ hpl fun s₃ hs₃ => ?_
  have hlookup : lookup key t.entries = lookup key l.entries :=
    by rw [Tree.entries_around hleaves, lookup_parts hls hrs]
  have hanswer := hQ s₃ hs₃
  rw [hlookup, ← lookup_leaf (ht.sound.ordered.leaf hleaves)] at hanswer
  rw [hpage]
  exact hanswer

/-! ### Iterators -/

omit rules in
/-- The link of a leaf leads to the next one. -/
theorem IsTree.next_eq {n : Nat} {header : NodeRef} {t : Tree κ ν n}
    (ht : IsTree L Fits FitsSize header h t) {ls rs : List (Tree κ ν 0)} {l : Tree κ ν 0}
    (hleaves : t.leaves = ls ++ l :: rs) :
    l.leaf.next = (rs.head?.map Located.ref).getD 0 := by
  have hchain := Tree.Linked.leaves ht.sound.shaped ht.linked
  rw [hleaves] at hchain
  have hnext : l.leaf.next = Tree.firstsOf rs (fun _ => 0) 0 := (Tree.chain_append.mp hchain).2.1
  rw [hnext]
  cases rs with
  | nil => rfl
  | cons r rs => exact Tree.firsts_zero r

omit rules in
/-- A leaf behind another one is not empty. -/
theorem IsTree.leaf_pos {n : Nat} {header : NodeRef} {t : Tree κ ν n} (ht : IsTree L Fits FitsSize header h t)
    {ls rs : List (Tree κ ν 0)} {l r : Tree κ ν 0} (hleaves : t.leaves = ls ++ l :: rs) (hr : r ∈ rs) :
    0 < r.entries.length := by
  cases n with
  | zero =>
      have hlen := congrArg List.length hleaves
      have := List.length_pos_of_mem hr
      simp only [Tree.leaves_zero, List.length_append, List.length_cons, List.length_nil] at hlen
      omega
  | succ n =>
      refine ht.sound.shaped.leaves_pos (ht.sound.pos (Nat.succ_ne_zero n)) r ?_
      rw [hleaves]
      exact List.mem_append_right _ (List.mem_cons_of_mem _ hr)

/-- An iterator over a tree that has `rest` still to visit. -/
def Iterator.At (L : Layout P κ ν) {n : Nat} (t : Tree κ ν n) (rest : List (κ × ν)) : Option (Iterator P) → Prop
  | none => rest = []
  | some it => ∃ ls l rs, t.leaves = ls ++ l :: rs ∧ L.leaf it.leaf = l.leaf ∧ it.idx < l.entries.length ∧
      rest = l.entries.drop it.idx ++ rs.flatMap Tree.entries

omit [LinearOrder κ] rules in
/-- An iterator shows the first entry that is left. -/
theorem Iterator.At.head (law : L.Lawful Fits FitsSize) (hsize : L.nodeSize < 2 ^ 16) {n : Nat} {t : Tree κ ν n}
    {rest : List (κ × ν)} {it : Iterator P} (hat : Iterator.At L t rest (some it)) :
    ∃ e rest', rest = e :: rest' ∧ it.key L = some e.1 ∧ it.value L = some e.2 := by
  obtain ⟨ls, l, rs, -, hleaf, hidx, rfl⟩ := hat
  have hget : (L.leaf it.leaf).entries[it.idx]? = some l.entries[it.idx] := by
    rw [hleaf]
    exact List.getElem?_eq_getElem hidx
  refine ⟨l.entries[it.idx], l.entries.drop (it.idx + 1) ++ rs.flatMap Tree.entries, ?_, ?_, ?_⟩
  · rw [List.drop_eq_getElem_cons hidx]
    rfl
  · rw [Iterator.key, hget]
    rfl
  · rw [Iterator.value, law.valueAt hsize, hget]
    rfl

/-- `advance` goes on to the next entry, and to the next leaf behind the last one of a leaf. -/
theorem does_advance (law : L.Lawful Fits FitsSize) (hsize : L.nodeSize < 2 ^ 16) {n : Nat}
    {header : NodeRef} {t : Tree κ ν n}
    {e : κ × ν} {rest : List (κ × ν)} {it : Iterator P} {f : Option (Iterator P) → PageProgram P β}
    (hs : rules.Views s live h)
    (ht : IsTree L Fits FitsSize header h t) (hat : Iterator.At L t (e :: rest) (some it))
    (hQ : ∀ s' it', rules.Views s' live h → Iterator.At L t rest it' → (f it').Ensures S Cond Q s') :
    (it.advance L >>= f).Ensures S Cond Q s := by
  obtain ⟨ls, l, rs, hleaves, hleaf, hidx, hrest⟩ := hat
  rw [List.drop_eq_getElem_cons hidx] at hrest
  have hrest : rest = l.entries.drop (it.idx + 1) ++ rs.flatMap Tree.entries := (List.cons.inj hrest).2
  have hlen : (L.leaf it.leaf).entries.length = l.entries.length := congrArg (fun l => l.entries.length) hleaf
  have hnext : L.next it.leaf = (rs.head?.map Located.ref).getD 0 :=
    (congrArg Leaf.next hleaf).trans (ht.next_eq hleaves)
  unfold Iterator.advance
  by_cases hlast : it.idx + 1 = l.entries.length
  · rw [hlen, if_pos hlast]
    rw [hlast, List.drop_length, List.nil_append] at hrest
    cases rs with
    | nil =>
        have hnext : L.next it.leaf = 0 := hnext
        rw [if_neg (not_not_intro hnext), PageProgram.pure_bind]
        exact hQ s none hs hrest
    | cons r rs =>
        have hnext : L.next it.leaf = r.ref := hnext
        have hmem : r ∈ t.leaves := hleaves ▸ List.mem_append_right _ (List.mem_cons_of_mem _ List.mem_cons_self)
        obtain ⟨pr, hpr, hpage⟩ := ht.sound.stored.leaves r hmem
        rw [hnext, if_pos (rules.ne_zero hs hpr), PageProgram.bind_assoc]
        refine does_readNode rules hs hpr fun s₁ hs₁ => ?_
        rw [PageProgram.pure_bind, law.copyNode hsize]
        refine hQ s₁ _ hs₁ ⟨ls ++ [l], r, rs, by simp [hleaves], hpage, ht.leaf_pos hleaves List.mem_cons_self, ?_⟩
        rw [hrest, List.flatMap_cons, List.drop_zero]
  · rw [hlen, if_neg hlast, PageProgram.pure_bind]
    exact hQ s _ hs ⟨ls, l, rs, hleaves, hleaf, by change it.idx + 1 < _; omega, hrest⟩

/-- `begin` stands before all entries. -/
theorem does_begin {n : Nat} {header : NodeRef} {t : Tree κ ν n} {f : Option (Iterator P) → PageProgram P β}
    (hs : rules.Views s live h) (ht : IsTree L Fits FitsSize header h t)
    (hQ : ∀ s' it', rules.Views s' live h → Iterator.At L t t.entries it' → (f it').Ensures S Cond Q s') :
    (begin_ L header >>= f).Ensures S Cond Q s := by
  obtain ⟨ph, hph, hdepth, hlen, hroot, -⟩ := ht.page
  unfold begin_
  simp only [bind_assoc]
  refine does_readHeader rules hs hph fun s₁ hs₁ => ?_
  rw [hlen]
  by_cases hempty : t.entries.length = 0
  · rw [if_pos hempty, PageProgram.pure_bind]
    exact hQ s₁ none hs₁ (List.eq_nil_of_length_eq_zero hempty)
  · rw [if_neg hempty, hdepth, hroot]
    simp only [bind_assoc]
    refine does_descendToFirst rules hs₁ ht.sound fun s₂ l rs hs₂ hleaves => ?_
    obtain ⟨pl, hpl, hpage⟩ := ht.sound.stored.leaves l (hleaves ▸ List.mem_cons_self)
    have hpos : 0 < l.entries.length := by
      cases n with
      | zero =>
          have hl : [t] = l :: rs := hleaves
          obtain ⟨rfl, -⟩ := List.cons.inj hl
          omega
      | succ n =>
          exact ht.sound.shaped.leaves_pos (ht.sound.pos (Nat.succ_ne_zero n)) l (hleaves ▸ List.mem_cons_self)
    refine does_readNode rules hs₂ hpl fun s₃ hs₃ => ?_
    refine ensures_assert_bind (by rw [hpage]; exact hpos) ?_
    rw [PageProgram.pure_bind]
    refine hQ s₃ _ hs₃ ⟨[], l, rs, hleaves, hpage, hpos, ?_⟩
    rw [Tree.entries_around (show t.leaves = [] ++ l :: rs from hleaves), List.drop_zero]
    rfl

omit rules in
/-- Visit at most so many entries, from an iterator on. -/
def collect (L : Layout P κ ν) : (steps : Nat) → Option (Iterator P) → PageProgram P (List (Option κ × Option ν))
  | 0, _ => pure []
  | _ + 1, none => pure []
  | steps + 1, some it => do
      let next ← it.advance L
      let rest ← collect L steps next
      pure ((it.key L, it.value L) :: rest)

/-- A walk visits the entries that are left, in their order. -/
theorem does_collect (law : L.Lawful Fits FitsSize) (hsize : L.nodeSize < 2 ^ 16) {n : Nat}
    {header : NodeRef} {t : Tree κ ν n}
    {rest : List (κ × ν)} {it : Option (Iterator P)} {steps : Nat} {Q : σ → List (Option κ × Option ν) → Prop}
    (hs : rules.Views s live h) (ht : IsTree L Fits FitsSize header h t) (hat : Iterator.At L t rest it)
    (hQ : ∀ s', rules.Views s' live h → Q s' ((rest.take steps).map fun e => (some e.1, some e.2))) :
    (collect L steps it).Ensures S Cond Q s := by
  induction steps generalizing s rest it Q with
  | zero => exact hQ s hs
  | succ steps ih =>
      cases it with
      | none =>
          obtain rfl : rest = [] := hat
          exact hQ s hs
      | some it =>
          obtain ⟨e, rest, rfl, hkey, hvalue⟩ := hat.head law hsize
          rw [collect, hkey, hvalue]
          refine does_advance rules law hsize hs ht hat fun s₁ next hs₁ hnext => ?_
          exact ensures_bind.mpr (ih hs₁ hnext hQ)

/-! ### `search_iterator_impl` -/

/-- A search within a leaf that ends where the entries it is after begin. -/
def Finds (search : List κ → κ → Nat) (key : κ) (keep : κ → Bool) : Prop :=
  (∀ k < key, keep k = false) ∧ (∀ k, key < k → keep k = true) ∧
    ∀ keys : List κ, keys.Pairwise (· < ·) → ∃ front back, keys = front ++ back ∧ search keys key = front.length ∧
      (∀ k ∈ front, keep k = false) ∧ ∀ k ∈ back, keep k = true

omit rules in
theorem finds_geq (key : κ) : Finds bsearchGeq key (key ≤ ·) := by
  refine ⟨fun k hk => decide_eq_false (not_le.mpr hk), fun k hk => decide_eq_true hk.le, fun keys hsorted => ?_⟩
  have hcut : ∃ front back, keys = front ++ back ∧ (∀ k ∈ front, k < key) ∧ ∀ k ∈ back, key ≤ k := by
    induction keys with
    | nil => exact ⟨[], [], rfl, fun _ h => absurd h List.not_mem_nil, fun _ h => absurd h List.not_mem_nil⟩
    | cons k keys ih =>
        obtain ⟨hk, hrest⟩ := List.pairwise_cons.mp hsorted
        rcases lt_or_ge k key with hlt | hge
        · obtain ⟨front, back, rfl, hfront, hback⟩ := ih hrest
          exact ⟨k :: front, back, rfl, List.forall_mem_cons.mpr ⟨hlt, hfront⟩, hback⟩
        · exact ⟨[], k :: keys, rfl, fun _ h => absurd h List.not_mem_nil,
            List.forall_mem_cons.mpr ⟨hge, fun k' hk' => hge.trans (hk k' hk').le⟩⟩
  obtain ⟨front, back, rfl, hfront, hback⟩ := hcut
  exact ⟨front, back, rfl, bsearchGeq_eq hfront hback, fun k hk => decide_eq_false (not_le.mpr (hfront k hk)),
    fun k hk => decide_eq_true (hback k hk)⟩

omit rules in
theorem finds_gt (key : κ) : Finds bsearchGt key (key < ·) := by
  refine ⟨fun k hk => decide_eq_false hk.not_gt, fun k hk => decide_eq_true hk, fun keys hsorted => ?_⟩
  obtain ⟨front, back, rfl, hfront, hback⟩ := exists_cut hsorted key
  exact ⟨front, back, rfl, bsearchGt_eq hfront hback, fun k hk => decide_eq_false (not_lt.mpr (hfront k hk)),
    fun k hk => decide_eq_true (hback k hk)⟩

/-- A search for the first entry from a key on ends before it, in whichever leaf it is. -/
theorem does_findFirst {n : Nat} {header : NodeRef} {t : Tree κ ν n} {search : List κ → κ → Nat}
    {key : κ} {keep : κ → Bool}
    {f : Option (Iterator P) → PageProgram P β} (hfinds : Finds search key keep) (hs : rules.Views s live h)
    (ht : IsTree L Fits FitsSize header h t)
    (hQ : ∀ s' it', rules.Views s' live h → Iterator.At L t (t.entries.filter fun e => keep e.1) it' →
      (f it').Ensures S Cond Q s') : (findFirst L header search key >>= f).Ensures S Cond Q s := by
  obtain ⟨hbelow, habove, hsearch⟩ := hfinds
  obtain ⟨ph, hph, hdepth, -, hroot, -⟩ := ht.page
  unfold findFirst
  simp only [bind_assoc]
  refine does_readHeader rules hs hph fun s₁ hs₁ => ?_
  rw [hdepth, hroot]
  refine does_descend rules hs₁ ht.sound fun s₂ ls l rs hs₂ hleaves hls hrs => ?_
  obtain ⟨pl, hpl, hpage⟩ := ht.sound.stored.leaves l (hleaves ▸ List.mem_append_right ls List.mem_cons_self)
  refine does_readNode rules hs₂ hpl fun s₃ hs₃ => ?_
  obtain ⟨front, back, hkeys, hidx, hfront, hback⟩ := hsearch _ (ht.sound.ordered.leaf hleaves)
  obtain ⟨es, fs, hentries, rfl, rfl⟩ := List.map_eq_append_iff.mp hkeys
  have hnext : L.next pl = (rs.head?.map Located.ref).getD 0 := (congrArg Leaf.next hpage).trans (ht.next_eq hleaves)
  have hfilter : (t.entries.filter fun e => keep e.1) = fs ++ rs.flatMap Tree.entries := by
    have h₁ : (ls.flatMap Tree.entries).filter (fun e => keep e.1) = [] :=
      List.filter_eq_nil_iff.mpr fun e he => by rw [hbelow e.1 (hls e he)]; exact Bool.false_ne_true
    have h₂ : es.filter (fun e => keep e.1) = [] :=
      List.filter_eq_nil_iff.mpr fun e he => by rw [hfront e.1 (List.mem_map_of_mem he)]; exact Bool.false_ne_true
    have h₃ : fs.filter (fun e => keep e.1) = fs := List.filter_eq_self.mpr fun e he =>
      hback e.1 (List.mem_map_of_mem he)
    have h₄ : (rs.flatMap Tree.entries).filter (fun e => keep e.1) = rs.flatMap Tree.entries :=
      List.filter_eq_self.mpr fun e he => habove e.1 (hrs e he)
    rw [Tree.entries_around hleaves, hentries, List.filter_append, List.filter_append,
      List.filter_append, h₁, h₂, h₃, h₄]
    rfl
  have hidx : search (L.leaf pl).keys key = es.length := by
    rw [hpage]
    exact hidx.trans (List.length_map _)
  have hlen : (L.leaf pl).entries.length = es.length + fs.length := by
    rw [hpage, ← List.length_append]
    exact congrArg List.length hentries
  rw [hfilter] at hQ
  rw [hidx, hlen]
  cases fs with
  | nil =>
      rw [List.length_nil, Nat.add_zero, if_neg (Nat.lt_irrefl _)]
      cases rs with
      | nil =>
          have hnext : L.next pl = 0 := hnext
          rw [if_neg (not_not_intro hnext), PageProgram.pure_bind]
          exact hQ s₃ none hs₃ rfl
      | cons r rs =>
          have hnext : L.next pl = r.ref := hnext
          have hmem : r ∈ t.leaves := hleaves ▸ List.mem_append_right _ (List.mem_cons_of_mem _ List.mem_cons_self)
          obtain ⟨pr, hpr, hprpage⟩ := ht.sound.stored.leaves r hmem
          rw [hnext, if_pos (rules.ne_zero hs hpr), PageProgram.bind_assoc]
          refine does_readNode rules hs₃ hpr fun s₄ hs₄ => ?_
          rw [PageProgram.pure_bind]
          refine hQ s₄ _ hs₄ ⟨ls ++ [l], r, rs, by simp [hleaves], hprpage, ht.leaf_pos hleaves List.mem_cons_self, ?_⟩
          rw [List.nil_append, List.flatMap_cons, List.drop_zero]
  | cons e fs =>
      rw [if_pos (by rw [List.length_cons]; omega), PageProgram.pure_bind]
      refine hQ s₃ _ hs₃ ⟨ls, l, rs, hleaves, hpage, ?_, ?_⟩
      · change es.length < l.entries.length
        rw [hentries, List.length_append, List.length_cons]
        omega
      · rw [hentries, List.drop_left]

end

end Plexdb.BTree
