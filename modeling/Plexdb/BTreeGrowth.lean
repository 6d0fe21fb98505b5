import Plexdb.BTreeOrder

/-! What an insertion makes of a tree. -/

namespace Plexdb.BTree

open SortedEntries

variable {κ ν : Type}

/-! ### The parts of a node -/

theorem interleave_split {k₁ k₂ : List κ} {sep : κ} {m₁ m₂ : List (List (Mark κ))} (hlen : m₁.length = k₁.length + 1) :
    interleave (k₁ ++ sep :: k₂) (m₁ ++ m₂) = interleave k₁ m₁ ++ .sep sep :: interleave k₂ m₂ := by
  obtain ⟨ms, m, rfl⟩ : ∃ ms m, m₁ = ms ++ [m] :=
    ⟨_, _, (List.dropLast_append_getLast (List.ne_nil_of_length_eq_add_one hlen)).symm⟩
  rw [List.length_append, List.length_singleton] at hlen
  have hlen : k₁.length = ms.length := by omega
  have hsnoc : (k₁ ++ [sep]).length = (ms ++ [m]).length := by simp [hlen]
  have hleft : interleave k₁ (ms ++ [m]) = interleave k₁ ms ++ m := by
    have : interleave (k₁ ++ []) (ms ++ [m]) = _ := interleave_append hlen
    rw [List.append_nil] at this
    rw [this, interleave_cons]
    exact congrArg _ (List.append_nil m)
  calc interleave (k₁ ++ sep :: k₂) (ms ++ [m] ++ m₂)
      = interleave ((k₁ ++ [sep]) ++ k₂) (ms ++ [m] ++ m₂) := by rw [List.append_cons k₁]
    _ = (interleave k₁ ms ++ (m ++ [.sep sep])) ++ interleave k₂ m₂ := by
        rw [interleave_append hsnoc, interleave_snoc hlen]
    _ = interleave k₁ (ms ++ [m]) ++ .sep sep :: interleave k₂ m₂ := by simp [hleft]

namespace Tree

variable {n : Nat} {R : Tree κ ν n → (Nat → NodeRef) → Prop} {c c' : Tree κ ν n} {cl cr cs ds : List (Tree κ ν n)}
  {exits : Nat → NodeRef}

theorem firsts_branch_succ {ref prev next : NodeRef} {keys : List κ} {k : Nat} :
    (branch ref prev next keys cs).firsts (k + 1) = firstsOf cs (fun _ => 0) k := by
  cases cs <;> rfl

theorem firstsOf_append_cons : firstsOf (cs ++ c :: ds) exits = firstsOf (cs ++ [c]) exits := by
  cases cs <;> rfl

theorem firstsOf_of_ne_nil (h : cs ≠ []) (exits' : Nat → NodeRef) : firstsOf (cs ++ ds) exits = firstsOf cs exits' := by
  cases cs with
  | nil => exact absurd rfl h
  | cons c cs => rfl

theorem firstsOf_append : firstsOf (cs ++ ds) exits = firstsOf cs (firstsOf ds exits) := by
  cases cs <;> rfl

theorem chain_append : Chain R (cs ++ ds) exits ↔ Chain R cs (firstsOf ds exits) ∧ Chain R ds exits := by
  induction cs with
  | nil => exact ⟨fun h => ⟨trivial, h⟩, fun h => h.2⟩
  | cons c cs ih =>
      rw [List.cons_append, Chain, Chain, ih, firstsOf_append, and_assoc]

/-- A child may give way to one with the same leftmost nodes. -/
theorem chain_replace (hfirsts : ∀ k, c'.firsts k = c.firsts k) (hR : ∀ e, R c e → R c' e)
    (h : Chain R (cl ++ c :: cr) exits) : Chain R (cl ++ c' :: cr) exits := by
  rw [chain_append] at h ⊢
  refine ⟨?_, hR _ h.2.1, h.2.2⟩
  have heq : firstsOf (c' :: cr) exits = firstsOf (c :: cr) exits := funext hfirsts
  rw [heq]
  exact h.1

theorem firstsOf_replace (hfirsts : ∀ k, c'.firsts k = c.firsts k) (k : Nat) :
    firstsOf (cl ++ c' :: cr) exits k = firstsOf (cl ++ c :: cr) exits k := by
  cases cl with
  | nil => exact hfirsts k
  | cons d cl => rfl

end Tree

/-! ### Splitting a node -/

/-- `c` is split into `left` and `right`, which is on the page `new`. -/
def SplitsInto {n : Nat} (c left right : Tree κ ν n) (sep : κ) (new : NodeRef) : Prop :=
  ∃ l r, c.node.split = some (l, sep, r) ∧ left = ⟨c.ref, l.setNext new⟩ ∧
    right = ⟨new, (r.setNext c.node.next).setPrev c.ref⟩

variable [LinearOrder κ] {P : Type} {L : Layout P κ ν}

/-- What a split leaves as it was. -/
structure IsSplit (L : Layout P κ ν) {n : Nat} (c left right : Tree κ ν n) (sep : κ) (new : NodeRef) : Prop where
  ref_left : left.ref = c.ref
  ref_right : right.ref = new
  firsts : ∀ k, left.firsts k = c.firsts k
  refs : (left.refs ++ right.refs).Perm (new :: c.refs)
  entries : left.entries ++ right.entries = c.entries
  ordered : ∀ A B, (A ++ (c.marks ++ B)).Pairwise Mark.Before →
    (A ++ ((left.marks ++ .sep sep :: right.marks) ++ B)).Pairwise Mark.Before
  linked : ∀ exits, c.Linked exits → left.Linked right.firsts ∧ right.Linked exits
  shaped_left : left.Shaped L
  shaped_right : right.Shaped L
  pos_left : 0 < left.node.keyCount
  pos_right : 0 < right.node.keyCount
  room_left : left.node.isFull L = false
  room_right : right.node.isFull L = false

/-- A separator may stand before a key that has another key before it. -/
theorem pairwise_insert_sep {A B : List (Mark κ)} {k k' : κ}
    (h : (A ++ .key k' :: .key k :: B).Pairwise Mark.Before) :
    (A ++ .key k' :: .sep k :: .key k :: B).Pairwise Mark.Before := by
  obtain ⟨hA, hrest, hcross⟩ := List.pairwise_append.mp h
  obtain ⟨hk', hrest⟩ := List.pairwise_cons.mp hrest
  obtain ⟨hk, hB⟩ := List.pairwise_cons.mp hrest
  have hsep : ∀ b ∈ B, (Mark.sep k).Before b := fun b hb => by
    have := hk b hb
    cases b with
    | sep b => exact this
    | key b => exact (show k < b from this).le
  have hkey : (Mark.key k').Before (.key k) := hk' _ List.mem_cons_self
  have hleft : (Mark.key k').Before (.sep k) := hkey
  refine List.pairwise_append.mpr ⟨hA, List.pairwise_cons.mpr ⟨?_, List.pairwise_cons.mpr ⟨?_, hrest⟩⟩, ?_⟩
  · intro b hb
    rcases List.mem_cons.mp hb with rfl | hb
    · exact hleft
    · exact hk' b hb
  · intro b hb
    rcases List.mem_cons.mp hb with rfl | hb
    · exact le_refl k
    · exact hsep b hb
  · intro a ha b hb
    have hak' := hcross a ha _ List.mem_cons_self
    rcases List.mem_cons.mp hb with rfl | hb
    · exact hak'
    · rcases List.mem_cons.mp hb with rfl | hb
      · exact hak'.trans hleft
      · exact hcross a ha b (List.mem_cons_of_mem _ hb)

theorem splitIndex_lt {n : Nat} (hn : 2 ≤ n) : 1 ≤ splitIndex n ∧ splitIndex n < n := by
  rw [splitIndex]
  omega

/-- A full leaf is split. -/
theorem Leaf.exists_split {ref new : NodeRef} {l : Leaf κ ν} (hcapacity : 2 ≤ L.leafCapacity)
    (hfull : l.entries.length = L.leafCapacity) :
    ∃ l₁ sep r, l.split = some (l₁, sep, r) ∧ 1 ≤ l₁.entries.length ∧ 1 ≤ r.entries.length ∧
      l₁.entries ++ r.entries = l.entries ∧ ∃ left right, SplitsInto (Tree.ofLeaf ref l) left right sep new ∧
        IsSplit L (Tree.ofLeaf ref l) left right sep new := by
  obtain ⟨hpos, hlt⟩ := splitIndex_lt (hcapacity.trans_eq hfull.symm)
  obtain ⟨es, a, htake⟩ : ∃ es a, l.entries.take (splitIndex l.entries.length) = es ++ [a] := by
    refine ⟨_, _, (List.dropLast_append_getLast (l := l.entries.take (splitIndex l.entries.length)) ?_).symm⟩
    exact List.ne_nil_of_length_pos (by rw [List.length_take]; omega)
  obtain ⟨b, fs, hdrop⟩ := List.exists_cons_of_length_pos (l := l.entries.drop (splitIndex l.entries.length))
    (by rw [List.length_drop]; omega)
  have hentries : l.entries = es ++ a :: b :: fs := by
    rw [← List.take_append_drop (splitIndex l.entries.length) l.entries, htake, hdrop, List.append_assoc]
    rfl
  have hm : splitIndex l.entries.length = es.length + 1 := by
    have := congrArg List.length htake
    rw [List.length_take, List.length_append, List.length_singleton] at this
    omega
  have hlens := congrArg List.length hentries
  rw [List.length_append, List.length_cons, List.length_cons] at hlens
  have hsep : l.keys[splitIndex l.entries.length]? = some b.1 := by
    rw [Leaf.keys, List.getElem?_map, hm, hentries, getElem?_length_succ]
    rfl
  have hsplit : l.split = some ({ l with entries := es ++ [a] }, b.1, ⟨0, 0, b :: fs⟩) := by
    rw [Leaf.split, hsep, htake, hdrop]
    rfl
  refine ⟨_, _, _, hsplit, by simp, by simp, by simp [hentries], _, _, ⟨_, _, hsplit, rfl, rfl⟩, ?_⟩
  constructor
  · rfl
  · rfl
  · intro k
    cases k <;> rfl
  · exact List.Perm.swap new ref []
  · change (es ++ [a]) ++ b :: fs = l.entries
    simp [hentries]
  · intro A B h
    have hmarks : (Tree.ofLeaf ref l).marks = es.map (fun e => .key e.1) ++ .key a.1 :: .key b.1 ::
        fs.map (fun e => Mark.key e.1) := by
      rw [Tree.marks_ofLeaf, Leaf.keys, hentries]
      simp [Function.comp_def]
    have hparts : (A ++ es.map fun e => Mark.key e.1) ++ .key a.1 :: .key b.1 ::
        (fs.map (fun e => Mark.key e.1) ++ B) = A ++ ((Tree.ofLeaf ref l).marks ++ B) := by
      rw [hmarks]
      simp
    have hinserted := pairwise_insert_sep (hparts ▸ h)
    have hresult : (A ++ es.map fun e => Mark.key e.1) ++ .key a.1 :: .sep b.1 :: .key b.1 ::
        (fs.map (fun e => Mark.key e.1) ++ B) = A ++ ((((es ++ [a]).map fun e => e.1).map Mark.key ++ .sep b.1 ::
          ((b :: fs).map fun e => e.1).map Mark.key) ++ B) := by
      simp [Function.comp_def]
    exact hresult ▸ hinserted
  · intro exits h
    exact ⟨rfl, h⟩
  · change (es ++ [a]).length ≤ _
    rw [List.length_append, List.length_singleton]
    omega
  · change (b :: fs).length ≤ _
    rw [List.length_cons]
    omega
  · exact List.length_pos_of_ne_nil (List.append_ne_nil_of_right_ne_nil es (List.cons_ne_nil a []))
  · exact Nat.succ_pos _
  · refine decide_eq_false ?_
    change ¬ L.leafCapacity ≤ (es ++ [a]).length
    rw [List.length_append, List.length_singleton]
    omega
  · refine decide_eq_false ?_
    change ¬ L.leafCapacity ≤ (b :: fs).length
    rw [List.length_cons]
    omega

/-- A full internal node is split; a separator goes up. -/
theorem Internal.exists_split {n : Nat} {ref new prev next : NodeRef} {keys : List κ} {children : List (Tree κ ν n)}
    (hcapacity : 3 ≤ L.internalCapacity) (hfull : keys.length = L.internalCapacity)
    (hshape : (Tree.branch ref prev next keys children).Shaped L) :
    ∃ k₁ sep k₂ c₁ c₂, keys = k₁ ++ sep :: k₂ ∧ children = c₁ ++ c₂ ∧ c₁.length = k₁.length + 1 ∧
      c₂.length = k₂.length + 1 ∧ 1 ≤ k₁.length ∧ 1 ≤ k₂.length ∧ k₁.length + 1 = splitIndex keys.length ∧
      ∃ left right, left = Tree.branch ref prev new k₁ c₁ ∧ right = Tree.branch new ref next k₂ c₂ ∧
        SplitsInto (Tree.branch ref prev next keys children) left right sep new ∧
        IsSplit L (Tree.branch ref prev next keys children) left right sep new := by
  obtain ⟨-, hlen, hchildren⟩ := hshape
  have hlen : children.length = keys.length + 1 := hlen
  have hm : 2 ≤ splitIndex keys.length ∧ splitIndex keys.length < keys.length := by
    rw [splitIndex]
    omega
  obtain ⟨sep, k₂, hdrop⟩ := List.exists_cons_of_length_pos (l := keys.drop (splitIndex keys.length - 1))
    (by rw [List.length_drop]; omega)
  obtain ⟨k₁, hk₁⟩ : ∃ k₁, k₁ = keys.take (splitIndex keys.length - 1) := ⟨_, rfl⟩
  have hkeys : keys = k₁ ++ sep :: k₂ := by rw [hk₁, ← hdrop, List.take_append_drop]
  have hk₁len : k₁.length + 1 = splitIndex keys.length := by
    rw [hk₁, List.length_take]
    omega
  have hk₂ : keys.drop (splitIndex keys.length) = k₂ := by
    rw [show splitIndex keys.length = (splitIndex keys.length - 1) + 1 by omega, ← List.drop_drop, hdrop]
    rfl
  have hk₂len := congrArg List.length hkeys
  rw [List.length_append, List.length_cons] at hk₂len
  obtain ⟨c₁, hc₁⟩ : ∃ c₁, c₁ = children.take (splitIndex keys.length) := ⟨_, rfl⟩
  obtain ⟨c₂, hc₂⟩ : ∃ c₂, c₂ = children.drop (splitIndex keys.length) := ⟨_, rfl⟩
  have hcs : children = c₁ ++ c₂ := by rw [hc₁, hc₂, List.take_append_drop]
  have hc₁len : c₁.length = k₁.length + 1 := by
    rw [hc₁, List.length_take]
    omega
  have hc₂len : c₂.length = k₂.length + 1 := by
    rw [hc₂, List.length_drop]
    omega
  have hc₂ne : c₂ ≠ [] := List.ne_nil_of_length_eq_add_one hc₂len
  have hsplit : Internal.split (⟨prev, next, keys, children⟩ : Internal κ (Tree κ ν n)) =
      some (⟨prev, next, k₁, c₁⟩, sep, ⟨0, 0, k₂, c₂⟩) := by
    have hsep : keys[splitIndex keys.length - 1]? = some sep := by
      rw [show splitIndex keys.length - 1 = k₁.length by omega, hkeys, getElem?_length]
    rw [Internal.split]
    change (do let sep ← keys[splitIndex keys.length - 1]?; some _) = _
    rw [hsep, hk₂, ← hk₁, ← hc₁, ← hc₂]
    rfl
  refine ⟨k₁, sep, k₂, c₁, c₂, hkeys, hcs, hc₁len, hc₂len, by omega, by omega, hk₁len, _, _, rfl, rfl,
    ⟨_, _, hsplit, rfl, rfl⟩, ?_⟩
  constructor
  · rfl
  · rfl
  · intro k
    cases k with
    | zero => rfl
    | succ k =>
        rw [Tree.firsts_branch_succ, Tree.firsts_branch_succ, hcs]
        exact (congrFun (Tree.firstsOf_of_ne_nil (List.ne_nil_of_length_eq_add_one hc₁len) _) k).symm
  · rw [Tree.refs_branch, Tree.refs_branch, Tree.refs_branch, hcs, List.flatMap_append]
    exact (List.perm_middle.trans (List.Perm.refl _)).trans (List.Perm.refl _)
  · rw [Tree.entries_branch, Tree.entries_branch, Tree.entries_branch, hcs, List.flatMap_append]
  · intro A B h
    rw [Tree.marks_branch, hcs, hkeys, List.map_append, interleave_split (by simpa using hc₁len)] at h
    exact h
  · rintro exits ⟨hnext, hchain⟩
    have hchain := Tree.chain_append.mp (hcs ▸ hchain)
    refine ⟨⟨rfl, ?_⟩, hnext, hchain.2⟩
    have hexits : (fun k => (Tree.branch new ref next k₂ c₂).firsts (k + 1)) = Tree.firstsOf c₂ fun k =>
      exits (k + 1) := by
      funext k
      rw [Tree.firsts_branch_succ]
      obtain ⟨c, cs, rfl⟩ := List.exists_cons_of_ne_nil hc₂ne
      rfl
    rw [hexits]
    exact hchain.1
  · exact ⟨by change k₁.length ≤ _; omega, hc₁len, fun c hc => hchildren c (hcs ▸ List.mem_append_left _ hc)⟩
  · exact ⟨by change k₂.length ≤ _; omega, hc₂len, fun c hc => hchildren c (hcs ▸ List.mem_append_right _ hc)⟩
  · change 0 < k₁.length
    omega
  · change 0 < k₂.length
    omega
  · refine decide_eq_false ?_
    change ¬ L.internalCapacity ≤ k₁.length
    omega
  · refine decide_eq_false ?_
    change ¬ L.internalCapacity ≤ k₂.length
    omega

/-! ### Insertion -/

/-- `t'` is `t` after `insert_recursive`, which has split nodes off to the pages `fresh`. -/
inductive Inserted (L : Layout P κ ν) (key : κ) (value : ν) :
    {n : Nat} → Tree κ ν n → Tree κ ν n → (fresh : List NodeRef) → Prop
  | leaf (ref : NodeRef) (l : Leaf κ ν) :
      Inserted L key value (Tree.ofLeaf ref l) (Tree.ofLeaf ref (l.upsert (bsearchGeq l.keys key) key value).1) []
  | child {n : Nat} {ref prev next : NodeRef} {kl kr : List κ} {c c' : Tree κ ν n} {cl cr : List (Tree κ ν n)}
      {fresh : List NodeRef} (hl : kl.length = cl.length) (hr : kr.length = cr.length) (hkl : ∀ k ∈ kl, k ≤ key)
      (hkr : ∀ k ∈ kr, key < k) (hroom : c.node.isFull L = false) (hc : Inserted L key value c c' fresh) :
      Inserted L key value (Tree.branch ref prev next (kl ++ kr) (cl ++ c :: cr))
        (Tree.branch ref prev next (kl ++ kr) (cl ++ c' :: cr)) fresh
  | splitLeft {n : Nat} {ref prev next new : NodeRef} {kl kr : List κ} {sep : κ} {c left right left' : Tree κ ν n}
      {cl cr : List (Tree κ ν n)} {fresh : List NodeRef} (hl : kl.length = cl.length) (hr : kr.length = cr.length)
      (hkl : ∀ k ∈ kl, k ≤ key) (hkr : ∀ k ∈ kr, key < k) (hfull : c.node.isFull L = true)
      (hsplit : SplitsInto c left right sep new) (hkey : key < sep) (hc : Inserted L key value left left' fresh) :
      Inserted L key value (Tree.branch ref prev next (kl ++ kr) (cl ++ c :: cr))
        (Tree.branch ref prev next (kl ++ sep :: kr) (cl ++ left' :: right :: cr)) (new :: fresh)
  | splitRight {n : Nat} {ref prev next new : NodeRef} {kl kr : List κ} {sep : κ} {c left right right' : Tree κ ν n}
      {cl cr : List (Tree κ ν n)} {fresh : List NodeRef} (hl : kl.length = cl.length) (hr : kr.length = cr.length)
      (hkl : ∀ k ∈ kl, k ≤ key) (hkr : ∀ k ∈ kr, key < k) (hfull : c.node.isFull L = true)
      (hsplit : SplitsInto c left right sep new) (hkey : sep ≤ key) (hc : Inserted L key value right right' fresh) :
      Inserted L key value (Tree.branch ref prev next (kl ++ kr) (cl ++ c :: cr))
        (Tree.branch ref prev next (kl ++ sep :: kr) (cl ++ left :: right' :: cr)) (new :: fresh)

theorem Inserted.ref {key : κ} {value : ν} {n : Nat} {t t' : Tree κ ν n} {fresh : List NodeRef}
    (h : Inserted L key value t t' fresh) : t'.ref = t.ref := by
  cases h <;> rfl

/-- `t'` stands for `t`, between the marks `A` and `B`, and has the pages `fresh` besides. -/
structure Grows (L : Layout P κ ν) {n : Nat} (A B : List (Mark κ)) (t t' : Tree κ ν n) (fresh : List NodeRef) :
    Prop where
  ref : t'.ref = t.ref
  firsts : ∀ k, t'.firsts k = t.firsts k
  refs : t'.refs.Perm (fresh ++ t.refs)
  ordered : (A ++ (t'.marks ++ B)).Pairwise Mark.Before
  linked : ∀ exits, t.Linked exits → t'.Linked exits
  shaped : t'.Shaped L
  pos : 0 < t'.node.keyCount

/-! ### The marks around a child -/

section

variable {n : Nat} {ref prev next : NodeRef} {kl kr : List κ} {c : Tree κ ν n} {cl cr : List (Tree κ ν n)} {key : κ}

omit [LinearOrder κ] in
theorem Tree.marks_around (hl : kl.length = cl.length) :
    (Tree.branch ref prev next (kl ++ kr) (cl ++ c :: cr)).marks =
      interleave kl (cl.map marks) ++ (c.marks ++ trail kr (cr.map marks)) := by
  rw [marks_branch, List.map_append, interleave_append (by simpa using hl), List.map_cons, interleave_cons]

theorem Tree.ordered_around {A B : List (Mark κ)} (hl : kl.length = cl.length) :
    (A ++ ((Tree.branch ref prev next (kl ++ kr) (cl ++ c :: cr)).marks ++ B)).Pairwise Mark.Before ↔
      ((A ++ interleave kl (cl.map marks)) ++ (c.marks ++ (trail kr (cr.map marks) ++ B))).Pairwise Mark.Before := by
  rw [marks_around hl]
  simp only [List.append_assoc]

omit [LinearOrder κ] in
theorem mem_interleave {ks : List κ} {cs : List (Tree κ ν n)} {m : Mark κ} (hlen : ks.length ≤ cs.length)
    (hc : c ∈ cs) (hm : m ∈ c.marks) : m ∈ interleave ks (cs.map Tree.marks) := by
  induction cs generalizing ks with
  | nil => exact absurd hc List.not_mem_nil
  | cons d cs ih =>
      rw [List.map_cons, interleave_cons]
      rcases List.mem_cons.mp hc with rfl | hc
      · exact List.mem_append_left _ hm
      · refine List.mem_append_right _ ?_
        cases ks with
        | nil => exact List.mem_flatten_of_mem (List.mem_map_of_mem hc) hm
        | cons k ks => exact List.mem_cons_of_mem _ (ih (Nat.le_of_succ_le_succ hlen) hc)

omit [LinearOrder κ] in
theorem mem_trail {ks : List κ} {cs : List (Tree κ ν n)} {m : Mark κ} (hlen : ks.length ≤ cs.length)
    (hc : c ∈ cs) (hm : m ∈ c.marks) : m ∈ trail ks (cs.map Tree.marks) := by
  cases ks with
  | nil => exact List.mem_flatten_of_mem (List.mem_map_of_mem hc) hm
  | cons k ks => exact List.mem_cons_of_mem _ (mem_interleave ((Nat.le_succ _).trans hlen) hc hm)

/-- The marks on the left of a child are below a key that is routed to it. -/
theorem before_of_mem_interleave {ms : List (List (Mark κ))} (hl : kl.length = ms.length)
    (hsorted : (interleave kl ms).Pairwise Mark.Before) (hkl : ∀ k ∈ kl, k ≤ key) :
    ∀ x ∈ interleave kl ms, x.Before (.key key) := by
  rcases List.eq_nil_or_concat kl with rfl | ⟨ks, s, rfl⟩
  · obtain rfl := List.eq_nil_of_length_eq_zero hl.symm
    exact fun x hx => absurd hx List.not_mem_nil
  · rcases List.eq_nil_or_concat ms with rfl | ⟨ms, m, rfl⟩
    · simp at hl
    · rw [List.concat_eq_append, List.concat_eq_append] at *
      have hlen : ks.length = ms.length := by simpa using hl
      rw [interleave_snoc hlen, ← List.append_assoc] at hsorted ⊢
      have hlast : (Mark.sep s).Before (.key key) := hkl s (by simp)
      intro x hx
      rcases List.mem_append.mp hx with hx | hx
      · exact ((List.pairwise_append.mp hsorted).2.2 x hx _ (List.mem_singleton_self _)).trans hlast
      · rw [List.mem_singleton.mp hx]
        exact hlast

theorem before_of_mem_trail {ms : List (List (Mark κ))} (hr : kr.length = ms.length)
    (hsorted : (trail kr ms).Pairwise Mark.Before) (hkr : ∀ k ∈ kr, key < k) :
    ∀ x ∈ trail kr ms, (Mark.key key).Before x := by
  cases kr with
  | nil =>
      obtain rfl := List.eq_nil_of_length_eq_zero hr.symm
      exact fun x hx => absurd hx List.not_mem_nil
  | cons s ks =>
      have hfirst : (Mark.key key).Before (.sep s) := hkr s List.mem_cons_self
      intro x hx
      rcases List.mem_cons.mp hx with rfl | hx
      · exact hfirst
      · exact hfirst.trans ((List.pairwise_cons.mp hsorted).1 x hx)

end

/-- The child that a key is routed to: what is around it is on the right sides of the key. -/
theorem Tree.route_context {n : Nat} {ref prev next : NodeRef} {kl kr : List κ} {c : Tree κ ν n}
    {cl cr : List (Tree κ ν n)} {key : κ} {A B : List (Mark κ)} (hl : kl.length = cl.length)
    (hr : kr.length = cr.length) (hkl : ∀ k ∈ kl, k ≤ key) (hkr : ∀ k ∈ kr, key < k)
    (hordered : (A ++ ((Tree.branch ref prev next (kl ++ kr) (cl ++ c :: cr)).marks ++ B)).Pairwise Mark.Before)
    (hA : ∀ x ∈ A, x.Before (.key key)) (hB : ∀ y ∈ B, (Mark.key key).Before y) :
    ((A ++ interleave kl (cl.map marks)) ++ (c.marks ++ (trail kr (cr.map marks) ++ B))).Pairwise Mark.Before ∧
      (∀ x ∈ A ++ interleave kl (cl.map marks), x.Before (.key key)) ∧
      (∀ y ∈ trail kr (cr.map marks) ++ B, (Mark.key key).Before y) ∧
      ∀ value : ν, upsert key value (Tree.branch ref prev next (kl ++ kr) (cl ++ c :: cr)).entries =
        cl.flatMap entries ++ (upsert key value c.entries ++ cr.flatMap entries) := by
  have hctx := (Tree.ordered_around hl).mp hordered
  obtain ⟨hleft, hrest, -⟩ := List.pairwise_append.mp hctx
  have hlead := before_of_mem_interleave (hl.trans (List.length_map marks).symm)
    (List.pairwise_append.mp hleft).2.1 hkl
  have htrail := before_of_mem_trail (hr.trans (List.length_map marks).symm)
    (List.pairwise_append.mp (List.pairwise_append.mp hrest).2.1).1 hkr
  refine ⟨hctx, fun x hx => ?_, fun y hy => ?_, fun value => ?_⟩
  · rcases List.mem_append.mp hx with hx | hx
    · exact hA x hx
    · exact hlead x hx
  · rcases List.mem_append.mp hy with hy | hy
    · exact htrail y hy
    · exact hB y hy
  · rw [entries_branch, List.flatMap_append, List.flatMap_cons, upsert_append]
    · intro e he
      obtain ⟨d, hd, he⟩ := List.mem_flatMap.mp he
      exact hlead _ (mem_interleave hl.le hd (key_mem_marks he))
    · intro e he
      obtain ⟨d, hd, he⟩ := List.mem_flatMap.mp he
      exact htrail _ (mem_trail hr.le hd (key_mem_marks he))

/-- A key is in a tree if it is in the child it is routed to. -/
theorem Tree.mem_keys_route {n : Nat} {ref prev next : NodeRef} {kl kr : List κ} {c : Tree κ ν n}
    {cl cr : List (Tree κ ν n)} {key : κ} (hl : kl.length = cl.length) (hr : kr.length = cr.length)
    (hkl : ∀ k ∈ kl, k ≤ key) (hkr : ∀ k ∈ kr, key < k)
    (hordered : (Tree.branch ref prev next (kl ++ kr) (cl ++ c :: cr)).Ordered) :
    key ∈ (Tree.branch ref prev next (kl ++ kr) (cl ++ c :: cr)).entries.map (·.1) ↔ key ∈ c.entries.map (·.1) := by
  have hordered : ([] ++ ((Tree.branch ref prev next (kl ++ kr) (cl ++ c :: cr)).marks ++ [])).Pairwise Mark.Before :=
    by
    rw [List.nil_append, List.append_nil]
    exact hordered
  obtain ⟨-, hbefore, hbehind, -⟩ :=
    Tree.route_context hl hr hkl hkr hordered (fun _ h => absurd h List.not_mem_nil) fun _ h =>
      absurd h List.not_mem_nil
  have hleft : key ∉ (cl.flatMap entries).map (·.1) := fun hmem => by
    obtain ⟨e, he, rfl⟩ := List.mem_map.mp hmem
    obtain ⟨d, hd, he⟩ := List.mem_flatMap.mp he
    exact lt_irrefl e.1 (hbefore _ (mem_interleave hl.le hd (key_mem_marks he)))
  have hright : key ∉ (cr.flatMap entries).map (·.1) := fun hmem => by
    obtain ⟨e, he, rfl⟩ := List.mem_map.mp hmem
    obtain ⟨d, hd, he⟩ := List.mem_flatMap.mp he
    exact lt_irrefl e.1 (hbehind _ (List.mem_append_left _ (mem_trail hr.le hd (key_mem_marks he))))
  rw [entries_branch, List.flatMap_append, List.flatMap_cons, List.map_append, List.map_append,
    List.mem_append, List.mem_append]
  tauto

/-- The separators of a node are sorted. -/
theorem Tree.Ordered.keys_sorted {n : Nat} {ref prev next : NodeRef} {keys : List κ} {children : List (Tree κ ν n)}
    (hlen : keys.length ≤ children.length) (h : (Tree.branch ref prev next keys children).Ordered) :
    keys.Pairwise (· < ·) := by
  have hlen : keys.length ≤ (children.map Tree.marks).length := by rwa [List.length_map]
  have hseps : (keys.map Mark.sep).Pairwise Mark.Before := List.Pairwise.sublist (sep_mem_interleave hlen) h
  rw [List.pairwise_map] at hseps
  exact hseps

theorem Tree.Ordered.separators {n : Nat} {ref prev next : NodeRef} {keys : List κ} {children : List (Tree κ ν n)}
    (h : (Tree.branch ref prev next keys children).Ordered)
    (hshape : (Tree.branch ref prev next keys children).Shaped L) : keys.Pairwise (· < ·) :=
  h.keys_sorted (by rw [(Tree.shaped_branch.mp hshape).2.1]; exact Nat.le_succ _)

/-! ### The leaf that takes the key -/

/-- Where the search in a leaf ends. -/
theorem bsearchGeq_parts {key : κ} {front mid rest : List (κ × ν)} (hfront : ∀ e ∈ front, e.1 < key)
    (hrest : ∀ e ∈ rest, key < e.1) (hmid : mid = [] ∨ ∃ v, mid = [(key, v)]) :
    bsearchGeq ((front ++ (mid ++ rest)).map (·.1)) key = front.length := by
  rw [List.map_append, bsearchGeq_eq, List.length_map]
  · exact List.forall_mem_map.mpr hfront
  · refine List.forall_mem_map.mpr fun e he => ?_
    rcases hmid with rfl | ⟨v, rfl⟩
    · exact (hrest e he).le
    · rcases List.mem_cons.mp he with rfl | he
      · exact le_refl key
      · exact (hrest e he).le

theorem keyEq_parts {key : κ} {front mid rest : List (κ × ν)} (hrest : ∀ e ∈ rest, key < e.1)
    (hmid : mid = [] ∨ ∃ v, mid = [(key, v)]) :
    keyEq ((front ++ (mid ++ rest)).map (·.1)) front.length key = !mid.isEmpty := by
  rw [keyEq, List.map_append, List.getElem?_append_right (by simp), List.length_map, Nat.sub_self]
  rcases hmid with rfl | ⟨v, rfl⟩
  · cases rest with
    | nil => rfl
    | cons e rest =>
        have hne : e.1 ≠ key := (hrest e List.mem_cons_self).ne'
        simpa using hne
  · simp

theorem Leaf.upsert_eq {l : Leaf κ ν} {key : κ} {value : ν} (hsorted : l.keys.Pairwise (· < ·)) :
    l.upsert (bsearchGeq l.keys key) key value =
      ({ l with entries := SortedEntries.upsert key value l.entries }, decide (key ∉ l.keys)) := by
  obtain ⟨prev, next, es⟩ := l
  obtain ⟨front, mid, rest, rfl, hfront, hrest, hmid⟩ := exists_parts hsorted key
  have hidx := bsearchGeq_parts hfront hrest hmid
  have heq : keyEq ((front ++ (mid ++ rest)).map (·.1)) front.length key = _ := keyEq_parts hrest hmid
  rw [Leaf.upsert, Leaf.keys, hidx, heq, upsert_parts hfront hrest hmid]
  have hnot : key ∉ front.map (·.1) ∧ key ∉ rest.map (·.1) := by
    constructor
    · intro h
      obtain ⟨e, he, hke⟩ := List.mem_map.mp h
      exact (hfront e he).ne hke
    · intro h
      obtain ⟨e, he, hke⟩ := List.mem_map.mp h
      exact (hrest e he).ne' hke
  rcases hmid with rfl | ⟨v, rfl⟩
  · have hnew : key ∉ (front ++ ([] ++ rest)).map (fun e : κ × ν => e.1) := by simpa using hnot
    rw [decide_eq_true hnew]
    simp only [List.isEmpty_nil, Bool.not_true, Bool.false_eq_true, if_false, List.nil_append, insertIdx_length]
  · have hold : ¬ key ∉ (front ++ ([(key, v)] ++ rest)).map (fun e : κ × ν => e.1) := by simp
    rw [decide_eq_false hold]
    simp only [List.isEmpty_cons, Bool.not_false, if_true, List.singleton_append, set_length]

/-- One mark more, between those on its left and those on its right. -/
theorem pairwise_insert {A B : List (Mark κ)} {m : Mark κ} (h : (A ++ B).Pairwise Mark.Before)
    (hA : ∀ x ∈ A, x.Before m) (hB : ∀ y ∈ B, m.Before y) : (A ++ m :: B).Pairwise Mark.Before := by
  obtain ⟨hpA, hpB, hcross⟩ := List.pairwise_append.mp h
  refine List.pairwise_append.mpr ⟨hpA, List.pairwise_cons.mpr ⟨hB, hpB⟩, fun a ha b hb => ?_⟩
  rcases List.mem_cons.mp hb with rfl | hb
  · exact hA a ha
  · exact hcross a ha b hb

theorem Leaf.grows {ref : NodeRef} {l : Leaf κ ν} {key : κ} {value : ν} {A B : List (Mark κ)}
    (hroom : l.entries.length < L.leafCapacity)
    (hordered : (A ++ ((Tree.ofLeaf ref l).marks ++ B)).Pairwise Mark.Before)
    (hA : ∀ x ∈ A, x.Before (.key key)) (hB : ∀ y ∈ B, (Mark.key key).Before y) :
    Grows L A B (Tree.ofLeaf ref l) (Tree.ofLeaf ref (l.upsert (bsearchGeq l.keys key) key value).1) [] ∧
      (l.upsert (bsearchGeq l.keys key) key value).1.entries = SortedEntries.upsert key value l.entries := by
  have hsorted : l.keys.Pairwise (· < ·) :=
    Tree.Ordered.keys (t := Tree.ofLeaf ref l)
      (List.pairwise_append.mp (List.pairwise_append.mp hordered).2.1).1
  obtain ⟨hpos, hle⟩ : 1 ≤ (SortedEntries.upsert key value l.entries).length ∧ _ := length_upsert_le hsorted
  rw [Leaf.upsert_eq hsorted]
  refine ⟨⟨rfl, fun k => ?_, List.Perm.refl _, ?_, fun exits h => h, ?_, hpos⟩, rfl⟩
  · cases k <;> rfl
  · obtain ⟨prev, next, es⟩ := l
    obtain ⟨front, mid, rest, rfl, hfront, hrest, hmid⟩ := exists_parts hsorted key
    have hparts : (A ++ front.map fun e => Mark.key e.1) ++ .key key :: ((rest.map fun e => Mark.key e.1) ++ B) =
        A ++ ((Tree.ofLeaf ref ⟨prev, next, SortedEntries.upsert key value (front ++ (mid ++ rest))⟩).marks ++ B) := by
      rw [Tree.marks_ofLeaf, Leaf.keys, upsert_parts hfront hrest hmid]
      simp [Function.comp_def]
    rw [← hparts]
    have hsub : ((A ++ front.map fun e => Mark.key e.1) ++ ((rest.map fun e => Mark.key e.1) ++ B)).Sublist
        (A ++ ((Tree.ofLeaf ref ⟨prev, next, front ++ (mid ++ rest)⟩).marks ++ B)) := by
      rw [Tree.marks_ofLeaf, Leaf.keys]
      simp only [List.map_append, List.map_map, List.append_assoc, Function.comp_def]
      exact (List.Sublist.refl A).append ((List.Sublist.refl _).append (List.sublist_append_right _ _))
    refine pairwise_insert (hordered.sublist hsub) (fun x hx => ?_) fun y hy => ?_
    · rcases List.mem_append.mp hx with hx | hx
      · exact hA x hx
      · obtain ⟨e, he, rfl⟩ := List.mem_map.mp hx
        exact hfront e he
    · rcases List.mem_append.mp hy with hy | hy
      · obtain ⟨e, he, rfl⟩ := List.mem_map.mp hy
        exact hrest e he
      · exact hB y hy
  · change (SortedEntries.upsert key value l.entries).length ≤ L.leafCapacity
    omega

/-! ### The nodes on the way -/

section

variable {n : Nat} {ref prev next new : NodeRef} {kl kr : List κ} {sep : κ} {c c' left right : Tree κ ν n}
  {cl cr : List (Tree κ ν n)} {A B : List (Mark κ)} {fresh fresh' : List NodeRef} {t t' t'' : Tree κ ν n}

theorem Grows.trans (h₁ : Grows L A B t t' fresh) (h₂ : Grows L A B t' t'' fresh') :
    Grows L A B t t'' (fresh ++ fresh') where
  ref := h₂.ref.trans h₁.ref
  firsts k := (h₂.firsts k).trans (h₁.firsts k)
  refs := by
    refine h₂.refs.trans ((h₁.refs.append_left fresh').trans ?_)
    rw [← List.append_assoc]
    exact List.perm_append_comm.append_right t.refs
  ordered := h₂.ordered
  linked exits h := h₂.linked exits (h₁.linked exits h)
  shaped := h₂.shaped
  pos := h₂.pos

/-- A child that grows makes its parent grow. -/
theorem Grows.around (hl : kl.length = cl.length) (hpos : 0 < (kl ++ kr).length)
    (hshape : (Tree.branch ref prev next (kl ++ kr) (cl ++ c :: cr)).Shaped L)
    (hc : Grows L (A ++ interleave kl (cl.map Tree.marks)) (trail kr (cr.map Tree.marks) ++ B) c c' fresh) :
    Grows L A B (Tree.branch ref prev next (kl ++ kr) (cl ++ c :: cr))
      (Tree.branch ref prev next (kl ++ kr) (cl ++ c' :: cr)) fresh where
  ref := rfl
  firsts k := by
    cases k with
    | zero => rfl
    | succ k =>
        rw [Tree.firsts_branch_succ, Tree.firsts_branch_succ]
        exact Tree.firstsOf_replace hc.firsts k
  refs := by
    refine List.perm_iff_count.mpr fun a => ?_
    have hcount := hc.refs.count_eq a
    simp only [Tree.refs_branch, List.flatMap_append, List.flatMap_cons, List.count_cons, List.count_append] at hcount ⊢
    omega
  ordered := (Tree.ordered_around hl).mpr hc.ordered
  linked exits h := ⟨h.1, Tree.chain_replace hc.firsts hc.linked h.2⟩
  shaped := by
    obtain ⟨hkeys, hlen, hchildren⟩ := Tree.shaped_branch.mp hshape
    refine Tree.shaped_branch.mpr ⟨hkeys, by simpa using hlen, fun d hd => ?_⟩
    rcases List.mem_append.mp hd with hd | hd
    · exact hchildren d (List.mem_append_left _ hd)
    · rcases List.mem_cons.mp hd with rfl | hd
      · exact ⟨hc.shaped, hc.pos⟩
      · exact hchildren d (List.mem_append_right _ (List.mem_cons_of_mem _ hd))
  pos := hpos

/-- A child that is split makes its parent grow, if there is room. -/
theorem IsSplit.around (hl : kl.length = cl.length) (hroom : (kl ++ kr).length < L.internalCapacity)
    (hshape : (Tree.branch ref prev next (kl ++ kr) (cl ++ c :: cr)).Shaped L)
    (hordered : (A ++ ((Tree.branch ref prev next (kl ++ kr) (cl ++ c :: cr)).marks ++ B)).Pairwise Mark.Before)
    (hc : IsSplit L c left right sep new) :
    Grows L A B (Tree.branch ref prev next (kl ++ kr) (cl ++ c :: cr))
      (Tree.branch ref prev next (kl ++ sep :: kr) (cl ++ left :: right :: cr)) [new] where
  ref := rfl
  firsts k := by
    cases k with
    | zero => rfl
    | succ k =>
        rw [Tree.firsts_branch_succ, Tree.firsts_branch_succ]
        cases cl with
        | nil => exact hc.firsts k
        | cons d cl => rfl
  refs := by
    refine List.perm_iff_count.mpr fun a => ?_
    have hcount := hc.refs.count_eq a
    simp only [Tree.refs_branch, List.flatMap_append, List.flatMap_cons, List.count_cons, List.count_append,
      List.count_nil] at hcount ⊢
    omega
  ordered := by
    have hparts := hc.ordered _ _ ((Tree.ordered_around hl).mp hordered)
    rw [Tree.ordered_around hl, List.map_cons, trail, interleave_cons]
    simpa only [List.append_assoc, List.cons_append] using hparts
  linked exits h := by
    refine ⟨h.1, ?_⟩
    have hchain := Tree.chain_append.mp h.2
    obtain ⟨hleft, hright⟩ := hc.linked _ hchain.2.1
    refine Tree.chain_append.mpr ⟨?_, hleft, hright, hchain.2.2⟩
    have heq : Tree.firstsOf (left :: right :: cr) (fun k => exits (k + 1)) =
        Tree.firstsOf (c :: cr) fun k => exits (k + 1) := funext hc.firsts
    rw [heq]
    exact hchain.1
  shaped := by
    obtain ⟨-, hlen, hchildren⟩ := Tree.shaped_branch.mp hshape
    refine Tree.shaped_branch.mpr ⟨?_, ?_, fun d hd => ?_⟩
    · simp only [List.length_append, List.length_cons] at hroom ⊢
      omega
    · simp only [List.length_append, List.length_cons] at hlen ⊢
      omega
    · rcases List.mem_append.mp hd with hd | hd
      · exact hchildren d (List.mem_append_left _ hd)
      · rcases List.mem_cons.mp hd with rfl | hd
        · exact ⟨hc.shaped_left, hc.pos_left⟩
        · rcases List.mem_cons.mp hd with rfl | hd
          · exact ⟨hc.shaped_right, hc.pos_right⟩
          · exact hchildren d (List.mem_append_right _ (List.mem_cons_of_mem _ hd))
  pos := by
    rw [Tree.keyCount_branch, List.length_append, List.length_cons]
    omega

end

omit [LinearOrder κ] in
theorem SplitsInto.unique {n : Nat} {c left right left' right' : Tree κ ν n} {sep sep' : κ} {new : NodeRef}
    (h : SplitsInto c left right sep new) (h' : SplitsInto c left' right' sep' new) :
    left = left' ∧ right = right' ∧ sep = sep' := by
  obtain ⟨l, r, hsplit, rfl, rfl⟩ := h
  obtain ⟨l', r', hsplit', rfl, rfl⟩ := h'
  cases Option.some.inj (hsplit.symm.trans hsplit')
  exact ⟨rfl, rfl, rfl⟩

omit [LinearOrder κ] in
theorem Tree.keyCount_le_capacity {n : Nat} {t : Tree κ ν n} (h : t.Shaped L) :
    t.node.keyCount ≤ Content.capacity L n := by
  cases n with
  | zero => exact h
  | succ n => exact h.1

theorem SplitsInto.isSplit {n : Nat} {c left right : Tree κ ν n} {sep : κ} {new : NodeRef}
    (h : SplitsInto c left right sep new) (hleaf : 2 ≤ L.leafCapacity) (hinternal : 3 ≤ L.internalCapacity)
    (hshape : c.Shaped L) (hfull : c.node.isFull L = true) : IsSplit L c left right sep new := by
  have hcount : c.node.keyCount = Content.capacity L n :=
    Nat.le_antisymm (Tree.keyCount_le_capacity hshape) (of_decide_eq_true hfull)
  cases n with
  | zero =>
      obtain ⟨-, sep', -, -, -, -, -, left', right', hsplit, his⟩ :=
        @Leaf.exists_split _ _ _ _ _ c.ref new (Tree.leaf c) hleaf hcount
      obtain ⟨rfl, rfl, rfl⟩ := h.unique hsplit
      exact his
  | succ n =>
      obtain ⟨prev, next, keys, children, hc⟩ := c.exists_branch
      rw [hc] at hshape hcount h ⊢
      obtain ⟨-, sep', -, -, -, -, -, -, -, -, -, -, left', right', -, -, hsplit, his⟩ :=
        @Internal.exists_split _ _ _ _ _ n c.ref new prev next keys children hinternal hcount hshape
      obtain ⟨rfl, rfl, rfl⟩ := h.unique hsplit
      exact his

/-- What an insertion leaves: an ordered and linked tree with the new entry, between what was around the old one. -/
theorem Inserted.grows (hleaf : 2 ≤ L.leafCapacity) (hinternal : 3 ≤ L.internalCapacity) {n : Nat} {key : κ}
    {value : ν} {t t' : Tree κ ν n} {fresh : List NodeRef} (h : Inserted L key value t t' fresh) :
    ∀ {A B : List (Mark κ)}, t.Shaped L → t.node.isFull L = false → (n ≠ 0 → 0 < t.node.keyCount) →
      (A ++ (t.marks ++ B)).Pairwise Mark.Before → (∀ x ∈ A, x.Before (.key key)) →
      (∀ y ∈ B, (Mark.key key).Before y) →
      Grows L A B t t' fresh ∧ t'.entries = upsert key value t.entries := by
  induction h with
  | leaf ref l =>
      intro A B _ hroom _ hordered hA hB
      exact Leaf.grows (not_le.mp (of_decide_eq_false hroom)) hordered hA hB
  | @child n ref prev next kl kr c c' cl cr fresh hl hr hkl hkr hroom hc ih =>
      intro A B hshape _ hpos hordered hA hB
      obtain ⟨hctx, hbefore, hbehind, hentries⟩ := Tree.route_context hl hr hkl hkr hordered hA hB
      obtain ⟨hcshape, hcpos⟩ := (Tree.shaped_branch.mp hshape).2.2 c (by simp)
      obtain ⟨hgrows, hupsert⟩ := ih hcshape hroom (fun _ => hcpos) hctx hbefore hbehind
      refine ⟨hgrows.around hl (hpos (Nat.succ_ne_zero n)) hshape, ?_⟩
      rw [hentries, ← hupsert]
      simp
  | @splitLeft n ref prev next new kl kr sep c left right left' cl cr fresh hl hr hkl hkr hfull hsplit hkey hc ih =>
      intro A B hshape hroom _ hordered hA hB
      obtain ⟨hcshape, hcpos⟩ := (Tree.shaped_branch.mp hshape).2.2 c (by simp)
      have his := hsplit.isSplit hleaf hinternal hcshape hfull
      have hstep := his.around hl (not_le.mp (of_decide_eq_false hroom)) hshape hordered
      have hr' : (sep :: kr).length = (right :: cr).length := congrArg Nat.succ hr
      have hkr' : ∀ k ∈ sep :: kr, key < k := List.forall_mem_cons.mpr ⟨hkey, hkr⟩
      obtain ⟨hctx, hbefore, hbehind, hentries⟩ := Tree.route_context hl hr' hkl hkr' hstep.ordered hA hB
      obtain ⟨hgrows, hupsert⟩ := ih his.shaped_left his.room_left (fun _ => his.pos_left) hctx hbefore hbehind
      refine ⟨hstep.trans (hgrows.around hl hstep.pos hstep.shaped), ?_⟩
      have hsame : (Tree.branch ref prev next (kl ++ kr) (cl ++ c :: cr)).entries =
          (Tree.branch ref prev next (kl ++ sep :: kr) (cl ++ left :: right :: cr)).entries := by
        simp [← his.entries]
      rw [hsame, hentries, ← hupsert]
      simp
  | @splitRight n ref prev next new kl kr sep c left right right' cl cr fresh hl hr hkl hkr hfull hsplit hkey hc ih =>
      intro A B hshape hroom _ hordered hA hB
      obtain ⟨hcshape, hcpos⟩ := (Tree.shaped_branch.mp hshape).2.2 c (by simp)
      have his := hsplit.isSplit hleaf hinternal hcshape hfull
      have hstep := his.around hl (not_le.mp (of_decide_eq_false hroom)) hshape hordered
      have hl' : (kl ++ [sep]).length = (cl ++ [left]).length := by simp [hl]
      have hkl' : ∀ k ∈ kl ++ [sep], k ≤ key := by
        intro k hk
        rcases List.mem_append.mp hk with hk | hk
        · exact hkl k hk
        · rw [List.mem_singleton.mp hk]
          exact hkey
      rw [List.append_cons kl sep, List.append_cons cl left] at hstep ⊢
      obtain ⟨hctx, hbefore, hbehind, hentries⟩ := Tree.route_context hl' hr hkl' hkr hstep.ordered hA hB
      obtain ⟨hgrows, hupsert⟩ := ih his.shaped_right his.room_right (fun _ => his.pos_right) hctx hbefore hbehind
      refine ⟨hstep.trans (hgrows.around hl' hstep.pos hstep.shaped), ?_⟩
      have hsame : (Tree.branch ref prev next (kl ++ kr) (cl ++ c :: cr)).entries =
          (Tree.branch ref prev next ((kl ++ [sep]) ++ kr) ((cl ++ [left]) ++ right :: cr)).entries := by
        simp [← his.entries]
      rw [hsame, hentries, ← hupsert]
      simp

/-- A whole tree after an insertion. -/
theorem Inserted.grows_whole (hleaf : 2 ≤ L.leafCapacity) (hinternal : 3 ≤ L.internalCapacity) {n : Nat} {key : κ}
    {value : ν} {t t' : Tree κ ν n} {fresh : List NodeRef} (h : Inserted L key value t t' fresh) (hshape : t.Shaped L)
    (hroom : t.node.isFull L = false) (hpos : n ≠ 0 → 0 < t.node.keyCount) (hordered : t.Ordered) :
    Grows L [] [] t t' fresh ∧ t'.Ordered ∧ t'.entries = upsert key value t.entries := by
  have hctx : ([] ++ (t.marks ++ [])).Pairwise Mark.Before := by
    rw [List.nil_append, List.append_nil]
    exact hordered
  obtain ⟨hgrows, hentries⟩ := h.grows hleaf hinternal hshape hroom hpos hctx (fun _ h => absurd h List.not_mem_nil)
    fun _ h => absurd h List.not_mem_nil
  have hordered' := hgrows.ordered
  rw [List.nil_append, List.append_nil] at hordered'
  exact ⟨hgrows, hordered', hentries⟩

end Plexdb.BTree
