import Plexdb.BTreeGrowth

/-! Two neighbours of a level: an entry goes from one to the other through their separator, or the right one is emptied
into the left one. -/

namespace Plexdb.BTree

variable {κ ν P : Type} [LinearOrder κ] {L : Layout P κ ν} {n : Nat}

/-- What giving an entry to a neighbour leaves as it was. -/
structure Rotated (L : Layout P κ ν) (a b a' b' : Tree κ ν n) (sep sep' : κ) : Prop where
  ref_left : a'.ref = a.ref
  ref_right : b'.ref = b.ref
  firsts : ∀ k, a'.firsts k = a.firsts k
  refs : (a'.refs ++ b'.refs).Perm (a.refs ++ b.refs)
  entries : a'.entries ++ b'.entries = a.entries ++ b.entries
  ordered : ∀ A B, (A ++ ((a.marks ++ .sep sep :: b.marks) ++ B)).Pairwise Mark.Before →
    (A ++ ((a'.marks ++ .sep sep' :: b'.marks) ++ B)).Pairwise Mark.Before
  linked : ∀ exits, a.Linked b.firsts → b.Linked exits → a'.Linked b'.firsts ∧ b'.Linked exits
  shaped_left : a'.Shaped L
  shaped_right : b'.Shaped L
  pos_left : 0 < a'.node.keyCount
  pos_right : 0 < b'.node.keyCount

/-- What merging two neighbours leaves as it was. -/
structure Merged (L : Layout P κ ν) (a b m : Tree κ ν n) (sep : κ) : Prop where
  ref : m.ref = a.ref
  firsts : ∀ k, m.firsts k = a.firsts k
  refs : (b.ref :: m.refs).Perm (a.refs ++ b.refs)
  entries : m.entries = a.entries ++ b.entries
  ordered : ∀ A B, (A ++ ((a.marks ++ .sep sep :: b.marks) ++ B)).Pairwise Mark.Before →
    (A ++ (m.marks ++ B)).Pairwise Mark.Before
  linked : ∀ exits, a.Linked b.firsts → b.Linked exits → m.Linked exits
  shaped : m.Shaped L
  pos : 0 < m.node.keyCount

/-- A separator moves to the left of the key in front of it. -/
theorem pairwise_move_sep {A B : List (Mark κ)} {k k' sep : κ}
    (h : (A ++ .key k' :: .key k :: .sep sep :: B).Pairwise Mark.Before) :
    (A ++ .key k' :: .sep k :: .key k :: B).Pairwise Mark.Before := by
  refine pairwise_insert_sep (h.sublist ((List.Sublist.refl A).append ?_))
  exact ((List.sublist_cons_self (Mark.sep sep) B).cons_cons _).cons_cons _

/-! ### Leaves -/

section

variable {ra rb pa na pb nb : NodeRef} {es fs : List (κ × ν)} {e f : κ × ν} {sep : κ}

theorem Leaf.rotated_left (hes : es ≠ []) (hcap : es.length + 1 ≤ L.leafCapacity) (hroom : fs.length < L.leafCapacity) :
    Rotated L (Tree.ofLeaf ra ⟨pa, na, es ++ [e]⟩) (Tree.ofLeaf rb ⟨pb, nb, fs⟩) (Tree.ofLeaf ra ⟨pa, na, es⟩)
      (Tree.ofLeaf rb ⟨pb, nb, e :: fs⟩) sep e.1 where
  ref_left := rfl
  ref_right := rfl
  firsts k := by cases k <;> rfl
  refs := List.Perm.refl _
  entries := by simp
  ordered A B h := by
    obtain ⟨es, x, rfl⟩ : ∃ es' x, es = es' ++ [x] := ⟨_, _, (List.dropLast_append_getLast hes).symm⟩
    have hparts : (A ++ es.map fun e => Mark.key e.1) ++ .key x.1 :: .key e.1 :: .sep sep ::
        ((fs.map fun e => Mark.key e.1) ++ B) = A ++ (((Tree.ofLeaf ra ⟨pa, na, (es ++ [x]) ++ [e]⟩).marks ++
          .sep sep :: (Tree.ofLeaf rb ⟨pb, nb, fs⟩).marks) ++ B) := by
      simp [Leaf.keys, Function.comp_def]
    have hmoved := pairwise_move_sep (hparts ▸ h)
    simpa [Leaf.keys, Function.comp_def] using hmoved
  linked _ ha hb := ⟨ha, hb⟩
  shaped_left := (Nat.le_succ _).trans hcap
  shaped_right := hroom
  pos_left := List.length_pos_of_ne_nil hes
  pos_right := Nat.succ_pos _

theorem Leaf.rotated_right (hroom : es.length < L.leafCapacity) (hcap : fs.length + 1 ≤ L.leafCapacity) :
    Rotated L (Tree.ofLeaf ra ⟨pa, na, es⟩) (Tree.ofLeaf rb ⟨pb, nb, e :: f :: fs⟩) (Tree.ofLeaf ra ⟨pa, na, es ++ [e]⟩)
      (Tree.ofLeaf rb ⟨pb, nb, f :: fs⟩) sep f.1 where
  ref_left := rfl
  ref_right := rfl
  firsts k := by cases k <;> rfl
  refs := List.Perm.refl _
  entries := by simp
  ordered A B h := by
    have hparts : A ++ (((Tree.ofLeaf ra ⟨pa, na, es⟩).marks ++ .sep sep ::
      (Tree.ofLeaf rb ⟨pb, nb, e :: f :: fs⟩).marks) ++ B) =
        (A ++ es.map fun e => Mark.key e.1) ++ .sep sep ::
          (.key e.1 :: .key f.1 :: ((fs.map fun e => Mark.key e.1) ++ B)) := by
      simp [Leaf.keys, Function.comp_def]
    rw [hparts] at h
    have hmoved := pairwise_insert_sep (h.sublist ((List.Sublist.refl _).append (List.sublist_cons_self _ _)))
    simpa [Leaf.keys, Function.comp_def] using hmoved
  linked _ ha hb := ⟨ha, hb⟩
  shaped_left := by
    change (es ++ [e]).length ≤ _
    rw [List.length_append, List.length_singleton]
    exact hroom
  shaped_right := hcap
  pos_left := List.length_pos_of_ne_nil (List.append_ne_nil_of_right_ne_nil es (List.cons_ne_nil e []))
  pos_right := Nat.succ_pos _

theorem Leaf.merged (hcap : es.length + fs.length ≤ L.leafCapacity) (hpos : 0 < es.length + fs.length) :
    Merged L (Tree.ofLeaf ra ⟨pa, na, es⟩) (Tree.ofLeaf rb ⟨pb, nb, fs⟩) (Tree.ofLeaf ra ⟨pa, nb, es ++ fs⟩) sep where
  ref := rfl
  firsts k := by cases k <;> rfl
  refs := List.Perm.swap ra rb []
  entries := rfl
  ordered A B h := by
    have hsub : ((Tree.ofLeaf ra ⟨pa, nb, es ++ fs⟩).marks).Sublist
        ((Tree.ofLeaf ra ⟨pa, na, es⟩).marks ++ .sep sep :: (Tree.ofLeaf rb ⟨pb, nb, fs⟩).marks) := by
      simp only [Tree.marks_ofLeaf, Leaf.keys, List.map_append]
      exact (List.Sublist.refl _).append (List.sublist_cons_self _ _)
    exact h.sublist ((List.Sublist.refl A).append (hsub.append (List.Sublist.refl B)))
  linked _ _ hb := hb
  shaped := by
    change (es ++ fs).length ≤ _
    rw [List.length_append]
    exact hcap
  pos := by
    change 0 < (es ++ fs).length
    rw [List.length_append]
    exact hpos

end

/-! ### Internal nodes -/

section

variable {ra rb pa na pb nb : NodeRef} {ks ls : List κ} {k sep : κ} {cs ds : List (Tree κ ν n)} {d : Tree κ ν n}

omit [LinearOrder κ] in
theorem Internal.marks_left (hlen : cs.length = ks.length + 1) :
    (Tree.branch ra pa na (ks ++ [k]) (cs ++ [d])).marks ++ .sep sep :: (Tree.branch rb pb nb ls ds).marks =
      (Tree.branch ra pa na ks cs).marks ++ .sep k :: (Tree.branch rb pb nb (sep :: ls) (d :: ds)).marks := by
  have hlen' : (cs.map Tree.marks).length = ks.length + 1 := by rw [List.length_map, hlen]
  rw [Tree.marks_branch, List.map_append, List.map_cons, interleave_split hlen']
  simp [interleave]

omit [LinearOrder κ] in
/-- What is behind the neighbour on the left, in the levels of the children. -/
theorem Internal.firsts_tail (hne : ds ≠ []) (exits : Nat → NodeRef) :
    (fun k => (Tree.branch rb pb nb ls ds).firsts (k + 1)) = Tree.firstsOf ds exits := by
  obtain ⟨c, cs, rfl⟩ := List.exists_cons_of_ne_nil hne
  rfl

theorem Internal.rotated_left (hlen : cs.length = ks.length + 1) (hcap : ks.length + 1 ≤ L.internalCapacity)
    (hpos : 0 < ks.length)
    (hroom : ls.length < L.internalCapacity) (hlen' : ds.length = ls.length + 1)
    (hchildren : ∀ c ∈ cs ++ d :: ds, c.Shaped L ∧ 0 < c.node.keyCount) :
    Rotated L (Tree.branch ra pa na (ks ++ [k]) (cs ++ [d])) (Tree.branch rb pb nb ls ds) (Tree.branch ra pa na ks cs)
      (Tree.branch rb pb nb (sep :: ls) (d :: ds)) sep k where
  ref_left := rfl
  ref_right := rfl
  firsts i := by
    cases i with
    | zero => rfl
    | succ i =>
        rw [Tree.firsts_branch_succ, Tree.firsts_branch_succ]
        exact (congrFun (Tree.firstsOf_of_ne_nil (List.ne_nil_of_length_eq_add_one hlen) _) i).symm
  refs := by
    refine List.perm_iff_count.mpr fun i => ?_
    simp only [Tree.refs_branch, List.flatMap_append, List.flatMap_cons, List.flatMap_nil,
      List.count_append, List.count_cons,
      List.count_nil]
    omega
  entries := by simp
  ordered A B h := by
    rw [Internal.marks_left hlen] at h
    exact h
  linked exits ha hb := by
    obtain ⟨hna, hcs⟩ := Tree.linked_branch.mp ha
    obtain ⟨hnb, hds⟩ := Tree.linked_branch.mp hb
    obtain ⟨hcs, hd, -⟩ := Tree.chain_append.mp hcs
    rw [Internal.firsts_tail (List.ne_nil_of_length_eq_add_one hlen') fun k => exits (k + 1)] at hd
    exact ⟨⟨hna, hcs⟩, hnb, hd, hds⟩
  shaped_left := Tree.shaped_branch.mpr ⟨(Nat.le_succ _).trans hcap, hlen, fun c hc =>
    hchildren c (List.mem_append_left _ hc)⟩
  shaped_right := Tree.shaped_branch.mpr ⟨hroom, congrArg (· + 1) hlen', fun c hc =>
    hchildren c (List.mem_append_right _ hc)⟩
  pos_left := hpos
  pos_right := Nat.succ_pos _

theorem Internal.rotated_right (hlen : cs.length = ks.length + 1) (hroom : ks.length < L.internalCapacity)
    (hcap : ls.length + 1 ≤ L.internalCapacity) (hpos : 0 < ls.length) (hlen' : ds.length = ls.length + 1)
    (hchildren : ∀ c ∈ cs ++ d :: ds, c.Shaped L ∧ 0 < c.node.keyCount) :
    Rotated L (Tree.branch ra pa na ks cs) (Tree.branch rb pb nb (k :: ls) (d :: ds))
      (Tree.branch ra pa na (ks ++ [sep]) (cs ++ [d]))
      (Tree.branch rb pb nb ls ds) sep k where
  ref_left := rfl
  ref_right := rfl
  firsts i := by
    cases i with
    | zero => rfl
    | succ i =>
        rw [Tree.firsts_branch_succ, Tree.firsts_branch_succ]
        exact congrFun (Tree.firstsOf_of_ne_nil (List.ne_nil_of_length_eq_add_one hlen) _) i
  refs := by
    refine List.perm_iff_count.mpr fun i => ?_
    simp only [Tree.refs_branch, List.flatMap_append, List.flatMap_cons, List.flatMap_nil,
      List.count_append, List.count_cons,
      List.count_nil]
    omega
  entries := by simp
  ordered A B h := by
    rw [Internal.marks_left hlen]
    exact h
  linked exits ha hb := by
    obtain ⟨hna, hcs⟩ := Tree.linked_branch.mp ha
    obtain ⟨hnb, hd, hds⟩ := Tree.linked_branch.mp hb
    refine ⟨⟨hna, Tree.chain_append.mpr ⟨hcs, ?_, trivial⟩⟩, hnb, hds⟩
    rw [Internal.firsts_tail (List.ne_nil_of_length_eq_add_one hlen') fun k => exits (k + 1)]
    exact hd
  shaped_left := by
    refine Tree.shaped_branch.mpr ⟨?_, ?_, fun c hc => hchildren c ?_⟩
    · rw [List.length_append, List.length_singleton]
      exact hroom
    · simp [hlen]
    · rw [List.append_cons]
      exact List.mem_append_left _ hc
  shaped_right := Tree.shaped_branch.mpr ⟨(Nat.le_succ _).trans hcap, hlen',
    fun c hc => hchildren c (List.mem_append_right _ (List.mem_cons_of_mem _ hc))⟩
  pos_left := by
    change 0 < (ks ++ [sep]).length
    rw [List.length_append, List.length_singleton]
    exact Nat.succ_pos _
  pos_right := hpos

theorem Internal.merged (hlen : cs.length = ks.length + 1) (hlen' : ds.length = ls.length + 1)
    (hcap : ks.length + ls.length + 1 ≤ L.internalCapacity)
    (hchildren : ∀ c ∈ cs ++ ds, c.Shaped L ∧ 0 < c.node.keyCount) :
    Merged L (Tree.branch ra pa na ks cs) (Tree.branch rb pb nb ls ds)
      (Tree.branch ra pa nb (ks ++ sep :: ls) (cs ++ ds)) sep where
  ref := rfl
  firsts i := by
    cases i with
    | zero => rfl
    | succ i =>
        rw [Tree.firsts_branch_succ, Tree.firsts_branch_succ]
        exact congrFun (Tree.firstsOf_of_ne_nil (List.ne_nil_of_length_eq_add_one hlen) _) i
  refs := by
    refine List.perm_iff_count.mpr fun i => ?_
    simp only [Tree.refs_branch, Tree.ref_branch, List.flatMap_append, List.count_append, List.count_cons]
    omega
  entries := by simp
  ordered A B h := by
    have hlen : (cs.map Tree.marks).length = ks.length + 1 := by rw [List.length_map, hlen]
    rw [Tree.marks_branch, List.map_append, interleave_split hlen]
    exact h
  linked exits ha hb := by
    obtain ⟨-, hcs⟩ := Tree.linked_branch.mp ha
    obtain ⟨hnb, hds⟩ := Tree.linked_branch.mp hb
    rw [Internal.firsts_tail (List.ne_nil_of_length_eq_add_one hlen') fun k => exits (k + 1)] at hcs
    exact ⟨hnb, Tree.chain_append.mpr ⟨hcs, hds⟩⟩
  shaped := by
    refine Tree.shaped_branch.mpr ⟨?_, ?_, hchildren⟩
    · rw [List.length_append, List.length_cons]
      omega
    · rw [List.length_append, List.length_append, List.length_cons]
      omega
  pos := by
    change 0 < (ks ++ sep :: ls).length
    rw [List.length_append, List.length_cons]
    omega

end

/-! ### Around two neighbours -/

/-- `t'` can stand for `t` in any tree around it; the pages `freed` of `t` are not in `t'`. -/
structure Stands {n : Nat} (t t' : Tree κ ν n) (freed : List NodeRef) : Prop where
  ref : t'.ref = t.ref
  firsts : ∀ k, t'.firsts k = t.firsts k
  refs : (freed ++ t'.refs).Perm t.refs
  ordered : ∀ A B, (A ++ (t.marks ++ B)).Pairwise Mark.Before → (A ++ (t'.marks ++ B)).Pairwise Mark.Before
  linked : ∀ exits, t.Linked exits → t'.Linked exits

section

variable {ref prev next : NodeRef} {kl kr : List κ} {a b a' b' m c c' : Tree κ ν n}
  {cl cr : List (Tree κ ν n)} {sep sep' : κ}
  {freed : List NodeRef}

omit [LinearOrder κ] in
/-- The marks of a node around two of its children. -/
theorem Tree.marks_around_two (hl : kl.length = cl.length) :
    (Tree.branch ref prev next (kl ++ sep :: kr) (cl ++ a :: b :: cr)).marks =
      interleave kl (cl.map marks) ++ ((a.marks ++ .sep sep :: b.marks) ++ trail kr (cr.map marks)) := by
  rw [marks_around hl, List.map_cons, trail, interleave_cons]
  simp

theorem Stands.around (hl : kl.length = cl.length) (hc : Stands c c' freed) :
    Stands (Tree.branch ref prev next (kl ++ kr) (cl ++ c :: cr))
      (Tree.branch ref prev next (kl ++ kr) (cl ++ c' :: cr)) freed where
  ref := rfl
  firsts k := by
    cases k with
    | zero => rfl
    | succ k =>
        rw [Tree.firsts_branch_succ, Tree.firsts_branch_succ]
        exact Tree.firstsOf_replace hc.firsts k
  refs := by
    refine List.perm_iff_count.mpr fun i => ?_
    have hcount := hc.refs.count_eq i
    simp only [Tree.refs_branch, List.flatMap_append, List.flatMap_cons, List.count_cons, List.count_append] at hcount ⊢
    omega
  ordered A B h := (Tree.ordered_around hl).mpr (hc.ordered _ _ ((Tree.ordered_around hl).mp h))
  linked exits h := ⟨h.1, Tree.chain_replace hc.firsts hc.linked h.2⟩

theorem Rotated.around (hl : kl.length = cl.length) (hr : Rotated L a b a' b' sep sep') :
    Stands (Tree.branch ref prev next (kl ++ sep :: kr) (cl ++ a :: b :: cr))
      (Tree.branch ref prev next (kl ++ sep' :: kr) (cl ++ a' :: b' :: cr)) [] where
  ref := rfl
  firsts k := by
    cases k with
    | zero => rfl
    | succ k =>
        rw [Tree.firsts_branch_succ, Tree.firsts_branch_succ]
        cases cl with
        | nil => exact hr.firsts k
        | cons d cl => rfl
  refs := by
    refine List.perm_iff_count.mpr fun i => ?_
    have hcount := hr.refs.count_eq i
    simp only [Tree.refs_branch, List.flatMap_append, List.flatMap_cons, List.count_cons,
      List.count_append, List.nil_append]
      at hcount ⊢
    omega
  ordered A B h := by
    rw [Tree.marks_around_two hl] at h ⊢
    have := hr.ordered (A ++ interleave kl (cl.map Tree.marks)) (trail kr (cr.map Tree.marks) ++ B)
    simp only [List.append_assoc] at h this ⊢
    exact this h
  linked exits h := by
    refine ⟨h.1, ?_⟩
    obtain ⟨hcl, ha, hb, hcr⟩ := Tree.chain_append.mp h.2
    obtain ⟨ha', hb'⟩ := hr.linked _ ha hb
    refine Tree.chain_append.mpr ⟨?_, ha', hb', hcr⟩
    have hfirsts : Tree.firstsOf (a' :: b' :: cr) (fun k => exits (k + 1)) =
        Tree.firstsOf (a :: b :: cr) fun k => exits (k + 1) := funext hr.firsts
    rw [hfirsts]
    exact hcl

theorem Rotated.entries_around (hr : Rotated L a b a' b' sep sep') :
    (Tree.branch ref prev next (kl ++ sep' :: kr) (cl ++ a' :: b' :: cr)).entries =
      (Tree.branch ref prev next (kl ++ sep :: kr) (cl ++ a :: b :: cr)).entries := by
  simp only [Tree.entries_branch, List.flatMap_append, List.flatMap_cons]
  rw [← List.append_assoc a'.entries, hr.entries, List.append_assoc]

theorem Merged.entries_around (hm : Merged L a b m sep) :
    (Tree.branch ref prev next (kl ++ kr) (cl ++ m :: cr)).entries =
      (Tree.branch ref prev next (kl ++ sep :: kr) (cl ++ a :: b :: cr)).entries := by
  simp [hm.entries]

theorem Merged.around (hl : kl.length = cl.length) (hm : Merged L a b m sep) :
    Stands (Tree.branch ref prev next (kl ++ sep :: kr) (cl ++ a :: b :: cr))
      (Tree.branch ref prev next (kl ++ kr) (cl ++ m :: cr)) [b.ref] where
  ref := rfl
  firsts k := by
    cases k with
    | zero => rfl
    | succ k =>
        rw [Tree.firsts_branch_succ, Tree.firsts_branch_succ]
        cases cl with
        | nil => exact hm.firsts k
        | cons d cl => rfl
  refs := by
    refine List.perm_iff_count.mpr fun i => ?_
    have hcount := hm.refs.count_eq i
    simp only [Tree.refs_branch, List.flatMap_append, List.flatMap_cons, List.count_cons,
      List.count_append, List.count_nil]
      at hcount ⊢
    omega
  ordered A B h := by
    rw [Tree.marks_around_two hl] at h
    rw [Tree.marks_around hl]
    have := hm.ordered (A ++ interleave kl (cl.map Tree.marks)) (trail kr (cr.map Tree.marks) ++ B)
    simp only [List.append_assoc] at h this ⊢
    exact this h
  linked exits h := by
    refine ⟨h.1, ?_⟩
    obtain ⟨hcl, ha, hb, hcr⟩ := Tree.chain_append.mp h.2
    refine Tree.chain_append.mpr ⟨?_, hm.linked _ ha hb, hcr⟩
    have hfirsts : Tree.firstsOf (m :: cr) (fun k => exits (k + 1)) =
        Tree.firstsOf (a :: b :: cr) fun k => exits (k + 1) := funext hm.firsts
    rw [hfirsts]
    exact hcl

end

end Plexdb.BTree
