import Plexdb.BTreeInsert
import Plexdb.BTreePath

/-! Two neighbours under their parent: the programs that give an entry from one to the other, or empty one into the
other. -/

namespace Plexdb.BTree

open PageProgram

/-! ### Occupancy -/

section

variable {P κ ν : Type} {L : Layout P κ ν} {n : Nat}

/-- A byte count of at most a node's worth is less than half of the capacity as the number of entries is. -/
theorem u16_half {count capacity width : Nat} (hwidth : 0 < width) (hcount : count ≤ capacity)
    (hbytes : capacity * width < 2 ^ 16) : u16 (count * width) * 2 < u16 (capacity * width) ↔ 2 * count < capacity := by
  have hle : count * width ≤ capacity * width := Nat.mul_le_mul_right width hcount
  rw [u16, u16, Nat.mod_eq_of_lt (hle.trans_lt hbytes), Nat.mod_eq_of_lt hbytes, Nat.mul_right_comm,
    Nat.mul_lt_mul_right hwidth,
    Nat.mul_comm]

theorem Layout.leafBytes (hsize : L.nodeSize < 2 ^ 16) (hleaf : 0 < L.leafCapacity) :
    0 < L.leafWidth ∧ L.leafCapacity * L.leafWidth < 2 ^ 16 := by
  have hle : L.leafCapacity ≤ (L.nodeSize - nodeHeaderBytes) / L.leafWidth := by
    unfold Layout.leafCapacity maxKeysLeaf Layout.leafWidth
    split_ifs
    · exact min_le_left _ _
    · exact Nat.zero_le _
  have hwidth : 0 < L.leafWidth := by
    rcases Nat.eq_zero_or_pos L.leafWidth with hzero | hpos
    · rw [hzero, Nat.div_zero] at hle
      omega
    · exact hpos
  have hbytes : L.leafCapacity * L.leafWidth ≤ L.nodeSize - nodeHeaderBytes :=
    (Nat.mul_le_mul_right _ hle).trans (Nat.div_mul_le_self _ _)
  exact ⟨hwidth, by omega⟩

theorem Layout.internalBytes (hsize : L.nodeSize < 2 ^ 16) : L.internalCapacity * L.internalWidth < 2 ^ 16 := by
  have hle : L.internalCapacity ≤ (L.nodeSize - nodeHeaderBytes - 8) / L.internalWidth := by
    unfold Layout.internalCapacity maxKeysInternal Layout.internalWidth
    split_ifs
    · exact min_le_left _ _
    · exact Nat.zero_le _
  have hbytes : L.internalCapacity * L.internalWidth ≤ L.nodeSize - nodeHeaderBytes - 8 :=
    (Nat.mul_le_mul_right _ hle).trans (Nat.div_mul_le_self _ _)
  omega

theorem Layout.isUnderfullInternal_iff {τ : Type} (hsize : L.nodeSize < 2 ^ 16) (hinternal : 0 < L.internalCapacity)
    {c : Internal κ τ} (hc : c.keys.length ≤ L.internalCapacity) :
    L.isUnderfullInternal c = true ↔ 2 * c.keys.length < L.internalCapacity := by
  have hwidth : 0 < L.internalWidth := Nat.succ_pos _
  have hhalf := u16_half hwidth hc (Layout.internalBytes hsize)
  unfold Layout.isUnderfullInternal
  rw [decide_eq_true_iff, hhalf]
  omega

theorem Content.isUnderfull_iff (hsize : L.nodeSize < 2 ^ 16) (hleaf : 0 < L.leafCapacity)
    (hinternal : 0 < L.internalCapacity)
    {c : Content κ ν n} (hc : c.keyCount ≤ Content.capacity L n) :
    c.isUnderfull L = true ↔ 2 * c.keyCount < Content.capacity L n := by
  cases n with
  | zero =>
      obtain ⟨hwidth, hbytes⟩ := Layout.leafBytes hsize hleaf
      exact decide_eq_true_iff.trans (u16_half hwidth hc hbytes)
  | succ n =>
      exact Layout.isUnderfullInternal_iff (c := (c : Internal κ (Tree κ ν n))) hsize hinternal hc

theorem Content.hasSpare_iff (hsize : L.nodeSize < 2 ^ 16) (hleaf : 0 < L.leafCapacity)
    (hinternal : 0 < L.internalCapacity)
    {c : Content κ ν n} (hc : c.keyCount ≤ Content.capacity L n) :
    c.hasSpare L = true ↔ 2 ≤ c.keyCount ∧ Content.capacity L n ≤ 2 * c.keyCount := by
  unfold Content.hasSpare
  rw [Bool.and_eq_true, decide_eq_true_iff, Bool.not_eq_true', ← Bool.not_eq_true,
    Content.isUnderfull_iff hsize hleaf hinternal hc,
    not_lt]

end

/-! ### Two neighbours under their parent -/

theorem Tree.refs_eq {κ ν : Type} {n : Nat} (t : Tree κ ν n) : t.refs = t.ref :: t.refs.tail := by
  cases n <;> rfl

section

variable {P κ ν : Type} [LinearOrder κ] {L : Layout P κ ν} {h h' : Nat → Option P} {n : Nat} {ref prev next : NodeRef}
  {kl kr keys : List κ} {sep sep' : κ} {cl cr : List (Tree κ ν n)} {a b a' b' : Tree κ ν n}

/-- A node in a heap, with two children that stand next to each other. -/
structure Beside (L : Layout P κ ν) (h : Nat → Option P) (ref prev next : NodeRef) (kl : List κ) (sep : κ) (kr : List κ)
    (cl : List (Tree κ ν n)) (a b : Tree κ ν n) (cr : List (Tree κ ν n)) : Prop where
  stored : (Tree.branch ref prev next (kl ++ sep :: kr) (cl ++ a :: b :: cr)).Stored L h
  nodup : (Tree.branch ref prev next (kl ++ sep :: kr) (cl ++ a :: b :: cr)).refs.Nodup
  ordered : (Tree.branch ref prev next (kl ++ sep :: kr) (cl ++ a :: b :: cr)).Ordered
  left : kl.length = cl.length
  right : kr.length = cr.length
  capacity : (kl ++ sep :: kr).length ≤ L.internalCapacity
  shaped_left : a.Shaped L
  shaped_right : b.Shaped L
  others : ∀ c ∈ cl ++ cr, c.Shaped L ∧ 0 < c.node.keyCount

namespace Beside

/-- The pages of the three nodes are three, and no other node of the tree is on them. -/
theorem count (hb : Beside L h ref prev next kl sep kr cl a b cr) (i : NodeRef) :
    [ref, a.ref, b.ref].count i + (cl.flatMap Tree.refs ++
      (a.refs.tail ++ (b.refs.tail ++ cr.flatMap Tree.refs))).count i ≤ 1 := by
  have hcount := List.nodup_iff_count_le_one.mp hb.nodup i
  rw [Tree.refs_branch, List.flatMap_append, List.flatMap_cons, List.flatMap_cons, a.refs_eq, b.refs_eq] at hcount
  simp only [List.count_append, List.count_cons, List.count_nil, List.cons_append] at hcount ⊢
  omega

theorem ne_left (hb : Beside L h ref prev next kl sep kr cl a b cr) : ref ≠ a.ref := fun heq => by
  have := hb.count ref
  simp only [List.count_cons, ← heq, beq_self_eq_true, if_true] at this
  omega

theorem ne_right (hb : Beside L h ref prev next kl sep kr cl a b cr) : ref ≠ b.ref := fun heq => by
  have := hb.count ref
  simp only [List.count_cons, ← heq, beq_self_eq_true, if_true] at this
  omega

theorem ne (hb : Beside L h ref prev next kl sep kr cl a b cr) : a.ref ≠ b.ref := fun heq => by
  have := hb.count a.ref
  simp only [List.count_cons, ← heq, beq_self_eq_true, if_true] at this
  omega

theorem ne_of_mem (hb : Beside L h ref prev next kl sep kr cl a b cr) {i : NodeRef}
    (hi : i ∈ cl.flatMap Tree.refs ++ (a.refs.tail ++ (b.refs.tail ++ cr.flatMap Tree.refs))) :
    i ≠ ref ∧ i ≠ a.ref ∧ i ≠ b.ref := by
  have hcount := hb.count i
  have hpos := List.count_pos_iff.mpr hi
  have hnot : i ∉ [ref, a.ref, b.ref] := List.count_eq_zero.mp (by omega)
  simpa using hnot

/-- The other children are as they were. -/
theorem replace (hb : Beside L h ref prev next kl sep kr cl a b cr) (mid : List (Tree κ ν n))
    (hframe : ∀ i, i ≠ ref → i ≠ a.ref → i ≠ b.ref → h' i = h i)
    (hpage : ∃ p, h' ref = some p ∧ L.internal p = ⟨prev, next, keys, (cl ++ (mid ++ cr)).map Located.ref⟩)
    (hmid : ∀ d ∈ mid, d.Stored L h') : (Tree.branch ref prev next keys (cl ++ (mid ++ cr))).Stored L h' := by
  obtain ⟨-, hbelow⟩ := Tree.stored_branch.mp hb.stored
  have hsibling : ∀ d ∈ cl ++ cr, d.Stored L h' := fun d hd => by
    have hdc : d ∈ cl ++ a :: b :: cr := by
      rcases List.mem_append.mp hd with hd | hd
      · exact List.mem_append_left _ hd
      · exact List.mem_append_right _ (List.mem_cons_of_mem _ (List.mem_cons_of_mem _ hd))
    refine (hbelow d hdc).congr fun i hi => ?_
    have hmem : i ∈ cl.flatMap Tree.refs ++ (a.refs.tail ++ (b.refs.tail ++ cr.flatMap Tree.refs)) := by
      rcases List.mem_append.mp hd with hd | hd
      · exact List.mem_append_left _ (List.mem_flatMap_of_mem hd hi)
      · exact List.mem_append_right _
          (List.mem_append_right _ (List.mem_append_right _ (List.mem_flatMap_of_mem hd hi)))
    obtain ⟨h₁, h₂, h₃⟩ := hb.ne_of_mem hmem
    exact hframe i h₁ h₂ h₃
  refine Tree.stored_branch.mpr ⟨hpage, fun d hd => ?_⟩
  rcases List.mem_append.mp hd with hd | hd
  · exact hsibling d (List.mem_append_left _ hd)
  · rcases List.mem_append.mp hd with hd | hd
    · exact hmid d hd
    · exact hsibling d (List.mem_append_right _ hd)

theorem stored_left (hb : Beside L h ref prev next kl sep kr cl a b cr) : a.Stored L h :=
  (Tree.stored_branch.mp hb.stored).2 a (by simp)

theorem stored_right (hb : Beside L h ref prev next kl sep kr cl a b cr) : b.Stored L h :=
  (Tree.stored_branch.mp hb.stored).2 b (by simp)

end Beside

/-- What is sorted in a node with two neighbours in order. -/
theorem Tree.Ordered.two (hl : kl.length = cl.length) (hr : kr.length = cr.length)
    (hordered : (Tree.branch ref prev next (kl ++ sep :: kr) (cl ++ a :: b :: cr)).Ordered) :
    a.Ordered ∧ b.Ordered ∧ (kl ++ sep :: kr).Pairwise (· < ·) := by
  have hmarks := hordered
  rw [Tree.Ordered, Tree.marks_around_two hl] at hmarks
  obtain ⟨hab, -, -⟩ := List.pairwise_append.mp (List.pairwise_append.mp hmarks).2.1
  obtain ⟨ha, hb, -⟩ := List.pairwise_append.mp hab
  refine ⟨ha, (List.pairwise_cons.mp hb).2, Tree.Ordered.keys_sorted ?_ hordered⟩
  simp only [List.length_append, List.length_cons]
  omega

end

/-! ### Giving an entry to a neighbour -/

section

variable {κ ν τ : Type} {pa na pb nb : NodeRef} {k sep : κ} {ks ls : List κ} {cs ds : List τ} {d : τ} {e f : κ × ν}
  {es fs : List (κ × ν)}

theorem Leaf.transferFromLeft_eq :
    (⟨pa, na, es ++ [e]⟩ : Leaf κ ν).transferFromLeft ⟨pb, nb, fs⟩ = some (e.1, ⟨pa, na, es⟩, ⟨pb, nb, e :: fs⟩) := by
  simp [Leaf.transferFromLeft]

theorem Internal.transferFromLeft_eq :
    Internal.transferFromLeft sep ⟨pa, na, ks ++ [k], cs ++ [d]⟩ ⟨pb, nb, ls, ds⟩ =
      some (k, ⟨pa, na, ks, cs⟩, ⟨pb, nb, sep :: ls, d :: ds⟩) := by
  simp [Internal.transferFromLeft]

theorem Leaf.transferFromRight_eq :
    (⟨pa, na, es⟩ : Leaf κ ν).transferFromRight ⟨pb, nb, e :: f :: fs⟩ =
      some (f.1, ⟨pa, na, es ++ [e]⟩, ⟨pb, nb, f :: fs⟩) := rfl

theorem Internal.transferFromRight_eq :
    Internal.transferFromRight sep ⟨pa, na, ks, cs⟩ ⟨pb, nb, k :: ls, d :: ds⟩ =
      some (k, ⟨pa, na, ks ++ [sep], cs ++ [d]⟩, ⟨pb, nb, ls, ds⟩) := rfl

end

section

variable {σ P κ ν β : Type} {S : PageStore σ P} {Cond : σ → Prop} {L : Layout P κ ν} {Fits : NodeRef → Prop}
  {FitsSize : Nat → Prop} {s : σ} {live : Finset Nat} {h : Nat → Option P} {Q : σ → β → Prop}

theorem does_writeTwo (rules : HeapRules S Cond L.blank Fits) {i j : NodeRef} {pi pj : P} {wi wj : P → P}
    {f : Unit → PageProgram P β} (hs : rules.Views s live h) (hi : h i = some pi) (hj : h j = some pj) (hij : i ≠ j)
    (hQ : ∀ s' h', rules.Views s' live h' → h' i = some (wi pi) → h' j = some (wj pj) →
      (∀ x, x ≠ i → x ≠ j → h' x = h x) → (f ()).Ensures S Cond Q s') :
    (writeNode i wi >>= fun _ => writeNode j wj >>= f).Ensures S Cond Q s := by
  refine does_writeNode rules hs hi fun s₁ hs₁ => ?_
  refine does_writeNode rules hs₁ (by rw [Function.update_of_ne hij.symm]; exact hj) fun s₂ hs₂ => ?_
  refine hQ s₂ _ hs₂ ?_ (Function.update_self _ _ _) fun x hxi hxj => ?_
  · rw [Function.update_of_ne hij, Function.update_self]
  · rw [Function.update_of_ne hxj, Function.update_of_ne hxi]

theorem does_writeThree (rules : HeapRules S Cond L.blank Fits) {i j k : NodeRef} {pi pj pk : P} {wi wj wk : P → P}
    {f : Unit → PageProgram P β} (hs : rules.Views s live h) (hi : h i = some pi)
    (hj : h j = some pj) (hk : h k = some pk)
    (hij : i ≠ j) (hik : i ≠ k) (hjk : j ≠ k)
    (hQ : ∀ s' h', rules.Views s' live h' → h' i = some (wi pi) → h' j = some (wj pj) → h' k = some (wk pk) →
      (∀ x, x ≠ i → x ≠ j → x ≠ k → h' x = h x) → (f ()).Ensures S Cond Q s') :
    (writeNode i wi >>= fun _ => writeNode j wj >>= fun _ => writeNode k wk >>= f).Ensures S Cond Q s := by
  refine does_writeTwo rules hs hi hj hij fun s₁ h₁ hs₁ hi₁ hj₁ hframe₁ => ?_
  refine does_writeNode rules hs₁ ((hframe₁ k hik.symm hjk.symm).trans hk) fun s₂ hs₂ => ?_
  refine hQ s₂ _ hs₂ ?_ ?_ (Function.update_self _ _ _) fun x hxi hxj hxk => ?_
  · rw [Function.update_of_ne hik]
    exact hi₁
  · rw [Function.update_of_ne hjk]
    exact hj₁
  · rw [Function.update_of_ne hxk]
    exact hframe₁ x hxi hxj

end

section

variable {P κ ν : Type} [LinearOrder κ] {L : Layout P κ ν} {Fits : NodeRef → Prop} {FitsSize : Nat → Prop}
  {h h' : Nat → Option P} {n : Nat} {ref prev next : NodeRef} {kl kr : List κ} {sep sep' : κ}
  {cl cr : List (Tree κ ν n)} {a b a' b' : Tree κ ν n}

namespace Beside

theorem page (hb : Beside L h ref prev next kl sep kr cl a b cr) :
    ∃ p, h ref = some p ∧ L.internal p = ⟨prev, next, kl ++ sep :: kr, (cl ++ a :: b :: cr).map Located.ref⟩ :=
  (Tree.stored_branch.mp hb.stored).1

/-- The nodes below the two neighbours are as they were. -/
theorem below {n : Nat} {ra pa na rb pb nb : NodeRef} {ka kb : List κ} {ca cb : List (Tree κ ν n)}
    {cl cr : List (Tree κ ν (n + 1))}
    (hb : Beside L h ref prev next kl sep kr cl (Tree.branch ra pa na ka ca) (Tree.branch rb pb nb kb cb) cr)
    (hframe : ∀ i, i ≠ ref → i ≠ ra → i ≠ rb → h' i = h i) : ∀ c ∈ ca ++ cb, c.Stored L h' := fun c hc => by
  have hstored : c.Stored L h := by
    rcases List.mem_append.mp hc with hc | hc
    · exact (Tree.stored_branch.mp hb.stored_left).2 c hc
    · exact (Tree.stored_branch.mp hb.stored_right).2 c hc
  refine hstored.congr fun i hi => ?_
  have hmem : i ∈ cl.flatMap Tree.refs ++ (ca.flatMap Tree.refs ++ (cb.flatMap Tree.refs ++ cr.flatMap Tree.refs)) := by
    refine List.mem_append_right _ ?_
    rcases List.mem_append.mp hc with hc | hc
    · exact List.mem_append_left _ (List.mem_flatMap_of_mem hc hi)
    · exact List.mem_append_right _ (List.mem_append_left _ (List.mem_flatMap_of_mem hc hi))
  obtain ⟨h₁, h₂, h₃⟩ := hb.ne_of_mem hmem
  exact hframe i h₁ h₂ h₃

/-- The parent with another separator between the two. -/
theorem setSep (law : L.Lawful Fits FitsSize) (hb : Beside L h ref prev next kl sep kr cl a b cr) {p : P}
    (hpage : L.internal p = ⟨prev, next, kl ++ sep :: kr, (cl ++ a :: b :: cr).map Located.ref⟩) :
    (L.internal p).setSep cl.length sep' = ⟨prev, next, kl ++ sep' :: kr, (cl ++ a :: b :: cr).map Located.ref⟩ ∧
      L.internal (L.setInternal (kl ++ sep' :: kr) ((cl ++ a :: b :: cr).map Located.ref) p) =
        ⟨prev, next, kl ++ sep' :: kr, (cl ++ a :: b :: cr).map Located.ref⟩ := by
  have hcapacity := hb.capacity
  have hl := hb.left
  have hr := hb.right
  constructor
  · rw [hpage, Internal.setSep, ← hl, set_length]
  · rw [law.internal_setInternal ?_ ?_ fun c hc => fits_child law hpage hc, hpage]
    · simpa using hcapacity
    · simp only [List.length_map, List.length_append, List.length_cons]
      omega

theorem shaped_rotated (hb : Beside L h ref prev next kl sep kr cl a b cr) (hrot : Rotated L a b a' b' sep sep') :
    (Tree.branch ref prev next (kl ++ sep' :: kr) (cl ++ a' :: b' :: cr)).Shaped L := by
  have hcapacity := hb.capacity
  have hl := hb.left
  have hr := hb.right
  refine Tree.shaped_branch.mpr ⟨?_, ?_, fun c hc => ?_⟩
  · simpa using hcapacity
  · simp only [List.length_append, List.length_cons]
    omega
  · rcases List.mem_append.mp hc with hc | hc
    · exact hb.others c (List.mem_append_left _ hc)
    · rcases List.mem_cons.mp hc with rfl | hc
      · exact ⟨hrot.shaped_left, hrot.pos_left⟩
      · rcases List.mem_cons.mp hc with rfl | hc
        · exact ⟨hrot.shaped_right, hrot.pos_right⟩
        · exact hb.others c (List.mem_append_right _ hc)

theorem shaped_merged (hb : Beside L h ref prev next kl sep kr cl a b cr) {m : Tree κ ν n} (hm : Merged L a b m sep) :
    (Tree.branch ref prev next (kl ++ kr) (cl ++ m :: cr)).Shaped L := by
  have hcapacity := hb.capacity
  have hl := hb.left
  have hr := hb.right
  refine Tree.shaped_branch.mpr ⟨?_, ?_, fun c hc => ?_⟩
  · simp only [List.length_append, List.length_cons] at hcapacity ⊢
    omega
  · simp only [List.length_append, List.length_cons]
    omega
  · rcases List.mem_append.mp hc with hc | hc
    · exact hb.others c (List.mem_append_left _ hc)
    · rcases List.mem_cons.mp hc with rfl | hc
      · exact ⟨hm.shaped, hm.pos⟩
      · exact hb.others c (List.mem_append_right _ hc)

/-- The parent without the right one of the two. -/
theorem removeEntry (law : L.Lawful Fits FitsSize) (hb : Beside L h ref prev next kl sep kr cl a b cr) {p : P}
    (hpage : L.internal p = ⟨prev, next, kl ++ sep :: kr, (cl ++ a :: b :: cr).map Located.ref⟩) :
    (L.internal p).removeEntry cl.length = ⟨prev, next, kl ++ kr, (cl ++ a :: cr).map Located.ref⟩ ∧
      L.internal (L.setInternal (kl ++ kr) ((cl ++ a :: cr).map Located.ref) p) =
        ⟨prev, next, kl ++ kr, (cl ++ a :: cr).map Located.ref⟩ := by
  have hcapacity := hb.capacity
  have hl := hb.left
  have hr := hb.right
  have hsub : ((cl ++ a :: cr).map Located.ref).Sublist ((cl ++ a :: b :: cr).map Located.ref) :=
    ((List.Sublist.refl cl).append ((List.sublist_cons_self b cr).cons_cons a)).map _
  constructor
  · rw [hpage, Internal.removeEntry]
    dsimp only
    rw [List.eraseIdx_map, eraseIdx_length_succ, ← hl, eraseIdx_length]
  · rw [law.internal_setInternal ?_ ?_ fun c hc => fits_child law hpage (hsub.subset hc), hpage]
    · simp only [List.length_append, List.length_cons] at hcapacity ⊢
      omega
    · simp only [List.length_map, List.length_append, List.length_cons]
      omega

/-- What is sorted after the right one was emptied into the left one. -/
theorem merged (hb : Beside L h ref prev next kl sep kr cl a b cr) {m : Tree κ ν n} (hm : Merged L a b m sep) :
    m.Ordered ∧ (kl ++ kr).Pairwise (· < ·) := by
  have hstands : Stands _ (Tree.branch ref prev next (kl ++ kr) (cl ++ m :: cr)) _ := hm.around hb.left
  have hordered := hstands.ordered [] [] (by
    rw [List.nil_append, List.append_nil]
    exact hb.ordered)
  have hm' := (Tree.ordered_around hb.left).mp hordered
  rw [List.nil_append, List.append_nil] at hordered
  refine ⟨(List.pairwise_append.mp (List.pairwise_append.mp hm').2.1).1, Tree.Ordered.keys_sorted ?_ hordered⟩
  have hl := hb.left
  have hr := hb.right
  simp only [List.length_append, List.length_cons]
  omega

/-- What is sorted after an entry went from one to the other. -/
theorem rotated (hb : Beside L h ref prev next kl sep kr cl a b cr) (hrot : Rotated L a b a' b' sep sep') :
    a'.Ordered ∧ b'.Ordered ∧ (kl ++ sep' :: kr).Pairwise (· < ·) := by
  have hstands : Stands _ (Tree.branch ref prev next (kl ++ sep' :: kr) (cl ++ a' :: b' :: cr))
    [] := hrot.around hb.left
  have hordered := hstands.ordered [] [] (by
    rw [List.nil_append, List.append_nil]
    exact hb.ordered)
  rw [List.nil_append, List.append_nil] at hordered
  exact Tree.Ordered.two hb.left hb.right hordered

end Beside

end

section

variable {σ P κ ν β : Type} [LinearOrder κ] {S : PageStore σ P} {Cond : σ → Prop} {L : Layout P κ ν}
  {Fits : NodeRef → Prop} {FitsSize : Nat → Prop} (rules : HeapRules S Cond L.blank Fits) (law : L.Lawful Fits FitsSize)
  {s : σ} {live : Finset Nat} {h : Nat → Option P} {Q : σ → β → Prop} {ref prev next : NodeRef}
    {kl kr : List κ} {sep : κ}

/-- What a transfer between two neighbours leaves in the heap. -/
structure Transferred (L : Layout P κ ν) (h h' : Nat → Option P) (ref prev next : NodeRef) (kl : List κ)
    (sep : κ) (kr : List κ)
    {n : Nat} (cl : List (Tree κ ν n)) (a b : Tree κ ν n) (cr : List (Tree κ ν n)) : Prop where
  result : ∃ a' b' sep', Rotated L a b a' b' sep sep' ∧
    (Tree.branch ref prev next (kl ++ sep' :: kr) (cl ++ a' :: b' :: cr)).Stored L h'
  frame : ∀ i, i ≠ ref → i ≠ a.ref → i ≠ b.ref → h' i = h i

include rules law

theorem does_transferLeafFromLeft {cl cr : List (Tree κ ν 0)} {ra rb : NodeRef} {l r : Leaf κ ν}
    {f : Unit → PageProgram P β}
    (hb : Beside L h ref prev next kl sep kr cl (Tree.ofLeaf ra l) (Tree.ofLeaf rb r) cr) (hs : rules.Views s live h)
    (hspare : 2 ≤ l.entries.length) (hroom : r.entries.length < L.leafCapacity)
    (hQ : ∀ s' h', rules.Views s' live h' →
      Transferred L h h' ref prev next kl sep kr cl (Tree.ofLeaf ra l) (Tree.ofLeaf rb r) cr →
        (f ()).Ensures S Cond Q s') :
    (transferFromLeft L ref ra rb (cl.length + 1) true >>= f).Ensures S Cond Q s := by
  obtain ⟨pa, na, es⟩ := l
  obtain ⟨pb, nb, fs⟩ := r
  obtain ⟨es, e, rfl⟩ : ∃ es' e, es = es' ++ [e] :=
    ⟨_, _, (List.dropLast_append_getLast (List.ne_nil_of_length_pos (Nat.two_pos.trans_le hspare))).symm⟩
  have hes : es ≠ [] := by
    rintro rfl
    simp at hspare
  obtain ⟨pp, hpp, hpage⟩ := hb.page
  obtain ⟨pl, hpl, hleft⟩ := hb.stored_left
  obtain ⟨pr, hpr, hright⟩ := hb.stored_right
  change L.leaf pl = ⟨pa, na, es ++ [e]⟩ at hleft
  change L.leaf pr = ⟨pb, nb, fs⟩ at hright
  have hcap : es.length + 1 ≤ L.leafCapacity := by
    have := hb.shaped_left
    rw [Tree.shaped_ofLeaf, List.length_append] at this
    exact this
  change fs.length < L.leafCapacity at hroom
  have hrot : Rotated L (Tree.ofLeaf ra ⟨pa, na, es ++ [e]⟩) (Tree.ofLeaf rb ⟨pb, nb, fs⟩) (Tree.ofLeaf ra ⟨pa, na, es⟩)
      (Tree.ofLeaf rb ⟨pb, nb, e :: fs⟩) sep e.1 :=
    Leaf.rotated_left hes hcap hroom
  have hleft' : L.leaf (L.setEntries es pl) = ⟨pa, na, es⟩ := by
    rw [law.leaf_setEntries ((Nat.le_succ _).trans hcap), hleft]
  have hright' : L.leaf (L.setEntries (e :: fs) pr) = ⟨pb, nb, e :: fs⟩ := by
    rw [law.leaf_setEntries (show (e :: fs).length ≤ _ from hroom), hright]
  obtain ⟨hset, hpage'⟩ := @Beside.setSep _ _ _ _ _ _ _ _ _ _ _ _ _ _ _ e.1 _ _ _ _ law hb _ hpage
  obtain ⟨hsorted_left, hsorted_right, hsorted⟩ := hb.rotated hrot
  unfold transferFromLeft
  simp only [PageProgram.bind_assoc]
  refine ensures_assert_bind (Nat.le_add_left 1 _) ?_
  refine does_readInternal rules hs hpp fun s₁ hs₁ => ?_
  rw [if_pos trivial, Nat.add_sub_cancel]
  simp only [PageProgram.bind_assoc]
  refine does_readLeaf rules hs₁ hpl fun s₂ hs₂ => ?_
  refine does_readLeaf rules hs₂ hpr fun s₃ hs₃ => ?_
  rw [hleft, hright]
  refine ensures_assert_bind hroom ?_
  refine ensures_ofOption_bind Leaf.transferFromLeft_eq ?_
  dsimp only
  rw [hset]
  refine does_writeThree rules hs₃ hpr hpp hpl hb.ne_right.symm hb.ne.symm hb.ne_left fun s₄ h₄ hs₄ hpr₄
    hpp₄ hpl₄ hframe => ?_
  have hframe' : ∀ i, i ≠ ref → i ≠ ra → i ≠ rb → h₄ i = h i := fun i h₁ h₂ h₃ => hframe i h₃ h₁ h₂
  refine does_assertSorted (Tree.Ordered.keys hsorted_right) (does_assertSorted (Tree.Ordered.keys hsorted_left) ?_)
  refine does_assertSorted hsorted (hQ s₄ h₄ hs₄ ⟨⟨_, _, _, hrot, ?_⟩, hframe'⟩)
  refine hb.replace [_, _] hframe' ⟨_, hpp₄, ?_⟩ fun d hd => ?_
  · simpa using hpage'
  · rcases List.mem_cons.mp hd with rfl | hd
    · exact ⟨_, hpl₄, hleft'⟩
    · rw [List.mem_singleton.mp hd]
      exact ⟨_, hpr₄, hright'⟩

theorem does_transferLeafFromRight {cl cr : List (Tree κ ν 0)} {ra rb : NodeRef} {l r : Leaf κ ν}
    {f : Unit → PageProgram P β}
    (hb : Beside L h ref prev next kl sep kr cl (Tree.ofLeaf ra l) (Tree.ofLeaf rb r) cr) (hs : rules.Views s live h)
    (hspare : 2 ≤ r.entries.length) (hroom : l.entries.length < L.leafCapacity)
    (hQ : ∀ s' h', rules.Views s' live h' →
      Transferred L h h' ref prev next kl sep kr cl (Tree.ofLeaf ra l) (Tree.ofLeaf rb r) cr →
        (f ()).Ensures S Cond Q s') :
    (transferFromRight L ref rb ra cl.length true >>= f).Ensures S Cond Q s := by
  obtain ⟨pa, na, es⟩ := l
  obtain ⟨pb, nb, fs⟩ := r
  obtain ⟨e, fs, rfl⟩ := List.exists_cons_of_length_pos (Nat.two_pos.trans_le hspare)
  obtain ⟨e', fs, rfl⟩ := List.exists_cons_of_length_pos (Nat.succ_le_succ_iff.mp hspare)
  change es.length < L.leafCapacity at hroom
  obtain ⟨pp, hpp, hpage⟩ := hb.page
  obtain ⟨pl, hpl, hleft⟩ := hb.stored_left
  obtain ⟨pr, hpr, hright⟩ := hb.stored_right
  change L.leaf pl = ⟨pa, na, es⟩ at hleft
  change L.leaf pr = ⟨pb, nb, e :: e' :: fs⟩ at hright
  have hcap : fs.length + 1 ≤ L.leafCapacity := (Nat.le_succ _).trans (Tree.shaped_ofLeaf.mp hb.shaped_right)
  have hrot : Rotated L (Tree.ofLeaf ra ⟨pa, na, es⟩) (Tree.ofLeaf rb ⟨pb, nb, e :: e' :: fs⟩)
      (Tree.ofLeaf ra ⟨pa, na, es ++ [e]⟩) (Tree.ofLeaf rb ⟨pb, nb, e' :: fs⟩) sep e'.1 :=
    Leaf.rotated_right hroom hcap
  have hleft' : L.leaf (L.setEntries (es ++ [e]) pl) = ⟨pa, na, es ++ [e]⟩ := by
    rw [law.leaf_setEntries (by rw [List.length_append]; exact hroom), hleft]
  have hright' : L.leaf (L.setEntries (e' :: fs) pr) = ⟨pb, nb, e' :: fs⟩ := by
    rw [law.leaf_setEntries (show (e' :: fs).length ≤ _ from hcap), hright]
  obtain ⟨hset, hpage'⟩ := @Beside.setSep _ _ _ _ _ _ _ _ _ _ _ _ _ _ _ e'.1 _ _ _ _ law hb _ hpage
  obtain ⟨hsorted_left, hsorted_right, hsorted⟩ := hb.rotated hrot
  have hidx : cl.length < (L.internal pp).keys.length := by
    rw [hpage, ← hb.left, List.length_append, List.length_cons]
    omega
  unfold transferFromRight
  simp only [PageProgram.bind_assoc]
  refine does_readInternal rules hs hpp fun s₁ hs₁ => ?_
  refine ensures_assert_bind hidx ?_
  rw [if_pos trivial]
  simp only [PageProgram.bind_assoc]
  refine does_readLeaf rules hs₁ hpr fun s₂ hs₂ => ?_
  refine does_readLeaf rules hs₂ hpl fun s₃ hs₃ => ?_
  rw [hleft, hright]
  refine ensures_assert_bind hroom ?_
  refine ensures_ofOption_bind Leaf.transferFromRight_eq ?_
  dsimp only
  rw [hset]
  refine does_writeThree rules hs₃ hpl hpr hpp hb.ne hb.ne_left.symm hb.ne_right.symm fun s₄ h₄ hs₄ hpl₄
    hpr₄ hpp₄ hframe => ?_
  have hframe' : ∀ i, i ≠ ref → i ≠ ra → i ≠ rb → h₄ i = h i := fun i h₁ h₂ h₃ => hframe i h₂ h₃ h₁
  refine does_assertSorted (Tree.Ordered.keys hsorted_left) (does_assertSorted (Tree.Ordered.keys hsorted_right) ?_)
  refine does_assertSorted hsorted (hQ s₄ h₄ hs₄ ⟨⟨_, _, _, hrot, ?_⟩, hframe'⟩)
  refine hb.replace [_, _] hframe' ⟨_, hpp₄, ?_⟩ fun d hd => ?_
  · simpa using hpage'
  · rcases List.mem_cons.mp hd with rfl | hd
    · exact ⟨_, hpl₄, hleft'⟩
    · rw [List.mem_singleton.mp hd]
      exact ⟨_, hpr₄, hright'⟩

theorem does_transferInternalFromLeft {n : Nat} {cl cr : List (Tree κ ν (n + 1))}
    {ra rb pa na pb nb : NodeRef} {ka kb : List κ}
    {ca cb : List (Tree κ ν n)} {f : Unit → PageProgram P β}
    (hb : Beside L h ref prev next kl sep kr cl (Tree.branch ra pa na ka ca) (Tree.branch rb pb nb kb cb) cr)
    (hs : rules.Views s live h) (hspare : 2 ≤ ka.length) (hroom : kb.length < L.internalCapacity)
    (hQ : ∀ s' h', rules.Views s' live h' →
      Transferred L h h' ref prev next kl sep kr cl (Tree.branch ra pa na ka ca) (Tree.branch rb pb nb kb cb) cr →
      (f ()).Ensures S Cond Q s') :
    (transferFromLeft L ref ra rb (cl.length + 1) false >>= f).Ensures S Cond Q s := by
  obtain ⟨hcapa, hlena, hchildrena⟩ := Tree.shaped_branch.mp hb.shaped_left
  obtain ⟨hcapb, hlenb, hchildrenb⟩ := Tree.shaped_branch.mp hb.shaped_right
  obtain ⟨ka, k, rfl⟩ : ∃ ks k, ka = ks ++ [k] :=
    ⟨_, _, (List.dropLast_append_getLast (List.ne_nil_of_length_pos (Nat.two_pos.trans_le hspare))).symm⟩
  obtain ⟨ca, d, rfl⟩ : ∃ cs d, ca = cs ++ [d] :=
    ⟨_, _, (List.dropLast_append_getLast (List.ne_nil_of_length_eq_add_one hlena)).symm⟩
  rw [List.length_append, List.length_singleton] at hspare hcapa
  rw [List.length_append, List.length_append, List.length_singleton, List.length_singleton] at hlena
  have hlen : ca.length = ka.length + 1 := by omega
  have hrot : Rotated L (Tree.branch ra pa na (ka ++ [k]) (ca ++ [d])) (Tree.branch rb pb nb kb cb)
    (Tree.branch ra pa na ka ca)
      (Tree.branch rb pb nb (sep :: kb) (d :: cb)) sep k := by
    refine Internal.rotated_left hlen hcapa (by omega) hroom hlenb fun c hc => ?_
    rcases List.mem_append.mp hc with hc | hc
    · exact hchildrena c (List.mem_append_left _ hc)
    · rcases List.mem_cons.mp hc with rfl | hc
      · exact hchildrena c (List.mem_append_right _ (List.mem_singleton_self _))
      · exact hchildrenb c hc
  obtain ⟨pp, hpp, hpage⟩ := hb.page
  obtain ⟨⟨pl, hpl, hleft⟩, -⟩ := Tree.stored_branch.mp hb.stored_left
  obtain ⟨⟨pr, hpr, hright⟩, -⟩ := Tree.stored_branch.mp hb.stored_right
  have hleft' : L.internal (L.setInternal ka (ca.map Located.ref) pl) = ⟨pa, na, ka, ca.map Located.ref⟩ := by
    rw [law.internal_setInternal (by omega) (by rw [List.length_map]; exact hlen) fun c hc =>
      fits_child law hleft ?_, hleft]
    rw [List.map_append]
    exact List.mem_append_left _ hc
  have hright' : L.internal (L.setInternal (sep :: kb) ((d :: cb).map Located.ref) pr) =
      ⟨pb, nb, sep :: kb, (d :: cb).map Located.ref⟩ := by
    rw [law.internal_setInternal (show (sep :: kb).length ≤ _ from hroom) (by simp [hlenb]) fun c hc => ?_, hright]
    rcases List.mem_cons.mp hc with rfl | hc
    · exact fits_child law hleft (List.mem_map_of_mem (List.mem_append_right _ (List.mem_singleton_self _)))
    · exact fits_child law hright hc
  obtain ⟨hset, hpage'⟩ := @Beside.setSep _ _ _ _ _ _ _ _ _ _ _ _ _ _ _ k _ _ _ _ law hb _ hpage
  obtain ⟨hsorted_left, hsorted_right, hsorted⟩ := hb.rotated hrot
  unfold transferFromLeft
  simp only [PageProgram.bind_assoc]
  refine ensures_assert_bind (Nat.le_add_left 1 _) ?_
  refine does_readInternal rules hs hpp fun s₁ hs₁ => ?_
  rw [if_neg Bool.false_ne_true, Nat.add_sub_cancel]
  simp only [PageProgram.bind_assoc]
  refine does_readInternal rules hs₁ hpl fun s₂ hs₂ => ?_
  refine does_readInternal rules hs₂ hpr fun s₃ hs₃ => ?_
  refine ensures_ofOption_bind (a := sep) (by rw [hpage, ← hb.left]; exact getElem?_length) ?_
  rw [hleft, hright, List.map_append]
  refine ensures_ofOption_bind Internal.transferFromLeft_eq ?_
  dsimp only
  rw [hset]
  refine does_writeThree rules hs₃ hpr hpp hpl hb.ne_right.symm hb.ne.symm hb.ne_left fun s₄ h₄ hs₄ hpr₄
    hpp₄ hpl₄ hframe => ?_
  have hframe' : ∀ i, i ≠ ref → i ≠ ra → i ≠ rb → h₄ i = h i := fun i h₁ h₂ h₃ => hframe i h₃ h₁ h₂
  have hbelow := hb.below hframe'
  refine does_assertSorted (Tree.Ordered.separators hsorted_right hrot.shaped_right) ?_
  refine does_assertSorted (Tree.Ordered.separators hsorted_left hrot.shaped_left) ?_
  refine does_assertSorted hsorted (hQ s₄ h₄ hs₄ ⟨⟨_, _, _, hrot, ?_⟩, hframe'⟩)
  refine hb.replace [_, _] hframe' ⟨_, hpp₄, ?_⟩ fun e he => ?_
  · simpa using hpage'
  · rcases List.mem_cons.mp he with rfl | he
    · refine Tree.stored_branch.mpr ⟨⟨_, hpl₄, hleft'⟩, fun c hc => hbelow c ?_⟩
      simp [hc]
    · rw [List.mem_singleton.mp he]
      refine Tree.stored_branch.mpr ⟨⟨_, hpr₄, hright'⟩, fun c hc => hbelow c ?_⟩
      rcases List.mem_cons.mp hc with rfl | hc
      · simp
      · simp [hc]

theorem does_transferInternalFromRight {n : Nat} {cl cr : List (Tree κ ν (n + 1))} {ra rb pa na pb nb : NodeRef}
    {ka kb : List κ} {ca cb : List (Tree κ ν n)} {f : Unit → PageProgram P β}
    (hb : Beside L h ref prev next kl sep kr cl (Tree.branch ra pa na ka ca) (Tree.branch rb pb nb kb cb) cr)
    (hs : rules.Views s live h) (hspare : 2 ≤ kb.length) (hroom : ka.length < L.internalCapacity)
    (hQ : ∀ s' h', rules.Views s' live h' →
      Transferred L h h' ref prev next kl sep kr cl (Tree.branch ra pa na ka ca) (Tree.branch rb pb nb kb cb) cr →
      (f ()).Ensures S Cond Q s') :
    (transferFromRight L ref rb ra cl.length false >>= f).Ensures S Cond Q s := by
  obtain ⟨hcapa, hlena, hchildrena⟩ := Tree.shaped_branch.mp hb.shaped_left
  obtain ⟨hcapb, hlenb, hchildrenb⟩ := Tree.shaped_branch.mp hb.shaped_right
  obtain ⟨k, kb, rfl⟩ := List.exists_cons_of_length_pos (Nat.two_pos.trans_le hspare)
  obtain ⟨d, cb, rfl⟩ := List.exists_cons_of_length_eq_add_one hlenb
  rw [List.length_cons] at hspare hcapb
  rw [List.length_cons, List.length_cons] at hlenb
  have hlen : cb.length = kb.length + 1 := by omega
  have hrot : Rotated L (Tree.branch ra pa na ka ca) (Tree.branch rb pb nb (k :: kb) (d :: cb))
      (Tree.branch ra pa na (ka ++ [sep]) (ca ++ [d])) (Tree.branch rb pb nb kb cb) sep k := by
    refine Internal.rotated_right hlena hroom hcapb (by omega) hlen fun c hc => ?_
    rcases List.mem_append.mp hc with hc | hc
    · exact hchildrena c hc
    · exact hchildrenb c hc
  obtain ⟨pp, hpp, hpage⟩ := hb.page
  obtain ⟨⟨pl, hpl, hleft⟩, -⟩ := Tree.stored_branch.mp hb.stored_left
  obtain ⟨⟨pr, hpr, hright⟩, -⟩ := Tree.stored_branch.mp hb.stored_right
  have hleft' : L.internal (L.setInternal (ka ++ [sep]) ((ca ++ [d]).map Located.ref) pl) =
      ⟨pa, na, ka ++ [sep], (ca ++ [d]).map Located.ref⟩ := by
    rw [law.internal_setInternal (by rw [List.length_append]; exact hroom) (by simp [hlena]) fun c hc => ?_, hleft]
    rw [List.map_append] at hc
    rcases List.mem_append.mp hc with hc | hc
    · exact fits_child law hleft hc
    · refine fits_child law hright ?_
      rw [List.mem_singleton.mp hc]
      exact List.mem_cons_self
  have hright' : L.internal (L.setInternal kb (cb.map Located.ref) pr) = ⟨pb, nb, kb, cb.map Located.ref⟩ := by
    rw [law.internal_setInternal (by omega) (by rw [List.length_map]; exact hlen)
      fun c hc => fits_child law hright (List.mem_cons_of_mem _ hc), hright]
  obtain ⟨hset, hpage'⟩ := @Beside.setSep _ _ _ _ _ _ _ _ _ _ _ _ _ _ _ k _ _ _ _ law hb _ hpage
  obtain ⟨hsorted_left, hsorted_right, hsorted⟩ := hb.rotated hrot
  have hidx : cl.length < (L.internal pp).keys.length := by
    rw [hpage, ← hb.left, List.length_append, List.length_cons]
    omega
  unfold transferFromRight
  simp only [PageProgram.bind_assoc]
  refine does_readInternal rules hs hpp fun s₁ hs₁ => ?_
  refine ensures_assert_bind hidx ?_
  rw [if_neg Bool.false_ne_true]
  simp only [PageProgram.bind_assoc]
  refine does_readInternal rules hs₁ hpr fun s₂ hs₂ => ?_
  refine does_readInternal rules hs₂ hpl fun s₃ hs₃ => ?_
  refine ensures_ofOption_bind (a := sep) (by rw [hpage, ← hb.left]; exact getElem?_length) ?_
  rw [hleft, hright, List.map_cons]
  refine ensures_ofOption_bind Internal.transferFromRight_eq ?_
  dsimp only
  rw [hset, ← List.map_singleton (f := Located.ref) (a := d), ← List.map_append]
  refine does_writeThree rules hs₃ hpl hpp hpr hb.ne_left.symm hb.ne hb.ne_right fun s₄ h₄ hs₄ hpl₄
    hpp₄ hpr₄ hframe => ?_
  have hframe' : ∀ i, i ≠ ref → i ≠ ra → i ≠ rb → h₄ i = h i := fun i h₁ h₂ h₃ => hframe i h₂ h₁ h₃
  have hbelow := hb.below hframe'
  refine does_assertSorted (Tree.Ordered.separators hsorted_left hrot.shaped_left) ?_
  refine does_assertSorted (Tree.Ordered.separators hsorted_right hrot.shaped_right) ?_
  refine does_assertSorted hsorted (hQ s₄ h₄ hs₄ ⟨⟨_, _, _, hrot, ?_⟩, hframe'⟩)
  refine hb.replace [_, _] hframe' ⟨_, hpp₄, ?_⟩ fun e he => ?_
  · simpa using hpage'
  · rcases List.mem_cons.mp he with rfl | he
    · refine Tree.stored_branch.mpr ⟨⟨_, hpl₄, hleft'⟩, fun c hc => hbelow c ?_⟩
      rcases List.mem_append.mp hc with hc | hc
      · exact List.mem_append_left _ hc
      · rw [List.mem_singleton.mp hc]
        simp
    · rw [List.mem_singleton.mp he]
      refine Tree.stored_branch.mpr ⟨⟨_, hpr₄, hright'⟩, fun c hc => hbelow c ?_⟩
      simp [hc]

/-- A transfer at any level. -/
theorem does_transferFromLeft {n : Nat} {cl cr : List (Tree κ ν n)} {a b : Tree κ ν n} {f : Unit → PageProgram P β}
    (hb : Beside L h ref prev next kl sep kr cl a b cr) (hs : rules.Views s live h) (hspare : 2 ≤ a.node.keyCount)
    (hroom : b.node.keyCount < Content.capacity L n)
    (hQ : ∀ s' h', rules.Views s' live h' → Transferred L h h' ref prev next kl sep kr cl a b cr →
      (f ()).Ensures S Cond Q s') :
    (transferFromLeft L ref a.ref b.ref (cl.length + 1) (n = 0) >>= f).Ensures S Cond Q s := by
  cases n with
  | zero => exact does_transferLeafFromLeft rules law hb hs hspare hroom hQ
  | succ n => exact does_transferInternalFromLeft rules law hb hs hspare hroom hQ

theorem does_transferFromRight {n : Nat} {cl cr : List (Tree κ ν n)} {a b : Tree κ ν n} {f : Unit → PageProgram P β}
    (hb : Beside L h ref prev next kl sep kr cl a b cr) (hs : rules.Views s live h) (hspare : 2 ≤ b.node.keyCount)
    (hroom : a.node.keyCount < Content.capacity L n)
    (hQ : ∀ s' h', rules.Views s' live h' → Transferred L h h' ref prev next kl sep kr cl a b cr →
      (f ()).Ensures S Cond Q s') :
    (transferFromRight L ref b.ref a.ref cl.length (n = 0) >>= f).Ensures S Cond Q s := by
  cases n with
  | zero => exact does_transferLeafFromRight rules law hb hs hspare hroom hQ
  | succ n => exact does_transferInternalFromRight rules law hb hs hspare hroom hQ

omit rules law in
/-- What is left of two neighbours when the right one was emptied into the left one. -/
structure Joined (L : Layout P κ ν) (h h' : Nat → Option P) (ref prev next : NodeRef) (kl : List κ)
    (sep : κ) (kr : List κ)
    {n : Nat} (cl : List (Tree κ ν n)) (a b : Tree κ ν n) (cr : List (Tree κ ν n)) : Prop where
  result : ∃ m, Merged L a b m sep ∧ (Tree.branch ref prev next (kl ++ kr) (cl ++ m :: cr)).Stored L h'
  frame : ∀ i, i ≠ ref → i ≠ a.ref → h' i = h i

theorem does_mergeLeaves {cl cr : List (Tree κ ν 0)} {ra rb : NodeRef} {l r : Leaf κ ν} {f : Unit → PageProgram P β}
    (hb : Beside L h ref prev next kl sep kr cl (Tree.ofLeaf ra l) (Tree.ofLeaf rb r) cr) (hs : rules.Views s live h)
    (hcap : l.entries.length + r.entries.length ≤ L.leafCapacity) (hpos : 0 < l.entries.length + r.entries.length)
    (hQ : ∀ s' h', rules.Views s' live h' → Joined L h h' ref prev next kl sep kr cl (Tree.ofLeaf ra l)
      (Tree.ofLeaf rb r) cr →
      (f ()).Ensures S Cond Q s') :
    (merge L ra rb ref cl.length true >>= f).Ensures S Cond Q s := by
  obtain ⟨pa, na, es⟩ := l
  obtain ⟨pb, nb, fs⟩ := r
  obtain ⟨pp, hpp, hpage⟩ := hb.page
  obtain ⟨pl, hpl, hleft⟩ := hb.stored_left
  obtain ⟨pr, hpr, hright⟩ := hb.stored_right
  change L.leaf pl = ⟨pa, na, es⟩ at hleft
  change L.leaf pr = ⟨pb, nb, fs⟩ at hright
  have hm : Merged L (Tree.ofLeaf ra ⟨pa, na, es⟩) (Tree.ofLeaf rb ⟨pb, nb, fs⟩)
    (Tree.ofLeaf ra ⟨pa, nb, es ++ fs⟩) sep :=
    Leaf.merged hcap hpos
  have hfits : Fits nb := by
    have := law.fits_next pr
    rwa [show L.next pr = nb from congrArg Leaf.next hright] at this
  have hmerged : L.leaf (L.setEntries (es ++ fs) (L.setNext nb pl)) = ⟨pa, nb, es ++ fs⟩ := by
    rw [law.leaf_setEntries (by rw [List.length_append]; exact hcap), law.leaf_setNext hfits, hleft]
  obtain ⟨hremove, hpage'⟩ := hb.removeEntry law hpage
  obtain ⟨hsorted_node, hsorted⟩ := hb.merged hm
  have hidx : cl.length < (L.internal pp).keys.length := by
    rw [hpage, ← hb.left, List.length_append, List.length_cons]
    omega
  unfold merge
  simp only [PageProgram.bind_assoc]
  refine does_readInternal rules hs hpp fun s₁ hs₁ => ?_
  refine ensures_assert_bind hidx ?_
  rw [if_pos trivial, hremove]
  simp only [PageProgram.bind_assoc]
  refine does_readLeaf rules hs₁ hpl fun s₂ hs₂ => ?_
  refine does_readLeaf rules hs₂ hpr fun s₃ hs₃ => ?_
  rw [hleft, hright]
  refine does_writeNode rules hs₃ hpl fun s₄ hs₄ => ?_
  refine does_writeTwo rules hs₄ (Function.update_self _ _ _)
    ((Function.update_of_ne hb.ne_left _ _).trans hpp) hb.ne_left.symm
    fun s₅ h₅ hs₅ hpl₅ hpp₅ hframe => ?_
  have hframe' : ∀ i, i ≠ ref → i ≠ ra → h₅ i = h i := fun i hi hia => by
    rw [hframe i hia hi, Function.update_of_ne hia]
  refine does_assertSorted (Tree.Ordered.keys hsorted_node)
    (does_assertSorted hsorted (hQ s₅ h₅ hs₅ ⟨⟨_, hm, ?_⟩, hframe'⟩))
  refine hb.replace [_] (fun i h₁ h₂ _ => hframe' i h₁ h₂) ⟨_, hpp₅, ?_⟩ fun d hd => ?_
  · simpa using hpage'
  · rw [List.mem_singleton.mp hd]
    exact ⟨_, hpl₅, hmerged⟩

theorem does_mergeInternals {n : Nat} {cl cr : List (Tree κ ν (n + 1))} {ra rb pa na pb nb : NodeRef} {ka kb : List κ}
    {ca cb : List (Tree κ ν n)} {f : Unit → PageProgram P β}
    (hb : Beside L h ref prev next kl sep kr cl (Tree.branch ra pa na ka ca) (Tree.branch rb pb nb kb cb) cr)
    (hs : rules.Views s live h) (hcap : ka.length + kb.length + 1 ≤ L.internalCapacity)
    (hQ : ∀ s' h', rules.Views s' live h' →
      Joined L h h' ref prev next kl sep kr cl (Tree.branch ra pa na ka ca) (Tree.branch rb pb nb kb cb) cr →
      (f ()).Ensures S Cond Q s') :
    (merge L ra rb ref cl.length false >>= f).Ensures S Cond Q s := by
  obtain ⟨-, hlena, hchildrena⟩ := Tree.shaped_branch.mp hb.shaped_left
  obtain ⟨-, hlenb, hchildrenb⟩ := Tree.shaped_branch.mp hb.shaped_right
  obtain ⟨pp, hpp, hpage⟩ := hb.page
  obtain ⟨⟨pl, hpl, hleft⟩, -⟩ := Tree.stored_branch.mp hb.stored_left
  obtain ⟨⟨pr, hpr, hright⟩, -⟩ := Tree.stored_branch.mp hb.stored_right
  have hm : Merged L (Tree.branch ra pa na ka ca) (Tree.branch rb pb nb kb cb)
      (Tree.branch ra pa nb (ka ++ sep :: kb) (ca ++ cb)) sep :=
    Internal.merged hlena hlenb hcap fun c hc => (List.mem_append.mp hc).elim (hchildrena c) (hchildrenb c)
  have hfits : Fits nb := by
    have := law.fits_next pr
    rwa [show L.next pr = nb from congrArg Internal.next hright] at this
  have hmerged : L.internal (L.setInternal (ka ++ sep :: kb) ((ca ++ cb).map Located.ref) (L.setNext nb pl)) =
      ⟨pa, nb, ka ++ sep :: kb, (ca ++ cb).map Located.ref⟩ := by
    rw [law.internal_setInternal ?_ ?_ fun c hc => ?_, law.internal_setNext hfits, hleft]
    · simp only [List.length_append, List.length_cons]
      omega
    · simp only [List.length_map, List.length_append, List.length_cons]
      omega
    · rw [List.map_append] at hc
      exact (List.mem_append.mp hc).elim (fits_child law hleft) (fits_child law hright)
  obtain ⟨hremove, hpage'⟩ := hb.removeEntry law hpage
  obtain ⟨hsorted_node, hsorted⟩ := hb.merged hm
  have hidx : cl.length < (L.internal pp).keys.length := by
    rw [hpage, ← hb.left, List.length_append, List.length_cons]
    omega
  unfold merge
  simp only [PageProgram.bind_assoc]
  refine does_readInternal rules hs hpp fun s₁ hs₁ => ?_
  refine ensures_assert_bind hidx ?_
  rw [if_neg Bool.false_ne_true, hremove]
  simp only [PageProgram.bind_assoc]
  refine does_readInternal rules hs₁ hpl fun s₂ hs₂ => ?_
  refine does_readInternal rules hs₂ hpr fun s₃ hs₃ => ?_
  refine ensures_ofOption_bind (a := sep) (by rw [hpage, ← hb.left]; exact getElem?_length) ?_
  rw [hleft, hright, Internal.merge, ← List.map_append]
  refine does_writeNode rules hs₃ hpl fun s₄ hs₄ => ?_
  refine does_writeTwo rules hs₄ (Function.update_self _ _ _)
    ((Function.update_of_ne hb.ne_left _ _).trans hpp) hb.ne_left.symm
    fun s₅ h₅ hs₅ hpl₅ hpp₅ hframe => ?_
  have hframe' : ∀ i, i ≠ ref → i ≠ ra → h₅ i = h i := fun i hi hia => by
    rw [hframe i hia hi, Function.update_of_ne hia]
  refine does_assertSorted (Tree.Ordered.separators hsorted_node hm.shaped) ?_
  refine does_assertSorted hsorted (hQ s₅ h₅ hs₅ ⟨⟨_, hm, ?_⟩, hframe'⟩)
  refine hb.replace [_] (fun i h₁ h₂ _ => hframe' i h₁ h₂) ⟨_, hpp₅, ?_⟩ fun d hd => ?_
  · simpa using hpage'
  · rw [List.mem_singleton.mp hd]
    exact Tree.stored_branch.mpr ⟨⟨_, hpl₅, hmerged⟩, hb.below fun i h₁ h₂ _ => hframe' i h₁ h₂⟩

/-- The right one of two neighbours is emptied into the left one, and freed. -/
theorem does_mergeNodes {n : Nat} {cl cr : List (Tree κ ν n)} {a b : Tree κ ν n} {f : Unit → PageProgram P β}
    (hb : Beside L h ref prev next kl sep kr cl a b cr) (hs : rules.Views s live h)
    (hcap : a.node.keyCount + b.node.keyCount + min n 1 ≤ Content.capacity L n)
    (hpos : 0 < a.node.keyCount + b.node.keyCount)
    (hQ : ∀ s' h', rules.Views s' (live.erase b.ref) h' → (∃ m, Merged L a b m sep ∧
        (Tree.branch ref prev next (kl ++ kr) (cl ++ m :: cr)).Stored L h') →
      (∀ i, i ≠ ref → i ≠ a.ref → i ≠ b.ref → h' i = h i) → (f ()).Ensures S Cond Q s') :
    (merge L a.ref b.ref ref cl.length (n = 0) >>= fun _ => deleteNode b.ref >>= f).Ensures S Cond Q s := by
  have hdelete : ∀ s' h', rules.Views s' live h' → Joined L h h' ref prev next kl sep kr cl a b cr →
      (deleteNode b.ref >>= f).Ensures S Cond Q s' := by
    intro s' h' hs' hjoined
    obtain ⟨⟨m, hm, hstored⟩, hframe⟩ := hjoined
    refine does_deleteNode rules hs' (mem_live_of_stored rules hs hb.stored_right _ b.ref_mem_refs) fun s'' hs'' => ?_
    refine hQ s'' _ hs'' ⟨m, hm, hstored.congr fun i hi =>
      Function.update_of_ne (fun heq => ?_) _ _⟩ fun i h₁ h₂ h₃ => ?_
    · have hperm : (b.ref :: (Tree.branch ref prev next (kl ++ kr) (cl ++ m :: cr)).refs).Perm
          (Tree.branch ref prev next (kl ++ sep :: kr) (cl ++ a :: b :: cr)).refs := (hm.around hb.left).refs
      exact (List.nodup_cons.mp (hperm.nodup_iff.mpr hb.nodup)).1 (heq ▸ hi)
    · rw [Function.update_of_ne h₃, hframe i h₁ h₂]
  cases n with
  | zero =>
      exact does_mergeLeaves rules law hb hs hcap hpos hdelete
  | succ n =>
      refine does_mergeInternals rules law hb hs ?_ hdelete
      rwa [Nat.min_eq_right (Nat.le_add_left 1 n)] at hcap

end

end Plexdb.BTree
