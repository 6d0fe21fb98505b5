import Mathlib

/-! Structures with holes that are filled in one pass. A pass carries a list of values through the
structure and takes the next one at each hole it visits; a specification fills every hole by what it is.
The laws say when the pass is the specification, and they are closed under lists, pairs and whatever
wraps one structure in another. -/

namespace Plexdb.Holes

variable {σ ν X Y : Type}

/-- One after another, each with the values that those before it left. -/
def bindEach (bind : X → List ν → X × List ν) : List X → List ν → List X × List ν
  | [], vs => ([], vs)
  | x :: xs, vs =>
      let (x, vs) := bind x vs
      let (xs, vs) := bindEach bind xs vs
      (x :: xs, vs)

/-- What holes a structure has, in the order of the pass, what filling them means, the pass, and the
structures in which the pass visits each hole. -/
structure Traversal (σ ν X : Type) where
  sites : X → List σ
  fill : (σ → Option ν) → X → X
  bind : X → List ν → X × List ν
  reach : X → Prop

/-- There is a value for each hole, of a kind that it accepts. -/
def Fits (accepts : σ → ν → Prop) : List σ → List ν → Prop
  | [], _ => True
  | _ :: _, [] => False
  | s :: ss, v :: vs => accepts s v ∧ Fits accepts ss vs

/-- The holes are filled by the values in order. -/
def Agrees (f : σ → Option ν) : List σ → List ν → Prop
  | s :: ss, v :: vs => f s = some v ∧ Agrees f ss vs
  | _, _ => True

theorem fits_append {accepts : σ → ν → Prop} {a b : List σ} {vs : List ν} :
    Fits accepts (a ++ b) vs ↔ Fits accepts a vs ∧ Fits accepts b (vs.drop a.length) := by
  induction a generalizing vs with
  | nil => simp [Fits]
  | cons s a ih =>
      cases vs with
      | nil => simp [Fits]
      | cons v vs => simp [Fits, ih, and_assoc]

theorem agrees_append {f : σ → Option ν} {a b : List σ} {vs : List ν} :
    Agrees f (a ++ b) vs ↔ Agrees f a vs ∧ Agrees f b (vs.drop a.length) := by
  induction a generalizing vs with
  | nil => simp [Agrees]
  | cons s a ih =>
      cases vs with
      | nil => cases b <;> simp [Agrees]
      | cons v vs => simp [Agrees, ih, and_assoc]

theorem Fits.length_le {accepts : σ → ν → Prop} {ss : List σ} {vs : List ν} (h : Fits accepts ss vs) :
    ss.length ≤ vs.length := by
  induction ss generalizing vs with
  | nil => exact Nat.zero_le _
  | cons s ss ih =>
      cases vs with
      | nil => exact h.elim
      | cons v vs => exact Nat.succ_le_succ (ih h.2)

theorem fits_iff_zip {accepts : σ → ν → Prop} {ss : List σ} {vs : List ν} (h : ss.length ≤ vs.length) :
    Fits accepts ss vs ↔ ∀ e ∈ ss.zip vs, accepts e.1 e.2 := by
  induction ss generalizing vs with
  | nil => simp [Fits]
  | cons s ss ih =>
      cases vs with
      | nil => exact absurd h (Nat.not_succ_le_zero _)
      | cons v vs => rw [Fits, ih (Nat.le_of_succ_le_succ h), List.zip_cons_cons, List.forall_mem_cons]

theorem Agrees.congr {f g : σ → Option ν} {ss : List σ} {vs : List ν} (heq : ∀ s ∈ ss, f s = g s)
    (h : Agrees f ss vs) : Agrees g ss vs := by
  induction ss generalizing vs with
  | nil => trivial
  | cons s ss ih =>
      obtain ⟨hs, hss⟩ := List.forall_mem_cons.mp heq
      cases vs with
      | nil => trivial
      | cons v vs => exact ⟨hs ▸ h.1, ih hss h.2⟩

/-- Holes with different keys are filled in order when each looks up its key. -/
theorem agrees_lookup {κ : Type} [BEq κ] [LawfulBEq κ] (key : σ → κ) {ss : List σ} (back : List κ) {vs : List ν}
    (h : (ss.map key).Nodup) : Agrees (fun s => ((ss.map key ++ back).zip vs).lookup (key s)) ss vs := by
  induction ss generalizing vs with
  | nil => trivial
  | cons s ss ih =>
      obtain ⟨hnot, hnodup⟩ := List.nodup_cons.mp h
      cases vs with
      | nil => trivial
      | cons v vs =>
          refine ⟨List.lookup_cons_self, (ih hnodup).congr fun s' hs' => ?_⟩
          have hne : key s' ≠ key s := fun heq => hnot (heq ▸ List.mem_map_of_mem hs')
          rw [List.map_cons, List.cons_append, List.zip_cons_cons, List.lookup_cons, beq_false_of_ne hne]

theorem Fits.exists_value {accepts : σ → ν → Prop} {f : σ → Option ν} {ss : List σ} {vs : List ν}
    (h : Fits accepts ss vs) (hagrees : Agrees f ss vs) : ∀ s ∈ ss, ∃ v ∈ vs, f s = some v ∧ accepts s v := by
  induction ss generalizing vs with
  | nil => exact List.forall_mem_nil _
  | cons s ss ih =>
      cases vs with
      | nil => exact h.elim
      | cons v vs =>
          refine List.forall_mem_cons.mpr ⟨⟨v, List.mem_cons_self, hagrees.1, h.1⟩, fun s' hs' => ?_⟩
          obtain ⟨v', hv', hf⟩ := ih h.2 hagrees.2 s' hs'
          exact ⟨v', List.mem_cons_of_mem _ hv', hf⟩

/-- The laws at one structure; `clean` values have no holes. -/
structure LawfulAt (accepts : σ → ν → Prop) (clean : ν → Prop) (T : Traversal σ ν X) (x : X) : Prop where
  bind_eq : ∀ {f vs}, T.reach x → Fits accepts (T.sites x) vs → Agrees f (T.sites x) vs →
    T.bind x vs = (T.fill f x, vs.drop (T.sites x).length)
  of_bind : ∀ {vs}, T.sites (T.bind x vs).1 = [] →
    T.reach x ∧ Fits accepts (T.sites x) vs ∧ (T.bind x vs).2 = vs.drop (T.sites x).length
  of_fill : ∀ {f}, T.sites (T.fill f x) = [] → ∀ s ∈ T.sites x, (f s).isSome
  fill_clean : ∀ {f}, (∀ s ∈ T.sites x, ∃ v, f s = some v ∧ accepts s v ∧ clean v) → T.sites (T.fill f x) = []
  fill_self : T.sites x = [] → T.reach x ∧ ∀ f, T.fill f x = x

section

variable {accepts : σ → ν → Prop} {clean : ν → Prop}

/-- One structure around another that has all its holes. -/
theorem LawfulAt.wrap {T : Traversal σ ν X} {T' : Traversal σ ν Y} {y : Y} (h : LawfulAt accepts clean T' y)
    (mk : Y → X) (hsites : ∀ y, T.sites (mk y) = T'.sites y) (hfill : ∀ f, T.fill f (mk y) = mk (T'.fill f y))
    (hbind : ∀ vs, T.bind (mk y) vs = (mk (T'.bind y vs).1, (T'.bind y vs).2))
    (hreach : T.reach (mk y) ↔ T'.reach y) : LawfulAt accepts clean T (mk y) where
  bind_eq hr hfits hagrees := by
    rw [hsites] at hfits hagrees ⊢
    rw [hbind, hfill, h.bind_eq (hreach.mp hr) hfits hagrees]
  of_bind hempty := by
    rw [hbind, hsites] at hempty
    rw [hbind, hsites, hreach]
    exact h.of_bind hempty
  of_fill hempty := by
    rw [hfill, hsites] at hempty
    rw [hsites]
    exact h.of_fill hempty
  fill_clean hclean := by
    rw [hsites] at hclean
    rw [hfill, hsites]
    exact h.fill_clean hclean
  fill_self hempty := by
    rw [hsites] at hempty
    obtain ⟨hr, hself⟩ := h.fill_self hempty
    exact ⟨hreach.mpr hr, fun f => by rw [hfill, hself]⟩

/-- A part of a structure with all its holes. -/
def Traversal.within (T : Traversal σ ν Y) (get : X → Y) (set : X → Y → X) : Traversal σ ν X where
  sites x := T.sites (get x)
  fill f x := set x (T.fill f (get x))
  bind x vs := (set x (T.bind (get x) vs).1, (T.bind (get x) vs).2)
  reach x := T.reach (get x)

theorem LawfulAt.within {T : Traversal σ ν Y} {x : X} {get : X → Y} {set : X → Y → X}
    (hget : ∀ x y, get (set x y) = y) (hset : ∀ x, set x (get x) = x) (h : LawfulAt accepts clean T (get x)) :
    LawfulAt accepts clean (T.within get set) x where
  bind_eq hr hfits hagrees := by
    simp only [Traversal.within, h.bind_eq hr hfits hagrees]
  of_bind hempty := by
    simp only [Traversal.within, hget] at hempty
    exact h.of_bind hempty
  of_fill hempty := by
    simp only [Traversal.within, hget] at hempty
    exact h.of_fill hempty
  fill_clean hclean := by
    simp only [Traversal.within, hget]
    exact h.fill_clean hclean
  fill_self hempty := by
    obtain ⟨hr, hself⟩ := h.fill_self hempty
    refine ⟨hr, fun f => ?_⟩
    simp only [Traversal.within, hself, hset]

/-- A structure without holes. -/
theorem LawfulAt.of_none {T : Traversal σ ν X} {x : X} (hsites : T.sites x = []) (hfill : ∀ f, T.fill f x = x)
    (hbind : ∀ vs, T.bind x vs = (x, vs)) (hreach : T.reach x) : LawfulAt accepts clean T x where
  bind_eq _ _ _ := by
    rw [hbind, hfill, hsites]
    rfl
  of_bind _ := by
    rw [hbind, hsites]
    exact ⟨hreach, trivial, rfl⟩
  of_fill _ := by
    rw [hsites]
    exact List.forall_mem_nil _
  fill_clean _ := by rw [hfill, hsites]
  fill_self _ := ⟨hreach, hfill⟩

/-- The same holes, which the pass does not visit. -/
def Traversal.hidden (T : Traversal σ ν X) : Traversal σ ν X where
  sites := T.sites
  fill := T.fill
  bind x vs := (x, vs)
  reach x := T.sites x = []

theorem LawfulAt.hidden {T : Traversal σ ν X} {x : X} (h : LawfulAt accepts clean T x) :
    LawfulAt accepts clean T.hidden x where
  bind_eq hr _ _ := by
    change (x, _) = (T.fill _ x, _)
    rw [(h.fill_self hr).2, show T.hidden.sites x = [] from hr]
    rfl
  of_bind hempty := by
    change T.sites x = [] at hempty
    change T.sites x = [] ∧ Fits accepts (T.sites x) _ ∧ _ = List.drop (T.sites x).length _
    rw [hempty]
    exact ⟨rfl, trivial, rfl⟩
  of_fill := h.of_fill
  fill_clean := h.fill_clean
  fill_self hempty := ⟨hempty, (h.fill_self hempty).2⟩

/-- One structure and then another. -/
def Traversal.prod (T : Traversal σ ν X) (T' : Traversal σ ν Y) : Traversal σ ν (X × Y) where
  sites x := T.sites x.1 ++ T'.sites x.2
  fill f x := (T.fill f x.1, T'.fill f x.2)
  bind x vs := (((T.bind x.1 vs).1, (T'.bind x.2 (T.bind x.1 vs).2).1), (T'.bind x.2 (T.bind x.1 vs).2).2)
  reach x := T.reach x.1 ∧ T'.reach x.2

theorem LawfulAt.prod {T : Traversal σ ν X} {T' : Traversal σ ν Y} {x : X × Y}
    (h : LawfulAt accepts clean T x.1) (h' : LawfulAt accepts clean T' x.2) :
    LawfulAt accepts clean (T.prod T') x where
  bind_eq {f vs} hr hfits hagrees := by
    obtain ⟨hfits, hfits'⟩ := fits_append.mp hfits
    obtain ⟨hagrees, hagrees'⟩ := agrees_append.mp hagrees
    have hfront := h.bind_eq hr.1 hfits hagrees
    have hback := h'.bind_eq hr.2 hfits' hagrees'
    simp only [Traversal.prod, hfront, hback, List.drop_drop, List.length_append]
  of_bind {vs} hempty := by
    obtain ⟨hfront, hback⟩ := List.append_eq_nil_iff.mp hempty
    obtain ⟨hr, hfits, hrest⟩ := h.of_bind hfront
    have hback' := h'.of_bind hback
    rw [hrest] at hback'
    obtain ⟨hr', hfits', hrest'⟩ := hback'
    refine ⟨⟨hr, hr'⟩, fits_append.mpr ⟨hfits, hfits'⟩, ?_⟩
    simp only [Traversal.prod, hrest, hrest', List.drop_drop, List.length_append]
  of_fill hempty := by
    obtain ⟨hfront, hback⟩ := List.append_eq_nil_iff.mp hempty
    intro s hs
    rcases List.mem_append.mp hs with hs | hs
    · exact h.of_fill hfront s hs
    · exact h'.of_fill hback s hs
  fill_clean hclean := by
    have hfront := h.fill_clean fun s hs => hclean s (List.mem_append_left _ hs)
    have hback := h'.fill_clean fun s hs => hclean s (List.mem_append_right _ hs)
    exact List.append_eq_nil_iff.mpr ⟨hfront, hback⟩
  fill_self hempty := by
    obtain ⟨hfront, hback⟩ := List.append_eq_nil_iff.mp hempty
    obtain ⟨hr, hself⟩ := h.fill_self hfront
    obtain ⟨hr', hself'⟩ := h'.fill_self hback
    exact ⟨⟨hr, hr'⟩, fun f => Prod.ext (hself f) (hself' f)⟩

def Traversal.list (T : Traversal σ ν X) : Traversal σ ν (List X) where
  sites xs := xs.flatMap T.sites
  fill f xs := xs.map (T.fill f)
  bind := bindEach T.bind
  reach xs := ∀ x ∈ xs, T.reach x

theorem Traversal.sites_cons (T : Traversal σ ν X) (x : X) (xs : List X) :
    T.list.sites (x :: xs) = T.sites x ++ T.list.sites xs := List.flatMap_cons

theorem Traversal.reach_cons (T : Traversal σ ν X) (x : X) (xs : List X) :
    T.list.reach (x :: xs) ↔ T.reach x ∧ T.list.reach xs := List.forall_mem_cons

theorem LawfulAt.list {T : Traversal σ ν X} {xs : List X} (h : ∀ x ∈ xs, LawfulAt accepts clean T x) :
    LawfulAt accepts clean T.list xs := by
  induction xs with
  | nil => exact LawfulAt.of_none rfl (fun _ => rfl) (fun _ => rfl) (List.forall_mem_nil _)
  | cons x xs ih =>
      obtain ⟨hx, hxs⟩ := List.forall_mem_cons.mp h
      have hprod : LawfulAt accepts clean (T.prod T.list) (x, xs) := LawfulAt.prod hx (ih hxs)
      refine hprod.wrap (fun y => y.1 :: y.2) (fun _ => ?_) (fun _ => rfl) (fun _ => rfl) ?_
      · exact T.sites_cons _ _
      · exact T.reach_cons x xs

def Traversal.option (T : Traversal σ ν X) : Traversal σ ν (Option X) where
  sites x := (x.map T.sites).getD []
  fill f x := x.map (T.fill f)
  bind x vs := match x with
    | none => (none, vs)
    | some x => (some (T.bind x vs).1, (T.bind x vs).2)
  reach x := ∀ y ∈ x, T.reach y

theorem LawfulAt.option {T : Traversal σ ν X} {x : Option X} (h : ∀ y ∈ x, LawfulAt accepts clean T y) :
    LawfulAt accepts clean T.option x := by
  cases x with
  | none => exact LawfulAt.of_none rfl (fun _ => rfl) (fun _ => rfl) (by simp [Traversal.option])
  | some x =>
      refine (h x rfl).wrap some (fun _ => rfl) (fun _ => rfl) (fun _ => rfl) ?_
      exact ⟨fun hr => hr x rfl, fun hr y hy => Option.some.inj hy ▸ hr⟩

end

end Plexdb.Holes
