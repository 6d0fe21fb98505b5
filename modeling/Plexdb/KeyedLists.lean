import Mathlib

/-! Lists of keys and of entries under an equality of keys that is symmetric and transitive, as the equality of
floats is: a key need not be equal to itself. No two keys of a list are equal. -/

namespace Plexdb.Keyed

variable {α β : Type} {r : α → α → Bool} {P : α → Prop}

/-- A partial equivalence on the keys with a property. -/
structure Equates (r : α → α → Bool) (P : α → Prop) : Prop where
  symm : ∀ {a b}, P a → P b → r a b = true → r b a = true
  trans : ∀ {a b c}, P a → P b → P c → r a b = true → r b c = true → r a c = true

theorem Equates.mono {Q : α → Prop} (h : Equates r P) (himp : ∀ a, Q a → P a) : Equates r Q where
  symm ha hb := h.symm (himp _ ha) (himp _ hb)
  trans ha hb hc := h.trans (himp _ ha) (himp _ hb) (himp _ hc)

theorem Equates.comm (h : Equates r P) {a b : α} (ha : P a) (hb : P b) : r a b = r b a :=
  Bool.eq_iff_iff.mpr ⟨h.symm ha hb, h.symm hb ha⟩

/-- Two equal keys are equal to the same keys. -/
theorem Equates.congr_left (h : Equates r P) {a b c : α} (ha : P a) (hb : P b) (hc : P c) (hab : r a b = true) :
    r a c = r b c :=
  Bool.eq_iff_iff.mpr ⟨h.trans hb ha hc (h.symm ha hb hab), h.trans ha hb hc hab⟩

/-! ### Entries, whose keys are different -/

section

variable {γ : Type} {f : γ → α} {l : List γ}

/-- At most one entry is found under a key. -/
theorem Equates.unique (h : Equates r P) (hP : ∀ e ∈ l, P (f e)) (hdistinct : l.Pairwise fun a b => r (f a) (f b) = false)
    {a b : γ} (ha : a ∈ l) (hb : b ∈ l) {k : α} (hk : P k) (hak : r (f a) k = true) (hbk : r (f b) k = true) : a = b := by
  by_contra hne
  have hboth : l.Pairwise fun a b => r (f a) (f b) = false ∨ r (f b) (f a) = false := hdistinct.imp Or.inl
  have : Std.Symm fun a b => r (f a) (f b) = false ∨ r (f b) (f a) = false := ⟨fun _ _ => Or.symm⟩
  have hab := h.trans (hP a ha) hk (hP b hb) hak (h.symm (hP b hb) hk hbk)
  have hba := h.symm (hP a ha) (hP b hb) hab
  rcases hboth.forall ha hb hne with hfalse | hfalse
  · rw [hab] at hfalse
    cases hfalse
  · rw [hba] at hfalse
    cases hfalse

theorem mem_of_find? {k : α} {e : γ} (h : l.find? (fun e => r (f e) k) = some e) : e ∈ l ∧ r (f e) k = true :=
  ⟨List.mem_of_find?_eq_some h, @List.find?_some γ (fun e => r (f e) k) e l h⟩

theorem Equates.find?_eq_some_iff (h : Equates r P) (hP : ∀ e ∈ l, P (f e))
    (hdistinct : l.Pairwise fun a b => r (f a) (f b) = false) {k : α} (hk : P k) {e : γ} :
    l.find? (fun e => r (f e) k) = some e ↔ e ∈ l ∧ r (f e) k = true := by
  refine ⟨mem_of_find?, ?_⟩
  rintro ⟨he, hek⟩
  have hsome : (l.find? fun e => r (f e) k).isSome := List.find?_isSome.mpr ⟨e, he, hek⟩
  obtain ⟨e', hfind⟩ := Option.isSome_iff_exists.mp hsome
  obtain ⟨he', hek'⟩ := mem_of_find? hfind
  rw [hfind, h.unique hP hdistinct he' he hk hek' hek]

end

/-! ### Lists with the same keys -/

/-- Different keys that each have an equal one in a list have these at different places. -/
theorem exists_subperm {as bs : List α}
    (hsame : ∀ a ∈ as, ∀ b ∈ bs, ∀ a' ∈ as, r b a = true → r b a' = true → r a a' = true)
    (hdistinct : as.Pairwise fun a a' => r a a' = false) (h : ∀ a ∈ as, ∃ b ∈ bs, r b a = true) :
    ∃ cs, cs.Subperm bs ∧ List.Forall₂ (fun a b => r b a = true) as cs := by
  induction as generalizing bs with
  | nil => exact ⟨[], List.nil_subperm, .nil⟩
  | cons a as ih =>
      obtain ⟨b, hb, hba⟩ := h a List.mem_cons_self
      obtain ⟨pre, post, rfl⟩ := List.append_of_mem hb
      obtain ⟨ha, hrest⟩ := List.pairwise_cons.mp hdistinct
      have hmem : ∀ x ∈ pre ++ post, x ∈ pre ++ b :: post := fun x hx => by
        rcases List.mem_append.mp hx with hx | hx
        · exact List.mem_append_left _ hx
        · exact List.mem_append_right _ (List.mem_cons_of_mem b hx)
      -- the partner of the first key is nobody else's, as the other keys differ from it
      have hpartner : ∀ a' ∈ as, ∃ x ∈ pre ++ post, r x a' = true := by
        intro a' ha'
        obtain ⟨x, hx, hxa⟩ := h a' (List.mem_cons_of_mem a ha')
        rcases List.mem_append.mp hx with hx | hx
        · exact ⟨x, List.mem_append_left _ hx, hxa⟩
        · rcases List.mem_cons.mp hx with rfl | hx
          · have haa := hsame a List.mem_cons_self x hb a' (List.mem_cons_of_mem a ha') hba hxa
            rw [ha a' ha'] at haa
            cases haa
          · exact ⟨x, List.mem_append_right _ hx, hxa⟩
      obtain ⟨cs, hsub, hpairs⟩ := ih
        (fun x hx y hy z hz => hsame x (List.mem_cons_of_mem a hx) y (hmem y hy) z (List.mem_cons_of_mem a hz))
        hrest hpartner
      exact ⟨b :: cs, (List.subperm_cons b |>.mpr hsub).trans List.perm_middle.symm.subperm, .cons hba hpairs⟩

/-- Different keys that each have an equal one among as many are these keys in another order. -/
theorem exists_perm {as bs : List α} (hlen : as.length = bs.length)
    (hsame : ∀ a ∈ as, ∀ b ∈ bs, ∀ a' ∈ as, r b a = true → r b a' = true → r a a' = true)
    (hdistinct : as.Pairwise fun a a' => r a a' = false) (h : ∀ a ∈ as, ∃ b ∈ bs, r b a = true) :
    ∃ cs, cs.Perm bs ∧ List.Forall₂ (fun a b => r b a = true) as cs := by
  obtain ⟨cs, hsub, hpairs⟩ := exists_subperm hsame hdistinct h
  refine ⟨cs, hsub.perm_of_length_le ?_, hpairs⟩
  rw [← hlen, hpairs.length_eq]

theorem exists_mem_left {β : Type} {R : α → β → Prop} {as : List α} {bs : List β} (h : List.Forall₂ R as bs) :
    ∀ b ∈ bs, ∃ a ∈ as, R a b := by
  induction h with
  | nil => exact fun b hb => absurd hb List.not_mem_nil
  | cons hab _ ih =>
      intro b hb
      rcases List.mem_cons.mp hb with rfl | hb
      · exact ⟨_, List.mem_cons_self, hab⟩
      · obtain ⟨a, ha, hR⟩ := ih b hb
        exact ⟨a, List.mem_cons_of_mem _ ha, hR⟩

/-- When each of finitely many different keys has an equal one among as many, all of these are taken. -/
theorem exists_partner {as bs : List α} (hlen : as.length = bs.length)
    (hsymm : ∀ a ∈ as, ∀ b ∈ bs, r b a = true → r a b = true)
    (htrans : ∀ a ∈ as, ∀ b ∈ bs, ∀ a' ∈ as, r a b = true → r b a' = true → r a a' = true)
    (hdistinct : as.Pairwise fun a a' => r a a' = false) (h : ∀ a ∈ as, ∃ b ∈ bs, r b a = true) :
    ∀ b ∈ bs, ∃ a ∈ as, r a b = true := by
  obtain ⟨cs, hperm, hpairs⟩ := exists_perm hlen
    (fun a ha b hb a' ha' hba => htrans a ha b hb a' ha' (hsymm a ha b hb hba)) hdistinct h
  intro b hb
  obtain ⟨a, ha, hba⟩ := exists_mem_left hpairs b (hperm.mem_iff.mpr hb)
  exact ⟨a, ha, hsymm a ha b hb hba⟩

/-! ### Sets -/

def union (r : α → α → Bool) (as bs : List α) : List α := as ++ bs.filter fun b => !as.any (r · b)

def diff (r : α → α → Bool) (as bs : List α) : List α := as.filter fun a => !bs.any (r · a)

def erase (r : α → α → Bool) (as : List α) (b : α) : List α := as.filter fun a => !r a b

/-- A key is kept when an equal one is there. -/
def add (r : α → α → Bool) (as : List α) (b : α) : List α := if as.any (r · b) then as else as ++ [b]

theorem foldl_add {as bs : List α} (hdistinct : bs.Pairwise fun a b => r a b = false) :
    bs.foldl (add r) as = union r as bs := by
  induction bs generalizing as with
  | nil => rw [List.foldl_nil, union, List.filter_nil, List.append_nil]
  | cons b bs ih =>
      obtain ⟨hhead, htail⟩ := List.pairwise_cons.mp hdistinct
      rw [List.foldl_cons, ih htail, union, union, add, List.filter_cons]
      cases hany : as.any (r · b) with
      | true => rfl
      | false =>
          rw [if_neg Bool.false_ne_true, Bool.not_false, if_pos rfl, List.append_assoc]
          refine congrArg (fun l => as ++ b :: l) (List.filter_congr fun c hc => ?_)
          rw [List.any_append, List.any_cons, List.any_nil, hhead c hc, Bool.or_false, Bool.or_false]

theorem foldl_add_nil {as : List α} (hdistinct : as.Pairwise fun a b => r a b = false) : as.foldl (add r) [] = as := by
  rw [foldl_add hdistinct, union, List.nil_append]
  exact List.filter_eq_self.mpr fun a _ => rfl

theorem mem_union {as bs : List α} {a : α} (h : a ∈ union r as bs) : a ∈ as ∨ a ∈ bs :=
  (List.mem_append.mp h).imp_right List.mem_of_mem_filter

/-! ### Maps -/

def lookup (r : α → α → Bool) (es : List (α × β)) (key : α) : Option β := (es.find? fun e => r e.1 key).map Prod.snd

/-- The entries of `fs` over those of `es`. -/
def override (r : α → α → Bool) (es fs : List (α × β)) : List (α × β) :=
  es.map (fun e => (e.1, (lookup r fs e.1).getD e.2)) ++ fs.filter fun f => !es.any fun e => r e.1 f.1

def eraseKeys (r : α → α → Bool) (es : List (α × β)) (keys : List α) : List (α × β) :=
  es.filter fun e => !keys.any fun key => r e.1 key

/-- The value of the first equal key is replaced. -/
def insert (r : α → α → Bool) : List (α × β) → α → β → List (α × β)
  | [], key, value => [(key, value)]
  | e :: es, key, value => if r e.1 key then (e.1, value) :: es else e :: insert r es key value

section

variable {es fs : List (α × β)} {key : α} {value : β}

theorem insert_of_absent (h : ∀ e ∈ es, r e.1 key = false) : insert r es key value = es ++ [(key, value)] := by
  induction es with
  | nil => rfl
  | cons e es ih =>
      obtain ⟨he, hes⟩ := List.forall_mem_cons.mp h
      rw [insert, he, if_neg Bool.false_ne_true, ih hes, List.cons_append]

theorem insert_of_mem (h : Equates r P) (hes : ∀ e ∈ es, P e.1) (hdistinct : es.Pairwise fun a b => r a.1 b.1 = false)
    (hkey : P key) (hmem : ∃ e ∈ es, r e.1 key = true) :
    insert r es key value = es.map fun e => if r e.1 key then (e.1, value) else e := by
  induction es with
  | nil =>
      obtain ⟨e, he, -⟩ := hmem
      exact absurd he List.not_mem_nil
  | cons e es ih =>
      obtain ⟨he, hrest⟩ := List.forall_mem_cons.mp hes
      obtain ⟨hhead, htail⟩ := List.pairwise_cons.mp hdistinct
      rw [insert, List.map_cons]
      by_cases hek : r e.1 key = true
      · rw [if_pos hek, if_pos hek]
        have hsame : es.map (fun a => if r a.1 key then (a.1, value) else a) = es.map id := by
          refine List.map_congr_left fun a ha => if_neg fun hak => ?_
          have hea := h.trans he hkey (hrest a ha) hek (h.symm (hrest a ha) hkey hak)
          rw [hhead a ha] at hea
          cases hea
        rw [hsame, List.map_id]
      · rw [if_neg hek, if_neg hek, ih hrest htail]
        obtain ⟨a, ha, hak⟩ := hmem
        rcases List.mem_cons.mp ha with rfl | ha
        · exact absurd hak hek
        · exact ⟨a, ha, hak⟩

theorem lookup_cons (e : α × β) : lookup r (e :: es) key = if r e.1 key then some e.2 else lookup r es key := by
  rw [lookup, List.find?_cons]
  cases r e.1 key <;> rfl

theorem lookup_eq_none (h : ∀ e ∈ es, r e.1 key = false) : lookup r es key = none := by
  rw [lookup, Option.map_eq_none_iff, List.find?_eq_none]
  intro e he
  rw [h e he]
  exact Bool.false_ne_true

theorem any_map_key {g : α × β → α × β} (hg : ∀ e, (g e).1 = e.1) :
    ((es.map g).any fun e => r e.1 key) = es.any fun e => r e.1 key := by
  rw [List.any_map]
  exact congrArg (es.any ·) (funext fun e => by rw [Function.comp_apply, hg])

theorem insert_cases (h : Equates r P) (hes : ∀ e ∈ es, P e.1) (hdistinct : es.Pairwise fun a b => r a.1 b.1 = false)
    (hkey : P key) :
    ((∃ e ∈ es, r e.1 key = true) ∧ insert r es key value = es.map fun e => if r e.1 key then (e.1, value) else e) ∨
      (∀ e ∈ es, r e.1 key = false) ∧ insert r es key value = es ++ [(key, value)] := by
  by_cases hmem : ∃ e ∈ es, r e.1 key = true
  · exact Or.inl ⟨hmem, insert_of_mem h hes hdistinct hkey hmem⟩
  · have hnew : ∀ e ∈ es, r e.1 key = false := fun e he =>
      Bool.eq_false_iff.mpr fun hek => hmem ⟨e, he, hek⟩
    exact Or.inr ⟨hnew, insert_of_absent hnew⟩

/-- Entries inserted one after the other stand over the ones before. -/
theorem foldl_insert (h : Equates r P) (hes : ∀ e ∈ es, P e.1) (hdistinct : es.Pairwise fun a b => r a.1 b.1 = false)
    (hfs : ∀ f ∈ fs, P f.1) (hdistinct' : fs.Pairwise fun a b => r a.1 b.1 = false) :
    fs.foldl (fun m f => insert r m f.1 f.2) es = override r es fs := by
  induction fs generalizing es with
  | nil =>
      rw [List.foldl_nil, override, List.filter_nil, List.append_nil]
      exact (List.map_id es).symm
  | cons f fs ih =>
      obtain ⟨hf, hrest⟩ := List.forall_mem_cons.mp hfs
      obtain ⟨hhead, htail⟩ := List.pairwise_cons.mp hdistinct'
      -- no later entry has the key of the first
      have hother : ∀ {k}, P k → r f.1 k = true → lookup r fs k = none := fun {k} hk hfk => by
        refine lookup_eq_none fun g hg => Bool.eq_false_iff.mpr fun hgk => ?_
        have hfg := h.trans hf hk (hrest g hg) hfk (h.symm (hrest g hg) hk hgk)
        rw [hhead g hg] at hfg
        cases hfg
      rw [List.foldl_cons]
      have hcases : ((∃ e ∈ es, r e.1 f.1 = true) ∧
          insert r es f.1 f.2 = es.map fun e => if r e.1 f.1 then (e.1, f.2) else e) ∨
          (∀ e ∈ es, r e.1 f.1 = false) ∧ insert r es f.1 f.2 = es ++ [(f.1, f.2)] :=
        insert_cases h hes hdistinct hf
      rcases hcases with ⟨⟨e, he, hef⟩, hinsert⟩ | ⟨hnew, hinsert⟩
      · have hkeys : ∀ a : α × β, (if r a.1 f.1 then (a.1, f.2) else a).1 = a.1 := fun a => by split <;> rfl
        rw [hinsert, ih]
        · rw [override, override, List.map_map, List.filter_cons, if_neg]
          · congr 1
            · refine List.map_congr_left fun a ha => Prod.ext (hkeys a) ?_
              simp only [Function.comp_apply, hkeys, lookup_cons, h.comm hf (hes a ha)]
              by_cases haf : r a.1 f.1 = true
              · rw [if_pos haf, if_pos haf, hother (hes a ha) (h.symm (hes a ha) hf haf)]
                rfl
              · rw [if_neg haf, if_neg haf]
            · refine List.filter_congr fun g _ => ?_
              rw [any_map_key hkeys]
          · rw [Bool.not_eq_true', Bool.not_eq_false]
            exact List.any_eq_true.mpr ⟨e, he, hef⟩
        · refine List.forall_mem_map.mpr fun a ha => ?_
          rw [hkeys]
          exact hes a ha
        · refine List.pairwise_map.mpr (hdistinct.imp fun hab => ?_)
          rw [hkeys, hkeys]
          exact hab
        · exact hrest
        · exact htail
      · rw [hinsert, ih]
        · have hself : lookup r fs f.1 = none :=
            lookup_eq_none fun g hg => h.comm (hrest g hg) hf ▸ hhead g hg
          have hfirst : (es.any fun e => r e.1 f.1) = false := List.any_eq_false.mpr fun a ha => by
            rw [hnew a ha]
            exact Bool.false_ne_true
          rw [override, override, List.map_append, List.map_singleton, hself, List.filter_cons, hfirst, Bool.not_false,
            if_pos rfl, List.append_assoc]
          congr 1
          · refine List.map_congr_left fun a ha => ?_
            rw [lookup_cons, h.comm hf (hes a ha), hnew a ha, if_neg Bool.false_ne_true]
          · refine congrArg (f :: ·) (List.filter_congr fun g hg => ?_)
            rw [List.any_append, List.any_cons, List.any_nil, Bool.or_false, hhead g hg, Bool.or_false]
        · exact List.forall_mem_append.mpr ⟨hes, by simpa using hf⟩
        · refine List.pairwise_append.mpr ⟨hdistinct, List.pairwise_singleton _ _, fun a ha b hb => ?_⟩
          rw [List.mem_singleton.mp hb]
          exact hnew a ha
        · exact hrest
        · exact htail

theorem eraseP_eq (h : Equates r P) (hes : ∀ e ∈ es, P e.1) (hdistinct : es.Pairwise fun a b => r a.1 b.1 = false)
    (hkey : P key) : es.eraseP (fun e => r e.1 key) = es.filter fun e => !r e.1 key := by
  induction es with
  | nil => rfl
  | cons e es ih =>
      obtain ⟨he, hrest⟩ := List.forall_mem_cons.mp hes
      obtain ⟨hhead, htail⟩ := List.pairwise_cons.mp hdistinct
      rw [List.eraseP_cons, List.filter_cons]
      cases hek : r e.1 key with
      | true =>
          refine (List.filter_eq_self.mpr fun a ha => ?_).symm
          rw [Bool.not_eq_true']
          refine Bool.eq_false_iff.mpr fun hak => ?_
          have hea := h.trans he hkey (hrest a ha) hek (h.symm (hrest a ha) hkey hak)
          rw [hhead a ha] at hea
          cases hea
      | false => exact congrArg (e :: ·) (ih hrest htail)

/-- Keys removed one after the other. -/
theorem foldl_eraseP {keys : List α} (h : Equates r P) (hes : ∀ e ∈ es, P e.1)
    (hdistinct : es.Pairwise fun a b => r a.1 b.1 = false) (hkeys : ∀ k ∈ keys, P k) :
    keys.foldl (fun m k => m.eraseP fun e => r e.1 k) es = eraseKeys r es keys := by
  induction keys generalizing es with
  | nil => exact (List.filter_eq_self.mpr fun a _ => rfl).symm
  | cons k keys ih =>
      obtain ⟨hk, hrest⟩ := List.forall_mem_cons.mp hkeys
      rw [List.foldl_cons, eraseP_eq h hes hdistinct hk, ih (fun e he => hes e (List.mem_of_mem_filter he))
        (hdistinct.filter _) hrest, eraseKeys, eraseKeys, List.filter_filter]
      refine List.filter_congr fun e _ => ?_
      rw [List.any_cons, Bool.not_or, Bool.and_comm]

end

end Plexdb.Keyed
