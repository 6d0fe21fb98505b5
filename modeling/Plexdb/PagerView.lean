import Plexdb.Pager

/-! What a page reads as, wherever it lives, and what each page operation does to it. -/

namespace Plexdb

open Pager

variable {W : Nat}

namespace Pager

/-! ### Issued operations -/

theorem issueAll_files (p : Pager W) (ops : List (IoOp W)) :
    p.issueAll ops =
      { p with files := ops.foldl IoOp.apply p.files, issued := p.issued ++ ops } := by
  induction ops generalizing p with
  | nil => simp [issueAll]
  | cons op ops ih =>
      have := ih (p.issue op)
      rw [issueAll, List.foldl_cons]
      rw [issueAll] at this
      rw [this]
      simp [issue]

theorem foldl_walOps (f : Files W) (ops : List (WalOp W)) :
    (ops.map IoOp.wal).foldl IoOp.apply f = { f with wal := ops.foldl WalOp.apply f.wal } := by
  induction ops generalizing f with
  | nil => rfl
  | cons op ops ih => exact ih (IoOp.apply f (.wal op))

theorem foldl_mainOps (f : Files W) (ops : List (MainOp W)) :
    (ops.map IoOp.main).foldl IoOp.apply f = { f with main := ops.foldl MainOp.apply f.main } := by
  induction ops generalizing f with
  | nil => rfl
  | cons op ops ih => exact ih (IoOp.apply f (.main op))

/-! ### The content of a page -/

/-- The page as the running transaction reads it. -/
def content (p : Pager W) (idx : Nat) : Option (Page W) :=
  match p.pageCache.lookup idx with
  | some entry => some entry.data
  | none => p.load idx

theorem content_of_cached {p : Pager W} {idx : Nat} {entry : PageCacheEntry W}
    (h : p.pageCache.lookup idx = some entry) : p.content idx = some entry.data := by
  rw [content, h]

theorem content_of_not_cached {p : Pager W} {idx : Nat} (h : p.pageCache.lookup idx = none) :
    p.content idx = p.load idx := by
  rw [content, h]

theorem lookup_insertCache (p : Pager W) (idx : Nat) (data : Page W) (dirty : Bool) (i : Nat) :
    (p.insertCache idx data dirty).pageCache.lookup i =
      if i = idx then some ⟨data, dirty⟩ else p.pageCache.lookup i := by
  split
  · rename_i h
    rw [h]
    exact AList.lookup_insert _
  · rename_i h
    exact AList.lookup_insert_ne h

@[simp] theorem load_insertCache (p : Pager W) (idx : Nat) (data : Page W) (dirty : Bool) (i : Nat) :
    (p.insertCache idx data dirty).load i = p.load i := rfl

theorem lookup_none_of_insertCache {p : Pager W} {idx i : Nat} {data : Page W} {dirty : Bool}
    (h : (p.insertCache idx data dirty).pageCache.lookup i = none) : p.pageCache.lookup i = none := by
  rw [lookup_insertCache] at h
  split at h
  · cases h
  · exact h

theorem insertCache_insertCache (p : Pager W) (idx : Nat) (data data' : Page W) (dirty dirty' : Bool) :
    (p.insertCache idx data dirty).insertCache idx data' dirty' = p.insertCache idx data' dirty' := by
  rw [insertCache, insertCache, insertCache, AList.insert_insert]

theorem content_insertCache (p : Pager W) (idx : Nat) (data : Page W) (dirty : Bool) (i : Nat) :
    (p.insertCache idx data dirty).content i = if i = idx then some data else p.content i := by
  by_cases h : i = idx
  · rw [content, lookup_insertCache, if_pos h, if_pos h]
  · rw [content, lookup_insertCache, if_neg h, if_neg h, content]
    rfl

/-- `p'` is `p` with more pages in the cache, each read as before; an entry is clean only if it was
so already, or is new and holds what is stored. -/
structure Touched (p p' : Pager W) : Prop where
  rest : p' = { p with pageCache := p'.pageCache }
  content_eq : ∀ i, p'.content i = p.content i
  clean : ∀ i entry, p'.pageCache.lookup i = some entry → entry.dirty = false →
    p.pageCache.lookup i = some entry ∨
      (p.pageCache.lookup i = none ∧ p.load i = some entry.data)
  kept : ∀ i, p'.pageCache.lookup i = none → p.pageCache.lookup i = none

theorem Touched.refl (p : Pager W) : Touched p p :=
  ⟨rfl, fun _ => rfl, fun _ _ h _ => .inl h, fun _ h => h⟩

theorem Touched.load_eq {p p' : Pager W} (h : Touched p p') (i : Nat) : p'.load i = p.load i := by
  rw [h.rest]
  rfl

theorem Touched.trans {p q r : Pager W} (hpq : Touched p q) (hqr : Touched q r) : Touched p r where
  rest := by
    rw [hqr.rest, hpq.rest]
  content_eq i := (hqr.content_eq i).trans (hpq.content_eq i)
  clean i entry hlookup hdirty := by
    rcases hqr.clean i entry hlookup hdirty with h | ⟨hnone, h⟩
    · exact hpq.clean i entry h hdirty
    · exact .inr ⟨hpq.kept i hnone, (hpq.load_eq i).symm.trans h⟩
  kept i h := hpq.kept i (hqr.kept i h)

theorem Touched.header_eq {p p' : Pager W} (h : Touched p p') : p'.header = p.header := by
  rw [h.rest]

theorem touched_insertCache {p : Pager W} {idx : Nat} {data : Page W} {dirty : Bool}
    (hcontent : p.content idx = some data) (hdirty : dirty = false → p.pageCache.lookup idx = none) :
    Touched p (p.insertCache idx data dirty) where
  rest := rfl
  content_eq i := by
    rw [content_insertCache]
    split
    · rename_i h
      rw [h, hcontent]
    · rfl
  clean i entry hlookup hclean := by
    rw [lookup_insertCache] at hlookup
    split at hlookup
    · rename_i h
      cases hlookup
      rw [h]
      exact .inr ⟨hdirty hclean, (content_of_not_cached (hdirty hclean)).symm.trans hcontent⟩
    · exact .inl hlookup
  kept i h := by
    rw [lookup_insertCache] at h
    split at h
    · cases h
    · exact h

theorem rpage_eq_some {p p' : Pager W} {idx : Nat} {data : Page W}
    (h : p.rpage idx = some (p', data)) :
    p.transactionActive = true ∧ p.InRange idx ∧ p.content idx = some data ∧ Touched p p' ∧
      (p'.pageCache.lookup idx).isSome := by
  rw [rpage] at h
  split at h
  · rename_i hactive
    cases hlookup : p.pageCache.lookup idx with
    | some entry =>
        rw [hlookup] at h
        cases h
        refine ⟨hactive.1, hactive.2, content_of_cached hlookup, .refl p, ?_⟩
        rw [hlookup]
        rfl
    | none =>
        rw [hlookup] at h
        obtain ⟨loaded, hload, h⟩ := Option.bind_eq_some_iff.mp h
        cases h
        have hcontent := (content_of_not_cached hlookup).trans hload
        refine ⟨hactive.1, hactive.2, hcontent, touched_insertCache hcontent fun _ => hlookup, ?_⟩
        rw [lookup_insertCache, if_pos rfl]
        rfl
  · cases h

theorem rwpage_eq_some {p p' : Pager W} {idx : Nat} {data : Page W}
    (h : p.rwpage idx = some (p', data)) :
    p.transactionActive = true ∧ p.InRange idx ∧ p.content idx = some data ∧
      p' = p.insertCache idx data true := by
  rw [rwpage] at h
  split at h
  · rename_i hactive
    cases hlookup : p.pageCache.lookup idx with
    | some entry =>
        rw [hlookup] at h
        cases h
        exact ⟨hactive.1, hactive.2, content_of_cached hlookup, rfl⟩
    | none =>
        rw [hlookup] at h
        obtain ⟨loaded, hload, h⟩ := Option.bind_eq_some_iff.mp h
        cases h
        exact ⟨hactive.1, hactive.2, (content_of_not_cached hlookup).trans hload, rfl⟩
  · cases h

theorem rwpage_of_content {p : Pager W} {idx : Nat} {data : Page W}
    (hactive : p.transactionActive = true) (hrange : p.InRange idx)
    (h : p.content idx = some data) : p.rwpage idx = some (p.insertCache idx data true, data) := by
  rw [rwpage, if_pos ⟨hactive, hrange⟩]
  cases hlookup : p.pageCache.lookup idx with
  | some entry =>
      rw [content_of_cached hlookup] at h
      cases h
      rfl
  | none =>
      rw [content_of_not_cached hlookup] at h
      simp [h]

theorem rpage_of_content {p : Pager W} {idx : Nat} {data : Page W}
    (hactive : p.transactionActive = true) (hrange : p.InRange idx)
    (h : p.content idx = some data) : ∃ p', p.rpage idx = some (p', data) := by
  rw [rpage, if_pos ⟨hactive, hrange⟩]
  cases hlookup : p.pageCache.lookup idx with
  | some entry =>
      rw [content_of_cached hlookup] at h
      cases h
      exact ⟨_, rfl⟩
  | none =>
      rw [content_of_not_cached hlookup] at h
      exact ⟨p.insertCache idx data false, by simp [h]⟩

theorem rwpage_touched {p p' : Pager W} {idx : Nat} {data : Page W}
    (h : p.rwpage idx = some (p', data)) : Touched p p' := by
  obtain ⟨-, -, hcontent, rfl⟩ := rwpage_eq_some h
  exact touched_insertCache hcontent nofun

theorem load_grow {p : Pager W} {i n : Nat} {data : Page W} (h : p.load i = some data) (hi : i < n) :
    (p.grow n).load i = some data := by
  have hframe : (p.grow n).frameOf i = p.frameOf i := rfl
  rw [load, hframe]
  rw [load] at h
  cases hf : p.frameOf i with
  | some frame =>
      rw [hf] at h
      exact h
  | none =>
      rw [hf] at h
      dsimp only at h ⊢
      change (p.files.main.resize n).readPage i = some data
      rw [MainFile.readPage_resize, if_pos hi, h]
      rfl

theorem content_grow {p : Pager W} {i n : Nat} {data : Page W} (h : p.content i = some data)
    (hi : i < n) : (p.grow n).content i = some data := by
  rw [content] at h ⊢
  change (match p.pageCache.lookup i with
    | some entry => some entry.data
    | none => (p.grow n).load i) = some data
  cases hlookup : p.pageCache.lookup i with
  | some entry =>
      rw [hlookup] at h
      exact h
  | none =>
      rw [hlookup] at h
      exact load_grow h hi

/-! ### Bitset pages -/

/-- The bitset page of group `g`. -/
def bitsetPage (W g : Nat) : Nat := g * stride W + 1

def IsBitset (W idx : Nat) : Prop := ∃ g, idx = bitsetPage W g

/-- The group of a page. -/
def groupOf (W idx : Nat) : Nat := (idx - 1) / stride W

theorem stride_pos (W : Nat) : 0 < stride W := Nat.succ_pos _

theorem bitsetPage_succ (W g : Nat) : bitsetPage W (g + 1) = bitsetPage W g + stride W := by
  rw [bitsetPage, bitsetPage, Nat.succ_mul]
  omega

theorem bitsetPage_lt_iff {g h : Nat} : bitsetPage W g < bitsetPage W h ↔ g < h := by
  rw [bitsetPage, bitsetPage, Nat.add_lt_add_iff_right, Nat.mul_lt_mul_right (stride_pos W)]

theorem groupOf_eq {g k : Nat} (hk : k < stride W) : groupOf W (bitsetPage W g + k) = g := by
  rw [groupOf, bitsetPage, show g * stride W + 1 + k - 1 = k + g * stride W by omega,
    Nat.add_mul_div_right _ _ (stride_pos W), Nat.div_eq_of_lt hk, Nat.zero_add]

/-- A page above the header is the bitset page of its group or one of the pages after it. -/
theorem exists_offset {idx : Nat} (h : 0 < idx) :
    ∃ k < stride W, idx = bitsetPage W (groupOf W idx) + k := by
  refine ⟨(idx - 1) % stride W, Nat.mod_lt _ (stride_pos W), ?_⟩
  have := Nat.div_add_mod' (idx - 1) (stride W)
  rw [groupOf, bitsetPage]
  omega

theorem isBitset_iff {g k : Nat} (hk : k < stride W) : IsBitset W (bitsetPage W g + k) ↔ k = 0 := by
  constructor
  · rintro ⟨g', h⟩
    have hg : g = g' := by
      have := congrArg (groupOf W) h
      rwa [groupOf_eq hk, ← Nat.add_zero (bitsetPage W g'), groupOf_eq (stride_pos W)] at this
    subst hg
    omega
  · rintro rfl
    exact ⟨g, rfl⟩

/-- The pages of a group that a bit stands for. -/
theorem not_isBitset_page {g j : Nat} (hj : j < 64 * W) : ¬ IsBitset W (bitsetPage W g + 1 + j) := by
  have hk : 1 + j < stride W := by
    rw [stride]
    omega
  rw [Nat.add_assoc, isBitset_iff hk]
  omega

theorem lt_bitsetCount_iff {p : Pager W} (hpos : 0 < p.header.pageCount) {g : Nat} :
    g < p.bitsetCount ↔ bitsetPage W g < p.header.pageCount := by
  have hstride : stride W = W * 64 + 1 := rfl
  rw [bitsetCount, Nat.lt_iff_add_one_le, Nat.le_div_iff_mul_le (stride_pos W), bitsetPage,
    Nat.succ_mul]
  omega

end Pager

end Plexdb
