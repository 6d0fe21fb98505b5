import Plexdb.ColumnTypes

/-! Column types as trees over the references they hold to user types. The parser refers to a user
type by text (`type::ast::Type`), the schema by pointer (`type::Type`), and a blob by name; the
trees are the same, and one set of traversals serves all three. -/

namespace Plexdb.Cql

/-- A column type whose leaves refer to user types by `ρ`. -/
inductive TypeTree (ρ : Type) where
  | basic (b : Basic)
  | list (element : TypeTree ρ) (frozen : Bool)
  | set (key : TypeTree ρ) (frozen : Bool)
  | map (key value : TypeTree ρ) (frozen : Bool)
  | vector (element : TypeTree ρ) (count : UInt64) (frozen : Bool)
  | tuple (elements : List (TypeTree ρ)) (frozen : Bool)
  | udt (ref : ρ)

namespace TypeTree

variable {ρ σ τ ε α : Type}

@[induction_eliminator]
theorem induct {P : TypeTree ρ → Prop} (basic : ∀ b, P (.basic b))
    (list : ∀ e frozen, P e → P (.list e frozen)) (set : ∀ k frozen, P k → P (.set k frozen))
    (map : ∀ k v frozen, P k → P v → P (.map k v frozen))
    (vector : ∀ e count frozen, P e → P (.vector e count frozen))
    (tuple : ∀ es frozen, (∀ e ∈ es, P e) → P (.tuple es frozen)) (udt : ∀ r, P (.udt r))
    (t : TypeTree ρ) : P t :=
  @TypeTree.rec ρ P (fun es => ∀ e ∈ es, P e) basic list set map vector tuple udt
    (List.forall_mem_nil _) (fun _ _ ht hts => List.forall_mem_cons.mpr ⟨ht, hts⟩) t

/-! ### Traversals -/

mutual

/-- The references of a type, from left to right. -/
def refs : TypeTree ρ → List ρ
  | .basic _ => []
  | .list e _ => e.refs
  | .set k _ => k.refs
  | .map k v _ => k.refs ++ v.refs
  | .vector e _ _ => e.refs
  | .tuple es _ => refsAll es
  | .udt r => [r]

def refsAll : List (TypeTree ρ) → List ρ
  | [] => []
  | t :: ts => t.refs ++ refsAll ts

end

mutual

/-- The same type over other references. -/
def rename (g : ρ → σ) : TypeTree ρ → TypeTree σ
  | .basic b => .basic b
  | .list e frozen => .list (e.rename g) frozen
  | .set k frozen => .set (k.rename g) frozen
  | .map k v frozen => .map (k.rename g) (v.rename g) frozen
  | .vector e count frozen => .vector (e.rename g) count frozen
  | .tuple es frozen => .tuple (renameAll g es) frozen
  | .udt r => .udt (g r)

def renameAll (g : ρ → σ) : List (TypeTree ρ) → List (TypeTree σ)
  | [] => []
  | t :: ts => t.rename g :: renameAll g ts

end

mutual

/-- Looks every reference up, from left to right, and stops at the first that is missing. -/
def resolve (find : ρ → Except ε σ) : TypeTree ρ → Except ε (TypeTree σ)
  | .basic b => .ok (.basic b)
  | .list e frozen => do
      let e ← e.resolve find
      .ok (.list e frozen)
  | .set k frozen => do
      let k ← k.resolve find
      .ok (.set k frozen)
  | .map k v frozen => do
      let k ← k.resolve find
      let v ← v.resolve find
      .ok (.map k v frozen)
  | .vector e count frozen => do
      let e ← e.resolve find
      .ok (.vector e count frozen)
  | .tuple es frozen => do
      let es ← resolveAll find es
      .ok (.tuple es frozen)
  | .udt r => do
      let r ← find r
      .ok (.udt r)

def resolveAll (find : ρ → Except ε σ) : List (TypeTree ρ) → Except ε (List (TypeTree σ))
  | [] => .ok []
  | t :: ts => do
      let t ← t.resolve find
      let ts ← resolveAll find ts
      .ok (t :: ts)

end

mutual

/-- Equality of types, references compared by their own equality. -/
def beq [DecidableEq ρ] : TypeTree ρ → TypeTree ρ → Bool
  | .basic a, .basic b => a = b
  | .list a f, .list b g => a.beq b && f == g
  | .set a f, .set b g => a.beq b && f == g
  | .map k v f, .map k' v' g => k.beq k' && v.beq v' && f == g
  | .vector a n f, .vector b m g => a.beq b && n == m && f == g
  | .tuple as f, .tuple bs g => f == g && beqAll as bs
  | .udt a, .udt b => a = b
  | _, _ => false

def beqAll [DecidableEq ρ] : List (TypeTree ρ) → List (TypeTree ρ) → Bool
  | [], [] => true
  | a :: as, b :: bs => a.beq b && beqAll as bs
  | _, _ => false

end

mutual

/-- The number of constructors, lists of elements counted along their length. -/
def size : TypeTree ρ → Nat
  | .basic _ => 1
  | .list e _ => e.size + 1
  | .set k _ => k.size + 1
  | .map k v _ => k.size + v.size + 1
  | .vector e _ _ => e.size + 1
  | .tuple es _ => sizeAll es + 1
  | .udt _ => 1

def sizeAll : List (TypeTree ρ) → Nat
  | [] => 0
  | t :: ts => t.size + sizeAll ts

end

mutual

/-- Every tuple has as many elements as an array can hold. -/
def Sized : TypeTree ρ → Prop
  | .basic _ => True
  | .list e _ => e.Sized
  | .set k _ => k.Sized
  | .map k v _ => k.Sized ∧ v.Sized
  | .vector e _ _ => e.Sized
  | .tuple es _ => es.length < 2 ^ 64 ∧ SizedAll es
  | .udt _ => True

def SizedAll : List (TypeTree ρ) → Prop
  | [] => True
  | t :: ts => t.Sized ∧ SizedAll ts

end

/-! ### Lists of types -/

@[simp] theorem refsAll_eq (ts : List (TypeTree ρ)) : refsAll ts = ts.flatMap refs := by
  induction ts with
  | nil => rfl
  | cons t ts ih => rw [refsAll, ih, List.flatMap_cons]

@[simp] theorem renameAll_eq (g : ρ → σ) (ts : List (TypeTree ρ)) :
    renameAll g ts = ts.map (rename g) := by
  induction ts with
  | nil => rfl
  | cons t ts ih => rw [renameAll, ih, List.map_cons]

@[simp] theorem sizedAll_iff (ts : List (TypeTree ρ)) : SizedAll ts ↔ ∀ t ∈ ts, t.Sized := by
  induction ts with
  | nil => simp [SizedAll]
  | cons t ts ih => rw [SizedAll, ih, List.forall_mem_cons]

theorem size_le_sizeAll {t : TypeTree ρ} {ts : List (TypeTree ρ)} (h : t ∈ ts) :
    t.size ≤ sizeAll ts := by
  induction ts with
  | nil => cases h
  | cons u ts ih =>
      rw [sizeAll]
      rcases List.mem_cons.mp h with rfl | h
      · omega
      · have := ih h
        omega

/-! ### Renaming -/

theorem rename_congr {g g' : ρ → σ} {t : TypeTree ρ} (h : ∀ r ∈ t.refs, g r = g' r) :
    t.rename g = t.rename g' := by
  induction t with
  | basic b => rfl
  | list e frozen ih => rw [rename, rename, ih h]
  | set k frozen ih => rw [rename, rename, ih h]
  | map k v frozen ihk ihv =>
      rw [refs] at h
      rw [rename, rename, ihk fun r hr => h r (List.mem_append_left _ hr),
        ihv fun r hr => h r (List.mem_append_right _ hr)]
  | vector e count frozen ih => rw [rename, rename, ih h]
  | tuple es frozen ih =>
      rw [refs, refsAll_eq] at h
      simp only [rename, renameAll_eq]
      rw [List.map_congr_left fun e he => ih e he fun r hr => h r (List.mem_flatMap.mpr ⟨e, he, hr⟩)]
  | udt r => rw [rename, rename, h r (List.mem_singleton.mpr rfl)]

theorem rename_rename (g : ρ → σ) (g' : σ → τ) (t : TypeTree ρ) :
    (t.rename g).rename g' = t.rename (g' ∘ g) := by
  induction t with
  | basic b => rfl
  | list e frozen ih => rw [rename, rename, rename, ih]
  | set k frozen ih => rw [rename, rename, rename, ih]
  | map k v frozen ihk ihv => rw [rename, rename, rename, ihk, ihv]
  | vector e count frozen ih => rw [rename, rename, rename, ih]
  | tuple es frozen ih =>
      simp only [rename, renameAll_eq, List.map_map]
      rw [List.map_congr_left fun e he => by rw [Function.comp_apply, ih e he]]
  | udt r => rfl

theorem rename_id (t : TypeTree ρ) : t.rename id = t := by
  induction t with
  | basic b => rfl
  | list e frozen ih => rw [rename, ih]
  | set k frozen ih => rw [rename, ih]
  | map k v frozen ihk ihv => rw [rename, ihk, ihv]
  | vector e count frozen ih => rw [rename, ih]
  | tuple es frozen ih => rw [rename, renameAll_eq, List.map_congr_left ih, List.map_id']
  | udt r => rfl

theorem refs_rename (g : ρ → σ) (t : TypeTree ρ) : (t.rename g).refs = t.refs.map g := by
  induction t with
  | basic b => rfl
  | list e frozen ih => rw [rename, refs, refs, ih]
  | set k frozen ih => rw [rename, refs, refs, ih]
  | map k v frozen ihk ihv => rw [rename, refs, refs, ihk, ihv, List.map_append]
  | vector e count frozen ih => rw [rename, refs, refs, ih]
  | tuple es frozen ih =>
      simp only [rename, refs, renameAll_eq, refsAll_eq, List.flatMap_map, List.map_flatMap]
      exact List.flatMap_congr fun e he => ih e he
  | udt r => rfl

theorem sized_rename (g : ρ → σ) (t : TypeTree ρ) : (t.rename g).Sized ↔ t.Sized := by
  induction t with
  | basic b => simp [rename, Sized]
  | list e frozen ih => rw [rename, Sized, Sized, ih]
  | set k frozen ih => rw [rename, Sized, Sized, ih]
  | map k v frozen ihk ihv => rw [rename, Sized, Sized, ihk, ihv]
  | vector e count frozen ih => rw [rename, Sized, Sized, ih]
  | tuple es frozen ih =>
      simp only [rename, Sized, renameAll_eq, sizedAll_iff, List.length_map, List.forall_mem_map]
      exact and_congr_right fun _ => forall₂_congr ih
  | udt r => simp [rename, Sized]

/-! ### Resolving -/

theorem bind_eq_ok {x : Except ε α} {f : α → Except ε τ} {b : τ} (h : (x >>= f) = .ok b) :
    ∃ a, x = .ok a ∧ f a = .ok b := by
  cases x with
  | error e => cases h
  | ok a => exact ⟨a, rfl, h⟩

theorem length_of_resolveAll {find : ρ → Except ε σ} {ts : List (TypeTree ρ)}
    {ts' : List (TypeTree σ)} (h : resolveAll find ts = .ok ts') : ts'.length = ts.length := by
  induction ts generalizing ts' with
  | nil => cases h; rfl
  | cons t ts ih =>
      obtain ⟨t', -, h⟩ := bind_eq_ok h
      obtain ⟨ts'', hts, h⟩ := bind_eq_ok h
      cases h
      rw [List.length_cons, List.length_cons, ih hts]

/-- What holds of every element of a list and what it resolves to. -/
theorem forall_of_resolveAll {find : ρ → Except ε σ} {P : TypeTree ρ → TypeTree σ → Prop}
    {ts : List (TypeTree ρ)} (hP : ∀ t ∈ ts, ∀ t', t.resolve find = .ok t' → P t t')
    {ts' : List (TypeTree σ)} (h : resolveAll find ts = .ok ts') :
    ∀ t' ∈ ts', ∃ t ∈ ts, P t t' := by
  induction ts generalizing ts' with
  | nil => cases h; exact List.forall_mem_nil _
  | cons t ts ih =>
      obtain ⟨t', ht, h⟩ := bind_eq_ok h
      obtain ⟨ts'', hts, h⟩ := bind_eq_ok h
      cases h
      refine List.forall_mem_cons.mpr ⟨⟨t, List.mem_cons_self, hP t List.mem_cons_self t' ht⟩, ?_⟩
      intro u hu
      obtain ⟨v, hv, huv⟩ := ih (fun u hu => hP u (List.mem_cons_of_mem t hu)) hts u hu
      exact ⟨v, List.mem_cons_of_mem t hv, huv⟩

/-- Every reference of the resolved type was found for a reference of the text. -/
theorem found_of_resolve {find : ρ → Except ε σ} {t : TypeTree ρ} {t' : TypeTree σ}
    (h : t.resolve find = .ok t') : ∀ q ∈ t'.refs, ∃ r ∈ t.refs, find r = .ok q := by
  induction t generalizing t' with
  | basic b => cases h; exact List.forall_mem_nil _
  | list e frozen ih =>
      obtain ⟨e', he, h⟩ := bind_eq_ok h
      cases h
      exact @ih e' he
  | set k frozen ih =>
      obtain ⟨k', hk, h⟩ := bind_eq_ok h
      cases h
      exact @ih k' hk
  | map k v frozen ihk ihv =>
      obtain ⟨k', hk, h⟩ := bind_eq_ok h
      obtain ⟨v', hv, h⟩ := bind_eq_ok h
      cases h
      intro q hq
      rcases List.mem_append.mp hq with hq | hq
      · obtain ⟨r, hr, hfind⟩ := ihk hk q hq
        exact ⟨r, List.mem_append_left _ hr, hfind⟩
      · obtain ⟨r, hr, hfind⟩ := ihv hv q hq
        exact ⟨r, List.mem_append_right _ hr, hfind⟩
  | vector e count frozen ih =>
      obtain ⟨e', he, h⟩ := bind_eq_ok h
      cases h
      exact @ih e' he
  | tuple es frozen ih =>
      obtain ⟨es', hes, h⟩ := bind_eq_ok h
      cases h
      have hall := forall_of_resolveAll (fun e he e' => @ih e he e') hes
      simp only [refs, refsAll_eq]
      intro q hq
      obtain ⟨e', he', hq⟩ := List.mem_flatMap.mp hq
      obtain ⟨e, he, hfound⟩ := hall e' he'
      obtain ⟨r, hr, hfind⟩ := hfound q hq
      exact ⟨r, List.mem_flatMap.mpr ⟨e, he, hr⟩, hfind⟩
  | udt r =>
      obtain ⟨q, hfind, h⟩ := bind_eq_ok h
      cases h
      intro q' hq'
      rw [List.mem_singleton.mp hq']
      exact ⟨r, List.mem_singleton.mpr rfl, hfind⟩

theorem sized_of_resolve {find : ρ → Except ε σ} {t : TypeTree ρ} {t' : TypeTree σ}
    (h : t.resolve find = .ok t') (hsized : t.Sized) : t'.Sized := by
  induction t generalizing t' with
  | basic b => cases h; trivial
  | list e frozen ih =>
      obtain ⟨e', he, h⟩ := bind_eq_ok h
      cases h
      exact @ih e' he hsized
  | set k frozen ih =>
      obtain ⟨k', hk, h⟩ := bind_eq_ok h
      cases h
      exact @ih k' hk hsized
  | map k v frozen ihk ihv =>
      obtain ⟨k', hk, h⟩ := bind_eq_ok h
      obtain ⟨v', hv, h⟩ := bind_eq_ok h
      cases h
      exact ⟨ihk hk hsized.1, ihv hv hsized.2⟩
  | vector e count frozen ih =>
      obtain ⟨e', he, h⟩ := bind_eq_ok h
      cases h
      exact @ih e' he hsized
  | tuple es frozen ih =>
      obtain ⟨es', hes, h⟩ := bind_eq_ok h
      cases h
      have hall := forall_of_resolveAll (fun e he e' => @ih e he e') hes
      rw [Sized, sizedAll_iff] at hsized
      refine ⟨by rw [length_of_resolveAll hes]; exact hsized.1, (sizedAll_iff es').mpr fun e' he' => ?_⟩
      obtain ⟨e, he, hkeep⟩ := hall e' he'
      exact hkeep (hsized.2 e he)
  | udt r =>
      obtain ⟨q, -, h⟩ := bind_eq_ok h
      cases h
      trivial

end TypeTree

end Plexdb.Cql
