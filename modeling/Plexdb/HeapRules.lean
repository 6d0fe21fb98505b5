import Mathlib.Data.Finset.Basic
import Mathlib.Data.Finset.Dedup
import Mathlib.Data.Finset.Lattice.Basic
import Mathlib.Data.Finset.SDiff
import Mathlib.Tactic.Tauto
import Plexdb.PageProgram

/-! Rules for programs on a store that can be seen as a heap: a set of live pages, and what some of them hold. The
rules give the program that goes on after an operation the heap the operation leaves. -/

namespace Plexdb

/-- The reads of a store that can be seen as a heap. -/
structure ReadRules {σ P : Type} (S : PageStore σ P) (Cond : σ → Prop) where
  Views : σ → Finset Nat → (Nat → Option P) → Prop
  ne_zero : ∀ {s live h i p}, Views s live h → h i = some p → i ≠ 0
  rpage : ∀ {s live h idx p} {Q : σ → P → Prop}, Views s live h → h idx = some p →
    (∀ s', Views s' live h → Q s' p) → (PageProgram.rpage idx .done).Ensures S Cond Q s

/-- The operations of a store, told on heaps. `blank` is a new page, and `Fits` holds of the numbers of pages. -/
structure HeapRules {σ P : Type} (S : PageStore σ P) (Cond : σ → Prop) (blank : P) (Fits : Nat → Prop) extends
    ReadRules S Cond where
  mem_live : ∀ {s live h i p}, Views s live h → h i = some p → i ∈ live
  newPage : ∀ {s live h} {Q : σ → Nat → Prop}, Views s live h →
    (∀ s' idx, idx ∉ live → Fits idx → Views s' (insert idx live) (Function.update h idx (some blank)) →
      Q s' idx) → (PageProgram.newPage .done).Ensures S Cond Q s
  deletePage : ∀ {s live h idx} {Q : σ → Unit → Prop}, Views s live h → idx ∈ live →
    (∀ s', Views s' (live.erase idx) (Function.update h idx none) → Q s' ()) →
      (PageProgram.deletePage idx (.done ())).Ensures S Cond Q s
  rwpage : ∀ {s live h idx p} {write : P → P} {Q : σ → P → Prop}, Views s live h → h idx = some p →
    (∀ s', Views s' live (Function.update h idx (some (write p))) → Q s' p) →
      (PageProgram.rwpage idx write .done).Ensures S Cond Q s

instance {σ P : Type} {S : PageStore σ P} {Cond : σ → Prop} {blank : P} {Fits : Nat → Prop} :
    CoeOut (HeapRules S Cond blank Fits) (ReadRules S Cond) := ⟨HeapRules.toReadRules⟩

namespace PageProgram

variable {σ P α β : Type} {S : PageStore σ P} {Cond : σ → Prop} {s : σ}

theorem ensures_assert_bind {c : Prop} [Decidable c] {f : Unit → PageProgram P β} {Q : σ → β → Prop} (hc : c)
    (h : (f ()).Ensures S Cond Q s) : (assert c >>= f).Ensures S Cond Q s := by
  rw [ensures_bind, ensures_assert]
  exact ⟨hc, h⟩

theorem ensures_ofOption_bind {o : Option α} {a : α} {f : α → PageProgram P β} {Q : σ → β → Prop} (ho : o = some a)
    (h : (f a).Ensures S Cond Q s) : (ofOption o >>= f).Ensures S Cond Q s :=
  ensures_bind.mpr (ensures_ofOption ho h)

theorem pure_bind (a : α) (f : α → PageProgram P β) : (pure a >>= f) = f a := rfl

theorem bind_assoc {γ : Type} (prog : PageProgram P α) (f : α → PageProgram P β) (g : β → PageProgram P γ) :
    (prog >>= f >>= g) = prog >>= fun a => f a >>= g := by
  change (prog.bind f).bind g = prog.bind fun a => (f a).bind g
  induction prog with
  | done a => rfl
  | fail => rfl
  | newPage next ih => exact congrArg PageProgram.newPage (funext ih)
  | deletePage idx next ih => exact congrArg (PageProgram.deletePage idx) ih
  | rpage idx next ih => exact congrArg (PageProgram.rpage idx) (funext ih)
  | rwpage idx write next ih => exact congrArg (PageProgram.rwpage idx write) (funext ih)

/-- Run a program and check what its allocations find. -/
def checks (S : PageStore σ P) (ok : σ → Bool) : PageProgram P α → σ → Bool
  | done _, _ => true
  | fail, _ => true
  | newPage next, s => ok s && (S.newPage s).all fun r => (next r.2).checks S ok r.1
  | deletePage idx next, s => (S.deletePage s idx).all fun s => next.checks S ok s
  | rpage idx next, s => (S.rpage s idx).all fun r => (next r.2).checks S ok r.1
  | rwpage idx write next, s => (S.rwpage s idx write).all fun r => (next r.2).checks S ok r.1

theorem meets_of_checks {ok : σ → Bool} (hok : ∀ s, ok s = true → Cond s) {prog : PageProgram P α}
    (h : prog.checks S ok s = true) : prog.Meets S Cond s := by
  induction prog generalizing s with
  | done a => trivial
  | fail => trivial
  | newPage next ih =>
      rw [checks, Bool.and_eq_true] at h
      refine ⟨hok s h.1, fun s' idx hnew => ih idx ?_⟩
      simpa [hnew] using h.2
  | deletePage idx next ih =>
      intro s' hdelete
      apply ih
      simpa [checks, hdelete] using h
  | rpage idx next ih =>
      intro s' page hread
      apply ih
      simpa [checks, hread] using h
  | rwpage idx write next ih =>
      intro s' page hwrite
      apply ih
      simpa [checks, hwrite] using h

end PageProgram

/-- What a program has done to a heap: it has rewritten `old` pages, allocated the pages `fresh` and freed the pages
`freed`, some of the old ones. -/
structure HeapChange {P : Type} (live live' : Finset Nat) (h h' : Nat → Option P) (old fresh freed : List Nat) :
    Prop where
  live_eq : live' = (live ∪ fresh.toFinset) \ freed.toFinset
  unused : ∀ i ∈ fresh, i ∉ live
  nodup : fresh.Nodup
  frame : ∀ i, i ∉ old → i ∉ fresh → h' i = h i

namespace HeapChange

variable {P : Type} {live live' live'' : Finset Nat} {h h' h'' : Nat → Option P}
  {old old' fresh fresh' freed freed' : List Nat}

theorem refl (live : Finset Nat) (h : Nat → Option P) (old : List Nat) : HeapChange live live h h old [] [] where
  live_eq := by simp
  unused := fun _ hi => absurd hi List.not_mem_nil
  nodup := List.nodup_nil
  frame := fun _ _ _ => rfl

theorem mono (hc : HeapChange live live' h h' old fresh freed) (hold : ∀ i ∈ old, i ∈ old') :
    HeapChange live live' h h' old' fresh freed :=
  ⟨hc.live_eq, hc.unused, hc.nodup, fun i hi hf => hc.frame i (fun h => hi (hold i h)) hf⟩

theorem write (live : Finset Nat) (h : Nat → Option P) {idx : Nat} {p : P} (hidx : idx ∈ old) :
    HeapChange live live h (Function.update h idx (some p)) old [] [] where
  live_eq := by simp
  unused := fun _ hi => absurd hi List.not_mem_nil
  nodup := List.nodup_nil
  frame := fun i hi _ => Function.update_of_ne (ne_of_mem_of_not_mem hidx hi).symm _ _

theorem alloc {idx : Nat} {p : P} (hidx : idx ∉ live) :
    HeapChange live (insert idx live) h (Function.update h idx (some p)) old [idx] [] where
  live_eq := by
    ext i
    simp only [Finset.mem_insert, List.toFinset_cons, List.toFinset_nil, Finset.mem_union, Finset.mem_sdiff,
      Finset.notMem_empty, not_false_eq_true, and_true, or_false]
    exact or_comm
  unused := by simpa using hidx
  nodup := List.nodup_singleton idx
  frame := fun i _ hf => Function.update_of_ne (List.ne_of_not_mem_cons hf) _ _

theorem free {idx : Nat} (hidx : idx ∈ old) :
    HeapChange live (live.erase idx) h (Function.update h idx none) old [] [idx] where
  live_eq := by
    ext i
    simp only [Finset.mem_erase, List.toFinset_nil, List.toFinset_cons, Finset.mem_sdiff, Finset.mem_union,
      Finset.mem_insert, Finset.notMem_empty, or_false]
    exact and_comm
  unused := fun _ hi => absurd hi List.not_mem_nil
  nodup := List.nodup_nil
  frame := fun i hi _ => Function.update_of_ne (ne_of_mem_of_not_mem hidx hi).symm _ _

/-- One change after another that allocates nothing the first has freed. -/
theorem trans (h₁ : HeapChange live live' h h' old fresh freed) (h₂ : HeapChange live' live'' h' h'' old' fresh' freed')
    (hold : ∀ i ∈ old', i ∈ old ∨ i ∈ fresh) (hfreed : ∀ i ∈ fresh', i ∉ freed) :
    HeapChange live live'' h h'' old (fresh ++ fresh') (freed ++ freed') where
  live_eq := by
    rw [h₂.live_eq, h₁.live_eq]
    ext i
    have hi := hfreed i
    simp only [Finset.mem_sdiff, Finset.mem_union, List.mem_toFinset, List.mem_append]
    tauto
  unused := fun i hi => by
    rcases List.mem_append.mp hi with hi | hi
    · exact h₁.unused i hi
    · have hlive := h₂.unused i hi
      rw [h₁.live_eq, Finset.mem_sdiff, Finset.mem_union, List.mem_toFinset, List.mem_toFinset] at hlive
      exact fun hmem => hlive ⟨Or.inl hmem, fun h => hfreed i hi h⟩
  nodup := by
    refine List.nodup_append.mpr ⟨h₁.nodup, h₂.nodup, fun i hi j hj heq => ?_⟩
    subst heq
    have hlive := h₂.unused i hj
    rw [h₁.live_eq, Finset.mem_sdiff, Finset.mem_union, List.mem_toFinset, List.mem_toFinset] at hlive
    exact hlive ⟨Or.inr hi, fun h => hfreed i hj h⟩
  frame := fun i hi hf => by
    rw [List.mem_append, not_or] at hf
    rw [h₂.frame i (fun h => (hold i h).elim hi hf.1) hf.2, h₁.frame i hi hf.1]

end HeapChange

end Plexdb
