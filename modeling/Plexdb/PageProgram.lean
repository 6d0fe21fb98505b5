import Mathlib.Data.List.Basic

/-! Programs that work on a store of pages: they allocate, free, read and write pages, and may fail.
A program is interpreted over any store; `Ensures` is its weakest precondition, under a condition
the store must meet whenever a page is allocated. -/

namespace Plexdb

/-- `newPage` hands on the page it allocated, `rpage` what the page holds, `rwpage` what it held
before it was rewritten by `write`. -/
inductive PageProgram (P α : Type) where
  | done (a : α)
  | fail
  | newPage (next : Nat → PageProgram P α)
  | deletePage (idx : Nat) (next : PageProgram P α)
  | rpage (idx : Nat) (next : P → PageProgram P α)
  | rwpage (idx : Nat) (write : P → P) (next : P → PageProgram P α)

/-- The operations of a store with states `σ` and pages `P`. -/
structure PageStore (σ P : Type) where
  newPage : σ → Option (σ × Nat)
  deletePage : σ → Nat → Option σ
  rpage : σ → Nat → Option (σ × P)
  rwpage : σ → Nat → (P → P) → Option (σ × P)

namespace PageProgram

variable {σ P α β : Type}

protected def bind (f : α → PageProgram P β) : PageProgram P α → PageProgram P β
  | done a => f a
  | fail => fail
  | newPage next => newPage fun idx => (next idx).bind f
  | deletePage idx next => deletePage idx (next.bind f)
  | rpage idx next => rpage idx fun page => (next page).bind f
  | rwpage idx write next => rwpage idx write fun page => (next page).bind f

instance : Monad (PageProgram P) where
  pure := done
  bind prog f := prog.bind f

/-- `assert_true`. -/
def assert (c : Prop) [Decidable c] : PageProgram P Unit := if c then done () else fail

/-- A value that must be there. -/
def ofOption : Option α → PageProgram P α
  | some a => done a
  | none => fail

def run (S : PageStore σ P) : PageProgram P α → σ → Option (σ × α)
  | done a, s => some (s, a)
  | fail, _ => none
  | newPage next, s => (S.newPage s).bind fun r => (next r.2).run S r.1
  | deletePage idx next, s => (S.deletePage s idx).bind fun s => next.run S s
  | rpage idx next, s => (S.rpage s idx).bind fun r => (next r.2).run S r.1
  | rwpage idx write next, s => (S.rwpage s idx write).bind fun r => (next r.2).run S r.1

/-- The condition holds wherever the run allocates a page. -/
def Meets (S : PageStore σ P) (Cond : σ → Prop) : PageProgram P α → σ → Prop
  | done _, _ => True
  | fail, _ => True
  | newPage next, s => Cond s ∧ ∀ s' idx, S.newPage s = some (s', idx) → (next idx).Meets S Cond s'
  | deletePage idx next, s => ∀ s', S.deletePage s idx = some s' → next.Meets S Cond s'
  | rpage idx next, s => ∀ s' page, S.rpage s idx = some (s', page) → (next page).Meets S Cond s'
  | rwpage idx write next, s =>
      ∀ s' page, S.rwpage s idx write = some (s', page) → (next page).Meets S Cond s'

/-- If the condition holds wherever the run allocates a page, then the run succeeds and `Q` holds of
its end. -/
def Ensures (S : PageStore σ P) (Cond : σ → Prop) : PageProgram P α → (σ → α → Prop) → σ → Prop
  | done a, Q, s => Q s a
  | fail, _, _ => False
  | newPage next, Q, s =>
      Cond s → ∃ s' idx, S.newPage s = some (s', idx) ∧ (next idx).Ensures S Cond Q s'
  | deletePage idx next, Q, s => ∃ s', S.deletePage s idx = some s' ∧ next.Ensures S Cond Q s'
  | rpage idx next, Q, s =>
      ∃ s' page, S.rpage s idx = some (s', page) ∧ (next page).Ensures S Cond Q s'
  | rwpage idx write next, Q, s =>
      ∃ s' page, S.rwpage s idx write = some (s', page) ∧ (next page).Ensures S Cond Q s'

section

variable {S : PageStore σ P} {Cond : σ → Prop} {s : σ}

@[simp] theorem ensures_pure {Q : σ → α → Prop} {a : α} :
    (pure a : PageProgram P α).Ensures S Cond Q s ↔ Q s a := Iff.rfl

theorem ensures_bind {prog : PageProgram P α} {f : α → PageProgram P β} {Q : σ → β → Prop} :
    (prog >>= f).Ensures S Cond Q s ↔
      prog.Ensures S Cond (fun s a => (f a).Ensures S Cond Q s) s := by
  change (prog.bind f).Ensures S Cond Q s ↔ _
  induction prog generalizing s with
  | done a => rfl
  | fail => rfl
  | newPage next ih =>
      simp only [PageProgram.bind, Ensures, ih]
  | deletePage idx next ih =>
      simp only [PageProgram.bind, Ensures, ih]
  | rpage idx next ih =>
      simp only [PageProgram.bind, Ensures, ih]
  | rwpage idx write next ih =>
      simp only [PageProgram.bind, Ensures, ih]

theorem Ensures.mono {prog : PageProgram P α} {Q R : σ → α → Prop} (h : prog.Ensures S Cond Q s)
    (himp : ∀ s a, Q s a → R s a) : prog.Ensures S Cond R s := by
  induction prog generalizing s with
  | done a => exact himp s a h
  | fail => exact h.elim
  | newPage next ih =>
      intro hcond
      obtain ⟨s', idx, hnew, hnext⟩ := h hcond
      exact ⟨s', idx, hnew, ih idx hnext⟩
  | deletePage idx next ih =>
      obtain ⟨s', hdel, hnext⟩ := h
      exact ⟨s', hdel, ih hnext⟩
  | rpage idx next ih =>
      obtain ⟨s', page, hread, hnext⟩ := h
      exact ⟨s', page, hread, ih page hnext⟩
  | rwpage idx write next ih =>
      obtain ⟨s', page, hread, hnext⟩ := h
      exact ⟨s', page, hread, ih page hnext⟩

theorem Ensures.bind {prog : PageProgram P α} {f : α → PageProgram P β} {Q : σ → α → Prop}
    {R : σ → β → Prop} (h : prog.Ensures S Cond Q s)
    (hf : ∀ s a, Q s a → (f a).Ensures S Cond R s) : (prog >>= f).Ensures S Cond R s :=
  ensures_bind.mpr (h.mono hf)

@[simp] theorem ensures_assert {c : Prop} [Decidable c] {Q : σ → Unit → Prop} :
    (assert c : PageProgram P Unit).Ensures S Cond Q s ↔ c ∧ Q s () := by
  unfold assert
  split <;> simp_all [Ensures]

theorem ensures_ofOption {o : Option α} {a : α} {Q : σ → α → Prop} (h : o = some a) (hQ : Q s a) :
    (ofOption o : PageProgram P α).Ensures S Cond Q s := by
  rw [h]
  exact hQ

/-- A run that meets the condition ends as `Ensures` says. -/
theorem Ensures.run {prog : PageProgram P α} {Q : σ → α → Prop} (h : prog.Ensures S Cond Q s)
    (hmeets : prog.Meets S Cond s) : ∃ s' a, prog.run S s = some (s', a) ∧ Q s' a := by
  induction prog generalizing s with
  | done a => exact ⟨s, a, rfl, h⟩
  | fail => exact h.elim
  | newPage next ih =>
      obtain ⟨s', idx, hnew, hnext⟩ := h hmeets.1
      obtain ⟨s'', a, hrun, hQ⟩ := ih idx hnext (hmeets.2 s' idx hnew)
      exact ⟨s'', a, by rw [PageProgram.run, hnew]; exact hrun, hQ⟩
  | deletePage idx next ih =>
      obtain ⟨s', hdel, hnext⟩ := h
      obtain ⟨s'', a, hrun, hQ⟩ := ih hnext (hmeets s' hdel)
      exact ⟨s'', a, by rw [PageProgram.run, hdel]; exact hrun, hQ⟩
  | rpage idx next ih =>
      obtain ⟨s', page, hread, hnext⟩ := h
      obtain ⟨s'', a, hrun, hQ⟩ := ih page hnext (hmeets s' page hread)
      exact ⟨s'', a, by rw [PageProgram.run, hread]; exact hrun, hQ⟩
  | rwpage idx write next ih =>
      obtain ⟨s', page, hread, hnext⟩ := h
      obtain ⟨s'', a, hrun, hQ⟩ := ih page hnext (hmeets s' page hread)
      exact ⟨s'', a, by rw [PageProgram.run, hread]; exact hrun, hQ⟩

theorem Ensures.of_run {prog : PageProgram P α} {Q : σ → α → Prop} (h : prog.Ensures S Cond Q s)
    (hmeets : prog.Meets S Cond s) {s' : σ} {a : α} (hrun : prog.run S s = some (s', a)) : Q s' a := by
  obtain ⟨s'', b, hrun', hQ⟩ := h.run hmeets
  obtain ⟨rfl, rfl⟩ := Prod.mk.inj (Option.some.inj (hrun.symm.trans hrun'))
  exact hQ

theorem run_bind {prog : PageProgram P α} {f : α → PageProgram P β} :
    (prog >>= f).run S s = (prog.run S s).bind fun r => (f r.2).run S r.1 := by
  change (prog.bind f).run S s = _
  induction prog generalizing s with
  | done a => rfl
  | fail => rfl
  | newPage next ih =>
      simp only [PageProgram.bind, PageProgram.run, ih, Option.bind_assoc]
  | deletePage idx next ih =>
      simp only [PageProgram.bind, PageProgram.run, ih, Option.bind_assoc]
  | rpage idx next ih =>
      simp only [PageProgram.bind, PageProgram.run, ih, Option.bind_assoc]
  | rwpage idx write next ih =>
      simp only [PageProgram.bind, PageProgram.run, ih, Option.bind_assoc]

theorem exists_run_of_bind {prog : PageProgram P α} {f : α → PageProgram P β} {r : σ × β}
    (h : (prog >>= f).run S s = some r) : ∃ s' a, prog.run S s = some (s', a) := by
  rw [run_bind] at h
  obtain ⟨⟨s', a⟩, hrun, -⟩ := Option.bind_eq_some_iff.mp h
  exact ⟨s', a, hrun⟩

theorem of_run_assert {c : Prop} [Decidable c] {r : σ × Unit}
    (h : (assert c : PageProgram P Unit).run S s = some r) : c := by
  by_contra hc
  rw [assert, if_neg hc] at h
  cases h

end

end PageProgram

end Plexdb
