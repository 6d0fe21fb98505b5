import Mathlib

/-! A stack allocator whose scopes are opened and ended by tasks that suspend. A task is a tree: what it does
one after the other, the scopes it opens around a part of itself, and parts that run in parallel. It runs from
one suspension to the next, any of its parallel parts may go on, and it may be destroyed where it is. As long
as no parallel part opens a scope, the scopes of a task end in the reverse order of their opening. -/

namespace Plexdb.Scratch

/-! ### The arena -/

structure Scope where
  id : Nat
  offset : Nat
  deriving DecidableEq

/-- A region and the scope that it was allocated for. -/
structure Allocation where
  scope : Nat
  start : Nat
  size : Nat
  deriving DecidableEq

inductive Event where
  | opened (scope : Nat)
  | pushed (a : Allocation)
  | ended (scope : Nat)
  deriving DecidableEq

/-- The offset of the arena, the next scope, and what happened, the latest first. -/
structure Arena where
  offset : Nat
  next : Nat
  history : List Event
  deriving DecidableEq

/-- `size` bytes, `skip` bytes behind the offset: what the alignment costs, or the rest of a page. -/
structure Request where
  skip : Nat
  size : Nat
  deriving DecidableEq

namespace Arena

def init (offset : Nat) : Arena := ⟨offset, 0, []⟩

/-- The scope that is opened next. -/
def scope (a : Arena) : Scope := ⟨a.next, a.offset⟩

def openScope (a : Arena) : Arena := { a with next := a.next + 1, history := .opened a.next :: a.history }

def push (σ : Scope) (a : Arena) (r : Request) : Arena :=
  { a with
    offset := a.offset + r.skip + r.size
    history := .pushed ⟨σ.id, a.offset + r.skip, r.size⟩ :: a.history }

def pushAll (σ : Scope) (requests : List Request) (a : Arena) : Arena := requests.foldl (push σ) a

/-- The arena goes back to where the scope was opened. -/
def close (σ : Scope) (a : Arena) : Arena := { a with offset := σ.offset, history := .ended σ.id :: a.history }

end Arena

/-! ### Tasks -/

inductive Code where
  | skip
  | wait
  | seq (c d : Code)
  | scope (requests : List Request) (body : Code)
  | both (c d : Code)

/-- A task that was started. -/
inductive Proc where
  | done
  | waiting
  | seq (p : Proc) (d : Code)
  | scope (σ : Scope) (p : Proc)
  | both (p q : Proc)

def Proc.isDone : Proc → Bool
  | .done => true
  | _ => false

/-- A scope ends with its body. -/
def leave (σ : Scope) : Proc × Arena → Proc × Arena
  | (.done, a) => (.done, a.close σ)
  | (p, a) => (.scope σ p, a)

/-- Who waits for two parts goes on when both are done. -/
def join : Proc → Proc → Proc
  | .done, .done => .done
  | p, q => .both p q

/-- Runs to the first suspension. -/
def start : Code → Arena → Proc × Arena
  | .skip, a => (.done, a)
  | .wait, a => (.waiting, a)
  | .seq c d, a =>
      match start c a with
      | (.done, a) => start d a
      | (p, a) => (.seq p d, a)
  | .scope requests body, a => leave a.scope (start body (a.openScope.pushAll a.scope requests))
  | .both c d, a =>
      let r := start c a
      let r' := start d r.2
      (join r.1 r'.1, r'.2)

def andThen (d : Code) : Proc × Arena → Proc × Arena
  | (.done, a) => start d a
  | (p, a) => (.seq p d, a)

/-- One suspended part goes on to its next suspension; the path to it says which way it lies at each parallel
part. -/
def resume : Proc → List Bool → Arena → Option (Proc × Arena)
  | .done, _, _ => none
  | .waiting, [], a => some (.done, a)
  | .waiting, _ :: _, _ => none
  | .seq p d, path, a => (resume p path a).map (andThen d)
  | .scope σ p, path, a => (resume p path a).map (leave σ)
  | .both _ _, [], _ => none
  | .both p q, false :: path, a => (resume p path a).map fun r => (join r.1 q, r.2)
  | .both p q, true :: path, a => (resume q path a).map fun r => (join p r.1, r.2)

/-- The frames of a suspended task are destroyed from the innermost on. -/
def destroy : Proc → Arena → Arena
  | .done, a => a
  | .waiting, a => a
  | .seq p _, a => destroy p a
  | .scope σ p, a => (destroy p a).close σ
  | .both p q, a => destroy q (destroy p a)

/-- The scopes that a task has open, the innermost first. -/
def Proc.scopes : Proc → List Scope
  | .done => []
  | .waiting => []
  | .seq p _ => p.scopes
  | .scope σ p => p.scopes ++ [σ]
  | .both p q => p.scopes ++ q.scopes

/-- Opens no scope. -/
def Code.Quiet : Code → Prop
  | .skip => True
  | .wait => True
  | .seq c d => c.Quiet ∧ d.Quiet
  | .scope _ _ => False
  | .both c d => c.Quiet ∧ d.Quiet

/-- No parallel part opens a scope. -/
def Code.Nests : Code → Prop
  | .skip => True
  | .wait => True
  | .seq c d => c.Nests ∧ d.Nests
  | .scope _ body => body.Nests
  | .both c d => c.Quiet ∧ d.Quiet

def Proc.Quiet : Proc → Prop
  | .done => True
  | .waiting => True
  | .seq p d => p.Quiet ∧ d.Quiet
  | .scope _ _ => False
  | .both p q => p.Quiet ∧ q.Quiet

def Proc.Nests : Proc → Prop
  | .done => True
  | .waiting => True
  | .seq p d => p.Nests ∧ d.Nests
  | .scope _ p => p.Nests
  | .both p q => p.Quiet ∧ q.Quiet

/-! ### What a history should be -/

/-- What happened after a scope was opened, in what happened before. -/
def since (scope : Nat) (history : List Event) : List Event := history.takeWhile (· ≠ .opened scope)

def Allocation.Apart (a b : Allocation) : Prop := a.start + a.size ≤ b.start ∨ b.start + b.size ≤ a.start

/-- When a scope ends, everything that was allocated since it was opened is its own or of scopes that have
ended; and nothing is allocated over what is of a scope that has not. -/
structure Orderly (history : List Event) : Prop where
  ends : ∀ scope earlier, .ended scope :: earlier <:+ history →
    ∀ a, .pushed a ∈ since scope earlier → a.scope = scope ∨ .ended a.scope ∈ earlier
  apart : ∀ b earlier, .pushed b :: earlier <:+ history →
    ∀ a, .pushed a ∈ earlier → .ended a.scope ∉ earlier → a.Apart b

section

variable {history : List Event} {e : Event} {scope other : Nat} {a : Allocation}

theorem orderly_nil : Orderly [] :=
  ⟨fun _ _ h => (by cases List.suffix_nil.mp h), fun _ _ h => (by cases List.suffix_nil.mp h)⟩

/-- What the latest event adds. -/
theorem Orderly.cons (h : Orderly history)
    (hends : ∀ scope, e = .ended scope → ∀ a, .pushed a ∈ since scope history → a.scope = scope ∨ .ended a.scope ∈ history)
    (hapart : ∀ b, e = .pushed b → ∀ a, .pushed a ∈ history → .ended a.scope ∉ history → a.Apart b) :
    Orderly (e :: history) := by
  constructor
  · intro scope earlier hsuffix
    rcases List.suffix_cons_iff.mp hsuffix with heq | hsuffix
    · obtain ⟨rfl, rfl⟩ := List.cons.inj heq
      exact hends scope rfl
    · exact h.ends scope earlier hsuffix
  · intro b earlier hsuffix
    rcases List.suffix_cons_iff.mp hsuffix with heq | hsuffix
    · obtain ⟨rfl, rfl⟩ := List.cons.inj heq
      exact hapart b rfl
    · exact h.apart b earlier hsuffix

theorem since_opened (scope : Nat) (history : List Event) : since scope (.opened scope :: history) = [] := by
  rw [since, List.takeWhile_cons_of_neg (by simp)]

theorem since_cons (h : e ≠ .opened scope) : since scope (e :: history) = e :: since scope history :=
  List.takeWhile_cons_of_pos (decide_eq_true h)

end

/-! ### The discipline of a stack -/

/-- What is allocated for a scope lies between its offset and that of the scope above, or that of the arena. -/
def Layered (history : List Event) : Nat → List Scope → Prop
  | _, [] => True
  | limit, σ :: stack =>
      σ.offset ≤ limit ∧ (∀ a, .pushed a ∈ history → a.scope = σ.id → a.start + a.size ≤ limit) ∧
        Layered history σ.offset stack

/-- The scopes of `stack` are open, the latest first. -/
structure Holds (a : Arena) (stack : List Scope) : Prop where
  orderly : Orderly a.history
  sorted : (stack.map Scope.id).Pairwise (· > ·)
  opened : ∀ σ ∈ stack, σ.id < a.next
  fresh : ∀ b, .pushed b ∈ a.history → b.scope < a.next
  live : ∀ b, .pushed b ∈ a.history → .ended b.scope ∉ a.history → b.scope ∈ stack.map Scope.id
  newer : ∀ σ ∈ stack, ∀ b, .pushed b ∈ since σ.id a.history → .ended b.scope ∈ a.history ∨ σ.id ≤ b.scope
  layered : Layered a.history a.offset stack

section

variable {a : Arena} {stack : List Scope} {σ : Scope} {history history' : List Event} {limit : Nat}

theorem holds_init (offset : Nat) : Holds (.init offset) [] :=
  ⟨orderly_nil, List.Pairwise.nil, List.forall_mem_nil _, fun _ h => (by cases h), fun _ h => (by cases h),
    List.forall_mem_nil _, trivial⟩

/-- Only what is allocated for the scopes of the stack matters. -/
theorem Layered.congr (h : Layered history limit stack)
    (hsub : ∀ σ ∈ stack, ∀ b, .pushed b ∈ history' → b.scope = σ.id → .pushed b ∈ history) :
    Layered history' limit stack := by
  induction stack generalizing limit with
  | nil => trivial
  | cons σ stack ih =>
      obtain ⟨hoffset, hown, hbelow⟩ := h
      refine ⟨hoffset, fun b hb hscope => ?_, ih hbelow fun τ hτ => hsub τ (List.mem_cons_of_mem σ hτ)⟩
      exact hown b (hsub σ List.mem_cons_self b hb hscope) hscope

/-- Everything that is allocated for a scope of the stack lies below. -/
theorem Layered.le (h : Layered history limit stack) {b : Allocation} (hb : .pushed b ∈ history)
    (hscope : b.scope ∈ stack.map Scope.id) : b.start + b.size ≤ limit := by
  induction stack generalizing limit with
  | nil => cases hscope
  | cons σ stack ih =>
      obtain ⟨hoffset, hown, hbelow⟩ := h
      rcases List.mem_cons.mp hscope with heq | hscope
      · exact hown b hb heq
      · exact (ih hbelow hscope).trans hoffset

theorem Holds.openScope (h : Holds a stack) : Holds a.openScope (a.scope :: stack) := by
  obtain ⟨horderly, hsorted, hopened, hfresh, hlive, hnewer, hlayered⟩ := h
  have hpushed : ∀ b, .pushed b ∈ a.openScope.history → .pushed b ∈ a.history := by
    intro b hb
    exact List.mem_of_ne_of_mem Event.noConfusion hb
  have hne : ∀ σ ∈ stack, Event.opened a.next ≠ .opened σ.id := by
    intro σ hσ heq
    exact absurd (Event.opened.inj heq) (hopened σ hσ).ne'
  constructor
  · exact horderly.cons (fun _ heq => (by cases heq)) fun _ heq => (by cases heq)
  · refine List.pairwise_cons.mpr ⟨fun id hid => ?_, hsorted⟩
    obtain ⟨σ, hσ, rfl⟩ := List.mem_map.mp hid
    exact hopened σ hσ
  · intro σ hσ
    rcases List.mem_cons.mp hσ with rfl | hσ
    · exact Nat.lt_succ_self _
    · exact (hopened σ hσ).trans (Nat.lt_succ_self _)
  · exact fun b hb => (hfresh b (hpushed b hb)).trans (Nat.lt_succ_self _)
  · intro b hb hended
    exact List.mem_cons_of_mem _ (hlive b (hpushed b hb) fun hmem => hended (List.mem_cons_of_mem _ hmem))
  · intro σ hσ b hb
    rcases List.mem_cons.mp hσ with rfl | hσ
    · rw [Arena.openScope, Arena.scope, since_opened] at hb
      cases hb
    · rw [Arena.openScope, since_cons (hne σ hσ)] at hb
      exact (hnewer σ hσ b (List.mem_of_ne_of_mem Event.noConfusion hb)).imp_left (List.mem_cons_of_mem _)
  · refine ⟨le_rfl, fun b hb hscope => ?_, hlayered.congr fun _ _ b hb _ => hpushed b hb⟩
    exact absurd hscope (hfresh b (hpushed b hb)).ne

/-- Only the innermost scope allocates. -/
theorem Holds.push (h : Holds a (σ :: stack)) (r : Request) : Holds (a.push σ r) (σ :: stack) := by
  obtain ⟨horderly, hsorted, hopened, hfresh, hlive, hnewer, hlayered⟩ := h
  have hended : ∀ {id}, Event.ended id ∈ (a.push σ r).history → .ended id ∈ a.history :=
    fun hmem => List.mem_of_ne_of_mem Event.noConfusion hmem
  have habove : ∀ τ ∈ stack, τ.id < σ.id := fun τ hτ =>
    (List.pairwise_cons.mp hsorted).1 _ (List.mem_map_of_mem hτ)
  have hpushed : ∀ b, .pushed b ∈ (a.push σ r).history → b = ⟨σ.id, a.offset + r.skip, r.size⟩ ∨ .pushed b ∈ a.history := by
    intro b hb
    exact (List.mem_cons.mp hb).imp_left Event.pushed.inj
  constructor
  · refine horderly.cons (fun _ heq => (by cases heq)) fun b heq c hc hnot => Or.inl ?_
    have hle := hlayered.le hc (hlive c hc hnot)
    cases heq
    dsimp only
    omega
  · exact hsorted
  · exact hopened
  · intro b hb
    rcases hpushed b hb with rfl | hb
    · exact hopened σ List.mem_cons_self
    · exact hfresh b hb
  · intro b hb hnot
    rcases hpushed b hb with rfl | hb
    · exact List.mem_cons_self
    · exact hlive b hb fun hmem => hnot (List.mem_cons_of_mem _ hmem)
  · intro τ hτ b hb
    rw [Arena.push, since_cons Event.noConfusion] at hb
    rcases List.mem_cons.mp hb with heq | hb
    · rw [Event.pushed.inj heq]
      rcases List.mem_cons.mp hτ with rfl | hτ
      · exact Or.inr le_rfl
      · exact Or.inr (habove τ hτ).le
    · exact (hnewer τ hτ b hb).imp_left (List.mem_cons_of_mem _)
  · obtain ⟨hoffset, hown, hbelow⟩ := hlayered
    refine ⟨by dsimp only [Arena.push]; omega, fun b hb hscope => ?_, hbelow.congr fun τ hτ b hb hscope => ?_⟩
    · dsimp only [Arena.push]
      rcases hpushed b hb with rfl | hb
      · exact le_rfl
      · have hle := hown b hb hscope
        omega
    · rcases hpushed b hb with rfl | hb
      · exact absurd hscope (habove τ hτ).ne'
      · exact hb

theorem Holds.pushAll (h : Holds a (σ :: stack)) (requests : List Request) :
    Holds (a.pushAll σ requests) (σ :: stack) := by
  induction requests generalizing a with
  | nil => exact h
  | cons r requests ih => exact ih (h.push r)

/-- Only the innermost scope ends. -/
theorem Holds.close (h : Holds a (σ :: stack)) : Holds (a.close σ) stack := by
  obtain ⟨horderly, hsorted, hopened, hfresh, hlive, hnewer, hlayered⟩ := h
  have hpushed : ∀ {b}, .pushed b ∈ (a.close σ).history → .pushed b ∈ a.history :=
    fun hb => List.mem_of_ne_of_mem Event.noConfusion hb
  have hbelow := (List.pairwise_cons.mp hsorted).1
  constructor
  · refine horderly.cons (fun scope heq b hb => ?_) fun _ heq => (by cases heq)
    cases heq
    refine or_iff_not_imp_right.mpr fun hnot => ?_
    have hmem : b.scope ∈ (σ :: stack).map Scope.id := hlive b ((List.takeWhile_prefix _).subset hb) hnot
    have hle : σ.id ≤ b.scope := (hnewer σ List.mem_cons_self b hb).resolve_left hnot
    rcases List.mem_cons.mp hmem with heq | hmem
    · exact heq
    · exact absurd (hbelow _ hmem) hle.not_gt
  · exact (List.pairwise_cons.mp hsorted).2
  · exact fun τ hτ => hopened τ (List.mem_cons_of_mem σ hτ)
  · exact fun b hb => hfresh b (hpushed hb)
  · intro b hb hnot
    have hmem : b.scope ∈ (σ :: stack).map Scope.id :=
      hlive b (hpushed hb) fun hmem => hnot (List.mem_cons_of_mem _ hmem)
    refine (List.mem_cons.mp hmem).resolve_left fun heq => hnot ?_
    rw [heq]
    exact List.mem_cons_self
  · intro τ hτ b hb
    rw [Arena.close, since_cons Event.noConfusion] at hb
    exact (hnewer τ (List.mem_cons_of_mem σ hτ) b (List.mem_of_ne_of_mem Event.noConfusion hb)).imp_left
      (List.mem_cons_of_mem _)
  · exact hlayered.2.2.congr fun _ _ b hb _ => hpushed hb

end

/-! ### Tasks that open no scope -/

section

variable {c d : Code} {p q : Proc} {σ : Scope} {a a' : Arena} {stack : List Scope} {path : List Bool} {r : Proc × Arena}

theorem Proc.Quiet.scopes (h : p.Quiet) : p.scopes = [] := by
  induction p with
  | done => rfl
  | waiting => rfl
  | seq p d ih => exact ih h.1
  | scope σ p ih => exact h.elim
  | both p q ihp ihq => rw [Proc.scopes, ihp h.1, ihq h.2, List.append_nil]

theorem join_quiet (hp : p.Quiet) (hq : q.Quiet) : (join p q).Quiet := by
  rw [join.eq_def]
  split
  · trivial
  · exact ⟨hp, hq⟩

theorem Code.Quiet.start (h : c.Quiet) (a : Arena) : (start c a).2 = a ∧ (Scratch.start c a).1.Quiet := by
  induction c generalizing a with
  | skip => exact ⟨rfl, trivial⟩
  | wait => exact ⟨rfl, trivial⟩
  | seq c d ihc ihd =>
      obtain ⟨harena, hquiet⟩ := ihc h.1 a
      rw [Scratch.start]
      split
      next a' heq =>
        rw [heq] at harena
        obtain rfl : a' = a := harena
        exact ihd h.2 a'
      next p a' _ heq =>
        rw [heq] at harena hquiet
        exact ⟨harena, hquiet, h.2⟩
  | scope requests body ih => exact h.elim
  | both c d ihc ihd =>
      obtain ⟨harena, hquiet⟩ := ihc h.1 a
      obtain ⟨harena', hquiet'⟩ := ihd h.2 (Scratch.start c a).2
      exact ⟨harena'.trans harena, join_quiet hquiet hquiet'⟩

theorem andThen_quiet (hr : r.1.Quiet) (hd : d.Quiet) : (andThen d r).2 = r.2 ∧ (andThen d r).1.Quiet := by
  rw [andThen.eq_def]
  split
  next a => exact hd.start a
  next p a _ => exact ⟨rfl, hr, hd⟩

theorem Proc.Quiet.resume (h : p.Quiet) (hr : resume p path a = some r) : r.2 = a ∧ r.1.Quiet := by
  induction p generalizing path r with
  | done => cases hr
  | waiting =>
      cases path with
      | nil =>
          cases hr
          exact ⟨rfl, trivial⟩
      | cons b path => cases hr
  | seq p d ih =>
      obtain ⟨r', hr', rfl⟩ := Option.map_eq_some_iff.mp hr
      obtain ⟨harena, hquiet⟩ := ih h.1 hr'
      obtain ⟨harena', hquiet'⟩ := andThen_quiet hquiet h.2
      exact ⟨harena'.trans harena, hquiet'⟩
  | scope σ p ih => exact h.elim
  | both p q ihp ihq =>
      cases path with
      | nil => cases hr
      | cons b path =>
          cases b with
          | false =>
              obtain ⟨r', hr', rfl⟩ := Option.map_eq_some_iff.mp hr
              obtain ⟨harena, hquiet⟩ := ihp h.1 hr'
              exact ⟨harena, join_quiet hquiet h.2⟩
          | true =>
              obtain ⟨r', hr', rfl⟩ := Option.map_eq_some_iff.mp hr
              obtain ⟨harena, hquiet⟩ := ihq h.2 hr'
              exact ⟨harena, join_quiet h.1 hquiet⟩

theorem Proc.Quiet.destroy (h : p.Quiet) (a : Arena) : destroy p a = a := by
  induction p generalizing a with
  | done => rfl
  | waiting => rfl
  | seq p d ih => exact ih h.1 a
  | scope σ p ih => exact h.elim
  | both p q ihp ihq => rw [Scratch.destroy, ihp h.1, ihq h.2]

/-! ### Tasks whose scopes nest -/

theorem Code.Quiet.nests (h : c.Quiet) : c.Nests := by
  induction c with
  | skip => trivial
  | wait => trivial
  | seq c d ihc ihd => exact ⟨ihc h.1, ihd h.2⟩
  | scope requests body ih => exact h.elim
  | both c d ihc ihd => exact h

theorem Proc.Quiet.nests (h : p.Quiet) : p.Nests := by
  induction p with
  | done => trivial
  | waiting => trivial
  | seq p d ih => exact ⟨ih h.1, h.2.nests⟩
  | scope σ p ih => exact h.elim
  | both p q ihp ihq => exact h

theorem leave_holds (hnests : r.1.Nests) (h : Holds r.2 (r.1.scopes ++ σ :: stack)) :
    (leave σ r).1.Nests ∧ Holds (leave σ r).2 ((leave σ r).1.scopes ++ stack) := by
  rw [leave.eq_def]
  split
  next a => exact ⟨trivial, h.close⟩
  next p a _ =>
    refine ⟨hnests, ?_⟩
    rw [Proc.scopes, List.append_assoc]
    exact h

theorem join_holds (hp : p.Quiet) (hq : q.Quiet) (h : Holds a stack) :
    (join p q).Nests ∧ Holds a ((join p q).scopes ++ stack) := by
  have hquiet := join_quiet hp hq
  rw [hquiet.scopes]
  refine ⟨?_, h⟩
  rw [join.eq_def]
  split
  · trivial
  · exact ⟨hp, hq⟩

/-- A task works on top of what is open. -/
theorem Code.Nests.start (hnests : c.Nests) (h : Holds a stack) :
    (Scratch.start c a).1.Nests ∧ Holds (Scratch.start c a).2 ((Scratch.start c a).1.scopes ++ stack) := by
  induction c generalizing a stack with
  | skip => exact ⟨trivial, h⟩
  | wait => exact ⟨trivial, h⟩
  | seq c d ihc ihd =>
      obtain ⟨hp, hheld⟩ := ihc hnests.1 h
      rw [Scratch.start]
      split
      next a' heq =>
        rw [heq] at hheld
        exact ihd hnests.2 hheld
      next p a' _ heq =>
        rw [heq] at hp hheld
        exact ⟨⟨hp, hnests.2⟩, hheld⟩
  | scope requests body ih =>
      obtain ⟨hp, hheld⟩ := ih hnests (h.openScope.pushAll requests)
      exact leave_holds hp hheld
  | both c d ihc ihd =>
      obtain ⟨harena, hquiet⟩ := hnests.1.start a
      obtain ⟨harena', hquiet'⟩ := hnests.2.start (Scratch.start c a).2
      rw [Scratch.start]
      dsimp only
      rw [harena', harena]
      rw [harena] at hquiet'
      exact join_holds hquiet hquiet' h

theorem andThen_holds (hr : r.1.Nests) (hd : d.Nests) (h : Holds r.2 (r.1.scopes ++ stack)) :
    (andThen d r).1.Nests ∧ Holds (andThen d r).2 ((andThen d r).1.scopes ++ stack) := by
  rw [andThen.eq_def]
  split
  next a => exact hd.start h
  next p a _ => exact ⟨⟨hr, hd⟩, h⟩

theorem Proc.Nests.resume (hnests : p.Nests) (h : Holds a (p.scopes ++ stack)) (hr : resume p path a = some r) :
    r.1.Nests ∧ Holds r.2 (r.1.scopes ++ stack) := by
  induction p generalizing path r stack with
  | done => cases hr
  | waiting =>
      cases path with
      | nil =>
          cases hr
          exact ⟨trivial, h⟩
      | cons b path => cases hr
  | seq p d ih =>
      obtain ⟨r', hr', rfl⟩ := Option.map_eq_some_iff.mp hr
      obtain ⟨hp, hheld⟩ := ih hnests.1 h hr'
      exact andThen_holds hp hnests.2 hheld
  | scope σ p ih =>
      obtain ⟨r', hr', rfl⟩ := Option.map_eq_some_iff.mp hr
      rw [Proc.scopes, List.append_assoc] at h
      obtain ⟨hp, hheld⟩ := ih hnests h hr'
      exact leave_holds hp hheld
  | both p q ihp ihq =>
      have hquiet : (Proc.both p q).Quiet := hnests
      rw [hquiet.scopes] at h
      obtain ⟨harena, hquiet'⟩ := hquiet.resume hr
      rw [harena, hquiet'.scopes]
      refine ⟨?_, h⟩
      cases path with
      | nil => cases hr
      | cons b path =>
          cases b with
          | false =>
              obtain ⟨r', hr', rfl⟩ := Option.map_eq_some_iff.mp hr
              exact (join_holds (hquiet.1.resume hr').2 hquiet.2 h).1
          | true =>
              obtain ⟨r', hr', rfl⟩ := Option.map_eq_some_iff.mp hr
              exact (join_holds hquiet.1 (hquiet.2.resume hr').2 h).1

/-- A task that is destroyed ends the scopes it has open. -/
theorem Proc.Nests.destroy (hnests : p.Nests) (h : Holds a (p.scopes ++ stack)) : Holds (Scratch.destroy p a) stack := by
  induction p generalizing a stack with
  | done => exact h
  | waiting => exact h
  | seq p d ih => exact ih hnests.1 h
  | scope σ p ih =>
      rw [Proc.scopes, List.append_assoc] at h
      exact (ih hnests h).close
  | both p q ihp ihq =>
      have hquiet : (Proc.both p q).Quiet := hnests
      rw [hquiet.scopes] at h
      rw [hquiet.destroy]
      exact h

end

end Plexdb.Scratch
