import Plexdb.RingFifo
import Plexdb.RoundRobin
import Plexdb.Runs

/-! The pool of network buffers (`uring::BufferPool`, `core/os/uring.cppm`) and the coroutines of the
connections that share it. They run on one thread: a release resumes the first waiter on the spot, which
tries again for a buffer and runs until it suspends, and only then the release returns. So what is being
executed is a stack. -/

namespace Plexdb.Buffers

/-- The coroutine of a connection. -/
abbrev Coroutine := Nat

inductive Phase where
  | fresh
  | suspended
  | waiting
  | running
  | done
  | destroyed
  deriving DecidableEq

/-- `held` are the buffers that a coroutine acquired and did not release. -/
structure State (N : Nat) where
  bufferCount : Nat
  nextFree : Nat
  inUse : Nat → Bool
  waiters : RingFifo Coroutine N
  held : Coroutine → List Nat
  phase : Coroutine → Phase
  stack : List Coroutine
  connections : List Coroutine

/-- A failed assertion, or the resumption of a coroutine that does not wait there. -/
inductive Fault where
  | assertion
  | dangling
  deriving DecidableEq

variable {N : Nat}

def init (N bufferCount : Nat) : State N where
  bufferCount := bufferCount
  nextFree := 0
  inUse := fun _ => false
  waiters := {}
  held := fun _ => []
  phase := fun _ => .fresh
  stack := []
  connections := []

/-! ### The pool -/

def tryAcquire (s : State N) : Option Nat := RoundRobin.search s.inUse s.bufferCount s.nextFree

def take (c : Coroutine) (idx : Nat) (s : State N) : State N :=
  { s with
    inUse := Function.update s.inUse idx true
    nextFree := (idx + 1) % s.bufferCount
    held := Function.update s.held c (idx :: s.held c) }

/-- A round of the loop in `acquire` of the coroutine `c` that runs. -/
def acquire (c : Coroutine) (s : State N) : Except Fault (State N) :=
  match tryAcquire s with
  | some idx => .ok (take c idx s)
  | none =>
      match s.waiters.pushFront c with
      | none => .error .assertion
      | some waiters =>
          .ok { s with
            waiters := waiters
            phase := Function.update s.phase c .waiting
            stack := s.stack.tail }

/-- `release`: the first waiter is resumed, and goes on in its loop. -/
def release (c : Coroutine) (idx : Nat) (s : State N) : Except Fault (State N) :=
  let s := { s with
    inUse := Function.update s.inUse idx false
    held := Function.update s.held c ((s.held c).erase idx) }
  if s.waiters.empty then .ok s
  else
    match s.waiters.popFront with
    | none => .error .assertion
    | some (w, waiters) =>
        if s.phase w = .waiting then
          acquire w { s with
            waiters := waiters
            phase := Function.update s.phase w .running
            stack := w :: s.stack }
        else .error .dangling

/-! ### Connections -/

/-- `destroy` is the reset of a connection's task, which leaves the queue as it is. -/
inductive Action where
  | accept (c : Coroutine)
  | resume (c : Coroutine)
  | suspend
  | finish
  | acquire
  | release (idx : Nat)
  | destroy (c : Coroutine)
  deriving DecidableEq

/-- Runs `f` on the coroutine that is executing. -/
def State.onCurrent (s : State N) (f : Coroutine → Except Fault (State N)) : Except Fault (State N) :=
  match s.stack with
  | c :: _ => f c
  | [] => .ok s

/-- What can come next. A coroutine that waits in `acquire` is resumed by nobody but `release`, and only
one that is not executing is destroyed. -/
def possible (s : State N) : Action → Bool
  | .accept c => s.phase c = .fresh
  | .resume c => s.phase c = .suspended
  | .suspend | .finish | .acquire => s.stack ≠ []
  | .release idx => s.stack.head?.any fun c => (s.held c).contains idx
  | .destroy c => s.phase c = .suspended || s.phase c = .waiting || s.phase c = .done

def perform (s : State N) : Action → Except Fault (State N)
  | .accept c =>
      .ok { s with
        phase := Function.update s.phase c .running
        stack := c :: s.stack
        connections := c :: s.connections }
  | .resume c => .ok { s with phase := Function.update s.phase c .running, stack := c :: s.stack }
  | .suspend =>
      s.onCurrent fun c => .ok { s with phase := Function.update s.phase c .suspended, stack := s.stack.tail }
  | .finish => s.onCurrent fun c => .ok { s with phase := Function.update s.phase c .done, stack := s.stack.tail }
  | .acquire => s.onCurrent fun c => Buffers.acquire c s
  | .release idx => s.onCurrent fun c => Buffers.release c idx s
  | .destroy c =>
      .ok { s with
        phase := Function.update s.phase c .destroyed
        connections := s.connections.erase c }

def step (s : State N) (a : Action) : Option (State N) := (perform s a).toOption

/-- At most `N` connections; none is torn down while its coroutine waits for a buffer; and one that runs
asks for a buffer while another of the `N` connections does not wait. -/
def Spared (s : State N) : Action → Prop
  | .accept _ => s.connections.length < N
  | .acquire => s.connections.length < N ∨ ∃ c ∈ s.connections, c ∉ s.stack.head? ∧ s.phase c ≠ .waiting
  | .destroy c => s.phase c ≠ .waiting
  | _ => True

instance (s : State N) : (a : Action) → Decidable (Spared s a)
  | .accept _ => inferInstanceAs (Decidable (_ < _))
  | .acquire => inferInstanceAs (Decidable (_ ∨ ∃ c ∈ s.connections, c ∉ s.stack.head? ∧ s.phase c ≠ .waiting))
  | .destroy _ => inferInstanceAs (Decidable (_ ≠ _))
  | .resume _ | .suspend | .finish | .release _ => isTrue trivial

/-! ### The law -/

/-- The queue holds exactly the coroutines that wait, and they are connected. -/
structure Queued (s : State N) (q : List Coroutine) : Prop where
  holds : s.waiters.Holds q
  nodup : q.Nodup
  waiting : ∀ c, c ∈ q ↔ s.phase c = .waiting
  connected : ∀ c, c ∈ s.connections ↔ s.phase c ≠ .fresh ∧ s.phase c ≠ .destroyed
  distinct : s.connections.Nodup
  bounded : s.connections.length ≤ N

/-- A buffer is in use exactly when one coroutine holds it, and by one only. -/
structure Exclusive (s : State N) : Prop where
  inUse : ∀ i < s.bufferCount, s.inUse i = true ↔ ∃ c, i ∈ s.held c
  nodup : ∀ c, (s.held c).Nodup
  unique : ∀ c c' i, i ∈ s.held c → i ∈ s.held c' → c = c'
  inRange : ∀ c, ∀ i ∈ s.held c, i < s.bufferCount
  next : s.nextFree < s.bufferCount

/-- What executes is running, each coroutine once. -/
structure Stacked (s : State N) : Prop where
  running : ∀ c, c ∈ s.stack ↔ s.phase c = .running
  nodup : s.stack.Nodup

structure Lawful (s : State N) (q : List Coroutine) : Prop where
  queued : Queued s q
  exclusive : Exclusive s
  stacked : Stacked s
  full : q ≠ [] → ∀ i < s.bufferCount, s.inUse i = true

/-! ### What each step keeps -/

section

variable {s : State N} {q : List Coroutine} {c : Coroutine}

theorem lawful_init {bufferCount : Nat} (hN : 0 < N) (hpos : 0 < bufferCount) : Lawful (init N bufferCount) [] where
  queued := ⟨RingFifo.holds_nil hN, List.nodup_nil, by simp [init], by simp [init], List.nodup_nil, Nat.zero_le N⟩
  exclusive := ⟨by simp [init], fun _ => List.nodup_nil, by simp [init], by simp [init], hpos⟩
  stacked := ⟨by simp [init], List.nodup_nil⟩
  full h := absurd rfl h

/-- A change of phase that does not matter to `R`. -/
theorem update_phase_iff {f : Coroutine → Phase} {p : Phase} {R : Phase → Prop} (h : R (f c) ↔ R p)
    (d : Coroutine) : R (f d) ↔ R (Function.update f c p d) := by
  by_cases hd : d = c
  · rw [hd, Function.update_self]
    exact h
  · rw [Function.update_of_ne hd]

/-- A coroutine that neither waited nor waits now changes its phase. -/
theorem Queued.setPhase (h : Queued s q) {p : Phase} (hold : s.phase c ≠ .waiting) (hnew : p ≠ .waiting)
    (hconnected : s.phase c ≠ .fresh ∧ s.phase c ≠ .destroyed) (halive : p ≠ .fresh ∧ p ≠ .destroyed) :
    Queued { s with phase := Function.update s.phase c p } q := by
  refine ⟨h.holds, h.nodup, fun d => (h.waiting d).trans ?_, fun d => (h.connected d).trans ?_, h.distinct, h.bounded⟩
  · exact update_phase_iff (R := fun p => p = .waiting) (iff_of_false hold hnew) d
  · exact update_phase_iff (R := fun p => p ≠ .fresh ∧ p ≠ .destroyed) (iff_of_true hconnected halive) d

theorem Stacked.push (h : Stacked s) (hc : s.phase c ≠ .running) :
    Stacked { s with phase := Function.update s.phase c .running, stack := c :: s.stack } := by
  refine ⟨fun d => ?_, List.nodup_cons.mpr ⟨fun hmem => hc ((h.running c).mp hmem), h.nodup⟩⟩
  change d ∈ c :: s.stack ↔ Function.update s.phase c .running d = .running
  rw [List.mem_cons]
  by_cases hd : d = c
  · subst hd
    rw [Function.update_self]
    exact iff_of_true (Or.inl rfl) rfl
  · rw [Function.update_of_ne hd, ← h.running d]
    exact or_iff_right hd

theorem Stacked.pop {fs : List Coroutine} (h : Stacked s) (hstack : s.stack = c :: fs) {p : Phase} (hp : p ≠ .running) :
    Stacked { s with phase := Function.update s.phase c p, stack := s.stack.tail } := by
  have hnodup := h.nodup
  rw [hstack] at hnodup
  obtain ⟨hnot, hrest⟩ := List.nodup_cons.mp hnodup
  refine ⟨fun d => ?_, ?_⟩
  · change d ∈ s.stack.tail ↔ Function.update s.phase c p d = .running
    rw [hstack, List.tail_cons]
    by_cases hd : d = c
    · subst hd
      rw [Function.update_self]
      exact iff_of_false hnot hp
    · rw [Function.update_of_ne hd, ← h.running d, hstack, List.mem_cons]
      exact (or_iff_right hd).symm
  · change s.stack.tail.Nodup
    rw [hstack]
    exact hrest

theorem Stacked.phase_of_top {fs : List Coroutine} (h : Stacked s) (hstack : s.stack = c :: fs) :
    s.phase c = .running :=
  (h.running c).mp (hstack ▸ List.mem_cons_self)

/-- A coroutine stops running without waiting. -/
theorem Lawful.leave {fs : List Coroutine} (h : Lawful s q) (hstack : s.stack = c :: fs) {p : Phase}
    (hp : p = .suspended ∨ p = .done) :
    Lawful { s with phase := Function.update s.phase c p, stack := s.stack.tail } q := by
  have hrun := h.stacked.phase_of_top hstack
  have hne : p ≠ .running ∧ p ≠ .waiting ∧ p ≠ .fresh ∧ p ≠ .destroyed := by
    rcases hp with rfl | rfl <;> decide
  have hset := h.queued.setPhase (c := c) (by rw [hrun]; decide) hne.2.1 (by rw [hrun]; decide) hne.2.2
  refine ⟨⟨hset.holds, hset.nodup, hset.waiting, hset.connected, hset.distinct, hset.bounded⟩, ?_,
    h.stacked.pop hstack hne.1, h.full⟩
  exact ⟨h.exclusive.inUse, h.exclusive.nodup, h.exclusive.unique, h.exclusive.inRange, h.exclusive.next⟩

/-- A suspended coroutine runs. -/
theorem Lawful.enter (h : Lawful s q) (hphase : s.phase c = .suspended) :
    Lawful { s with phase := Function.update s.phase c .running, stack := c :: s.stack } q := by
  have hset := h.queued.setPhase (c := c) (p := .running) (by rw [hphase]; decide) (by decide) (by rw [hphase]; decide)
    (by decide)
  refine ⟨⟨hset.holds, hset.nodup, hset.waiting, hset.connected, hset.distinct, hset.bounded⟩, ?_,
    h.stacked.push (by rw [hphase]; decide), h.full⟩
  exact ⟨h.exclusive.inUse, h.exclusive.nodup, h.exclusive.unique, h.exclusive.inRange, h.exclusive.next⟩

theorem Lawful.accept (h : Lawful s q) (hphase : s.phase c = .fresh) (hroom : s.connections.length < N) :
    Lawful { s with
      phase := Function.update s.phase c .running
      stack := c :: s.stack
      connections := c :: s.connections } q := by
  have hnot : c ∉ s.connections := fun hmem => ((h.queued.connected c).mp hmem).1 hphase
  refine ⟨⟨h.queued.holds, h.queued.nodup, fun d => (h.queued.waiting d).trans ?_, fun d => ?_,
    List.nodup_cons.mpr ⟨hnot, h.queued.distinct⟩, hroom⟩, ?_, ?_, h.full⟩
  · exact update_phase_iff (R := fun p => p = .waiting) (by rw [hphase]; decide) d
  · change d ∈ c :: s.connections ↔ Function.update s.phase c .running d ≠ .fresh ∧ Function.update s.phase c .running d ≠ .destroyed
    rw [List.mem_cons, h.queued.connected d]
    by_cases hd : d = c
    · subst hd
      rw [Function.update_self]
      exact iff_of_true (Or.inl rfl) (by decide)
    · rw [Function.update_of_ne hd]
      exact or_iff_right hd
  · exact ⟨h.exclusive.inUse, h.exclusive.nodup, h.exclusive.unique, h.exclusive.inRange, h.exclusive.next⟩
  · have hpush := h.stacked.push (c := c) (by rw [hphase]; decide)
    exact ⟨hpush.running, hpush.nodup⟩

theorem Lawful.destroy (h : Lawful s q) (hphase : s.phase c = .suspended ∨ s.phase c = .done) :
    Lawful { s with phase := Function.update s.phase c .destroyed, connections := s.connections.erase c } q := by
  have hne : s.phase c ≠ .waiting ∧ s.phase c ≠ .running := by
    rcases hphase with hphase | hphase <;> rw [hphase] <;> decide
  refine ⟨⟨h.queued.holds, h.queued.nodup, fun d => (h.queued.waiting d).trans ?_, fun d => ?_,
    h.queued.distinct.erase c, (List.length_erase_le).trans h.queued.bounded⟩, ?_, ?_, h.full⟩
  · exact update_phase_iff (R := fun p => p = .waiting) (iff_of_false hne.1 (by decide)) d
  · change d ∈ s.connections.erase c ↔
      Function.update s.phase c .destroyed d ≠ .fresh ∧ Function.update s.phase c .destroyed d ≠ .destroyed
    rw [h.queued.distinct.mem_erase_iff, h.queued.connected d]
    by_cases hd : d = c
    · subst hd
      rw [Function.update_self]
      exact iff_of_false (fun hmem => hmem.1 rfl) (fun hmem => hmem.2 rfl)
    · rw [Function.update_of_ne hd]
      exact and_iff_right hd
  · exact ⟨h.exclusive.inUse, h.exclusive.nodup, h.exclusive.unique, h.exclusive.inRange, h.exclusive.next⟩
  · refine ⟨fun d => (h.stacked.running d).trans ?_, h.stacked.nodup⟩
    exact update_phase_iff (R := fun p => p = .running) (iff_of_false hne.2 (by decide)) d

/-! ### Buffers -/

theorem exclusive_take (h : Exclusive s) {idx : Nat} (hidx : idx < s.bufferCount) (hfree : s.inUse idx = false) :
    Exclusive (take c idx s) := by
  have hnone : ∀ d, idx ∉ s.held d := fun d hmem => by
    cases ((h.inUse idx hidx).mpr ⟨d, hmem⟩).symm.trans hfree
  have hheld : ∀ d i, i ∈ (take c idx s).held d ↔ i ∈ s.held d ∨ (d = c ∧ i = idx) := by
    intro d i
    change i ∈ Function.update s.held c (idx :: s.held c) d ↔ _
    by_cases hd : d = c
    · subst hd
      rw [Function.update_self, List.mem_cons, or_comm, and_iff_right rfl]
    · rw [Function.update_of_ne hd]
      exact (or_iff_left fun hand => hd hand.1).symm
  refine ⟨fun i hi => ?_, fun d => ?_, fun d d' i hd hd' => ?_, fun d i hi => ?_, Nat.mod_lt _ (Nat.zero_lt_of_lt hidx)⟩
  · change Function.update s.inUse idx true i = true ↔ _
    by_cases heq : i = idx
    · subst heq
      rw [Function.update_self]
      exact iff_of_true rfl ⟨c, (hheld c i).mpr (Or.inr ⟨rfl, rfl⟩)⟩
    · rw [Function.update_of_ne heq, h.inUse i hi]
      exact exists_congr fun d => ((hheld d i).trans (or_iff_left fun hand => heq hand.2)).symm
  · change (Function.update s.held c (idx :: s.held c) d).Nodup
    by_cases hd : d = c
    · subst hd
      rw [Function.update_self]
      exact List.nodup_cons.mpr ⟨hnone d, h.nodup d⟩
    · rw [Function.update_of_ne hd]
      exact h.nodup d
  · rcases (hheld d i).mp hd with hold | ⟨rfl, rfl⟩
    · rcases (hheld d' i).mp hd' with hold' | ⟨rfl, rfl⟩
      · exact h.unique d d' i hold hold'
      · exact absurd hold (hnone d)
    · rcases (hheld d' i).mp hd' with hold' | ⟨rfl, -⟩
      · exact absurd hold' (hnone d')
      · rfl
  · rcases (hheld d i).mp hi with hi | ⟨-, rfl⟩
    · exact h.inRange d i hi
    · exact hidx

def give (c : Coroutine) (idx : Nat) (s : State N) : State N :=
  { s with inUse := Function.update s.inUse idx false, held := Function.update s.held c ((s.held c).erase idx) }

theorem exclusive_give (h : Exclusive s) {idx : Nat} (hidx : idx ∈ s.held c) : Exclusive (give c idx s) := by
  have hheld : ∀ d i, i ∈ (give c idx s).held d ↔ i ∈ s.held d ∧ i ≠ idx := by
    intro d i
    change i ∈ Function.update s.held c ((s.held c).erase idx) d ↔ _
    by_cases hd : d = c
    · subst hd
      rw [Function.update_self, (h.nodup d).mem_erase_iff, and_comm]
    · rw [Function.update_of_ne hd]
      refine (and_iff_left_of_imp fun hmem heq => hd ?_).symm
      exact h.unique d c idx (heq ▸ hmem) hidx
  refine ⟨fun i hi => ?_, fun d => ?_, fun d d' i hd hd' => ?_, fun d i hi => ?_, h.next⟩
  · change Function.update s.inUse idx false i = true ↔ _
    by_cases heq : i = idx
    · subst heq
      rw [Function.update_self]
      refine iff_of_false Bool.false_ne_true ?_
      rintro ⟨d, hd⟩
      exact ((hheld d i).mp hd).2 rfl
    · rw [Function.update_of_ne heq, h.inUse i hi]
      exact exists_congr fun d => ((hheld d i).trans (and_iff_left heq)).symm
  · change (Function.update s.held c ((s.held c).erase idx) d).Nodup
    by_cases hd : d = c
    · subst hd
      rw [Function.update_self]
      exact (h.nodup d).erase idx
    · rw [Function.update_of_ne hd]
      exact h.nodup d
  · exact h.unique d d' i ((hheld d i).mp hd).1 ((hheld d' i).mp hd').1
  · exact h.inRange d i ((hheld d i).mp hi).1

/-- The queue with one more waiter has room as long as another connection does not wait. -/
theorem Queued.length_lt (h : Queued s q) (hc : c ∈ s.connections) (hphase : s.phase c ≠ .waiting)
    (hother : s.connections.length < N ∨ ∃ d ∈ s.connections, d ≠ c ∧ s.phase d ≠ .waiting) : q.length + 1 < N := by
  have hsub : q ⊆ s.connections.erase c := fun d hd => by
    have hwait := (h.waiting d).mp hd
    refine h.distinct.mem_erase_iff.mpr ⟨fun heq => hphase (heq ▸ hwait), (h.connected d).mpr ?_⟩
    rw [hwait]
    decide
  have hlen := List.length_erase_of_mem hc
  have hpos := List.length_pos_of_mem hc
  rcases hother with hroom | ⟨d, hd, hne, hdphase⟩
  · have := (List.subperm_of_subset h.nodup hsub).length_le
    omega
  · have hd' : d ∈ s.connections.erase c := h.distinct.mem_erase_iff.mpr ⟨hne, hd⟩
    have hsub' : q ⊆ (s.connections.erase c).erase d := fun e he => by
      refine (h.distinct.erase c).mem_erase_iff.mpr ⟨fun heq => hdphase ?_, hsub he⟩
      exact heq ▸ (h.waiting e).mp he
    have := (List.subperm_of_subset h.nodup hsub').length_le
    have := List.length_erase_of_mem hd'
    have := List.length_pos_of_mem hd'
    have := h.bounded
    omega

/-- A round in `acquire`, where at most one buffer is free if anyone waits. -/
theorem lawful_acquire {fs : List Coroutine} (hqueued : Queued s q) (hexclusive : Exclusive s) (hstacked : Stacked s)
    (hstack : s.stack = c :: fs)
    (hone : q ≠ [] → ∀ i < s.bufferCount, ∀ j < s.bufferCount, s.inUse i = false → s.inUse j = false → i = j)
    (hroom : tryAcquire s = none → q.length + 1 < N) : ∃ s' q', acquire c s = .ok s' ∧ Lawful s' q' := by
  have hrun := hstacked.phase_of_top hstack
  rw [acquire]
  cases htry : tryAcquire s with
  | some idx =>
      obtain ⟨hidx, hfree⟩ := RoundRobin.search_eq_some hexclusive.next htry
      refine ⟨take c idx s, q, rfl, ?_, exclusive_take hexclusive hidx hfree, ⟨hstacked.running, hstacked.nodup⟩,
        fun hq i hi => ?_⟩
      · exact ⟨hqueued.holds, hqueued.nodup, hqueued.waiting, hqueued.connected, hqueued.distinct, hqueued.bounded⟩
      · change Function.update s.inUse idx true i = true
        by_cases heq : i = idx
        · rw [heq, Function.update_self]
        · rw [Function.update_of_ne heq]
          by_contra hnot
          exact heq (hone hq i hi idx hidx (by simpa using hnot) hfree)
  | none =>
      obtain ⟨waiters, hpush, hholds⟩ := hqueued.holds.pushFront (hroom htry) c
      dsimp only
      rw [hpush]
      have hnot : c ∉ q := fun hmem => by
        cases hrun.symm.trans ((hqueued.waiting c).mp hmem)
      have hpop := hstacked.pop hstack (p := .waiting) (by decide)
      refine ⟨_, q ++ [c], rfl, ⟨hholds, ?_, fun d => ?_, fun d => ?_, hqueued.distinct, hqueued.bounded⟩, ?_,
        ⟨hpop.running, hpop.nodup⟩, fun _ => (RoundRobin.search_eq_none_iff hexclusive.next).mp htry⟩
      · exact List.nodup_append.mpr ⟨hqueued.nodup, List.nodup_singleton c, fun d hd e he heq => by
          rw [List.mem_singleton] at he
          exact hnot (he ▸ heq ▸ hd)⟩
      · change d ∈ q ++ [c] ↔ Function.update s.phase c .waiting d = .waiting
        rw [List.mem_append, List.mem_singleton, hqueued.waiting d]
        by_cases hd : d = c
        · subst hd
          rw [Function.update_self]
          exact iff_of_true (Or.inr rfl) rfl
        · rw [Function.update_of_ne hd]
          exact or_iff_left hd
      · refine (hqueued.connected d).trans ?_
        exact update_phase_iff (R := fun p => p ≠ .fresh ∧ p ≠ .destroyed) (by rw [hrun]; decide) d
      · exact ⟨hexclusive.inUse, hexclusive.nodup, hexclusive.unique, hexclusive.inRange, hexclusive.next⟩

/-- A release hands its buffer to the first waiter. -/
theorem lawful_release (h : Lawful s q) {idx : Nat} (hidx : idx ∈ s.held c) :
    ∃ s' q', release c idx s = .ok s' ∧ Lawful s' q' := by
  have hgive := exclusive_give h.exclusive hidx
  have hrange := h.exclusive.inRange c idx hidx
  rw [release]
  dsimp only
  cases q with
  | nil =>
      rw [if_pos (h.queued.holds.empty_iff.mpr rfl)]
      refine ⟨_, [], rfl, ?_, hgive, ⟨h.stacked.running, h.stacked.nodup⟩, fun hq => absurd rfl hq⟩
      exact ⟨h.queued.holds, h.queued.nodup, h.queued.waiting, h.queued.connected, h.queued.distinct, h.queued.bounded⟩
  | cons w q =>
      have hwait : s.phase w = .waiting := (h.queued.waiting w).mp List.mem_cons_self
      obtain ⟨waiters, hpop, hholds⟩ := h.queued.holds.popFront
      obtain ⟨hnot, hnodup⟩ := List.nodup_cons.mp h.queued.nodup
      rw [if_neg fun hempty => List.cons_ne_nil w q (h.queued.holds.empty_iff.mp hempty), hpop]
      dsimp only
      rw [if_pos hwait]
      have hpush := h.stacked.push (c := w) (by rw [hwait]; decide)
      refine @lawful_acquire _ _ q _ s.stack ⟨hholds, hnodup, fun d => ?_, fun d => ?_, h.queued.distinct,
        h.queued.bounded⟩ ⟨hgive.inUse, hgive.nodup, hgive.unique, hgive.inRange, hgive.next⟩
        ⟨hpush.running, hpush.nodup⟩ rfl ?_ fun hnone => ?_
      · change d ∈ q ↔ Function.update s.phase w .running d = .waiting
        by_cases hd : d = w
        · subst hd
          rw [Function.update_self]
          exact iff_of_false hnot (by decide)
        · rw [Function.update_of_ne hd, ← h.queued.waiting d, List.mem_cons]
          exact (or_iff_right hd).symm
      · refine (h.queued.connected d).trans ?_
        exact update_phase_iff (R := fun p => p ≠ .fresh ∧ p ≠ .destroyed) (by rw [hwait]; decide) d
      · -- before the release every buffer was in use
        have honly : ∀ i < s.bufferCount, Function.update s.inUse idx false i = false → i = idx := by
          intro i hi hfree
          by_contra hne
          rw [Function.update_of_ne hne, h.full (List.cons_ne_nil w q) i hi] at hfree
          cases hfree
        exact fun _ i hi j hj hfree hfree' => (honly i hi hfree).trans (honly j hj hfree').symm
      · have hused : Function.update s.inUse idx false idx = true :=
          (RoundRobin.search_eq_none_iff (by exact h.exclusive.next)).mp hnone idx hrange
        rw [Function.update_self] at hused
        cases hused

/-- Under the condition nothing fails. -/
theorem lawful_perform (h : Lawful s q) {a : Action} (ha : possible s a = true) (hspared : Spared s a) :
    ∃ s' q', perform s a = .ok s' ∧ Lawful s' q' := by
  have htop : s.stack ≠ [] → ∃ c fs, s.stack = c :: fs := List.exists_cons_of_ne_nil
  cases a with
  | accept c => exact ⟨_, q, rfl, h.accept (of_decide_eq_true ha) hspared⟩
  | resume c => exact ⟨_, q, rfl, h.enter (of_decide_eq_true ha)⟩
  | suspend =>
      obtain ⟨c, fs, hstack⟩ := htop (of_decide_eq_true ha)
      rw [perform, State.onCurrent, hstack]
      exact ⟨_, q, rfl, hstack ▸ h.leave hstack (Or.inl rfl)⟩
  | finish =>
      obtain ⟨c, fs, hstack⟩ := htop (of_decide_eq_true ha)
      rw [perform, State.onCurrent, hstack]
      exact ⟨_, q, rfl, hstack ▸ h.leave hstack (Or.inr rfl)⟩
  | acquire =>
      obtain ⟨c, fs, hstack⟩ := htop (of_decide_eq_true ha)
      have hrun := h.stacked.phase_of_top hstack
      have hother : s.connections.length < N ∨ ∃ d ∈ s.connections, d ≠ c ∧ s.phase d ≠ .waiting := by
        refine hspared.imp_right ?_
        rintro ⟨d, hd, hne, hphase⟩
        refine ⟨d, hd, fun heq => hne ?_, hphase⟩
        rw [hstack, heq]
        rfl
      rw [perform, State.onCurrent, hstack]
      refine lawful_acquire h.queued h.exclusive h.stacked hstack (fun hq i hi j _ hfree => ?_) fun _ => ?_
      · cases (h.full hq i hi).symm.trans hfree
      · exact h.queued.length_lt ((h.queued.connected c).mpr (by rw [hrun]; decide)) (by rw [hrun]; decide) hother
  | release idx =>
      obtain ⟨c, hc, hidx⟩ := (Option.any_eq_true _ _).mp ha
      obtain ⟨fs, hstack⟩ := List.head?_eq_some_iff.mp hc
      rw [perform, State.onCurrent, hstack]
      exact lawful_release h (List.contains_iff_mem.mp hidx)
  | destroy c =>
      refine ⟨_, q, rfl, h.destroy ?_⟩
      simp only [possible, Bool.or_eq_true, decide_eq_true_eq] at ha
      rcases ha with (hphase | hphase) | hphase
      · exact Or.inl hphase
      · exact absurd hphase hspared
      · exact Or.inr hphase

end

/-- In every run in which no connection is torn down while it waits and a coroutine asks for a buffer only
while another of at most `N` connections does not wait: a buffer is held by one coroutine at most, nobody
waits while a buffer is free, and neither an assertion fails nor is a coroutine resumed that is gone. -/
theorem buffers_exclusive_and_served {bufferCount : Nat} (hN : 0 < N) (hpos : 0 < bufferCount) {as : List Action}
    {s : State N} (hrun : Run step (fun s a => possible s a = true ∧ Spared s a) (init N bufferCount) as s) :
    (∀ c c' i, i ∈ s.held c → i ∈ s.held c' → c = c') ∧
      ((∃ i < s.bufferCount, s.inUse i = false) → ∀ c, s.phase c ≠ .waiting) ∧
      ∀ a, possible s a = true → Spared s a → ∃ s', perform s a = .ok s' := by
  obtain ⟨q, hlawful⟩ : ∃ q, Lawful s q := by
    refine @Run.invariant _ _ step _ (fun s => ∃ q, Lawful s q) ?_ _ _ _ hrun ⟨[], lawful_init hN hpos⟩
    rintro s a s' ⟨q, hlawful⟩ ⟨ha, hspared⟩ hstep
    obtain ⟨s'', q', hperform, hlawful'⟩ := lawful_perform hlawful ha hspared
    rw [step, hperform] at hstep
    cases hstep
    exact ⟨q', hlawful'⟩
  refine ⟨hlawful.exclusive.unique, ?_, fun a ha hspared => ?_⟩
  · rintro ⟨i, hi, hfree⟩ c hc
    have hq : q ≠ [] := List.ne_nil_of_mem ((hlawful.queued.waiting c).mpr hc)
    cases (hlawful.full hq i hi).symm.trans hfree
  · obtain ⟨s', -, hperform, -⟩ := lawful_perform hlawful ha hspared
    exact ⟨s', hperform⟩

/-- One buffer: the second connection waits for it and obtains it when the first one releases it. -/
theorem buffers_exclusive_and_served_handOver :
    ∃ s : State 1000, s.held 1 = [0] ∧ (∀ c c' i, i ∈ s.held c → i ∈ s.held c' → c = c') ∧
      ((∃ i < s.bufferCount, s.inUse i = false) → ∀ c, s.phase c ≠ .waiting) ∧
      ∀ a, possible s a = true → Spared s a → ∃ s', perform s a = .ok s' := by
  have hrun : (runAll step (fun s a => possible s a = true ∧ Spared s a) (init 1000 1)
      [.accept 0, .acquire, .suspend, .accept 1, .acquire, .resume 0, .release 0]).map (fun s => s.held 1) =
        some [0] := by
    decide +kernel
  obtain ⟨s, hs, hheld⟩ := Option.map_eq_some_iff.mp hrun
  refine ⟨s, hheld, buffers_exclusive_and_served (by decide) (by decide) ((Run.of_runAll hs).mono fun s a ha => ?_)⟩
  exact of_decide_eq_true ha

/-- One buffer: the second connection is torn down while it waits, and the release resumes it. -/
theorem destroyed_waiter_resumed :
    ∃ s : State 1000, Run step (fun s a => possible s a = true) (init 1000 1)
        [.accept 0, .acquire, .suspend, .accept 1, .acquire, .destroy 1, .resume 0] s ∧
      possible s (.release 0) = true ∧ perform s (.release 0) = .error .dangling :=
  ⟨_, .cons rfl rfl (.cons rfl rfl (.cons rfl rfl (.cons rfl rfl (.cons rfl rfl (.cons rfl rfl (.cons rfl rfl
    (.nil _))))))), rfl, rfl⟩

end Plexdb.Buffers
