import Mathlib
import Plexdb.Runs

/-! `when_all` (`core/coroutine/combinators.cppm`): a joiner starts tasks one after the other and waits at a latch until
all of them have completed. What the tasks do is open: each runs until it suspends, completes or throws, and whatever code
runs may resume a suspended one. -/

namespace Plexdb.WhenAll

/-- The waiter, if there is one, is the joiner. -/
structure Latch where
  remaining : Nat
  waiter : Bool
deriving DecidableEq

/-- The latch after an arrival, and whether control goes to the waiter; `none` is the failed assertion. -/
def Latch.arrive (l : Latch) : Option (Latch × Bool) :=
  if 0 < l.remaining then
    let l := { l with remaining := l.remaining - 1 }
    if l.remaining = 0 ∧ l.waiter then some ({ l with waiter := false }, true) else some (l, false)
  else none

/-- A task and its runner: not started, on the call stack, suspended in the task, suspended at the runner's end, or
without frames. -/
inductive Phase where
  | fresh
  | running
  | suspended
  | done
  | destroyed
deriving DecidableEq

/-- A task's phase, and how often it was started, its runner arrived and its frames were destroyed. -/
structure TaskState where
  phase : Phase
  starts : Nat
  arrivals : Nat
  destructions : Nat
deriving DecidableEq

/-- Where the joiner is: before the turn `i` of the loop that fires the tasks, suspended at the latch, past the join with
`k` runners destroyed by the guard, returned, being destroyed with `k` runners destroyed, or destroyed. -/
inductive Joiner where
  | firing (i : Nat)
  | parked
  | joined (k : Nat)
  | returned
  | cancelled (k : Nat)
  | gone
deriving DecidableEq

/-- A frame on the call stack of the thread: one of the tasks, the joiner or its destruction, or code outside. -/
inductive Act where
  | task (i : Nat)
  | joiner
  | outside
deriving DecidableEq

/-- `continues` counts how often the joiner went past the join. -/
structure State where
  count : Nat
  task : Nat → TaskState
  latch : Latch
  joiner : Joiner
  stack : List Act
  continues : Nat

def freshTask : TaskState := ⟨.fresh, 0, 0, 0⟩

/-- Code outside resumes the joiner of `n` tasks. -/
def start (n : Nat) : State where
  count := n
  task := fun _ => freshTask
  latch := ⟨n, false⟩
  joiner := if n = 0 then .joined 0 else .firing 0
  stack := [.joiner, .outside]
  continues := if n = 0 then 1 else 0

inductive Label where
  | advance
  | resume (i : Nat)
  | suspend
  | finish (threw : Bool)
  | destroy
deriving DecidableEq

def State.setTask (s : State) (i : Nat) (t : TaskState) : State := { s with task := Function.update s.task i t }

/-- `run_and_arrive` runs the task at once, up to its first suspension. -/
def fire (s : State) (i : Nat) : State :=
  let t := s.task i
  let s := s.setTask i { t with phase := .running, starts := t.starts + 1 }
  { s with joiner := .firing (i + 1), stack := .task i :: s.stack }

/-- Behind the loop: the joiner suspends when tasks are outstanding, with itself as the waiter. -/
def awaitLatch (s : State) (below : List Act) : State :=
  if 0 < s.latch.remaining then
    { s with latch := { s.latch with waiter := true }, joiner := .parked, stack := below }
  else { s with joiner := .joined 0, continues := s.continues + 1 }

/-- `~Runner`: the frames of the runner and its task go, which must be suspended. -/
def destroyRunner (s : State) (i : Nat) : Option State :=
  let t := s.task i
  match t.phase with
  | .suspended => some (s.setTask i { t with phase := .destroyed, destructions := t.destructions + 1 })
  | .done => some (s.setTask i { t with phase := .destroyed, destructions := t.destructions + 1 })
  | _ => none

/-- The joiner, or its destruction, goes on; `below` is the stack below it. -/
def advance (s : State) (below : List Act) : Option State :=
  match s.joiner with
  | .firing i => some (if i < s.count then fire s i else awaitLatch s below)
  | .joined k =>
      if k < s.count then (destroyRunner s k).map fun s => { s with joiner := .joined (k + 1) }
      else some { s with joiner := .returned, stack := below }
  | .cancelled k =>
      if k < s.count then (destroyRunner s k).map fun s => { s with joiner := .cancelled (k + 1) }
      else some { s with joiner := .gone, stack := below }
  | _ => none

/-- The task on top of the stack ends. The runner swallows an exception, and arrives at the latch either way; then it
transfers to the waiter, or returns to what resumed it. -/
def finish (s : State) (i : Nat) (below : List Act) (_threw : Bool) : Option State :=
  s.latch.arrive.map fun r =>
    let t := s.task i
    let s := s.setTask i { t with phase := .done, arrivals := t.arrivals + 1 }
    if r.2 then { s with latch := r.1, joiner := .joined 0, continues := s.continues + 1, stack := .joiner :: below }
    else { s with latch := r.1, stack := below }

def step (s : State) : Label → Option State
  | .advance =>
      match s.stack with
      | .joiner :: below => advance s below
      | _ => none
  | .resume i =>
      if (s.task i).phase = .suspended then
        some { s.setTask i { s.task i with phase := .running } with stack := .task i :: s.stack }
      else none
  | .suspend =>
      match s.stack with
      | .task i :: below => some { s.setTask i { s.task i with phase := .suspended } with stack := below }
      | _ => none
  | .finish threw =>
      match s.stack with
      | .task i :: below => finish s i below threw
      | _ => none
  | .destroy =>
      -- no task is running: the frame of a running coroutine is never destroyed
      match s.joiner, s.stack with
      | .parked, [.outside] =>
          -- the awaitable goes first and takes the waiter from the latch
          some { s with latch := { s.latch with waiter := false }, joiner := .cancelled 0, stack := [.joiner, .outside] }
      | _, _ => none

end Plexdb.WhenAll
