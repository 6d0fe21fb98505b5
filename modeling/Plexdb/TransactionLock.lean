import Plexdb.Deque
import Plexdb.PagerFiles
import Plexdb.Runs

/-! The transaction lock of a pager (`core/pager/pager.cpp`). Coroutines run on one thread: whatever
runs goes on until it suspends, and who resumes a coroutine gets the control back only then. So a
transaction that ends resumes the next waiter inside its own `finish_transaction`, and its last lines
run when that coroutine suspends. What is being executed is a stack; one step takes it from one point
where another coroutine could take over to the next. The I/O of a commit is such suspensions before
its step. -/

namespace Plexdb.Transactions

open Pager (Header)

abbrev Coroutine := Nat

/-- A `Transaction` object in a frame of a coroutine. -/
structure Transaction where
  coroutine : Coroutine
  object : Nat
  deriving DecidableEq

/-- Where a coroutine is; one that has not started is suspended too. -/
inductive Phase where
  | suspended
  | waiting (node : Nat)
  | running
  | destroyed
  deriving DecidableEq

/-- A piece of execution; `finishing t` is what `t` does after `finish_transaction` has resumed the next
waiter. -/
inductive Frame where
  | running (c : Coroutine)
  | destroying (c : Coroutine)
  | finishing (t : Transaction)
  deriving DecidableEq

/-- A node is pushed, its coroutine is resumed, or its coroutine is destroyed with it; a commit ends. -/
inductive Event where
  | waits (node : Nat)
  | resumes (node : Nat)
  | cancels (node : Nat)
  | commits (h : Header)
  deriving DecidableEq

/-- `begun` holds the objects whose `started_transaction` is set. The nodes of `tx_waiters` lie in the
frames of `begin_transaction`: their address is that of a call, and they are gone with its block. -/
structure State where
  header : Header
  savedHeader : Header
  transactionActive : Bool
  txWaiters : Deque
  nodes : Deque.Memory Transaction
  nextNode : Nat
  begun : List Transaction
  phase : Coroutine → Phase
  stack : List Frame
  history : List Event

/-- A failed assertion, or the use of something that is gone. -/
inductive Fault where
  | assertion
  | dangling
  deriving DecidableEq

def init (h : Header) : State where
  header := h
  savedHeader := h
  transactionActive := false
  txWaiters := {}
  nodes := fun _ => none
  nextNode := 0
  begun := []
  phase := fun _ => .suspended
  stack := []
  history := []

/-- The last lines of `begin_transaction` and of `Transaction::begin`. -/
def activate (t : Transaction) (s : State) : State :=
  { s with savedHeader := s.header, transactionActive := true, begun := t :: s.begun }

/-- The end of a transaction after `finish_transaction`: `started_transaction = false`. -/
def clearStarted (t : Transaction) (s : State) : State := { s with begun := s.begun.filter (· ≠ t) }

/-- The control goes back to what is below on the stack. -/
def unwind : List Frame → State → State
  | .finishing t :: fs, s => unwind fs (clearStarted t s)
  | fs, s => { s with stack := fs }

/-- `h.resume()`: the handle must be one of a coroutine that waits. -/
def resumeWaiter (t : Transaction) (n : Nat) (waiter : Transaction) (s : State) : Except Fault State :=
  if s.phase waiter.coroutine = .waiting n then
    .ok (activate waiter { s with
      nodes := Function.update s.nodes n none
      phase := Function.update s.phase waiter.coroutine .running
      stack := .running waiter.coroutine :: .finishing t :: s.stack
      history := s.history ++ [.resumes n] })
  else .error .dangling

/-- `finish_transaction`, and what `t` does after it when nobody waits. -/
def finishTransaction (t : Transaction) (s : State) : Except Fault State :=
  let s := { s with transactionActive := false }
  if s.txWaiters.length > 0 then
    match s.txWaiters.front s.nodes, s.txWaiters.popFront s.nodes with
    | some (n, node), some (txWaiters, nodes) =>
        resumeWaiter t n node.value { s with txWaiters := txWaiters, nodes := nodes }
    | _, _ => .error .dangling
  else .ok (clearStarted t s)

def rollbackTransaction (t : Transaction) (s : State) : Except Fault State :=
  finishTransaction t { s with header := s.savedHeader }

/-- `begin_transaction`: whoever finds a transaction active waits. -/
def beginTransaction (t : Transaction) (s : State) : Except Fault State :=
  if s.transactionActive then
    match s.txWaiters.pushBack s.nextNode (Function.update s.nodes s.nextNode (some ⟨t, none, none⟩)) with
    | none => .error .dangling
    | some (txWaiters, nodes) =>
        .ok (unwind s.stack.tail { s with
          txWaiters := txWaiters
          nodes := nodes
          nextNode := s.nextNode + 1
          phase := Function.update s.phase t.coroutine (.waiting s.nextNode)
          history := s.history ++ [.waits s.nextNode] })
  else .ok (activate t s)

/-- The frames of a coroutine are destroyed from the innermost on: a node that waits is removed first. -/
def destroyCoroutine (c : Coroutine) (s : State) : Except Fault State :=
  let gone (s : State) : State :=
    { s with phase := Function.update s.phase c .destroyed, stack := .destroying c :: s.stack }
  match s.phase c with
  | .waiting n =>
      match s.txWaiters.remove n s.nodes with
      | none => .error .dangling
      | some (txWaiters, nodes) =>
          .ok (gone { s with
            txWaiters := txWaiters
            nodes := Function.update nodes n none
            history := s.history ++ [.cancels n] })
  | _ => .ok (gone s)

/-- `destruct` is a `~Transaction`, at the end of its scope or in a coroutine that is being destroyed;
`destroyed` ends such a destruction. `write` is any operation that changes the header. -/
inductive Action where
  | resume (c : Coroutine)
  | suspend
  | begin (t : Transaction)
  | write (h : Header)
  | commit (t : Transaction)
  | rollback (t : Transaction)
  | destruct (t : Transaction)
  | destroy (c : Coroutine)
  | destroyed
  deriving DecidableEq

/-- The coroutine that runs, on top of the stack. -/
def State.current (s : State) : Option Coroutine :=
  match s.stack with
  | .running c :: _ => some c
  | _ => none

def State.dying (s : State) : Option Coroutine :=
  match s.stack with
  | .destroying c :: _ => some c
  | _ => none

/-- What can come next. Only a suspended coroutine is resumed or destroyed, and one that waits in
`begin` is resumed by nobody but `finish_transaction`. A rollback has no assertion of its own: its
callers make it on a transaction that has begun. -/
def possible (s : State) : Action → Bool
  | .resume c => s.phase c = .suspended
  | .suspend => s.current.isSome
  | .begin t => s.current = some t.coroutine
  | .write _ => s.current.isSome
  | .commit t => s.current = some t.coroutine
  | .rollback t => s.current = some t.coroutine && t ∈ s.begun
  | .destruct t => s.current = some t.coroutine || s.dying = some t.coroutine
  | .destroy c =>
      match s.phase c with
      | .suspended | .waiting _ => true
      | _ => false
  | .destroyed => s.dying.any fun c => s.begun.all (·.coroutine ≠ c)

def perform (s : State) : Action → Except Fault State
  | .resume c =>
      .ok { s with phase := Function.update s.phase c .running, stack := .running c :: s.stack }
  | .suspend =>
      match s.current with
      | some c => .ok (unwind s.stack.tail { s with phase := Function.update s.phase c .suspended })
      | none => .ok s
  | .begin t => if t ∈ s.begun then .error .assertion else beginTransaction t s
  | .write h => if s.transactionActive then .ok { s with header := h } else .error .assertion
  | .commit t =>
      if t ∈ s.begun ∧ s.transactionActive then
        finishTransaction t { s with history := s.history ++ [.commits s.header] }
      else .error .assertion
  | .rollback t => rollbackTransaction t s
  | .destruct t =>
      if t ∈ s.begun ∧ s.transactionActive then rollbackTransaction t s else .ok (clearStarted t s)
  | .destroy c => destroyCoroutine c s
  | .destroyed => .ok (unwind s.stack.tail s)

def step (s : State) (a : Action) : Option State := (perform s a).toOption

end Plexdb.Transactions
