import Plexdb.RoundRobin
import Plexdb.Runs
import Plexdb.WriteChunks

/-! The io_uring file context: `create_uring_async_file_io_context` (`core/aio/aio.cpp`). A call is carried out
by pieces, each a coroutine of its own: a read and a sync by one, a write by one for each of its chunks, which
`when_all` starts in order and joins. A piece that reads or writes holds a registered buffer or waits for one
in `buf_waiters`. Whatever a resumed call goes on to do comes between two completions. -/

namespace Plexdb.UringFile

abbrev Call := Nat

structure Piece where
  call : Call
  index : Nat
  rng : Rng1U64
  deriving DecidableEq

/-- Where a completion finds the handle to resume: `ops` at a buffer, or `sync_handles` at a slot. -/
inductive Slot where
  | buffer (idx : Nat)
  | sync (idx : Nat)
  deriving DecidableEq

/-- A piece is a coroutine. -/
inductive Phase where
  | fresh
  | running
  | waiting
  | submitted (slot : Slot)
  | done
  | destroyed
  deriving DecidableEq

inductive Stage where
  | fresh
  | active
  | done
  | destroyed
  deriving DecidableEq

/-- The scratch memory of a write of several chunks, which holds the runners of its pieces while the write is
suspended; `released` when the arena was popped below its end. -/
structure Scope where
  call : Call
  offset : Nat
  limit : Nat
  released : Bool
  deriving DecidableEq

/-- `inFlight` and `completed` are the kernel's, each operation with the piece it is for; `submitted`,
`finished` and `resumed` record the operations submitted, those completed, and the calls resumed, `written` the
range of a write. `remaining` is the count of a call's latch. -/
structure State where
  bufSize : Nat
  bufCount : Nat
  nextFreeBuf : Nat
  bufInUse : Nat → Bool
  handles : Slot → Option Piece
  bufWaiters : List Piece
  nextSyncSlot : Nat
  scratch : Nat
  scopes : List Scope
  phase : Piece → Phase
  stage : Call → Stage
  written : Call → Option Rng1U64
  pieces : Call → List Piece
  remaining : Call → Nat
  inFlight : List (Slot × Piece)
  completed : List (Slot × Piece)
  submitted : List Piece
  finished : List Piece
  resumed : List Call

/-- The use of memory that was given back. -/
inductive Fault where
  | dangling
  deriving DecidableEq

def init (bufSize bufCount : Nat) : State where
  bufSize := bufSize
  bufCount := bufCount
  nextFreeBuf := 0
  bufInUse := fun _ => false
  handles := fun _ => none
  bufWaiters := []
  nextSyncSlot := 0
  scratch := 0
  scopes := []
  phase := fun _ => .fresh
  stage := fun _ => .fresh
  written := fun _ => none
  pieces := fun _ => []
  remaining := fun _ => 0
  inFlight := []
  completed := []
  submitted := []
  finished := []
  resumed := []

def maxSyncSlots : Nat := 64

def setPhase (p : Piece) (phase : Phase) (s : State) : State := { s with phase := Function.update s.phase p phase }

/-! ### Buffers -/

def tryAcquireBuf (s : State) : Option Nat := RoundRobin.search s.bufInUse s.bufCount s.nextFreeBuf

def takeBuf (idx : Nat) (s : State) : State :=
  { s with bufInUse := Function.update s.bufInUse idx true, nextFreeBuf := (idx + 1) % s.bufCount }

/-- The operation is pushed, and the piece suspended until it is resumed for its slot. -/
def submit (p : Piece) (slot : Slot) (s : State) : State :=
  setPhase p (.submitted slot) { s with
    handles := Function.update s.handles slot (some p)
    inFlight := s.inFlight ++ [(slot, p)]
    submitted := s.submitted ++ [p] }

/-- A round of the loop in `acquire_buf`, and what `read_fn` or `write_one_buffer` does with the buffer. -/
def attempt (p : Piece) (s : State) : State :=
  match tryAcquireBuf s with
  | some idx => submit p (.buffer idx) (takeBuf idx s)
  | none => setPhase p .waiting { s with bufWaiters := s.bufWaiters ++ [p] }

/-- The first waiter is resumed, and goes on in its loop. -/
def wakeWaiter (s : State) : State :=
  match s.bufWaiters with
  | [] => s
  | w :: waiters => attempt w (setPhase w .running { s with bufWaiters := waiters })

def releaseBuf (idx : Nat) (s : State) : State :=
  wakeWaiter { s with bufInUse := Function.update s.bufInUse idx false }

/-! ### Scratch memory -/

/-- `pop_to`: what lies above is given back. -/
def popTo (offset : Nat) (s : State) : State :=
  { s with
    scratch := offset
    scopes := s.scopes.map fun sc => { sc with released := sc.released || offset < sc.limit } }

/-- The arrays of chunks, tasks and runners: 24, 8 and 8 bytes each. -/
def openScope (c : Call) (count : Nat) (s : State) : State :=
  let limit := (s.scratch + 7) / 8 * 8 + 40 * count
  { s with scratch := limit, scopes := ⟨c, s.scratch, limit, false⟩ :: s.scopes }

/-- The runners of a call are destroyed and its scope ends. -/
def closeScope (c : Call) (s : State) : Except Fault State :=
  match s.scopes.find? (·.call = c) with
  | none => .ok s
  | some sc =>
      if sc.released then .error .dangling
      else .ok (popTo sc.offset { s with scopes := s.scopes.filter (·.call ≠ c) })

/-! ### Calls -/

/-- Starts the pieces of a call one after another. -/
def start (c : Call) (ps : List Piece) (s : State) : State :=
  let s := { s with
    stage := Function.update s.stage c .active
    pieces := Function.update s.pieces c ps
    remaining := Function.update s.remaining c ps.length }
  ps.foldl (fun s p => attempt p (setPhase p .running s)) s

def fileRead (c : Call) (rng : Rng1U64) (s : State) : State := start c [⟨c, 0, rng⟩] s

/-- `when_all` returns at once when there is nothing to wait for. -/
def fileWrite (c : Call) (rng : Rng1U64) (s : State) : State :=
  let cs := chunks s.bufSize rng
  let ps := cs.zipIdx.map fun (rng, i) => ⟨c, i, rng⟩
  let s := { s with written := Function.update s.written c (some rng) }
  if cs = [] then { s with stage := Function.update s.stage c .done, resumed := c :: s.resumed }
  else start c ps (if rng.size ≤ s.bufSize then s else openScope c cs.length s)

def fileSync (c : Call) (s : State) : State :=
  let p : Piece := ⟨c, 0, {}⟩
  let syncIdx := s.nextSyncSlot % maxSyncSlots
  submit p (.sync syncIdx) { s with
    nextSyncSlot := (s.nextSyncSlot + 1) % 2 ^ 32
    stage := Function.update s.stage c .active
    pieces := Function.update s.pieces c [p]
    remaining := Function.update s.remaining c 1 }

/-- What destroys a suspended piece takes its handle or its node out. -/
def destroyPiece (s : State) (p : Piece) : State :=
  match s.phase p with
  | .waiting => setPhase p .destroyed { s with bufWaiters := s.bufWaiters.erase p }
  | .submitted slot => setPhase p .destroyed { s with handles := Function.update s.handles slot none }
  | _ => s

def destroy (c : Call) (s : State) : Except Fault State :=
  closeScope c { (s.pieces c).foldl destroyPiece s with stage := Function.update s.stage c .destroyed }

/-! ### Completions -/

/-- The kernel ends an operation. -/
def complete (op : Slot × Piece) (s : State) : State :=
  { s with inFlight := s.inFlight.erase op, completed := s.completed ++ [op], finished := op.2 :: s.finished }

/-- The piece ends and arrives at the latch of its call; the last one resumes the call. -/
def arrive (p : Piece) (s : State) : Except Fault State :=
  let remaining := s.remaining p.call - 1
  let s := setPhase p .done { s with remaining := Function.update s.remaining p.call remaining }
  if remaining = 0 then
    closeScope p.call { s with stage := Function.update s.stage p.call .done, resumed := p.call :: s.resumed }
  else .ok s

/-- A completed read or write gives its buffer back. -/
def releaseSlot (slot : Slot) (s : State) : State :=
  match slot with
  | .buffer idx => releaseBuf idx s
  | .sync _ => s

/-- A round of the loop in `on_unblock`. The resumed piece releases its buffer; when it is gone the round
does. -/
def dispatch (slot : Slot) (s : State) : Except Fault State :=
  let h := s.handles slot
  let s := releaseSlot slot { s with handles := Function.update s.handles slot none }
  match h with
  | some p => arrive p s
  | none => .ok s

/-- `scratch offset` is what another scope of the thread does to the arena. -/
inductive Action where
  | read (c : Call) (rng : Rng1U64)
  | write (c : Call) (rng : Rng1U64)
  | sync (c : Call)
  | destroy (c : Call)
  | complete (op : Slot × Piece)
  | dispatch
  | scratch (offset : Nat)
  deriving DecidableEq

/-- What can come next. A read fits in a buffer, as it asserts, and only a suspended call is destroyed. -/
def possible (s : State) : Action → Bool
  | .read c rng => s.stage c = .fresh && rng.size ≤ s.bufSize
  | .write c _ => s.stage c = .fresh
  | .sync c => s.stage c = .fresh
  | .destroy c => s.stage c = .active
  | .complete op => op ∈ s.inFlight
  | .dispatch => s.completed ≠ []
  | .scratch _ => true

def perform (s : State) : Action → Except Fault State
  | .read c rng => .ok (fileRead c rng s)
  | .write c rng => .ok (fileWrite c rng s)
  | .sync c => .ok (fileSync c s)
  | .destroy c => destroy c s
  | .complete op => .ok (complete op s)
  | .dispatch =>
      match s.completed with
      | (slot, _) :: completed => dispatch slot { s with completed := completed }
      | [] => .ok s
  | .scratch offset => .ok (popTo offset s)

def step (s : State) (a : Action) : Option State := (perform s a).toOption

/-- The slots of the operations that the kernel has. -/
def State.busy (s : State) : List Slot := (s.inFlight ++ s.completed).map Prod.fst

/-- The scratch memory of a call lies above that of all others. -/
def Topmost (c : Call) (s : State) : Prop :=
  ∀ sc ∈ s.scopes, sc.call = c → ∀ sc' ∈ s.scopes, sc'.call ≠ c → sc'.limit ≤ sc.offset

instance (c : Call) (s : State) : Decidable (Topmost c s) := inferInstanceAs (Decidable (∀ _ ∈ _, _))

/-- A write fits in a `U64`; a sync finds the last one of its slot completed; the writes of several chunks end
in the reverse order of their beginning, and no scope of the thread that encloses one ends before it. -/
def Orderly (s : State) : Action → Prop
  | .write _ rng => Fits s.bufSize rng
  | .sync _ => Slot.sync (s.nextSyncSlot % maxSyncSlots) ∉ s.busy
  | .destroy c => Topmost c s
  | .dispatch => ∀ op ∈ s.completed.head?, ∀ p ∈ s.handles op.1, s.remaining p.call = 1 → Topmost p.call s
  | .scratch offset => ∀ sc ∈ s.scopes, sc.limit ≤ offset
  | _ => True

instance (s : State) : (a : Action) → Decidable (Orderly s a)
  | .write _ _ => inferInstanceAs (Decidable (Fits _ _))
  | .sync _ => inferInstanceAs (Decidable (_ ∉ _))
  | .destroy c => inferInstanceAs (Decidable (Topmost c s))
  | .dispatch => inferInstanceAs (Decidable (∀ op ∈ s.completed.head?, ∀ p ∈ s.handles op.1, _ → _))
  | .scratch _ => inferInstanceAs (Decidable (∀ _ ∈ _, _))
  | .read _ _ | .complete _ => isTrue trivial

end Plexdb.UringFile
