import Plexdb.ScratchScopes
import Plexdb.StaticBlob
import Plexdb.TransactionFairness

/-! The scratch arena of a thread (`core/threads/threads.cpp`) under the transactions of a pager. Every scope
comes from the same arena, and those that live across a suspension are opened by commits, checkpoints, file
writes over a ring that are larger than a buffer, and the creation of static blobs. -/

namespace Plexdb.Scratch

open Pager (PageRef Header)
open Transactions (Coroutine Transaction Lawful Active)
open Blob.Static (calculateHeaderBytes)

/-- `sizeof(pager::Header)` and `sizeof(wal::Frame)`. -/
def headerSize : Nat := 32

def frameSize : Nat := 16

/-- The size of a page, which `create` checks, and of a buffer of the ring. -/
structure Config where
  pageSize : Nat
  bufSize : Nat
  headerFits : headerSize ≤ pageSize
  pageFits : pageSize ≤ bufSize

/-- What the code does not decide, by the place where it comes up: how often an operation suspends before it is
through, and how far an allocation skips. -/
structure Env where
  suspensions : List Nat → Nat
  skips : List Nat → Nat

namespace Env

def sub (e : Env) (i : Nat) : Env := ⟨fun path => e.suspensions (i :: path), fun path => e.skips (i :: path)⟩

def waits (e : Env) : Code := (List.replicate (e.suspensions []) Code.wait).foldr .seq .skip

def request (e : Env) (size : Nat) : Request := ⟨e.skips [], size⟩

end Env

/-! ### `when_all` -/

/-- `when_all` of tasks and runners: every task is started before the first that suspended goes on. -/
def whenAll (tasks : List Code) : Code := tasks.foldr .both .skip

/-- `when_all` of items: the arrays of tasks and of runners lie in the arena. -/
def whenAllItems {Item : Type} (items : List Item) (fn : Item → Env → Code) (e : Env) : Code :=
  .scope [(e.sub 0).request (8 * items.length), (e.sub 1).request (8 * items.length)]
    (whenAll (items.mapIdx fun i item => fn item (e.sub (i + 2))))

/-! ### Files and the WAL -/

/-- `file_write` over a ring: more than a buffer is written in chunks. -/
def fileWrite (m : Config) (total : Nat) (e : Env) : Code :=
  if total ≤ m.bufSize then e.waits
  else
    let chunkCount := (total + m.bufSize - 1) / m.bufSize
    .scope [(e.sub 0).request (24 * chunkCount)] (whenAllItems (List.range chunkCount) (fun _ e => e.waits) (e.sub 1))

def fileSync (e : Env) : Code := e.waits

/-- `wal::append_frames`. -/
def appendFrames (m : Config) (pageWrites : List PageRef) (e : Env) : Code :=
  if pageWrites.length = 0 then .skip
  else
    let frameBufferBytes := pageWrites.length * (frameSize + m.pageSize)
    .scope [(e.sub 0).request frameBufferBytes] (fileWrite m frameBufferBytes (e.sub 1))

/-- `wal::commit`. -/
def walCommit (m : Config) (e : Env) : Code :=
  .seq (fileSync (e.sub 0)) (.seq (fileWrite m 8 (e.sub 1)) (fileSync (e.sub 2)))

/-- `wal::read_frame`: the frame, and the data behind it. -/
def readFrame (e : Env) : Code := .seq (e.sub 0).waits (e.sub 1).waits

/-- `wal::reset`. -/
def walReset (m : Config) (e : Env) : Code := .seq (fileWrite m 8 (e.sub 0)) (fileSync (e.sub 1))

/-! ### Commits and checkpoints -/

/-- `write_one` of `commit_no_wal`. -/
def writePage (m : Config) (w : PageRef) (e : Env) : Code :=
  match w with
  | .header => fileWrite m headerSize e
  | .page _ => fileWrite m m.pageSize e

def commitNoWal (m : Config) (writes : List PageRef) (e : Env) : Code :=
  .seq
    (if writes.length > 0 then
      .scope [(e.sub 0).request (8 * writes.length)] (whenAllItems writes (writePage m) (e.sub 1))
    else .skip)
    (fileSync (e.sub 2))

/-- An entry of the WAL index, and whether the page is in the cache. -/
structure CheckpointWrite where
  pageIdx : PageRef
  cached : Bool

def CheckpointWrite.needRead (w : CheckpointWrite) : Bool := w.pageIdx ≠ .header && !w.cached

/-- `write_one` of `checkpoint`. -/
def writeCheckpoint (m : Config) (w : CheckpointWrite) (e : Env) : Code :=
  if w.needRead then .seq (readFrame (e.sub 0)) (fileWrite m m.pageSize (e.sub 1)) else writePage m w.pageIdx e

def checkpoint (m : Config) (walIndex : List CheckpointWrite) (e : Env) : Code :=
  .seq
    (if walIndex.length > 0 then
      .scope
        [(e.sub 0).request (16 * walIndex.length),
          (e.sub 1).request (walIndex.countP CheckpointWrite.needRead * max m.pageSize headerSize)]
        (whenAllItems walIndex (writeCheckpoint m) (e.sub 2))
    else .skip)
    (.seq (fileSync (e.sub 3)) (walReset m (e.sub 4)))

/-- What a commit finds: whether there is a WAL, what is to be written, the frames that the WAL holds, the
transactions in it, and its index after this one. -/
structure Commit where
  wal : Bool
  writes : List PageRef
  frameCount : Nat
  walTransactionCount : Nat
  checkpointInterval : Nat
  walIndex : List CheckpointWrite

/-- `commit_transaction` up to `finish_transaction`. -/
def commitTransaction (m : Config) (c : Commit) (e : Env) : Code :=
  if !c.wal then commitNoWal m c.writes (e.sub 0)
  else
    .seq
      (if c.writes.length > 0 then
        .scope [(e.sub 1).request (16 * c.writes.length)] (appendFrames m c.writes (e.sub 2))
      else .skip)
      (if c.frameCount + c.writes.length > 0 then
        .seq (walCommit m (e.sub 3))
          (if c.walTransactionCount + 1 ≥ c.checkpointInterval then checkpoint m c.walIndex (e.sub 4) else .skip)
      else .skip)

/-! ### Pages and blobs -/

def loop (n : Nat) (body : Nat → Code) : Code := ((List.range n).map body).foldr .seq .skip

/-- `create_paged_static`: the array of pages lies in the arena while they are allocated and the header is
written. -/
def createPagedStatic (m : Config) (size : Nat) (e : Env) : Code :=
  if size ≤ m.pageSize then e.waits
  else
    let h := calculateHeaderBytes (size - m.pageSize) m.pageSize
    let totalPageCount := Blob.ceilDiv (Blob.u64 (size + h)) m.pageSize
    .scope [(e.sub 0).request (8 * totalPageCount)]
      (.seq (loop totalPageCount fun i => ((e.sub 1).sub i).waits)
        (loop ((h - 1) / m.pageSize + 1) fun i => ((e.sub 2).sub i).waits))

/-- What a transaction does. `access` is any operation on pages: `rpage`, `rwpage`, `new_page`; `compact` is
that of a slotted page, which stages the page in the arena. -/
inductive Operation where
  | access
  | compact (size : Nat)
  | createPagedStatic (size : Nat)
  | commit (c : Commit)

def Operation.code (m : Config) (e : Env) : Operation → Code
  | .access => e.waits
  | .compact size => .scope [e.request size] .skip
  | .createPagedStatic size => Scratch.createPagedStatic m size e
  | .commit c => commitTransaction m c e

/-! ### The thread -/

structure State where
  lock : Transactions.State
  proc : Coroutine → Proc
  arena : Arena

def init (h : Header) (offset : Nat) : State := ⟨Transactions.init h, fun _ => .done, .init offset⟩

/-- `lock` is a step of the coroutines and of the transaction lock; that of a commit comes after its `call` is
through. A `call` runs to its first suspension, and `complete` is the end of what one part of it waits for. -/
inductive Action where
  | lock (a : Transactions.Action)
  | call (op : Operation) (e : Env)
  | complete (c : Coroutine) (path : List Bool)

/-- The coroutine that goes on with its own code after a step of the lock: it must not be inside an operation. -/
def caller : Transactions.Action → Option Coroutine
  | .begin t | .commit t | .rollback t | .destruct t => some t.coroutine
  | .resume _ | .suspend | .write _ | .destroy _ | .destroyed => none

/-- An operation is called inside a transaction that the coroutine has begun. -/
def possible (s : State) : Action → Bool
  | .lock a => Transactions.possible s.lock a && (caller a).all fun c => (s.proc c).isDone
  | .call _ _ => s.lock.current.any fun c => (s.proc c).isDone && s.lock.begun.any (·.coroutine = c)
  | .complete c _ => s.lock.phase c = .running

/-- The frames of an operation are destroyed before the transaction of the coroutine that called it. -/
def destroyProc (a : Transactions.Action) (s : State) : State :=
  match a with
  | .destroy c => { s with proc := Function.update s.proc c .done, arena := destroy (s.proc c) s.arena }
  | _ => s

def step (m : Config) (s : State) : Action → Option State
  | .lock a => (Transactions.step s.lock a).map fun lock => { destroyProc a s with lock := lock }
  | .call op e =>
      s.lock.current.map fun c =>
        let r := start (op.code m e) s.arena
        { s with proc := Function.update s.proc c r.1, arena := r.2 }
  | .complete c path =>
      (resume (s.proc c) path s.arena).map fun r =>
        { s with proc := Function.update s.proc c r.1, arena := r.2 }

/-! ### No parallel part opens a scope -/

section

variable {m : Config} {e : Env} {total : Nat}

theorem seq_quiet {cs : List Code} (h : ∀ c ∈ cs, c.Quiet) : (cs.foldr Code.seq .skip).Quiet := by
  induction cs with
  | nil => trivial
  | cons c cs ih => exact ⟨h c List.mem_cons_self, ih fun c hc => h c (List.mem_cons_of_mem _ hc)⟩

theorem whenAll_quiet {cs : List Code} (h : ∀ c ∈ cs, c.Quiet) : (whenAll cs).Quiet := by
  induction cs with
  | nil => trivial
  | cons c cs ih => exact ⟨h c List.mem_cons_self, ih fun c hc => h c (List.mem_cons_of_mem _ hc)⟩

theorem waits_quiet (e : Env) : e.waits.Quiet :=
  seq_quiet fun _ hc => (List.eq_of_mem_replicate hc) ▸ trivial

theorem whenAllItems_nests {Item : Type} {items : List Item} {fn : Item → Env → Code}
    (h : ∀ item e, (fn item e).Quiet) (e : Env) : (whenAllItems items fn e).Nests := by
  have hquiet : (whenAll (items.mapIdx fun i item => fn item (e.sub (i + 2)))).Quiet := by
    refine whenAll_quiet fun c hc => ?_
    obtain ⟨i, hi, rfl⟩ := List.mem_mapIdx.mp hc
    exact h _ _
  exact hquiet.nests

/-- What fits a buffer is written in one piece. -/
theorem fileWrite_quiet (h : total ≤ m.bufSize) (e : Env) : (fileWrite m total e).Quiet := by
  rw [fileWrite, if_pos h]
  exact waits_quiet e

theorem fileWrite_nests (m : Config) (total : Nat) (e : Env) : (fileWrite m total e).Nests := by
  rw [fileWrite]
  split_ifs with h
  · exact (waits_quiet e).nests
  · exact whenAllItems_nests (fun _ e => waits_quiet e) _

theorem writePage_quiet (m : Config) (w : PageRef) (e : Env) : (writePage m w e).Quiet := by
  cases w with
  | header => exact fileWrite_quiet (m.headerFits.trans m.pageFits) e
  | page idx => exact fileWrite_quiet m.pageFits e

theorem writeCheckpoint_quiet (m : Config) (w : CheckpointWrite) (e : Env) : (writeCheckpoint m w e).Quiet := by
  rw [writeCheckpoint]
  split_ifs
  · exact ⟨⟨waits_quiet _, waits_quiet _⟩, fileWrite_quiet m.pageFits _⟩
  · exact writePage_quiet m w.pageIdx e

theorem appendFrames_nests (m : Config) (pageWrites : List PageRef) (e : Env) : (appendFrames m pageWrites e).Nests := by
  rw [appendFrames]
  split_ifs
  · trivial
  · exact fileWrite_nests m _ _

theorem commitNoWal_nests (m : Config) (writes : List PageRef) (e : Env) : (commitNoWal m writes e).Nests := by
  refine ⟨?_, (waits_quiet _).nests⟩
  split_ifs
  · exact whenAllItems_nests (writePage_quiet m) _
  · trivial

theorem checkpoint_nests (m : Config) (walIndex : List CheckpointWrite) (e : Env) : (checkpoint m walIndex e).Nests := by
  refine ⟨?_, (waits_quiet _).nests, fileWrite_nests m 8 _, (waits_quiet _).nests⟩
  split_ifs
  · exact whenAllItems_nests (writeCheckpoint_quiet m) _
  · trivial

theorem commitTransaction_nests (m : Config) (c : Commit) (e : Env) : (commitTransaction m c e).Nests := by
  rw [commitTransaction]
  split
  · exact commitNoWal_nests m c.writes _
  · refine ⟨?_, ?_⟩
    · split_ifs
      · exact appendFrames_nests m c.writes _
      · trivial
    · split_ifs
      · exact ⟨⟨(waits_quiet _).nests, fileWrite_nests m 8 _, (waits_quiet _).nests⟩, checkpoint_nests m c.walIndex _⟩
      · exact ⟨⟨(waits_quiet _).nests, fileWrite_nests m 8 _, (waits_quiet _).nests⟩, trivial⟩
      · trivial

theorem loop_quiet {n : Nat} {body : Nat → Code} (h : ∀ i, (body i).Quiet) : (loop n body).Quiet := by
  refine seq_quiet fun c hc => ?_
  obtain ⟨i, -, rfl⟩ := List.mem_map.mp hc
  exact h i

theorem createPagedStatic_nests (m : Config) (size : Nat) (e : Env) : (createPagedStatic m size e).Nests := by
  rw [createPagedStatic]
  split_ifs
  · exact (waits_quiet e).nests
  · exact ⟨(loop_quiet fun _ => waits_quiet _).nests, (loop_quiet fun _ => waits_quiet _).nests⟩

theorem Operation.nests (m : Config) (e : Env) (op : Operation) : (op.code m e).Nests := by
  cases op with
  | access => exact (waits_quiet e).nests
  | compact size => trivial
  | createPagedStatic size => exact createPagedStatic_nests m size e
  | commit c => exact commitTransaction_nests m c e

end

/-! ### The lock -/

section

variable {h₀ : Header} {l l' : Transactions.State} {q : List Nat} {t u : Transaction}

open Transactions (unwind clearStarted finishTransaction AtTop)

/-- The last line of a transaction that has ended touches no active one. -/
theorem active_unwind (fs : List Transactions.Frame) (l : Transactions.State) :
    Active (unwind fs l) u ↔ Active { l with stack := fs } u := by
  induction fs generalizing l with
  | nil => exact Iff.rfl
  | cons f fs ih =>
      cases f with
      | finishing t =>
          rw [unwind, ih, Active, Active, clearStarted, List.mem_filter, List.mem_cons, not_or, decide_eq_true_eq,
            Transactions.Frame.finishing.injEq]
          tauto
      | running c => exact Iff.rfl
      | destroying c => exact Iff.rfl

/-- The control goes back from what is on top. -/
theorem active_leave (hbegun : l'.begun = l.begun) (h : Active l u) : Active (unwind l.stack.tail l') u :=
  (active_unwind _ _).mpr ⟨hbegun ▸ h.1, fun hmem => h.2 (List.mem_of_mem_tail hmem)⟩

/-- A transaction is active until it ends. -/
theorem active_step (h : Lawful h₀ l q) {a : Transactions.Action} (ha : Transactions.possible l a = true)
    (hstep : Transactions.step l a = some l') (hu : Active l u) :
    Active l' u ∨ a = .commit u ∨ a = .rollback u ∨ a = .destruct u := by
  have hperform : Transactions.perform l a = .ok l' := by
    rw [Transactions.step] at hstep
    cases hresult : Transactions.perform l a with
    | error fault =>
        rw [hresult] at hstep
        cases hstep
    | ok l'' =>
        rw [hresult] at hstep
        cases hstep
        rfl
  cases a with
  | resume c =>
      cases hperform
      exact Or.inl ⟨hu.1, fun hmem => hu.2 (List.mem_of_ne_of_mem Transactions.Frame.noConfusion hmem)⟩
  | suspend =>
      obtain ⟨c, hc⟩ := Option.isSome_iff_exists.mp ha
      rw [Transactions.perform, hc] at hperform
      cases hperform
      exact Or.inl (active_leave rfl hu)
  | begin t =>
      rw [Transactions.perform] at hperform
      split_ifs at hperform
      rw [Transactions.beginTransaction] at hperform
      split_ifs at hperform
      · split at hperform
        next => cases hperform
        next d nodes hpush =>
          cases hperform
          exact Or.inl (active_leave rfl hu)
      · cases hperform
        exact Or.inl ⟨List.mem_cons_of_mem t hu.1, hu.2⟩
  | write header =>
      rw [Transactions.perform] at hperform
      split_ifs at hperform
      cases hperform
      exact Or.inl hu
  | commit t =>
      obtain ⟨fs, hstack⟩ := Transactions.State.current_eq (of_decide_eq_true ha)
      rw [Transactions.perform] at hperform
      split_ifs at hperform with hbegun
      obtain rfl := (h.only ⟨fs, Or.inl hstack⟩ hbegun.1).2 u hu
      exact Or.inr (Or.inl rfl)
  | rollback t =>
      obtain ⟨hcurrent, hbegun⟩ := (Bool.and_eq_true _ _).mp ha
      obtain ⟨fs, hstack⟩ := Transactions.State.current_eq (of_decide_eq_true hcurrent)
      obtain rfl := (h.only ⟨fs, Or.inl hstack⟩ (of_decide_eq_true hbegun)).2 u hu
      exact Or.inr (Or.inr (Or.inl rfl))
  | destruct t =>
      by_cases hut : u = t
      · rw [hut]
        exact Or.inr (Or.inr (Or.inr rfl))
      · rw [Transactions.perform] at hperform
        split_ifs at hperform with hbegun
        · exact absurd ((h.only (Transactions.atTop_of_destruct ha) hbegun.1).2 u hu) hut
        · cases hperform
          exact Or.inl ⟨List.mem_filter.mpr ⟨hu.1, decide_eq_true hut⟩, hu.2⟩
  | destroy c =>
      rw [Transactions.perform, Transactions.destroyCoroutine] at hperform
      dsimp only at hperform
      have hpush : u ∈ l.begun ∧ Transactions.Frame.finishing u ∉ .destroying c :: l.stack :=
        ⟨hu.1, fun hmem => hu.2 (List.mem_of_ne_of_mem Transactions.Frame.noConfusion hmem)⟩
      split at hperform
      next n hphase =>
        split at hperform
        next => cases hperform
        next d nodes hremove =>
          cases hperform
          exact Or.inl hpush
      next =>
        cases hperform
        exact Or.inl hpush
  | destroyed =>
      cases hperform
      exact Or.inl (active_leave rfl hu)

end

/-! ### The invariant -/

/-- Only the coroutine of the active transaction has scopes open, or will open one before it calls again. -/
structure Inv (h₀ : Header) (s : State) : Prop where
  lawful : ∃ q, Lawful h₀ s.lock q
  nests : ∀ c, (s.proc c).Nests
  owned : ∀ c, (s.proc c).Quiet ∨ ∃ t, Active s.lock t ∧ t.coroutine = c
  held : ∃ c, Holds s.arena (s.proc c).scopes ∧ ∀ d, d ≠ c → (s.proc d).scopes = []

section

variable {h₀ : Header} {m : Config} {s s' : State} {c : Coroutine} {t : Transaction} {p : Proc} {a : Arena}

theorem inv_init (h₀ : Header) (offset : Nat) : Inv h₀ (init h₀ offset) :=
  ⟨⟨[], Transactions.lawful_init h₀⟩, fun _ => trivial, fun _ => Or.inl trivial, 0, holds_init offset, fun _ _ => rfl⟩

theorem Proc.eq_done (h : p.isDone = true) : p = .done := by
  cases p with
  | done => rfl
  | waiting => cases h
  | seq p d => cases h
  | scope σ p => cases h
  | both p q => cases h

/-- What is open belongs to the coroutine of the active transaction. -/
theorem Inv.focus (h : Inv h₀ s) (ht : Active s.lock t) :
    Holds s.arena (s.proc t.coroutine).scopes ∧ ∀ d, d ≠ t.coroutine → (s.proc d).scopes = [] := by
  obtain ⟨q, hlawful⟩ := h.lawful
  have hothers : ∀ d, d ≠ t.coroutine → (s.proc d).scopes = [] := by
    intro d hd
    refine ((h.owned d).resolve_right ?_).scopes
    rintro ⟨u, hu, rfl⟩
    exact hd (congrArg Transaction.coroutine (hlawful.locked.exclusive u t hu ht))
  refine ⟨?_, hothers⟩
  obtain ⟨c, hheld, hnone⟩ := h.held
  by_cases hc : c = t.coroutine
  · exact hc ▸ hheld
  · rw [hothers c hc] at hheld
    rw [hnone t.coroutine (Ne.symm hc)]
    exact hheld

/-- A coroutine that opens no scope goes on. -/
theorem Inv.quiet (h : Inv h₀ s) (hold : (s.proc c).Quiet) (hnew : p.Quiet) :
    Inv h₀ { s with proc := Function.update s.proc c p } := by
  have hscopes : ∀ d, (Function.update s.proc c p d).scopes = (s.proc d).scopes := by
    refine (Function.forall_update_iff s.proc fun d p => p.scopes = (s.proc d).scopes).mpr ⟨?_, fun _ _ => rfl⟩
    rw [hold.scopes, hnew.scopes]
  refine ⟨h.lawful, ?_, ?_, ?_⟩
  · exact (Function.forall_update_iff s.proc fun _ p => p.Nests).mpr ⟨hnew.nests, fun d _ => h.nests d⟩
  · exact (Function.forall_update_iff s.proc fun d p => p.Quiet ∨ ∃ t, Active s.lock t ∧ t.coroutine = d).mpr
      ⟨Or.inl hnew, fun d _ => h.owned d⟩
  · simp only [hscopes]
    exact h.held

/-- The coroutine of the active transaction goes on. -/
theorem Inv.active (h : Inv h₀ s) (ht : Active s.lock t) (hnests : p.Nests) (hheld : Holds a p.scopes) :
    Inv h₀ { s with proc := Function.update s.proc t.coroutine p, arena := a } := by
  refine ⟨h.lawful, ?_, ?_, t.coroutine, ?_, fun d hd => ?_⟩
  · exact (Function.forall_update_iff s.proc fun _ p => p.Nests).mpr ⟨hnests, fun d _ => h.nests d⟩
  · exact (Function.forall_update_iff s.proc fun d p => p.Quiet ∨ ∃ t, Active s.lock t ∧ t.coroutine = d).mpr
      ⟨Or.inr ⟨t, ht, rfl⟩, fun d _ => h.owned d⟩
  · dsimp only
    rw [Function.update_self]
    exact hheld
  · dsimp only
    rw [Function.update_of_ne hd]
    exact (h.focus ht).2 d hd

theorem Inv.destroyProc (h : Inv h₀ s) (a : Transactions.Action) : Inv h₀ (Scratch.destroyProc a s) := by
  cases a with
  | destroy c =>
      rw [Scratch.destroyProc]
      rcases h.owned c with hquiet | ⟨t, ht, rfl⟩
      · rw [hquiet.destroy]
        exact h.quiet hquiet trivial
      · have hheld := (h.focus ht).1
        rw [← List.append_nil (s.proc t.coroutine).scopes] at hheld
        exact h.active ht trivial ((h.nests _).destroy hheld)
  | resume c => exact h
  | suspend => exact h
  | begin t => exact h
  | write header => exact h
  | commit t => exact h
  | rollback t => exact h
  | destruct t => exact h
  | destroyed => exact h

theorem destroyProc_lock (a : Transactions.Action) (s : State) : (destroyProc a s).lock = s.lock := by
  cases a <;> rfl

/-- Who is inside an operation does not end its transaction. -/
theorem owned_lock {l : Transactions.State} {b : Transactions.Action} (h : Inv h₀ s)
    (hidle : (caller b).all (fun c => (s.proc c).isDone) = true)
    (hactive : ∀ u, Active s.lock u → Active l u ∨ b = .commit u ∨ b = .rollback u ∨ b = .destruct u) (c : Coroutine) :
    ((destroyProc b s).proc c).Quiet ∨ ∃ t, Active l t ∧ t.coroutine = c := by
  rcases (h.destroyProc b).owned c with hquiet | ⟨t, ht, rfl⟩
  · exact Or.inl hquiet
  · rw [destroyProc_lock] at ht
    have hdone : caller b = some t.coroutine → (s.proc t.coroutine).Quiet := by
      intro hb
      rw [hb] at hidle
      rw [Proc.eq_done hidle]
      trivial
    rcases hactive t ht with ht | rfl | rfl | rfl
    · exact Or.inr ⟨t, ht, rfl⟩
    · exact Or.inl (hdone rfl)
    · exact Or.inl (hdone rfl)
    · exact Or.inl (hdone rfl)

theorem Inv.lock (h : Inv h₀ s) {b : Transactions.Action} (hb : Transactions.possible s.lock b = true)
    (hidle : (caller b).all (fun c => (s.proc c).isDone) = true) {l : Transactions.State}
    (hstep : Transactions.step s.lock b = some l) : Inv h₀ { Scratch.destroyProc b s with lock := l } := by
  obtain ⟨q, hlawful⟩ := h.lawful
  have hdestroyed := h.destroyProc b
  refine ⟨?_, hdestroyed.nests, owned_lock h hidle fun u hu => active_step hlawful hb hstep hu, hdestroyed.held⟩
  rcases Transactions.lawful_perform hlawful hb with hfault | ⟨l', q', hperform, hlawful'⟩
  · rw [Transactions.step, hfault] at hstep
    cases hstep
  · rw [Transactions.step, hperform] at hstep
    cases hstep
    exact ⟨q', hlawful'⟩

theorem Inv.step (h : Inv h₀ s) {b : Action} (hb : possible s b = true) (hstep : step m s b = some s') : Inv h₀ s' := by
  cases b with
  | lock b =>
      obtain ⟨hb, hidle⟩ := (Bool.and_eq_true _ _).mp hb
      obtain ⟨l, hl, rfl⟩ := Option.map_eq_some_iff.mp hstep
      exact h.lock hb hidle hl
  | call op e =>
      obtain ⟨c, hc, rfl⟩ := Option.map_eq_some_iff.mp hstep
      rw [possible, hc, Option.any_some, Bool.and_eq_true, List.any_eq_true] at hb
      obtain ⟨hdone, t, ht, htc⟩ := hb
      obtain rfl : t.coroutine = c := of_decide_eq_true htc
      obtain ⟨q, hlawful⟩ := h.lawful
      obtain ⟨fs, hstack⟩ := Transactions.State.current_eq hc
      have hactive := hlawful.active_of_begun ⟨fs, Or.inl hstack⟩ ht
      have hheld := (h.focus hactive).1
      rw [Proc.eq_done hdone] at hheld
      obtain ⟨hnests, hheld⟩ := (Operation.nests m e op).start hheld
      rw [Proc.scopes, List.append_nil] at hheld
      exact h.active hactive hnests hheld
  | complete c path =>
      obtain ⟨r, hr, rfl⟩ := Option.map_eq_some_iff.mp hstep
      rcases h.owned c with hquiet | ⟨t, ht, rfl⟩
      · obtain ⟨harena, hquiet'⟩ := hquiet.resume hr
        rw [harena]
        exact h.quiet hquiet hquiet'
      · have hheld := (h.focus ht).1
        rw [← List.append_nil (s.proc t.coroutine).scopes] at hheld
        obtain ⟨hnests, hheld⟩ := (h.nests _).resume hheld hr
        rw [List.append_nil] at hheld
        exact h.active ht hnests hheld

end

/-- In every run of coroutines that begin, work in, commit and roll back transactions of one pager, suspended
at any wait, resumed in any order or destroyed where they are: when a scratch scope ends, everything that was
allocated since it was opened is its own or of scopes that have ended, and no live memory is handed out
twice. -/
theorem scratch_orderly {m : Config} {h₀ : Header} {offset : Nat} {as : List Action} {s : State}
    (hrun : Run (step m) (fun s a => possible s a = true) (init h₀ offset) as s) : Orderly s.arena.history := by
  have hinv : Inv h₀ s := by
    refine Run.invariant ?_ hrun (inv_init h₀ offset)
    intro s b s' hinv hb hstep
    exact hinv.step hb hstep
  obtain ⟨c, hheld, -⟩ := hinv.held
  exact hheld.orderly

/-- Pages and buffers of 32 bytes, and every operation suspends once. -/
def smallPages : Config := ⟨32, 32, le_rfl, le_rfl⟩

def once : Env := ⟨fun _ => 1, fun _ => 0⟩

/-- Coroutine 0 creates a blob while coroutine 1 waits for the lock. Its commit writes a frame in two chunks,
and it is destroyed when the first is through; coroutine 1 gets the lock and compacts a page. -/
def destroyedInCommit : List Action :=
  [.lock (.resume 0), .lock (.begin ⟨0, 0⟩), .call (.createPagedStatic 33) once, .lock .suspend, .lock (.resume 1),
    .lock (.begin ⟨1, 0⟩), .lock (.resume 0), .complete 0 [], .complete 0 [], .complete 0 [],
    .call (.commit ⟨true, [.header], 0, 0, 1, []⟩) once, .complete 0 [false], .lock .suspend, .lock (.destroy 0),
    .lock (.destruct ⟨0, 0⟩), .call (.compact 32) once]

/-- The scopes of the destroyed commit end from the innermost on, and the next begins where the first of them
did. -/
def destroyedHistory : List Event :=
  [.ended 5, .pushed ⟨5, 128, 32⟩, .opened 5, .ended 1, .ended 2, .ended 3, .ended 4, .pushed ⟨4, 256, 16⟩,
    .pushed ⟨4, 240, 16⟩, .opened 4, .pushed ⟨3, 192, 48⟩, .opened 3, .pushed ⟨2, 144, 48⟩, .opened 2,
    .pushed ⟨1, 128, 16⟩, .opened 1, .ended 0, .pushed ⟨0, 128, 16⟩, .opened 0]

theorem scratch_orderly_destroyedInCommit :
    ∃ s : State, s.arena.history = destroyedHistory ∧ Orderly s.arena.history := by
  have hrun : (runAll (step smallPages) possible (init ⟨1, 0⟩ 128) destroyedInCommit).map (·.arena.history) =
      some destroyedHistory := by
    decide +kernel
  obtain ⟨s, hs, hhistory⟩ := Option.map_eq_some_iff.mp hrun
  exact ⟨s, hhistory, scratch_orderly (Run.of_runAll hs)⟩

end Plexdb.Scratch
