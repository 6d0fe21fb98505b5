import Plexdb.Runs

/-! A coroutine that serves a peer, as a machine whose steps are its reads and writes. Between two of them it is at a
point of its loop; from there it goes on until it suspends again. Blocks of data are written in chunks of the size
of a buffer. -/

namespace Plexdb.Suspensions

variable {κ β : Type}

/-- What a coroutine does next. -/
inductive Turn (κ β : Type) where
  | read (k : Option (List β) → Option κ)
  | send (blocks : List (List β)) (next : Option κ)
  | finish
  | assertion

/-- `persists` when a block is written to its end though a write in it failed. -/
structure Handler (κ β : Type) where
  turn : κ → Turn κ β
  capacity : Nat
  persists : Bool

/-- `next` is the point behind what is being sent; without one the coroutine returns. -/
inductive State (κ β : Type) where
  | running (k : κ)
  | reading (k : Option (List β) → Option κ)
  | sending (rest : List β) (blocks : List (List β)) (next : Option κ)
  | returned
  | failed

/-- What happens: the coroutine runs on, or an operation completes, with `none` and `false` for an error. -/
inductive Label (β : Type) where
  | go
  | read (data : Option (List β))
  | write (ok : Bool)
  deriving DecidableEq

def Label.failed : Label β → Bool
  | .go => false
  | .read data => data.isNone
  | .write ok => !ok

def resume : Option κ → State κ β
  | some k => .running k
  | none => .returned

/-- The next block that is not empty. -/
def nextBlock (next : Option κ) : List (List β) → State κ β
  | [] => resume next
  | [] :: blocks => nextBlock next blocks
  | (b :: rest) :: blocks => .sending (b :: rest) blocks next

def enter : Turn κ β → State κ β
  | .read k => .reading k
  | .send blocks next => nextBlock next blocks
  | .finish => .returned
  | .assertion => .failed

def afterWrite (h : Handler κ β) (ok : Bool) (rest : List β) (blocks : List (List β)) (next : Option κ) : State κ β :=
  if (ok || h.persists) && h.capacity < rest.length then .sending (rest.drop h.capacity) blocks next
  else nextBlock next blocks

def step (h : Handler κ β) : State κ β → Label β → Option (State κ β)
  | .running k, .go => some (enter (h.turn k))
  | .reading k, .read data => some (resume (k data))
  | .sending rest blocks next, .write ok => some (afterWrite h ok rest blocks next)
  | _, _ => none

/-- An operation that may fail: a read, or the write that is the last of the coroutine. -/
def MayFail (h : Handler κ β) : State κ β → Prop
  | .sending rest blocks next => next = none ∧ (∀ b ∈ blocks, b = []) ∧ (h.persists = true → rest.length ≤ h.capacity)
  | _ => True

/-- A coroutine returns when a read fails. -/
def ReadsEnd (h : Handler κ β) : Prop := ∀ p k, h.turn p = .read k → k none = none

def State.ReadEnds : State κ β → Prop
  | .reading k => k none = none
  | _ => True

theorem readEnds_resume (next : Option κ) : (resume next : State κ β).ReadEnds := by
  cases next with
  | none => trivial
  | some k => trivial

theorem readEnds_nextBlock (next : Option κ) (blocks : List (List β)) : (nextBlock next blocks).ReadEnds := by
  induction blocks with
  | nil => exact readEnds_resume next
  | cons block blocks ih =>
      cases block with
      | nil => exact ih
      | cons b rest => trivial

theorem readEnds_step {h : Handler κ β} (hends : ReadsEnd h) {s s' : State κ β} {l : Label β}
    (hstep : step h s l = some s') : s'.ReadEnds := by
  cases s with
  | running p =>
      cases l with
      | go =>
          obtain rfl := Option.some.inj hstep
          cases hturn : h.turn p with
          | read k => exact hends p k hturn
          | send blocks next => exact readEnds_nextBlock next blocks
          | finish => trivial
          | assertion => trivial
      | read data => cases hstep
      | write ok => cases hstep
  | reading k =>
      cases l with
      | read data =>
          obtain rfl := Option.some.inj hstep
          exact readEnds_resume _
      | go => cases hstep
      | write ok => cases hstep
  | sending rest blocks next =>
      cases l with
      | write ok =>
          obtain rfl := Option.some.inj hstep
          rw [afterWrite]
          split_ifs
          · trivial
          · exact readEnds_nextBlock next blocks
      | go => cases hstep
      | read data => cases hstep
  | returned => cases l <;> cases hstep
  | failed => cases l <;> cases hstep

theorem nextBlock_of_empty {next : Option κ} {blocks : List (List β)} (hempty : ∀ b ∈ blocks, b = []) :
    nextBlock next blocks = resume next := by
  induction blocks with
  | nil => rfl
  | cons b blocks ih =>
      obtain rfl := hempty b List.mem_cons_self
      exact ih fun c hc => hempty c (List.mem_cons_of_mem _ hc)

/-- After an operation that may fail and does, the coroutine has returned. -/
theorem returned_of_failed {h : Handler κ β} {s s' : State κ β} {l : Label β} (hreads : s.ReadEnds)
    (hstep : step h s l = some s') (hfailed : l.failed = true) (hmay : MayFail h s) : s' = .returned := by
  cases s with
  | running p =>
      cases l with
      | go => cases hfailed
      | read data => cases hstep
      | write ok => cases hstep
  | reading k =>
      cases l with
      | read data =>
          obtain rfl := Option.some.inj hstep
          obtain rfl := Option.isNone_iff_eq_none.mp hfailed
          rw [show k none = none from hreads]
          rfl
      | go => cases hstep
      | write ok => cases hstep
  | sending rest blocks next =>
      cases l with
      | write ok =>
          obtain rfl := Option.some.inj hstep
          obtain rfl : ok = false := Bool.not_eq_true' ok ▸ hfailed
          obtain ⟨rfl, hempty, hfits⟩ := hmay
          rw [afterWrite, if_neg, nextBlock_of_empty hempty]
          · rfl
          · rw [Bool.false_or, Bool.and_eq_true, decide_eq_true_eq]
            rintro ⟨hpersists, hlong⟩
            exact absurd (hfits hpersists) (Nat.not_le_of_lt hlong)
      | go => cases hstep
      | read data => cases hstep
  | returned => cases l <;> cases hstep
  | failed => cases l <;> cases hstep

/-- In a run in which only such operations fail, nothing follows one that failed, and the coroutine has
returned. -/
theorem nothing_after_failed {h : Handler κ β} (hends : ReadsEnd h) {s s' : State κ β} {pre post : List (Label β)}
    {l : Label β} (hreads : s.ReadEnds)
    (hrun : Run (step h) (fun s l => l.failed = true → MayFail h s) s (pre ++ l :: post) s')
    (hfailed : l.failed = true) : post = [] ∧ s' = .returned := by
  induction pre generalizing s with
  | nil =>
      cases hrun with
      | cons cond hstep run =>
          obtain rfl := returned_of_failed hreads hstep hfailed (cond hfailed)
          cases run with
          | nil => exact ⟨rfl, rfl⟩
          | cons cond hstep run => cases hstep
  | cons l' pre ih =>
      cases hrun with
      | cons cond hstep run => exact ih (readEnds_step hends hstep) run

end Plexdb.Suspensions
