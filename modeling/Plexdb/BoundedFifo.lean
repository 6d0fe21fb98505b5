import Mathlib

/-! A queue of at most `cap` values, told by what its calls return: the log of a run is accepted when a list of
values explains every return. -/

namespace Plexdb

/-- What a call of the queue returned. -/
inductive Outcome (T : Type) where
  | pushed (value : T)
  | full
  | popped (value : T)
  | empty

namespace Outcome

variable {T : Type}

def pushes : List (Outcome T) → List T
  | [] => []
  | .pushed value :: log => value :: pushes log
  | _ :: log => pushes log

def pops : List (Outcome T) → List T
  | [] => []
  | .popped value :: log => value :: pops log
  | _ :: log => pops log

@[simp] theorem pushes_append (log log' : List (Outcome T)) : pushes (log ++ log') = pushes log ++ pushes log' := by
  induction log with
  | nil => rfl
  | cons o log ih => cases o <;> simp [pushes, ih]

@[simp] theorem pops_append (log log' : List (Outcome T)) : pops (log ++ log') = pops log ++ pops log' := by
  induction log with
  | nil => rfl
  | cons o log ih => cases o <;> simp [pops, ih]

end Outcome

namespace BoundedFifo

open Outcome

variable {T : Type} {cap : ℕ}

/-- One return of a queue that holds a list of at most `cap` values. -/
inductive Takes (cap : ℕ) : List T → Outcome T → List T → Prop where
  | pushed {content : List T} (value : T) (room : content.length < cap) :
      Takes cap content (.pushed value) (content ++ [value])
  | full {content : List T} (hfull : content.length = cap) : Takes cap content .full content
  | popped (value : T) (content : List T) : Takes cap (value :: content) (.popped value) content
  | empty : Takes cap [] .empty []

/-- The log of a run that starts with an empty queue and ends with the given one. -/
inductive Accepts (cap : ℕ) : List (Outcome T) → List T → Prop where
  | nil : Accepts cap [] []
  | snoc {log : List (Outcome T)} {content content' : List T} {o : Outcome T} (h : Accepts cap log content)
      (takes : Takes cap content o content') : Accepts cap (log ++ [o]) content'

/-- What was pushed is what was popped and what is still held, in this order. -/
theorem Accepts.pushes_eq {log : List (Outcome T)} {content : List T} (h : Accepts cap log content) :
    pushes log = pops log ++ content := by
  induction h with
  | nil => rfl
  | snoc _ takes ih =>
      rw [pushes_append, pops_append, ih]
      cases takes <;> simp [pushes, pops]

theorem Accepts.length_le {log : List (Outcome T)} {content : List T} (h : Accepts cap log content) :
    content.length ≤ cap := by
  induction h with
  | nil => exact Nat.zero_le cap
  | snoc _ takes ih =>
      cases takes with
      | pushed value room =>
          rw [List.length_append]
          exact room
      | full hfull => exact hfull.le
      | popped value _ => exact (Nat.le_succ _).trans ih
      | empty => exact Nat.zero_le cap

theorem Accepts.length_pushes {log : List (Outcome T)} {content : List T} (h : Accepts cap log content) :
    (pushes log).length = (pops log).length + content.length := by
  rw [h.pushes_eq, List.length_append]

theorem Accepts.pops_initial {log : List (Outcome T)} {content : List T} (h : Accepts cap log content) :
    pops log <+: pushes log := by
  rw [h.pushes_eq]
  exact List.prefix_append (pops log) content

/-- Every return in the middle of an accepted log is one of a queue that the part before it leads to. -/
theorem Accepts.split {log before after : List (Outcome T)} {content : List T} {o : Outcome T}
    (h : Accepts cap log content) (hlog : log = before ++ o :: after) :
    ∃ c c', Accepts cap before c ∧ Takes cap c o c' := by
  induction h generalizing after with
  | nil => exact absurd hlog.symm (List.append_ne_nil_of_right_ne_nil before (List.cons_ne_nil o after))
  | @snoc log c c' o' h takes ih =>
      rcases List.eq_nil_or_concat after with rfl | ⟨after', last, rfl⟩
      · obtain ⟨rfl, ho⟩ := List.append_inj' hlog rfl
        cases ho
        exact ⟨c, c', h, takes⟩
      · rw [List.concat_eq_append, ← List.cons_append, ← List.append_assoc] at hlog
        exact ih (List.append_inj' hlog rfl).1

/-- A push is refused only by a queue that holds `cap` values. -/
theorem Accepts.full_only {log before after : List (Outcome T)} {content : List T} (h : Accepts cap log content)
    (hlog : log = before ++ .full :: after) : (pushes before).length = (pops before).length + cap := by
  obtain ⟨c, c', hbefore, takes⟩ := h.split hlog
  cases takes with
  | full hfull => rw [hbefore.length_pushes, hfull]

/-- A pop is refused only by a queue that holds nothing. -/
theorem Accepts.empty_only {log before after : List (Outcome T)} {content : List T} (h : Accepts cap log content)
    (hlog : log = before ++ .empty :: after) : pops before = pushes before := by
  obtain ⟨c, c', hbefore, takes⟩ := h.split hlog
  cases takes with
  | empty => rw [hbefore.pushes_eq, List.append_nil]

end BoundedFifo

end Plexdb
