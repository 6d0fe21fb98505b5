import Plexdb.TransactionLock

/-! The lock of a pager is held by one transaction at a time and goes to who waits longest: an
invariant of the stack of executions, of the queue that the nodes spell, and of the flag. -/

namespace Plexdb.Transactions

open Pager (Header)

/-! ### What a history says -/

def waited (history : List Event) : List Nat :=
  history.filterMap fun e => match e with
    | .waits n => some n
    | _ => none

def resumed (history : List Event) : List Nat :=
  history.filterMap fun e => match e with
    | .resumes n => some n
    | _ => none

def cancelled (history : List Event) : List Nat :=
  history.filterMap fun e => match e with
    | .cancels n => some n
    | _ => none

/-- The header of the last commit, or the one that the pager was opened with. -/
def lastCommitted (h₀ : Header) (history : List Event) : Header :=
  (history.filterMap fun e => match e with
    | .commits h => some h
    | _ => none).getLastD h₀

/-- The waiters that were not destroyed, in the order in which they started to wait. -/
def alive (history : List Event) : List Nat := (waited history).filter (· ∉ cancelled history)

theorem waited_append (a b : List Event) : waited (a ++ b) = waited a ++ waited b := List.filterMap_append

theorem resumed_append (a b : List Event) : resumed (a ++ b) = resumed a ++ resumed b := List.filterMap_append

theorem cancelled_append (a b : List Event) : cancelled (a ++ b) = cancelled a ++ cancelled b :=
  List.filterMap_append

/-- Only a wait or a destruction changes who is alive. -/
theorem alive_concat {e : Event} (hwaits : waited [e] = []) (hcancels : cancelled [e] = []) (history : List Event) :
    alive (history ++ [e]) = alive history := by
  rw [alive, alive, waited_append, cancelled_append, hwaits, hcancels, List.append_nil, List.append_nil]

theorem alive_waits {history : List Event} {n : Nat} (h : n ∉ cancelled history) :
    alive (history ++ [.waits n]) = alive history ++ [n] := by
  rw [alive, waited_append, cancelled_append, List.filter_append]
  refine congrArg₂ (· ++ ·) (by rw [alive]; simp [cancelled]) ?_
  exact List.filter_cons_of_pos (by simpa [cancelled] using h)

theorem alive_cancels (history : List Event) (n : Nat) :
    alive (history ++ [.cancels n]) = (alive history).filter (· ≠ n) := by
  rw [alive, alive, waited_append, cancelled_append, List.filter_filter]
  rw [show waited [.cancels n] = [] from rfl, show cancelled [.cancels n] = [n] from rfl, List.append_nil]
  refine List.filter_congr fun m _ => ?_
  rw [← Bool.decide_and, decide_eq_decide, List.mem_append, List.mem_singleton, not_or, and_comm]

theorem lastCommitted_concat (h₀ : Header) (history : List Event) {e : Event} (he : ∀ h, e ≠ .commits h) :
    lastCommitted h₀ (history ++ [e]) = lastCommitted h₀ history := by
  rw [lastCommitted, lastCommitted, List.filterMap_append]
  cases e with
  | commits h => exact absurd rfl (he h)
  | waits n => exact congrArg (List.getLastD · h₀) (List.append_nil _)
  | resumes n => exact congrArg (List.getLastD · h₀) (List.append_nil _)
  | cancels n => exact congrArg (List.getLastD · h₀) (List.append_nil _)

theorem lastCommitted_commits (h₀ h : Header) (history : List Event) :
    lastCommitted h₀ (history ++ [.commits h]) = h := by
  rw [lastCommitted, List.filterMap_append]
  exact List.getLastD_concat

/-- A transaction that has begun, and whose end has not handed the lock on. -/
def Active (s : State) (t : Transaction) : Prop := t ∈ s.begun ∧ Frame.finishing t ∉ s.stack

/-! ### The invariant -/

/-- The nodes spell the queue `q`: whoever started to wait and was not destroyed has been resumed or
stands in it, in that order, and it holds the coroutines that wait. -/
structure Queued (s : State) (q : List Nat) : Prop where
  linked : s.txWaiters.Linked s.nodes q
  order : resumed s.history ++ q = alive s.history
  nodup : (waited s.history).Nodup
  fresh : ∀ n ∈ waited s.history, n < s.nextNode
  gone : ∀ n ∈ cancelled s.history, n ∈ waited s.history
  waits : ∀ n ∈ q, ∃ t, Deque.valueAt s.nodes n = some t ∧ s.phase t.coroutine = .waiting n
  waiting : ∀ c n, s.phase c = .waiting n → n ∈ q ∧ ∃ t, Deque.valueAt s.nodes n = some t ∧ t.coroutine = c

/-- The coroutines on the stack. -/
def executing (fs : List Frame) : List Coroutine :=
  fs.filterMap fun f => match f with
    | .running c | .destroying c => some c
    | .finishing _ => none

/-- A transaction that is finishing belongs to a coroutine below. -/
def Grounded : List Frame → Prop
  | [] => True
  | .finishing t :: fs => t.coroutine ∈ executing fs ∧ Grounded fs
  | _ :: fs => Grounded fs

structure Stacked (s : State) : Prop where
  nodup : (executing s.stack).Nodup
  phase : ∀ c ∈ executing s.stack, s.phase c = .running ∨ s.phase c = .destroyed
  grounded : Grounded s.stack

/-- At most one transaction is active, exactly when the flag says so; nobody waits while none is, and
what it would go back to is what was committed last. -/
structure Locked (h₀ : Header) (s : State) (q : List Nat) : Prop where
  exclusive : ∀ t u, Active s t → Active s u → t = u
  active : s.transactionActive = true ↔ ∃ t, Active s t
  saved : s.transactionActive = true → s.savedHeader = lastCommitted h₀ s.history
  header : s.transactionActive = false → s.header = lastCommitted h₀ s.history
  idle : s.transactionActive = false → q = []

structure Lawful (h₀ : Header) (s : State) (q : List Nat) : Prop where
  queued : Queued s q
  stacked : Stacked s
  locked : Locked h₀ s q

theorem lawful_init (h : Header) : Lawful h (init h) [] := by
  refine ⟨⟨Deque.linked_nil _, rfl, List.nodup_nil, List.forall_mem_nil _, List.forall_mem_nil _, List.forall_mem_nil _, ?_⟩,
    ⟨List.nodup_nil, List.forall_mem_nil _, trivial⟩, ⟨?_, ?_, ?_, fun _ => rfl, fun _ => rfl⟩⟩
  · intro c n h
    cases h
  · rintro t u ⟨ht, -⟩
    cases ht
  · refine ⟨fun h => (by cases h), ?_⟩
    rintro ⟨t, ht, -⟩
    cases ht
  · intro h
    cases h

/-! ### The stack -/

section

variable {fs : List Frame} {t : Transaction} {c : Coroutine} {s : State}

theorem mem_executing_of_finishing (h : Grounded fs) (ht : Frame.finishing t ∈ fs) : t.coroutine ∈ executing fs := by
  induction fs with
  | nil => cases ht
  | cons f fs ih =>
      cases f with
      | finishing u =>
          rcases List.mem_cons.mp ht with heq | ht
          · cases heq
            exact h.1
          · exact ih h.2 ht
      | running c =>
          rcases List.mem_cons.mp ht with heq | ht
          · cases heq
          · exact List.mem_cons_of_mem c (ih h ht)
      | destroying c =>
          rcases List.mem_cons.mp ht with heq | ht
          · cases heq
          · exact List.mem_cons_of_mem c (ih h ht)

theorem State.current_eq (h : s.current = some c) : ∃ fs, s.stack = .running c :: fs := by
  rw [State.current] at h
  split at h
  next hstack =>
    cases h
    exact ⟨_, hstack⟩
  next => cases h

theorem State.dying_eq (h : s.dying = some c) : ∃ fs, s.stack = .destroying c :: fs := by
  rw [State.dying] at h
  split at h
  next hstack =>
    cases h
    exact ⟨_, hstack⟩
  next => cases h

/-- The coroutine on top of the stack. -/
def AtTop (s : State) (c : Coroutine) : Prop := ∃ fs, s.stack = .running c :: fs ∨ s.stack = .destroying c :: fs

theorem AtTop.executing (h : AtTop s c) : c ∈ executing s.stack := by
  obtain ⟨fs, hstack | hstack⟩ := h
  · rw [hstack]
    exact List.mem_cons_self
  · rw [hstack]
    exact List.mem_cons_self

/-- A `~Transaction` runs in the coroutine on top. -/
theorem atTop_of_destruct (ha : possible s (.destruct t) = true) : AtTop s t.coroutine := by
  rcases (Bool.or_eq_true _ _).mp ha with htop | htop
  · obtain ⟨fs, hstack⟩ := State.current_eq (of_decide_eq_true htop)
    exact ⟨fs, Or.inl hstack⟩
  · obtain ⟨fs, hstack⟩ := State.dying_eq (of_decide_eq_true htop)
    exact ⟨fs, Or.inr hstack⟩

/-- A transaction of the coroutine on top is not finishing. -/
theorem Stacked.not_finishing (h : Stacked s) (htop : AtTop s t.coroutine) : Frame.finishing t ∉ s.stack := by
  obtain ⟨hnodup, -, hgrounded⟩ := h
  intro ht
  obtain ⟨fs, hstack | hstack⟩ := htop
  all_goals
    rw [hstack] at hnodup hgrounded ht
    rcases List.mem_cons.mp ht with heq | ht
    · cases heq
    · exact (List.nodup_cons.mp hnodup).1 (mem_executing_of_finishing hgrounded ht)

/-- Nor is one of a coroutine that is not on the stack. -/
theorem Stacked.not_finishing_of_phase (h : Stacked s) (hrun : s.phase t.coroutine ≠ .running)
    (hdead : s.phase t.coroutine ≠ .destroyed) : Frame.finishing t ∉ s.stack := fun ht =>
  (h.phase _ (mem_executing_of_finishing h.grounded ht)).elim hrun hdead

/-- The coroutine on top is neither suspended nor waiting. -/
theorem Stacked.phase_of_top (h : Stacked s) (htop : AtTop s c) : s.phase c = .running ∨ s.phase c = .destroyed :=
  h.phase c htop.executing

end

section

variable {h₀ : Header} {s s' : State} {q : List Nat} {fs : List Frame} {t : Transaction} {c : Coroutine}

theorem Locked.congr (h : Locked h₀ s q) (hactive : ∀ u, Active s' u ↔ Active s u)
    (hflag : s'.transactionActive = s.transactionActive) (hsaved : s'.savedHeader = s.savedHeader)
    (hheader : s'.header = s.header) (hhistory : lastCommitted h₀ s'.history = lastCommitted h₀ s.history) :
    Locked h₀ s' q := by
  refine ⟨fun t u ht hu => h.exclusive t u ((hactive t).mp ht) ((hactive u).mp hu), ?_, ?_, ?_, ?_⟩
  · rw [hflag, h.active]
    exact exists_congr fun u => (hactive u).symm
  · rw [hflag, hsaved, hhistory]
    exact h.saved
  · rw [hflag, hheader, hhistory]
    exact h.header
  · rw [hflag]
    exact h.idle

theorem Queued.congr (h : Queued s q) (hwaiters : s'.txWaiters = s.txWaiters) (hnodes : s'.nodes = s.nodes)
    (hnext : s'.nextNode = s.nextNode) (hphase : s'.phase = s.phase) (hhistory : s'.history = s.history) :
    Queued s' q := by
  obtain ⟨hlinked, horder, hnodup, hfresh, hgone, hwaits, hwaiting⟩ := h
  constructor
  · rwa [hwaiters, hnodes]
  · rwa [hhistory]
  · rwa [hhistory]
  · rwa [hhistory, hnext]
  · rwa [hhistory]
  · rwa [hnodes, hphase]
  · rwa [hnodes, hphase]

/-- A coroutine that does not wait changes its phase. -/
theorem Queued.setPhase (h : Queued s q) {p : Phase} (hold : ∀ n, s.phase c ≠ .waiting n) (hnew : ∀ n, p ≠ .waiting n) :
    Queued { s with phase := Function.update s.phase c p } q := by
  refine ⟨h.linked, h.order, h.nodup, h.fresh, h.gone, fun n hn => ?_, fun d n hd => ?_⟩
  · obtain ⟨t, ht, hphase⟩ := h.waits n hn
    have hne : t.coroutine ≠ c := fun heq => hold n (heq ▸ hphase)
    exact ⟨t, ht, (Function.update_of_ne hne _ _).trans hphase⟩
  · dsimp only at hd
    by_cases hdc : d = c
    · rw [hdc, Function.update_self] at hd
      exact absurd hd (hnew n)
    · rw [Function.update_of_ne hdc] at hd
      exact h.waiting d n hd

/-- A coroutine that is not on the stack comes to run, or to be destroyed, on top of it. -/
theorem Stacked.push (h : Stacked s) {f : Frame} (hf : ∀ fs, executing (f :: fs) = c :: executing fs)
    (hground : ∀ fs, Grounded (f :: fs) = Grounded fs) (hc : c ∉ executing s.stack) {p : Phase}
    (hp : p = .running ∨ p = .destroyed) :
    Stacked { s with phase := Function.update s.phase c p, stack := f :: s.stack } := by
  refine ⟨?_, fun d hd => ?_, ?_⟩
  · dsimp only
    rw [hf]
    exact List.nodup_cons.mpr ⟨hc, h.nodup⟩
  · dsimp only at hd ⊢
    rw [hf] at hd
    by_cases hdc : d = c
    · rw [hdc, Function.update_self]
      exact hp
    · rw [Function.update_of_ne hdc]
      exact h.phase d (List.mem_of_ne_of_mem hdc hd)
  · dsimp only
    rw [hground]
    exact h.grounded

theorem Stacked.not_executing (h : Stacked s) (hrun : s.phase c ≠ .running) (hdead : s.phase c ≠ .destroyed) :
    c ∉ executing s.stack := fun hc => (h.phase c hc).elim hrun hdead

theorem Stacked.setPhase (h : Stacked s) (hc : c ∉ executing s.stack) (p : Phase) :
    Stacked { s with phase := Function.update s.phase c p } := by
  refine ⟨h.nodup, fun d hd => ?_, h.grounded⟩
  have hdc : d ≠ c := fun heq => hc (heq ▸ hd)
  dsimp only
  rw [Function.update_of_ne hdc]
  exact h.phase d hd

/-- The last line of a transaction that has ended. -/
theorem Lawful.clear (h : Lawful h₀ s q) (hstack : s.stack = .finishing t :: fs) :
    Lawful h₀ { clearStarted t s with stack := fs } q := by
  obtain ⟨hqueued, ⟨hnodup, hphase, hgrounded⟩, hlocked⟩ := h
  rw [hstack] at hnodup hphase hgrounded
  refine ⟨hqueued.congr rfl rfl rfl rfl rfl, ⟨hnodup, hphase, hgrounded.2⟩, ?_⟩
  refine hlocked.congr (fun u => ?_) rfl rfl rfl rfl
  rw [Active, Active, clearStarted, hstack, List.mem_filter, List.mem_cons, not_or, decide_eq_true_eq, Frame.finishing.injEq]
  tauto

theorem lawful_unwind (fs : List Frame) (s : State) (h : Lawful h₀ { s with stack := fs } q) :
    Lawful h₀ (unwind fs s) q := by
  induction fs generalizing s with
  | nil => exact h
  | cons f fs ih =>
      cases f with
      | finishing t => exact ih (clearStarted t s) (h.clear rfl)
      | running c => exact h
      | destroying c => exact h

/-- The coroutine on top gives the control back. -/
theorem Lawful.leave (h : Lawful h₀ s q) (htop : s.stack = .running c :: fs ∨ s.stack = .destroying c :: fs) :
    Lawful h₀ { s with stack := fs } q ∧ c ∉ executing fs := by
  obtain ⟨hqueued, ⟨hnodup, hphase, hgrounded⟩, hlocked⟩ := h
  have hactive : ∀ u, Active { s with stack := fs } u ↔ Active s u := by
    intro u
    rcases htop with hstack | hstack
    · rw [Active, Active, hstack, List.mem_cons, not_or]
      simp
    · rw [Active, Active, hstack, List.mem_cons, not_or]
      simp
  have hexecuting : executing s.stack = c :: executing fs := by
    rcases htop with hstack | hstack
    · rw [hstack]; rfl
    · rw [hstack]; rfl
  have hground : Grounded fs := by
    rcases htop with hstack | hstack
    · rw [hstack] at hgrounded; exact hgrounded
    · rw [hstack] at hgrounded; exact hgrounded
  rw [hexecuting] at hnodup hphase
  refine ⟨⟨hqueued.congr rfl rfl rfl rfl rfl, ⟨hnodup.of_cons, ?_, hground⟩,
    hlocked.congr hactive rfl rfl rfl rfl⟩, (List.nodup_cons.mp hnodup).1⟩
  exact fun d hd => hphase d (List.mem_cons_of_mem c hd)

/-- The stack grows by something that is not the end of a transaction. -/
theorem Locked.push (h : Locked h₀ s q) {f : Frame} (hf : ∀ u, f ≠ .finishing u) {p : Coroutine → Phase} :
    Locked h₀ { s with phase := p, stack := f :: s.stack } q := by
  refine h.congr (fun u => and_congr_right fun _ => not_congr ?_) rfl rfl rfl rfl
  exact ⟨fun hmem => (List.mem_cons.mp hmem).resolve_left (hf u).symm, List.mem_cons_of_mem f⟩

/-! ### The end of a transaction -/

/-- A transaction begins when none is active. -/
theorem locked_activate (hnone : ∀ u, ¬ Active s u) (hfinishing : Frame.finishing t ∉ s.stack)
    (hheader : s.header = lastCommitted h₀ s.history) : Locked h₀ (activate t s) q := by
  have hactive : ∀ u, Active (activate t s) u → u = t := by
    rintro u ⟨hu, hu'⟩
    exact (List.mem_cons.mp hu).resolve_right fun hu => hnone u ⟨hu, hu'⟩
  refine ⟨fun u v hu hv => (hactive u hu).trans (hactive v hv).symm, ⟨fun _ => ?_, fun _ => rfl⟩,
    fun _ => hheader, fun h => (by cases h), fun h => (by cases h)⟩
  exact ⟨t, List.mem_cons_self, hfinishing⟩

/-- The head of the queue is resumed. -/
theorem Queued.pop {n : Nat} {d : Deque} {nodes : Deque.Memory Transaction} {waiter : Transaction}
    (h : Queued s (n :: q)) (hlinked : d.Linked nodes q)
    (hvalue : ∀ m, Deque.valueAt nodes m = Deque.valueAt s.nodes m) (hwaiter : Deque.valueAt s.nodes n = some waiter)
    (hphase : s.phase waiter.coroutine = .waiting n) :
    Queued { s with
      txWaiters := d
      nodes := Function.update nodes n none
      phase := Function.update s.phase waiter.coroutine .running
      history := s.history ++ [.resumes n] } q := by
  have hn : n ∉ q := (List.nodup_cons.mp h.linked.nodup).1
  have hvalue' : ∀ m, m ≠ n → Deque.valueAt (Function.update nodes n none) m = Deque.valueAt s.nodes m := by
    intro m hm
    rw [← hvalue, Deque.valueAt, Deque.valueAt, Function.update_of_ne hm]
  have hwaited : waited (s.history ++ [.resumes n]) = waited s.history :=
    (waited_append _ _).trans (List.append_nil _)
  have hcancelled : cancelled (s.history ++ [.resumes n]) = cancelled s.history :=
    (cancelled_append _ _).trans (List.append_nil _)
  refine ⟨hlinked.update hn none, ?_, hwaited ▸ h.nodup, hwaited ▸ h.fresh, ?_, fun m hm => ?_, fun c m hc => ?_⟩
  · dsimp only
    rw [alive_concat rfl rfl, ← h.order, resumed_append, List.append_assoc]
    rfl
  · dsimp only
    rw [hwaited, hcancelled]
    exact h.gone
  · have hmn : m ≠ n := fun heq => hn (heq ▸ hm)
    obtain ⟨t, ht, htphase⟩ := h.waits m (List.mem_cons_of_mem n hm)
    refine ⟨t, (hvalue' m hmn).trans ht, (Function.update_of_ne ?_ _ _).trans htphase⟩
    intro heq
    rw [heq, hphase] at htphase
    exact hmn (Phase.waiting.inj htphase).symm
  · dsimp only at hc
    by_cases hcw : c = waiter.coroutine
    · rw [hcw, Function.update_self] at hc
      cases hc
    · rw [Function.update_of_ne hcw] at hc
      obtain ⟨hm, t, ht, htc⟩ := h.waiting c m hc
      have hmn : m ≠ n := by
        rintro rfl
        rw [hwaiter] at ht
        exact hcw (htc.symm.trans (congrArg Transaction.coroutine (Option.some.inj ht).symm))
      exact ⟨List.mem_of_ne_of_mem hmn hm, t, (hvalue' m hmn).trans ht, htc⟩

/-- A transaction that ends hands the lock to the head of the queue, if there is one. -/
theorem lawful_finishTransaction (hqueued : Queued s q) (hstacked : Stacked s) (honly : ∀ u, Active s u → u = t)
    (htop : AtTop s t.coroutine) (hheader : s.header = lastCommitted h₀ s.history) :
    ∃ s' q', finishTransaction t s = .ok s' ∧ Lawful h₀ s' q' := by
  rw [finishTransaction]
  dsimp only
  cases q with
  | nil =>
      have hlength : s.txWaiters.length = 0 := hqueued.linked.length
      rw [if_neg (by omega)]
      refine ⟨_, [], rfl, ⟨hqueued.congr rfl rfl rfl rfl rfl,
        ⟨hstacked.1, hstacked.2, hstacked.3⟩, ?_⟩⟩
      have hnone : ∀ u, ¬ Active (clearStarted t { s with transactionActive := false }) u := by
        rintro u ⟨hu, hfinishing⟩
        obtain ⟨hu, hne⟩ := List.mem_filter.mp hu
        exact of_decide_eq_true hne (honly u ⟨hu, hfinishing⟩)
      refine ⟨fun u v hu => absurd hu (hnone u), ⟨fun h => (by cases h), ?_⟩, fun h => (by cases h), fun _ => hheader,
        fun _ => rfl⟩
      rintro ⟨u, hu⟩
      exact absurd hu (hnone u)
  | cons n q =>
      have hlength : s.txWaiters.length = q.length + 1 := hqueued.linked.length
      rw [if_pos (by omega)]
      obtain ⟨waiter, hwaiter, hfront⟩ := hqueued.linked.front_eq
      obtain ⟨d, nodes, hpop, hlinked, hvalue⟩ := hqueued.linked.popFront
      obtain ⟨waiter', hwaiter', hphase⟩ := hqueued.waits n List.mem_cons_self
      obtain rfl : waiter' = waiter := Option.some.inj (hwaiter'.symm.trans hwaiter)
      have hnew : waiter'.coroutine ∉ executing s.stack :=
        hstacked.not_executing (by rw [hphase]; exact Phase.noConfusion) (by rw [hphase]; exact Phase.noConfusion)
      rw [hfront, hpop]
      dsimp only
      rw [resumeWaiter, if_pos hphase]
      have hpopped := hqueued.pop hlinked hvalue hwaiter hphase
      refine ⟨_, q, rfl, ⟨hpopped.congr rfl rfl rfl rfl rfl, ?_, ?_⟩⟩
      · refine ⟨List.nodup_cons.mpr ⟨hnew, hstacked.nodup⟩, fun c hc => ?_, htop.executing, hstacked.grounded⟩
        rcases List.mem_cons.mp hc with rfl | hc
        · exact Or.inl (Function.update_self _ _ _)
        · have hne : c ≠ waiter'.coroutine := fun heq => hnew (heq ▸ hc)
          dsimp only [activate]
          rw [Function.update_of_ne hne]
          exact hstacked.phase c hc
      · refine locked_activate (fun u hu => ?_) (fun hmem => ?_) ?_
        · obtain ⟨hu, hfinishing⟩ := hu
          rw [List.mem_cons, List.mem_cons, not_or, not_or] at hfinishing
          exact hfinishing.2.1 (congrArg Frame.finishing (honly u ⟨hu, hfinishing.2.2⟩))
        · rcases List.mem_cons.mp hmem with heq | hmem
          · cases heq
          · rcases List.mem_cons.mp hmem with heq | hmem
            · rw [Frame.finishing.inj heq] at hnew
              exact hnew htop.executing
            · exact hnew (mem_executing_of_finishing hstacked.grounded hmem)
        · dsimp only
          rw [lastCommitted_concat _ _ fun _ => Event.noConfusion]
          exact hheader

/-- The transaction that a coroutine on top has begun is the active one. -/
theorem Lawful.active_of_begun (h : Lawful h₀ s q) (htop : AtTop s t.coroutine) (ht : t ∈ s.begun) : Active s t :=
  ⟨ht, h.stacked.not_finishing htop⟩

theorem Lawful.only (h : Lawful h₀ s q) (htop : AtTop s t.coroutine) (ht : t ∈ s.begun) :
    s.transactionActive = true ∧ ∀ u, Active s u → u = t := by
  have hactive := h.active_of_begun htop ht
  exact ⟨h.locked.active.mpr ⟨t, hactive⟩, fun u hu => h.locked.exclusive u t hu hactive⟩

theorem lawful_rollbackTransaction (h : Lawful h₀ s q) (htop : AtTop s t.coroutine) (ht : t ∈ s.begun) :
    ∃ s' q', rollbackTransaction t s = .ok s' ∧ Lawful h₀ s' q' := by
  obtain ⟨hflag, honly⟩ := h.only htop ht
  obtain ⟨hqueued, hstacked, hlocked⟩ := h
  refine lawful_finishTransaction (s := { s with header := s.savedHeader }) (hqueued.congr rfl rfl rfl rfl rfl)
    ⟨hstacked.1, hstacked.2, hstacked.3⟩ honly htop ?_
  exact hlocked.saved hflag

theorem lawful_commit (h : Lawful h₀ s q) (htop : AtTop s t.coroutine) (ht : t ∈ s.begun) :
    ∃ s' q', finishTransaction t { s with history := s.history ++ [.commits s.header] } = .ok s' ∧ Lawful h₀ s' q' := by
  obtain ⟨-, honly⟩ := h.only htop ht
  obtain ⟨hqueued, hstacked, hlocked⟩ := h
  have hwaited : waited (s.history ++ [.commits s.header]) = waited s.history :=
    (waited_append _ _).trans (List.append_nil _)
  have hcancelled : cancelled (s.history ++ [.commits s.header]) = cancelled s.history :=
    (cancelled_append _ _).trans (List.append_nil _)
  refine lawful_finishTransaction (q := q) ⟨hqueued.linked, ?_, hwaited ▸ hqueued.nodup, hwaited ▸ hqueued.fresh, ?_,
    hqueued.waits, hqueued.waiting⟩ ⟨hstacked.1, hstacked.2, hstacked.3⟩ honly htop (lastCommitted_commits _ _ _).symm
  · dsimp only
    rw [alive_concat rfl rfl, ← hqueued.order, resumed_append]
    exact congrArg (· ++ q) (List.append_nil _)
  · dsimp only
    rw [hwaited, hcancelled]
    exact hqueued.gone

/-! ### The start of a transaction -/

/-- A coroutine that is not on the stack any more waits at the end of the queue. -/
theorem Queued.push {d : Deque} {nodes : Deque.Memory Transaction} (h : Queued s q)
    (hlinked : d.Linked nodes (q ++ [s.nextNode]))
    (hvalue : ∀ m, Deque.valueAt nodes m =
      Deque.valueAt (Function.update s.nodes s.nextNode (some ⟨t, none, none⟩)) m)
    (hold : ∀ n, s.phase t.coroutine ≠ .waiting n) :
    Queued { s with
      txWaiters := d
      nodes := nodes
      nextNode := s.nextNode + 1
      phase := Function.update s.phase t.coroutine (.waiting s.nextNode)
      history := s.history ++ [.waits s.nextNode] } (q ++ [s.nextNode]) := by
  have hnew : s.nextNode ∉ waited s.history := fun hmem => (h.fresh _ hmem).false
  have hwaited : waited (s.history ++ [.waits s.nextNode]) = waited s.history ++ [s.nextNode] := waited_append _ _
  have hcancelled : cancelled (s.history ++ [.waits s.nextNode]) = cancelled s.history :=
    (cancelled_append _ _).trans (List.append_nil _)
  have hmem : ∀ m ∈ q, m ≠ s.nextNode := by
    rintro m hm rfl
    have halive : s.nextNode ∈ alive s.history := h.order ▸ List.mem_append_right _ hm
    exact hnew (List.mem_filter.mp halive).1
  have hvalue' : ∀ m, m ≠ s.nextNode → Deque.valueAt nodes m = Deque.valueAt s.nodes m := by
    intro m hm
    rw [hvalue, Deque.valueAt, Deque.valueAt, Function.update_of_ne hm]
  have hself : Deque.valueAt nodes s.nextNode = some t := by
    rw [hvalue, Deque.valueAt, Function.update_self, Option.map_some]
  refine ⟨hlinked, ?_, ?_, ?_, ?_, fun m hm => ?_, fun c m hc => ?_⟩
  · dsimp only
    rw [alive_waits fun hgone => hnew (h.gone _ hgone), ← h.order, resumed_append, List.append_assoc, List.append_assoc]
    rfl
  · dsimp only
    rw [hwaited]
    exact List.Nodup.append h.nodup (List.nodup_singleton _) (List.disjoint_singleton.mpr hnew)
  · dsimp only
    rw [hwaited]
    intro m hm
    rcases List.mem_append.mp hm with hm | hm
    · exact (h.fresh m hm).trans (Nat.lt_succ_self _)
    · rw [List.mem_singleton.mp hm]
      exact Nat.lt_succ_self _
  · dsimp only
    rw [hwaited, hcancelled]
    exact fun m hm => List.mem_append_left _ (h.gone m hm)
  · rcases List.mem_append.mp hm with hm | hm
    · obtain ⟨u, hu, hphase⟩ := h.waits m hm
      have hne : u.coroutine ≠ t.coroutine := fun heq => hold m (heq ▸ hphase)
      exact ⟨u, (hvalue' m (hmem m hm)).trans hu, (Function.update_of_ne hne _ _).trans hphase⟩
    · rw [List.mem_singleton.mp hm]
      exact ⟨t, hself, Function.update_self _ _ _⟩
  · dsimp only at hc
    by_cases hct : c = t.coroutine
    · rw [hct, Function.update_self] at hc
      rw [← Phase.waiting.inj hc, hct]
      exact ⟨List.mem_append_right _ (List.mem_singleton_self _), t, hself, rfl⟩
    · rw [Function.update_of_ne hct] at hc
      obtain ⟨hm, u, hu, huc⟩ := h.waiting c m hc
      exact ⟨List.mem_append_left _ hm, u, (hvalue' m (hmem m hm)).trans hu, huc⟩

theorem lawful_begin (h : Lawful h₀ s q) (hstack : s.stack = .running t.coroutine :: fs) :
    ∃ s' q', beginTransaction t s = .ok s' ∧ Lawful h₀ s' q' := by
  have htop : AtTop s t.coroutine := ⟨fs, Or.inl hstack⟩
  rw [beginTransaction]
  split_ifs with hflag
  · obtain ⟨hleft, hc⟩ := h.leave (Or.inl hstack)
    have hold : ∀ n, s.phase t.coroutine ≠ .waiting n := by
      intro n hn
      rcases h.stacked.phase_of_top htop with hphase | hphase
      · cases hn.symm.trans hphase
      · cases hn.symm.trans hphase
    have hnew : s.nextNode ∉ q := by
      intro hmem
      have halive : s.nextNode ∈ alive s.history := h.queued.order ▸ List.mem_append_right _ hmem
      exact (h.queued.fresh _ (List.mem_filter.mp halive).1).false
    obtain ⟨d, nodes, hpush, hlinked, hvalue⟩ := (h.queued.linked.update hnew (some ⟨t, none, none⟩)).pushBack
      (Function.update_self _ _ _) hnew
    rw [hpush]
    refine ⟨_, q ++ [s.nextNode], rfl, lawful_unwind _ _ ?_⟩
    rw [hstack]
    have hpushed := hleft.queued.push hlinked hvalue hold
    refine ⟨hpushed.congr rfl rfl rfl rfl rfl, ?_, ?_⟩
    · have hset := hleft.stacked.setPhase hc (.waiting s.nextNode)
      exact ⟨hset.1, hset.2, hset.3⟩
    · have hlocked := hleft.locked
      refine ⟨hlocked.exclusive, hlocked.active, ?_, ?_, ?_⟩
      · dsimp only
        rw [lastCommitted_concat _ _ fun _ => Event.noConfusion]
        exact hlocked.saved
      · exact fun hidle => absurd hflag (by rw [hidle]; exact Bool.false_ne_true)
      · exact fun hidle => absurd hflag (by rw [hidle]; exact Bool.false_ne_true)
  · refine ⟨_, q, rfl, h.queued.congr rfl rfl rfl rfl rfl, ⟨h.stacked.1, h.stacked.2, h.stacked.3⟩, ?_⟩
    refine locked_activate (fun u hu => hflag (h.locked.active.mpr ⟨u, hu⟩)) (h.stacked.not_finishing htop) ?_
    exact h.locked.header (Bool.eq_false_iff.mpr hflag)

/-! ### The destruction of a coroutine -/

/-- A coroutine that waits is destroyed, and its node leaves the queue. -/
theorem Queued.cancel {d : Deque} {nodes : Deque.Memory Transaction} {n : Nat} {before after : List Nat}
    (h : Queued s (before ++ n :: after)) (hlinked : d.Linked nodes (before ++ after))
    (hvalue : ∀ m, Deque.valueAt nodes m = Deque.valueAt s.nodes m) (hphase : s.phase c = .waiting n) :
    Queued { s with
      txWaiters := d
      nodes := Function.update nodes n none
      phase := Function.update s.phase c .destroyed
      history := s.history ++ [.cancels n] } (before ++ after) := by
  have hnodup : ((resumed s.history ++ before) ++ n :: after).Nodup := by
    rw [List.append_assoc, h.order]
    exact h.nodup.filter _
  have hn : n ∉ (resumed s.history ++ before) ++ after := (List.nodup_cons.mp (List.nodup_middle.mp hnodup)).1
  rw [List.append_assoc] at hn
  have hnq : n ∉ before ++ after := fun hmem => hn (List.mem_append_right _ hmem)
  have hwaited : waited (s.history ++ [.cancels n]) = waited s.history :=
    (waited_append _ _).trans (List.append_nil _)
  obtain ⟨hmem, t, ht, htc⟩ := h.waiting c n hphase
  have hvalue' : ∀ m, m ≠ n → Deque.valueAt (Function.update nodes n none) m = Deque.valueAt s.nodes m := by
    intro m hm
    rw [← hvalue, Deque.valueAt, Deque.valueAt, Function.update_of_ne hm]
  refine ⟨hlinked.update hnq none, ?_, hwaited ▸ h.nodup, hwaited ▸ h.fresh, ?_, fun m hm => ?_, fun d m hd => ?_⟩
  · dsimp only
    rw [alive_cancels, ← h.order, resumed_append, show resumed [.cancels n] = [] from rfl, List.append_nil,
      ← List.append_assoc, ← List.append_assoc, List.filter_append, List.filter_cons_of_neg (by simp),
      ← List.filter_append, List.append_assoc, eq_comm, List.filter_eq_self]
    exact fun m hm => decide_eq_true fun heq => hn (heq ▸ hm)
  · dsimp only
    rw [hwaited, cancelled_append]
    intro m hm
    rcases List.mem_append.mp hm with hm | hm
    · exact h.gone m hm
    · have halive : n ∈ alive s.history := h.order ▸ List.mem_append_right _ hmem
      rw [List.mem_singleton.mp hm]
      exact (List.mem_filter.mp halive).1
  · have hmn : m ≠ n := fun heq => hnq (heq ▸ hm)
    obtain ⟨u, hu, huphase⟩ := h.waits m (by simp only [List.mem_append, List.mem_cons] at hm ⊢; tauto)
    refine ⟨u, (hvalue' m hmn).trans hu, (Function.update_of_ne ?_ _ _).trans huphase⟩
    intro heq
    rw [heq, hphase] at huphase
    exact hmn (Phase.waiting.inj huphase).symm
  · dsimp only at hd
    by_cases hdc : d = c
    · rw [hdc, Function.update_self] at hd
      cases hd
    · rw [Function.update_of_ne hdc] at hd
      obtain ⟨hm, u, hu, hud⟩ := h.waiting d m hd
      have hmn : m ≠ n := by
        rintro rfl
        rw [ht] at hu
        exact hdc (hud.symm.trans (Option.some.inj hu ▸ htc))
      refine ⟨?_, u, (hvalue' m hmn).trans hu, hud⟩
      simp only [List.mem_append, List.mem_cons] at hm ⊢
      tauto

theorem lawful_destroy (h : Lawful h₀ s q) (hphase : s.phase c = .suspended ∨ ∃ n, s.phase c = .waiting n) :
    ∃ s' q', destroyCoroutine c s = .ok s' ∧ Lawful h₀ s' q' := by
  obtain ⟨hqueued, hstacked, hlocked⟩ := h
  have hc : c ∉ executing s.stack := by
    intro hmem
    rcases hstacked.phase c hmem with hrun | hdead
    · rcases hphase with hphase | ⟨n, hphase⟩
      · cases hphase.symm.trans hrun
      · cases hphase.symm.trans hrun
    · rcases hphase with hphase | ⟨n, hphase⟩
      · cases hphase.symm.trans hdead
      · cases hphase.symm.trans hdead
  have hpush := hstacked.push (f := .destroying c) (fun _ => rfl) (fun _ => rfl) hc (Or.inr rfl)
  rw [destroyCoroutine]
  dsimp only
  rcases hphase with hphase | ⟨n, hphase⟩
  · rw [hphase]
    refine ⟨_, q, rfl, ?_, hpush, hlocked.push fun _ => Frame.noConfusion⟩
    have hset := hqueued.setPhase (c := c) (p := .destroyed) (by rw [hphase]; exact fun _ => Phase.noConfusion)
      fun _ => Phase.noConfusion
    exact hset.congr rfl rfl rfl rfl rfl
  · rw [hphase]
    obtain ⟨before, after, rfl⟩ := List.append_of_mem (hqueued.waiting c n hphase).1
    obtain ⟨d, nodes, hremove, hlinked, hvalue⟩ := hqueued.linked.remove
    dsimp only
    rw [hremove]
    have hcancel := hqueued.cancel hlinked hvalue hphase
    refine ⟨_, before ++ after, rfl, hcancel.congr rfl rfl rfl rfl rfl, ⟨hpush.1, hpush.2, hpush.3⟩, ?_⟩
    have hlocked := hlocked.push (f := .destroying c) (fun _ => Frame.noConfusion) (p := s.phase)
    refine ⟨hlocked.exclusive, hlocked.active, ?_, ?_, fun hidle => ?_⟩
    · dsimp only
      rw [lastCommitted_concat _ _ fun _ => Event.noConfusion]
      exact hlocked.saved
    · dsimp only
      rw [lastCommitted_concat _ _ fun _ => Event.noConfusion]
      exact hlocked.header
    · cases (List.append_eq_nil_iff.mp (hlocked.idle hidle)).2

/-- Whatever comes next, an assertion fails or the law is kept. -/
theorem lawful_perform (h : Lawful h₀ s q) {a : Action} (ha : possible s a = true) :
    perform s a = .error .assertion ∨ ∃ s' q', perform s a = .ok s' ∧ Lawful h₀ s' q' := by
  cases a with
  | resume c =>
      have hphase : s.phase c = .suspended := of_decide_eq_true ha
      refine Or.inr ⟨_, q, rfl, ?_, ?_, h.locked.push fun _ => Frame.noConfusion⟩
      · have hset := h.queued.setPhase (c := c) (p := .running) (by rw [hphase]; exact fun _ => Phase.noConfusion)
          fun _ => Phase.noConfusion
        exact hset.congr rfl rfl rfl rfl rfl
      · refine h.stacked.push (fun _ => rfl) (fun _ => rfl) (h.stacked.not_executing ?_ ?_) (Or.inl rfl)
        · rw [hphase]; exact Phase.noConfusion
        · rw [hphase]; exact Phase.noConfusion
  | suspend =>
      obtain ⟨c, hc⟩ := Option.isSome_iff_exists.mp ha
      obtain ⟨fs, hstack⟩ := State.current_eq hc
      obtain ⟨hleft, hnot⟩ := h.leave (Or.inl hstack)
      have hphase := h.stacked.phase_of_top ⟨fs, Or.inl hstack⟩
      refine Or.inr ⟨unwind fs { s with phase := Function.update s.phase c .suspended }, q, ?_, lawful_unwind _ _ ⟨?_, ?_, ?_⟩⟩
      · rw [perform, hc, hstack]
        rfl
      · have hset := hleft.queued.setPhase (c := c) (p := .suspended) (fun n hn => ?_) fun _ => Phase.noConfusion
        · exact hset.congr rfl rfl rfl rfl rfl
        · rcases hphase with hphase | hphase
          · cases hphase.symm.trans hn
          · cases hphase.symm.trans hn
      · have hset := hleft.stacked.setPhase hnot .suspended
        exact ⟨hset.1, hset.2, hset.3⟩
      · exact hleft.locked.congr (fun _ => Iff.rfl) rfl rfl rfl rfl
  | begin t =>
      obtain ⟨fs, hstack⟩ := State.current_eq (of_decide_eq_true ha)
      rw [perform]
      split_ifs with hbegun
      · exact Or.inl rfl
      · exact Or.inr (lawful_begin h hstack)
  | write header =>
      rw [perform]
      split_ifs with hflag
      · refine Or.inr ⟨_, q, rfl, h.queued.congr rfl rfl rfl rfl rfl, ⟨h.stacked.1, h.stacked.2, h.stacked.3⟩, ?_⟩
        refine ⟨h.locked.exclusive, h.locked.active, h.locked.saved, fun hidle => ?_, h.locked.idle⟩
        cases hflag.symm.trans hidle
      · exact Or.inl rfl
  | commit t =>
      obtain ⟨fs, hstack⟩ := State.current_eq (of_decide_eq_true ha)
      rw [perform]
      split_ifs with hbegun
      · exact Or.inr (lawful_commit h ⟨fs, Or.inl hstack⟩ hbegun.1)
      · exact Or.inl rfl
  | rollback t =>
      obtain ⟨hcurrent, hbegun⟩ := (Bool.and_eq_true _ _).mp ha
      obtain ⟨fs, hstack⟩ := State.current_eq (of_decide_eq_true hcurrent)
      exact Or.inr (lawful_rollbackTransaction h ⟨fs, Or.inl hstack⟩ (of_decide_eq_true hbegun))
  | destruct t =>
      have htop := atTop_of_destruct ha
      rw [perform]
      split_ifs with hbegun
      · exact Or.inr (lawful_rollbackTransaction h htop hbegun.1)
      · have hnot : t ∉ s.begun := fun ht => hbegun ⟨ht, (h.only htop ht).1⟩
        refine Or.inr ⟨_, q, rfl, h.queued.congr rfl rfl rfl rfl rfl, ⟨h.stacked.1, h.stacked.2, h.stacked.3⟩, ?_⟩
        refine h.locked.congr (fun u => and_congr_left fun _ => ?_) rfl rfl rfl rfl
        rw [clearStarted, List.mem_filter, decide_eq_true_eq]
        exact and_iff_left_of_imp fun hu heq => hnot (heq ▸ hu)
  | destroy c =>
      refine Or.inr (lawful_destroy h ?_)
      rw [possible] at ha
      split at ha
      next hphase => exact Or.inl hphase
      next n hphase => exact Or.inr ⟨n, hphase⟩
      next => cases ha
  | destroyed =>
      obtain ⟨c, hc, -⟩ := (Option.any_eq_true _ _).mp ha
      obtain ⟨fs, hstack⟩ := State.dying_eq hc
      refine Or.inr ⟨unwind fs s, q, ?_, lawful_unwind _ _ (h.leave (Or.inr hstack)).1⟩
      rw [perform, hstack]
      rfl

end

end Plexdb.Transactions
