import Plexdb.RoundRobin
import Plexdb.Runs

/-! The libaio file context: `create_aio_async_file_io_context` (`core/aio/aio.cpp`) over the slots of
`os::AIOContext` (`core/os/aio.cpp`). A call of `file_read`, `file_write` or `file_sync` submits its
operation in a slot, or waits for one in `slot_waiters`; the three differ in the control block only. A
batch of completions is collected at once and dispatched one by one, and whatever a resumed call goes on to
do comes between two of its dispatches. -/

namespace Plexdb.Aio

/-- A call, and its coroutine. -/
abbrev Call := Nat

inductive Phase where
  | fresh
  | running
  | waiting
  | submitted (slot : Nat)
  | done
  | destroyed
  deriving DecidableEq

/-- `tokens` are the slots of a batch still to be dispatched. `inFlight` and `completed` are the kernel's,
each operation with the call it is for; `finished` and `resumed` record whose operation has completed and
who was resumed for it. -/
structure State where
  maxOps : Nat
  nextFree : Nat
  inUse : Nat → Bool
  handles : Nat → Option Call
  slotWaiters : List Call
  tokens : List Nat
  phase : Call → Phase
  inFlight : List (Nat × Call)
  completed : List (Nat × Call)
  finished : List Call
  resumed : List Call

def init (maxOps : Nat) : State where
  maxOps := maxOps
  nextFree := 0
  inUse := fun _ => false
  handles := fun _ => none
  slotWaiters := []
  tokens := []
  phase := fun _ => .fresh
  inFlight := []
  completed := []
  finished := []
  resumed := []

/-! ### Slots -/

def acquireSlot (s : State) : Option Nat := RoundRobin.search s.inUse s.maxOps s.nextFree

/-- `aio_submit_iocb` in a slot just acquired: what the kernel refuses gives it back. -/
def submit (c : Call) (accepted : Bool) (slot : Nat) (s : State) : State :=
  { s with
    nextFree := (slot + 1) % s.maxOps
    inUse := Function.update s.inUse slot accepted
    inFlight := if accepted then s.inFlight ++ [(slot, c)] else s.inFlight }

/-- The call is suspended until it is resumed for its slot. -/
def await (c : Call) (slot : Nat) (s : State) : State :=
  { s with handles := Function.update s.handles slot (some c), phase := Function.update s.phase c (.submitted slot) }

def waitForSlot (c : Call) (s : State) : State :=
  { s with slotWaiters := s.slotWaiters ++ [c], phase := Function.update s.phase c .waiting }

/-- A round of the loop in `read_fn`, `write_fn` and `sync_fn`. -/
def attempt (c : Call) (accepted : Bool) (s : State) : State :=
  match acquireSlot s with
  | some slot =>
      let s := submit c accepted slot s
      if accepted then await c slot s else waitForSlot c s
  | none => waitForSlot c s

/-- What destroys a suspended call takes its handle or its node out. -/
def destroy (c : Call) (s : State) : State :=
  let gone := { s with phase := Function.update s.phase c .destroyed }
  match s.phase c with
  | .waiting => { gone with slotWaiters := s.slotWaiters.erase c }
  | .submitted slot => { gone with handles := Function.update s.handles slot none }
  | _ => gone

/-! ### Completions -/

/-- The kernel ends an operation. -/
def complete (op : Nat × Call) (s : State) : State :=
  { s with inFlight := s.inFlight.erase op, completed := s.completed ++ [op], finished := op.2 :: s.finished }

/-- `aio_collect_completions`, for up to `max_ops` of them. -/
def collect (s : State) : State :=
  let batch := (s.completed.take s.maxOps).map Prod.fst
  { s with
    completed := s.completed.drop s.maxOps
    inUse := fun slot => if slot ∈ batch then false else s.inUse slot
    tokens := batch }

def wakeOneWaiter (accepted : Bool) (s : State) : State :=
  match s.slotWaiters with
  | [] => s
  | w :: waiters =>
      attempt w accepted { s with slotWaiters := waiters, phase := Function.update s.phase w .running }

def resume (c : Call) (s : State) : State :=
  { s with phase := Function.update s.phase c .done, resumed := c :: s.resumed }

/-- A round of the loop in `on_unblock`. -/
def dispatch (slot : Nat) (accepted : Bool) (s : State) : State :=
  let h := s.handles slot
  let s := wakeOneWaiter accepted { s with handles := Function.update s.handles slot none }
  match h with
  | some c => resume c s
  | none => s

/-- `accepted` is whether the kernel accepts what the step submits, if anything. -/
inductive Action where
  | call (c : Call) (accepted : Bool)
  | destroy (c : Call)
  | complete (op : Nat × Call)
  | collect
  | dispatch (accepted : Bool)
  deriving DecidableEq

/-- A batch is dispatched to its end before the next one is collected. Only a suspended call is destroyed. -/
def step (s : State) : Action → Option State
  | .call c accepted =>
      if s.phase c = .fresh then some (attempt c accepted { s with phase := Function.update s.phase c .running })
      else none
  | .destroy c =>
      match s.phase c with
      | .waiting | .submitted _ => some (destroy c s)
      | _ => none
  | .complete op => if op ∈ s.inFlight then some (complete op s) else none
  | .collect => if s.tokens = [] then some (collect s) else none
  | .dispatch accepted =>
      match s.tokens with
      | slot :: tokens => some (dispatch slot accepted { s with tokens := tokens })
      | [] => none

/-- An operation goes to a slot whose last completion has been dispatched; one that the kernel refuses
leaves something else to come that wakes its call. -/
def Placed (accepted : Bool) (s : State) : Prop :=
  ∀ slot ∈ acquireSlot s,
    if accepted then slot ∉ s.tokens else s.inFlight ≠ [] ∨ s.completed ≠ [] ∨ s.tokens ≠ []

instance (accepted : Bool) (s : State) : Decidable (Placed accepted s) :=
  inferInstanceAs (Decidable (∀ slot ∈ acquireSlot s, _))

/-- Whatever a step submits is placed well. -/
def Orderly (s : State) : Action → Prop
  | .call _ accepted => Placed accepted s
  | .dispatch accepted => s.slotWaiters ≠ [] → Placed accepted { s with tokens := s.tokens.tail }
  | _ => True

instance (s : State) : (a : Action) → Decidable (Orderly s a)
  | .call _ accepted => inferInstanceAs (Decidable (Placed accepted s))
  | .dispatch _ => inferInstanceAs (Decidable (_ → Placed _ _))
  | .destroy _ | .complete _ | .collect => isTrue trivial

/-! ### The law -/

/-- The slots of the operations that the kernel has. -/
def State.busy (s : State) : List Nat := (s.inFlight ++ s.completed).map Prod.fst

structure Lawful (s : State) : Prop where
  next : s.nextFree < s.maxOps
  inUse : ∀ i < s.maxOps, s.inUse i = true ↔ i ∈ s.busy
  distinct : (s.busy ++ s.tokens).Nodup
  handles : ∀ slot c, s.handles slot = some c ↔ s.phase c = .submitted slot
  owner : ∀ op ∈ s.inFlight ++ s.completed, s.phase op.2 = .submitted op.1 ∨ s.phase op.2 = .destroyed
  operation : ∀ c slot, s.phase c = .submitted slot →
    ((slot, c) ∈ s.inFlight ∧ c ∉ s.finished) ∨ (c ∈ s.finished ∧ ((slot, c) ∈ s.completed ∨ slot ∈ s.tokens))
  queued : ∀ c, c ∈ s.slotWaiters ↔ s.phase c = .waiting
  nodup : s.slotWaiters.Nodup
  submitted : ∀ c ∈ s.finished, s.phase c ≠ .fresh ∧ s.phase c ≠ .running ∧ s.phase c ≠ .waiting
  resumed : ∀ c, c ∈ s.resumed ↔ s.phase c = .done
  once : s.resumed.Nodup
  answered : ∀ c ∈ s.resumed, c ∈ s.finished

/-- Who waits for a slot is not alone. -/
def Awake (s : State) : Prop := s.slotWaiters ≠ [] → s.inFlight ≠ [] ∨ s.completed ≠ [] ∨ s.tokens ≠ []

/-- Between two steps no call runs. -/
def Idle (s : State) : Prop := ∀ c, s.phase c ≠ .running

section

variable {s : State} {c : Call} {accepted : Bool} {slot : Nat}

theorem lawful_init {maxOps : Nat} (hpos : 0 < maxOps) : Lawful (init maxOps) := by
  constructor <;> simp [init, State.busy, hpos]

/-- A call begins, or the first waiter goes on. -/
theorem Lawful.run {waiters : List Call} (h : Lawful s) (hc : s.phase c = .fresh ∨ s.phase c = .waiting)
    (hwaiters : waiters.Nodup) (hmem : ∀ d, d ∈ waiters ↔ d ∈ s.slotWaiters ∧ d ≠ c) :
    Lawful { s with slotWaiters := waiters, phase := Function.update s.phase c .running } := by
  have hphase : ∀ d, Function.update s.phase c .running d = if d = c then .running else s.phase d :=
    Function.update_apply s.phase c .running
  obtain ⟨hnext, hinUse, hdistinct, hhandles, howner, hoperation, hqueued, hnodup, hsubmitted, hresumed, honce,
    hanswered⟩ := h
  refine ⟨hnext, hinUse, hdistinct, ?_, ?_, ?_, ?_, hwaiters, ?_, ?_, honce, hanswered⟩ <;> grind

theorem Lawful.park (h : Lawful s) (hc : s.phase c = .running) : Lawful (waitForSlot c s) := by
  have hphase : ∀ d, Function.update s.phase c .waiting d = if d = c then .waiting else s.phase d :=
    Function.update_apply s.phase c .waiting
  obtain ⟨hnext, hinUse, hdistinct, hhandles, howner, hoperation, hqueued, hnodup, hsubmitted, hresumed, honce,
    hanswered⟩ := h
  refine ⟨hnext, hinUse, hdistinct, ?_, ?_, ?_, ?_, ?_, ?_, ?_, honce, hanswered⟩ <;>
    simp only [waitForSlot] <;> grind

theorem Lawful.acquireSlot_eq_some (h : Lawful s) (hslot : acquireSlot s = some slot) :
    slot < s.maxOps ∧ s.inUse slot = false ∧ slot ∉ s.busy := by
  obtain ⟨hlt, hfree⟩ := RoundRobin.search_eq_some h.next hslot
  refine ⟨hlt, hfree, fun hbusy => ?_⟩
  cases ((h.inUse slot hlt).mpr hbusy).symm.trans hfree

theorem Lawful.refuse (h : Lawful s) (hslot : acquireSlot s = some slot) : Lawful (submit c false slot s) := by
  obtain ⟨hlt, hfree, -⟩ := h.acquireSlot_eq_some hslot
  have hinUse : Function.update s.inUse slot false = s.inUse := by
    rw [← hfree, Function.update_eq_self]
  refine ⟨Nat.mod_lt _ (Nat.zero_lt_of_lt hlt), ?_, h.distinct, h.handles, h.owner, h.operation, h.queued, h.nodup,
    h.submitted, h.resumed, h.once, h.answered⟩
  simp only [submit, hinUse]
  exact h.inUse

theorem busy_submit : (submit c true slot s).busy.Perm (slot :: s.busy) := by
  have hperm : ((s.inFlight ++ [(slot, c)]) ++ s.completed).Perm ((slot, c) :: (s.inFlight ++ s.completed)) := by
    rw [List.append_assoc, List.singleton_append]
    exact List.perm_middle
  exact hperm.map Prod.fst

theorem Lawful.launch (h : Lawful s) (hc : s.phase c = .running) (hslot : acquireSlot s = some slot)
    (htokens : slot ∉ s.tokens) : Lawful (await c slot (submit c true slot s)) := by
  obtain ⟨hlt, hfree, hbusy⟩ := h.acquireSlot_eq_some hslot
  have hphase : ∀ d, Function.update s.phase c (.submitted slot) d = if d = c then .submitted slot else s.phase d :=
    Function.update_apply s.phase c (.submitted slot)
  have hhandle : ∀ i, Function.update s.handles slot (some c) i = if i = slot then some c else s.handles i :=
    Function.update_apply s.handles slot (some c)
  have hperm : (await c slot (submit c true slot s)).busy.Perm (slot :: s.busy) := busy_submit
  -- nobody else is suspended for the slot
  have hnobody : ∀ d, s.phase d ≠ .submitted slot := by
    intro d hd
    rcases h.operation d slot hd with ⟨hmem, -⟩ | ⟨-, hmem | hmem⟩
    · exact hbusy (List.mem_map.mpr ⟨_, List.mem_append_left _ hmem, rfl⟩)
    · exact hbusy (List.mem_map.mpr ⟨_, List.mem_append_right _ hmem, rfl⟩)
    · exact htokens hmem
  obtain ⟨hnext, hinUse, hdistinct, hhandles, howner, hoperation, hqueued, hnodup, hsubmitted, hresumed, honce,
    hanswered⟩ := h
  refine ⟨Nat.mod_lt _ (Nat.zero_lt_of_lt hlt), fun i hi => ?_, ?_, ?_, ?_, ?_, ?_, hnodup, ?_, ?_, honce, hanswered⟩
  · rw [hperm.mem_iff, List.mem_cons]
    change Function.update s.inUse slot true i = true ↔ i = slot ∨ i ∈ s.busy
    by_cases heq : i = slot
    · rw [heq, Function.update_self]
      exact iff_of_true rfl (Or.inl rfl)
    · rw [Function.update_of_ne heq, hinUse i hi]
      exact (or_iff_right heq).symm
  · refine ((hperm.append_right s.tokens).nodup_iff).mpr (List.nodup_cons.mpr ⟨?_, hdistinct⟩)
    exact fun hmem => (List.mem_append.mp hmem).elim hbusy htokens
  all_goals
    simp only [await, submit, if_true, List.mem_append] at howner ⊢
    grind

theorem Lawful.attempt (h : Lawful s) (hc : s.phase c = .running) (hplaced : Placed accepted s) :
    Lawful (attempt c accepted s) ∧ Awake (attempt c accepted s) := by
  rw [Aio.attempt]
  cases hslot : acquireSlot s with
  | none =>
      refine ⟨h.park hc, fun _ => ?_⟩
      -- every slot is in use
      have hused := (RoundRobin.search_eq_none_iff h.next).mp hslot s.nextFree h.next
      obtain ⟨op, hop, -⟩ := List.mem_map.mp ((h.inUse _ h.next).mp hused)
      rcases List.mem_append.mp hop with hop | hop
      · exact Or.inl (List.ne_nil_of_mem hop)
      · exact Or.inr (Or.inl (List.ne_nil_of_mem hop))
  | some slot =>
      have hplace := hplaced slot hslot
      cases accepted with
      | true =>
          refine ⟨h.launch hc hslot hplace, fun _ => Or.inl ?_⟩
          exact List.append_ne_nil_of_right_ne_nil _ (List.cons_ne_nil _ _)
      | false => exact ⟨(h.refuse hslot).park hc, fun _ => hplace⟩

theorem Lawful.unique {d : Call} (h : Lawful s) (hc : s.phase c = .submitted slot) (hd : s.phase d = .submitted slot) :
    c = d := by
  have := ((h.handles slot c).mpr hc).symm.trans ((h.handles slot d).mpr hd)
  exact Option.some.inj this

theorem Lawful.destroy (h : Lawful s) (hc : s.phase c = .waiting ∨ ∃ slot, s.phase c = .submitted slot) :
    Lawful (destroy c s) := by
  have hphase : ∀ d, Function.update s.phase c .destroyed d = if d = c then .destroyed else s.phase d :=
    Function.update_apply s.phase c .destroyed
  have hunique : ∀ slot d, s.phase c = .submitted slot → s.phase d = .submitted slot → c = d := fun _ _ => h.unique
  obtain ⟨hnext, hinUse, hdistinct, hhandles, howner, hoperation, hqueued, hnodup, hsubmitted, hresumed, honce,
    hanswered⟩ := h
  rw [Aio.destroy]
  rcases hc with hc | ⟨slot, hc⟩ <;> rw [hc]
  · refine ⟨hnext, hinUse, hdistinct, ?_, ?_, ?_, ?_, hnodup.erase c, ?_, ?_, honce, hanswered⟩
    case refine_4 =>
      intro d
      rw [hnodup.mem_erase_iff]
      grind
    all_goals grind
  · have hhandle : ∀ i, Function.update s.handles slot none i = if i = slot then none else s.handles i :=
      Function.update_apply s.handles slot none
    refine ⟨hnext, hinUse, hdistinct, ?_, ?_, ?_, ?_, hnodup, ?_, ?_, honce, hanswered⟩ <;> grind

theorem Lawful.complete {op : Nat × Call} (h : Lawful s) (hop : op ∈ s.inFlight) : Lawful (complete op s) := by
  have hops : (s.inFlight.erase op ++ (s.completed ++ [op])).Perm (s.inFlight ++ s.completed) := by
    refine List.perm_append_comm.trans ?_
    rw [List.append_assoc, List.singleton_append]
    exact ((List.perm_cons_erase hop).symm.append_left s.completed).trans List.perm_append_comm
  have hperm : (Aio.complete op s).busy.Perm s.busy := hops.map Prod.fst
  have hphase := h.owner op (List.mem_append_left _ hop)
  obtain ⟨hnext, hinUse, hdistinct, hhandles, howner, hoperation, hqueued, hnodup, hsubmitted, hresumed, honce,
    hanswered⟩ := h
  refine ⟨hnext, fun i hi => (hinUse i hi).trans hperm.mem_iff.symm, (hperm.append_right _).nodup_iff.mpr hdistinct,
    hhandles, fun op' hop' => howner op' (hops.mem_iff.mp hop'), fun d slot hd => ?_, hqueued, hnodup, ?_, hresumed,
    honce, fun d hd => List.mem_cons_of_mem _ (hanswered d hd)⟩
  · simp only [Aio.complete, List.mem_append, List.mem_cons]
    by_cases heq : (slot, d) = op
    · subst heq
      exact Or.inr ⟨Or.inl rfl, Or.inl (Or.inr (Or.inl rfl))⟩
    · rcases hoperation d slot hd with ⟨hmem, hnot⟩ | ⟨hfinished, hmem⟩
      · refine Or.inl ⟨(List.mem_erase_of_ne heq).mpr hmem, ?_⟩
        rintro (rfl | hfinished)
        · rcases hphase with hphase | hphase
          · exact heq (by cases hd.symm.trans hphase; rfl)
          · cases hd.symm.trans hphase
        · exact hnot hfinished
      · exact Or.inr ⟨Or.inr hfinished, hmem.imp_left Or.inl⟩
  · intro d hd
    rcases List.mem_cons.mp hd with rfl | hd
    · change s.phase op.2 ≠ .fresh ∧ s.phase op.2 ≠ .running ∧ s.phase op.2 ≠ .waiting
      rcases hphase with hphase | hphase <;> simp [hphase]
    · exact hsubmitted d hd

theorem Lawful.collect (h : Lawful s) (htokens : s.tokens = []) : Lawful (collect s) := by
  have hsplit : (Aio.collect s).busy ++ (Aio.collect s).tokens = (s.inFlight ++ s.completed.drop s.maxOps).map Prod.fst ++
      (s.completed.take s.maxOps).map Prod.fst := rfl
  have hperm : ((Aio.collect s).busy ++ (Aio.collect s).tokens).Perm s.busy := by
    rw [hsplit, ← List.map_append, List.append_assoc]
    refine List.Perm.map Prod.fst (List.Perm.append_left _ ?_)
    refine List.perm_append_comm.trans ?_
    rw [List.take_append_drop]
  have hnodup' : ((Aio.collect s).busy ++ (Aio.collect s).tokens).Nodup := by
    refine hperm.nodup_iff.mpr ?_
    have := h.distinct
    rwa [htokens, List.append_nil] at this
  obtain ⟨hnext, hinUse, hdistinct, hhandles, howner, hoperation, hqueued, hnodup, hsubmitted, hresumed, honce,
    hanswered⟩ := h
  refine ⟨hnext, fun i hi => ?_, hnodup', hhandles, fun op hop => howner op ?_, fun d slot hd => ?_, hqueued, hnodup,
    hsubmitted, hresumed, honce, hanswered⟩
  · change (if i ∈ (Aio.collect s).tokens then false else s.inUse i) = true ↔ _
    have hmem := hperm.mem_iff (a := i)
    rw [List.mem_append] at hmem
    split_ifs with hbatch
    · exact iff_of_false (by decide) fun hbusy => List.disjoint_of_nodup_append hnodup' hbusy hbatch
    · rw [hinUse i hi, ← hmem]
      exact or_iff_left hbatch
  · rcases List.mem_append.mp hop with hop | hop
    · exact List.mem_append_left _ hop
    · exact List.mem_append_right _ (List.mem_of_mem_drop hop)
  · refine (hoperation d slot hd).imp_right fun ⟨hfinished, hmem⟩ => ⟨hfinished, ?_⟩
    rw [htokens] at hmem
    have hmem := hmem.resolve_right List.not_mem_nil
    rw [← List.take_append_drop s.maxOps s.completed, List.mem_append] at hmem
    exact hmem.symm.imp_right fun hmem => List.mem_map.mpr ⟨_, hmem, rfl⟩

/-! ### Dispatch -/

theorem attempt_resume {d : Call} (hne : c ≠ d) :
    Aio.attempt c accepted (resume d s) = resume d (Aio.attempt c accepted s) := by
  have hacquire : acquireSlot (resume d s) = acquireSlot s := rfl
  rw [Aio.attempt, Aio.attempt, hacquire]
  cases acquireSlot s with
  | none =>
      simp only [waitForSlot, resume]
      rw [Function.update_comm hne]
  | some slot =>
      cases accepted with
      | true =>
          simp only [if_true, await, submit, resume]
          rw [Function.update_comm hne]
      | false =>
          simp only [Bool.false_eq_true, if_false, waitForSlot, submit, resume]
          rw [Function.update_comm hne]

theorem wakeOneWaiter_resume (hc : c ∉ s.slotWaiters) :
    wakeOneWaiter accepted (resume c s) = resume c (wakeOneWaiter accepted s) := by
  have hwaiters : (resume c s).slotWaiters = s.slotWaiters := rfl
  rw [wakeOneWaiter, wakeOneWaiter, hwaiters]
  cases hqueue : s.slotWaiters with
  | nil => rfl
  | cons w waiters =>
      have hne : w ≠ c := fun heq => hc (by rw [hqueue, heq]; exact List.mem_cons_self)
      dsimp only
      rw [← attempt_resume hne]
      simp only [resume]
      rw [Function.update_comm hne]

theorem Lawful.wake (h : Lawful s) (hplaced : s.slotWaiters ≠ [] → Placed accepted s) :
    Lawful (wakeOneWaiter accepted s) ∧ Awake (wakeOneWaiter accepted s) := by
  rw [wakeOneWaiter]
  cases hqueue : s.slotWaiters with
  | nil => exact ⟨h, fun hne => absurd hqueue hne⟩
  | cons w waiters =>
      have hw : s.phase w = .waiting := (h.queued w).mp (by rw [hqueue]; exact List.mem_cons_self)
      have hnodup := h.nodup
      rw [hqueue] at hnodup
      obtain ⟨hnot, hwaiters⟩ := List.nodup_cons.mp hnodup
      refine (h.run (Or.inr hw) hwaiters fun d => ?_).attempt (Function.update_self ..) (hplaced (by rw [hqueue]; simp))
      rw [hqueue]
      grind

/-- The completion is the one of the call that is suspended for the slot. -/
theorem Lawful.answer {tokens : List Nat} (h : Lawful s) (htokens : s.tokens = slot :: tokens)
    (hc : s.handles slot = some c) :
    Lawful (resume c { s with tokens := tokens, handles := Function.update s.handles slot none }) := by
  have hdistinct' := h.distinct
  rw [htokens] at hdistinct'
  have hphase : ∀ d, Function.update s.phase c .done d = if d = c then .done else s.phase d :=
    Function.update_apply s.phase c .done
  have hhandle : ∀ i, Function.update s.handles slot none i = if i = slot then none else s.handles i :=
    Function.update_apply s.handles slot none
  have hfinished : c ∈ s.finished := by
    rcases h.operation c slot ((h.handles slot c).mp hc) with ⟨hmem, -⟩ | ⟨hfinished, -⟩
    · have hbusy : slot ∈ s.busy := List.mem_map.mpr ⟨_, List.mem_append_left _ hmem, rfl⟩
      exact absurd List.mem_cons_self ((List.disjoint_of_nodup_append hdistinct') hbusy)
    · exact hfinished
  have hsubmittedTo := (h.handles slot c).mp hc
  have hunique : ∀ d, s.phase d = .submitted slot → c = d := fun d => h.unique hsubmittedTo
  obtain ⟨hnext, hinUse, hdistinct, hhandles, howner, hoperation, hqueued, hnodup, hsubmitted, hresumed, honce,
    hanswered⟩ := h
  have hops : ∀ op ∈ s.inFlight ++ s.completed, op.2 ≠ c := by
    rintro ⟨i, d⟩ hop rfl
    have hbusy : i ∈ s.busy := List.mem_map.mpr ⟨_, hop, rfl⟩
    have hi := (howner _ hop).resolve_right (by simp [hsubmittedTo])
    cases hsubmittedTo.symm.trans hi
    exact List.disjoint_of_nodup_append hdistinct' hbusy List.mem_cons_self
  refine ⟨hnext, hinUse, ?_, ?_, ?_, ?_, ?_, hnodup, ?_, ?_, ?_, ?_⟩
  case refine_1 => exact hdistinct'.sublist ((List.Sublist.refl _).append (List.sublist_cons_self slot tokens))
  all_goals
    simp only [resume]
    grind

theorem Lawful.skip {tokens : List Nat} (h : Lawful s) (htokens : s.tokens = slot :: tokens)
    (hnone : s.handles slot = none) :
    Lawful { s with tokens := tokens, handles := Function.update s.handles slot none } := by
  have hdistinct' := h.distinct
  rw [htokens] at hdistinct'
  have hhandles' : Function.update s.handles slot none = s.handles := by
    rw [← hnone, Function.update_eq_self]
  rw [hhandles']
  refine ⟨h.next, h.inUse, hdistinct'.sublist ((List.Sublist.refl _).append (List.sublist_cons_self slot tokens)),
    h.handles, h.owner, fun c i hc => ?_, h.queued, h.nodup, h.submitted, h.resumed, h.once, h.answered⟩
  refine (h.operation c i hc).imp_right fun ⟨hfinished, hmem⟩ => ⟨hfinished, hmem.imp_right fun hmem => ?_⟩
  rw [htokens] at hmem
  refine (List.mem_cons.mp hmem).resolve_left fun heq => ?_
  rw [heq] at hc
  cases ((h.handles slot c).mpr hc).symm.trans hnone

theorem Lawful.dispatch {tokens : List Nat} (h : Lawful s) (htokens : s.tokens = slot :: tokens)
    (hplaced : s.slotWaiters ≠ [] → Placed accepted { s with tokens := tokens }) :
    Lawful (dispatch slot accepted { s with tokens := tokens }) ∧
      Awake (dispatch slot accepted { s with tokens := tokens }) := by
  rw [Aio.dispatch]
  dsimp only
  cases hhandle : s.handles slot with
  | none => exact (h.skip htokens hhandle).wake hplaced
  | some c =>
      have hc := (h.handles slot c).mp hhandle
      have hnot : c ∉ s.slotWaiters := fun hmem => by cases hc.symm.trans ((h.queued c).mp hmem)
      have hwake : wakeOneWaiter accepted _ = resume c _ :=
        wakeOneWaiter_resume (s := { s with tokens := tokens, handles := Function.update s.handles slot none }) hnot
      dsimp only
      rw [← hwake]
      exact (h.answer htokens hhandle).wake hplaced

/-! ### Runs -/

theorem idle_attempt (hidle : ∀ d, d ≠ c → s.phase d ≠ .running) : Idle (Aio.attempt c accepted s) := by
  have hupdate : ∀ p : Phase, p ≠ .running → ∀ d, Function.update s.phase c p d ≠ .running := by
    intro p hp d
    by_cases heq : d = c
    · rw [heq, Function.update_self]
      exact hp
    · rw [Function.update_of_ne heq]
      exact hidle d heq
  rw [Aio.attempt]
  cases acquireSlot s with
  | none => exact hupdate .waiting (by decide)
  | some slot =>
      cases accepted with
      | true => exact hupdate (.submitted slot) (by simp)
      | false => exact hupdate .waiting (by decide)

theorem idle_wakeOneWaiter (hidle : Idle s) : Idle (wakeOneWaiter accepted s) := by
  rw [wakeOneWaiter]
  cases s.slotWaiters with
  | nil => exact hidle
  | cons w waiters =>
      refine idle_attempt fun d hd => ?_
      change Function.update s.phase w .running d ≠ .running
      rw [Function.update_of_ne hd]
      exact hidle d

theorem idle_resume (hidle : Idle s) : Idle (resume c s) := by
  intro d
  change Function.update s.phase c .done d ≠ .running
  rw [Function.update_apply]
  split_ifs
  · decide
  · exact hidle d

theorem idle_destroy (hidle : Idle s) : Idle (Aio.destroy c s) := by
  have hupdate : ∀ d, Function.update s.phase c .destroyed d ≠ .running := by
    intro d
    rw [Function.update_apply]
    split_ifs
    · decide
    · exact hidle d
  rw [Aio.destroy]
  cases s.phase c <;> exact hupdate

theorem idle_dispatch (hidle : Idle s) : Idle (Aio.dispatch slot accepted s) := by
  rw [Aio.dispatch]
  cases s.handles slot with
  | none => exact idle_wakeOneWaiter hidle
  | some c => exact idle_resume (idle_wakeOneWaiter hidle)

theorem Lawful.awake_destroy (h : Awake s) : Awake (Aio.destroy c s) := by
  rw [Aio.destroy]
  cases s.phase c with
  | waiting =>
      intro hne
      refine h fun hnil => hne ?_
      change s.slotWaiters.erase c = []
      rw [hnil, List.erase_nil]
  | _ => exact h

theorem Lawful.awake_collect (h : Lawful s) (hawake : Awake s) (htokens : s.tokens = []) : Awake (Aio.collect s) := by
  intro hne
  rcases hawake hne with hmem | hmem | hmem
  · exact Or.inl hmem
  · refine Or.inr (Or.inr fun hnil => hmem ?_)
    have hmaxOps : s.maxOps ≠ 0 := Nat.ne_zero_of_lt h.next
    have htake : s.completed.take s.maxOps = [] := List.map_eq_nil_iff.mp hnil
    exact (List.take_eq_nil_iff.mp htake).resolve_left hmaxOps
  · exact absurd htokens hmem

theorem Lawful.step {s' : State} {a : Action} (h : Lawful s ∧ Awake s ∧ Idle s) (horderly : Orderly s a)
    (hstep : step s a = some s') : Lawful s' ∧ Awake s' ∧ Idle s' := by
  obtain ⟨hlawful, hawake, hidle⟩ := h
  cases a with
  | call c accepted =>
      rw [Aio.step] at hstep
      split_ifs at hstep with hfresh
      obtain rfl := Option.some.inj hstep
      have hrun := hlawful.run (c := c) (Or.inl hfresh) hlawful.nodup fun d => by
        have := hlawful.queued c
        grind
      have hattempt : Lawful (Aio.attempt c accepted _) ∧ Awake _ := hrun.attempt (Function.update_self ..) horderly
      obtain ⟨hlawful', hawake'⟩ := hattempt
      refine ⟨hlawful', hawake', idle_attempt fun d hd => ?_⟩
      change Function.update s.phase c .running d ≠ .running
      rw [Function.update_of_ne hd]
      exact hidle d
  | destroy c =>
      have hc : (s.phase c = .waiting ∨ ∃ slot, s.phase c = .submitted slot) ∧ Aio.destroy c s = s' := by
        rw [Aio.step] at hstep
        cases hphase : s.phase c with
        | waiting =>
            rw [hphase] at hstep
            exact ⟨Or.inl rfl, Option.some.inj hstep⟩
        | submitted slot =>
            rw [hphase] at hstep
            exact ⟨Or.inr ⟨slot, rfl⟩, Option.some.inj hstep⟩
        | _ =>
            rw [hphase] at hstep
            cases hstep
      obtain ⟨hc, rfl⟩ := hc
      exact ⟨hlawful.destroy hc, Lawful.awake_destroy hawake, idle_destroy hidle⟩
  | complete op =>
      rw [Aio.step] at hstep
      split_ifs at hstep with hop
      obtain rfl := Option.some.inj hstep
      refine ⟨hlawful.complete hop, fun _ => Or.inr (Or.inl ?_), hidle⟩
      exact List.append_ne_nil_of_right_ne_nil _ (List.cons_ne_nil op [])
  | collect =>
      rw [Aio.step] at hstep
      split_ifs at hstep with htokens
      obtain rfl := Option.some.inj hstep
      exact ⟨hlawful.collect htokens, hlawful.awake_collect hawake htokens, hidle⟩
  | dispatch accepted =>
      rw [Aio.step] at hstep
      cases htokens : s.tokens with
      | nil =>
          rw [htokens] at hstep
          cases hstep
      | cons slot tokens =>
          rw [htokens] at hstep
          obtain rfl := Option.some.inj hstep
          have hplaced : s.slotWaiters ≠ [] → Placed accepted { s with tokens := tokens } := by
            rw [Orderly, htokens] at horderly
            exact horderly
          obtain ⟨hlawful', hawake'⟩ := hlawful.dispatch htokens hplaced
          exact ⟨hlawful', hawake', idle_dispatch hidle⟩

end

/-- In every run in which no operation is placed in a slot whose last completion is still to be dispatched,
and none is refused with nothing else to come: no call is resumed twice or before its operation has
completed; a call that is not destroyed is resumed by the dispatch of its completion; and when nothing is
left to come, every call that was made has been resumed or destroyed. -/
theorem calls_resumed_once {maxOps : Nat} (hpos : 0 < maxOps) {as : List Action} {s : State}
    (hrun : Run step Orderly (init maxOps) as s) :
    s.resumed.Nodup ∧ (∀ c ∈ s.resumed, c ∈ s.finished) ∧
      (∀ c ∈ s.finished, c ∈ s.resumed ∨ s.phase c = .destroyed ∨
        ∃ slot, s.phase c = .submitted slot ∧ ((slot, c) ∈ s.completed ∨ slot ∈ s.tokens)) ∧
      (s.inFlight = [] → s.completed = [] → s.tokens = [] →
        ∀ c, s.phase c ≠ .fresh → c ∈ s.resumed ∨ s.phase c = .destroyed) := by
  have hinit : Lawful (init maxOps) ∧ Awake (init maxOps) ∧ Idle (init maxOps) :=
    ⟨lawful_init hpos, fun hne => absurd rfl hne, fun _ => by simp [init]⟩
  obtain ⟨hlawful, hawake, hidle⟩ :=
    hrun.invariant (fun _ _ _ hinv horderly hstep => Lawful.step hinv horderly hstep) hinit
  refine ⟨hlawful.once, hlawful.answered, fun c hc => ?_, fun hinFlight hcompleted htokens c hfresh => ?_⟩
  · obtain ⟨hfresh, hrunning, hwaiting⟩ := hlawful.submitted c hc
    cases hphase : s.phase c with
    | submitted slot =>
        have hnot := (hlawful.operation c slot hphase).resolve_left fun hleft => hleft.2 hc
        exact Or.inr (Or.inr ⟨slot, rfl, hnot.2⟩)
    | done => exact Or.inl ((hlawful.resumed c).mpr hphase)
    | destroyed => exact Or.inr (Or.inl rfl)
    | fresh => exact absurd hphase hfresh
    | running => exact absurd hphase hrunning
    | waiting => exact absurd hphase hwaiting
  · cases hphase : s.phase c with
    | done => exact Or.inl ((hlawful.resumed c).mpr hphase)
    | destroyed => exact Or.inr rfl
    | fresh => exact absurd hphase hfresh
    | running => exact absurd hphase (hidle c)
    | waiting =>
        have hne : s.slotWaiters ≠ [] := List.ne_nil_of_mem ((hlawful.queued c).mpr hphase)
        rcases hawake hne with hcome | hcome | hcome
        · exact absurd hinFlight hcome
        · exact absurd hcompleted hcome
        · exact absurd htokens hcome
    | submitted slot =>
        rcases hlawful.operation c slot hphase with ⟨hmem, -⟩ | ⟨-, hmem | hmem⟩
        · rw [hinFlight] at hmem
          cases hmem
        · rw [hcompleted] at hmem
          cases hmem
        · rw [htokens] at hmem
          cases hmem

/-- Two slots: the third call waits, and takes the first slot that was dispatched. -/
theorem calls_resumed_once_waiter :
    ∃ s : State, s.resumed = [2, 1, 0] ∧ s.resumed.Nodup ∧ (∀ c ∈ s.resumed, c ∈ s.finished) ∧
      (∀ c ∈ s.finished, c ∈ s.resumed ∨ s.phase c = .destroyed ∨
        ∃ slot, s.phase c = .submitted slot ∧ ((slot, c) ∈ s.completed ∨ slot ∈ s.tokens)) ∧
      (s.inFlight = [] → s.completed = [] → s.tokens = [] →
        ∀ c, s.phase c ≠ .fresh → c ∈ s.resumed ∨ s.phase c = .destroyed) := by
  have hrun : (runAll step (fun s a => Orderly s a) (init 2)
      [.call 0 true, .call 1 true, .call 2 true, .complete (0, 0), .complete (1, 1), .collect, .dispatch true,
        .dispatch true, .complete (0, 2), .collect, .dispatch true]).map State.resumed = some [2, 1, 0] := by
    decide +kernel
  obtain ⟨s, hs, hresumed⟩ := Option.map_eq_some_iff.mp hrun
  refine ⟨s, hresumed, calls_resumed_once (by decide) ((Run.of_runAll hs).mono fun s a ha => ?_)⟩
  exact of_decide_eq_true ha

/-- Two slots, whose completions come in the other order: the waiter is placed in the slot that is dispatched
next, is resumed for it while its own operation is in flight, and the first call is never resumed. -/
theorem batch_slot_taken :
    ∃ s s' : State, Run step (fun _ _ => True) (init 2)
        [.call 0 true, .call 1 true, .call 2 true, .complete (1, 1), .complete (0, 0), .collect, .dispatch true,
          .dispatch true] s ∧
      2 ∈ s.resumed ∧ 2 ∉ s.finished ∧ Run step (fun _ _ => True) s [.complete (0, 2), .collect, .dispatch true] s' ∧
      0 ∈ s'.finished ∧ 0 ∉ s'.resumed ∧ s'.phase 0 = .submitted 0 ∧ s'.inFlight = [] ∧ s'.completed = [] ∧
      s'.tokens = [] :=
  ⟨_, _, .cons trivial rfl (.cons trivial rfl (.cons trivial rfl (.cons trivial rfl (.cons trivial rfl
    (.cons trivial rfl (.cons trivial rfl (.cons trivial rfl (.nil _)))))))), by decide, by decide,
    .cons trivial rfl (.cons trivial rfl (.cons trivial rfl (.nil _))), by decide, by decide, rfl, rfl, rfl, rfl⟩

end Plexdb.Aio
