import Plexdb.UringContext

/-! What every step of the io_uring file context keeps. The pieces and the kernel's operations obey one law,
the calls and their latches another, and the scratch memory of the writes a third. -/

namespace Plexdb.UringFile

/-- A slot is the kernel's for one operation at a time, and the handle at it is that of its piece. -/
structure Lawful (s : State) : Prop where
  next : s.nextFreeBuf < s.bufCount
  inUse : ∀ i < s.bufCount, s.bufInUse i = true ↔ .buffer i ∈ s.busy
  inRange : ∀ i, .buffer i ∈ s.busy → i < s.bufCount
  distinct : s.busy.Nodup
  handles : ∀ slot p, s.handles slot = some p ↔ s.phase p = .submitted slot
  owner : ∀ op ∈ s.inFlight ++ s.completed, s.phase op.2 = .submitted op.1 ∨ s.phase op.2 = .destroyed
  operation : ∀ p slot, s.phase p = .submitted slot →
    ((slot, p) ∈ s.inFlight ∧ p ∉ s.finished) ∨ ((slot, p) ∈ s.completed ∧ p ∈ s.finished)
  queued : ∀ p, p ∈ s.bufWaiters ↔ s.phase p = .waiting
  nodup : s.bufWaiters.Nodup
  begun : ∀ p ∈ s.submitted, s.phase p ≠ .fresh ∧ s.phase p ≠ .running ∧ s.phase p ≠ .waiting
  pushed : ∀ p, (∃ slot, s.phase p = .submitted slot) ∨ s.phase p = .done → p ∈ s.submitted
  once : s.submitted.Nodup
  ended : ∀ p ∈ s.finished, s.phase p ≠ .fresh ∧ s.phase p ≠ .running ∧ s.phase p ≠ .waiting
  answered : ∀ p, s.phase p = .done → p ∈ s.finished

/-- Nobody waits while a buffer is free. -/
def Full (s : State) : Prop := s.bufWaiters ≠ [] → ∀ i < s.bufCount, s.bufInUse i = true

def Phase.Suspended : Phase → Prop
  | .waiting | .submitted _ => True
  | _ => False

/-- A call is active as long as one of its pieces is suspended, and its latch counts those. -/
structure Joined (phase : Piece → Phase) (stage : Call → Stage) (pieces : Call → List Piece) (remaining : Call → Nat)
    (resumed : List Call) (written : Call → Option Rng1U64) : Prop where
  known : ∀ p, phase p ≠ .fresh → p ∈ pieces p.call ∧ stage p.call ≠ .fresh
  nodup : ∀ c, (pieces c).Nodup
  nonempty : ∀ c, stage c ≠ .fresh → pieces c ≠ []
  call : ∀ c, ∀ p ∈ pieces c, p.call = c
  active : ∀ c, stage c = .active → ∀ p ∈ pieces c, (phase p).Suspended ∨ phase p = .done
  count : ∀ c, stage c = .active → remaining c = ((pieces c).filter (phase · ≠ .done)).length
  pos : ∀ c, stage c = .active → 0 < remaining c
  done : ∀ c, stage c = .done → ∀ p ∈ pieces c, phase p = .done
  destroyed : ∀ c, stage c = .destroyed → ∀ p ∈ pieces c, phase p = .done ∨ phase p = .destroyed
  answered : ∀ c, c ∈ resumed ↔ stage c = .done
  once : resumed.Nodup
  covers : ∀ c rng, written c = some rng → stage c ≠ .fresh ∧
    ((pieces c).map (·.rng.submitted)).flatMap Rng1U64.bytes = rng.bytes

def State.Joined (s : State) : Prop := UringFile.Joined s.phase s.stage s.pieces s.remaining s.resumed s.written

/-- No scratch memory of a write in progress has been given back. -/
def Kept (s : State) : Prop := ∀ sc ∈ s.scopes, sc.released = false ∧ sc.limit ≤ s.scratch

section

variable {s : State} {p : Piece} {c : Call} {slot : Slot} {idx : Nat}

/-! ### Pieces -/

theorem lawful_init {bufSize bufCount : Nat} (hpos : 0 < bufCount) : Lawful (init bufSize bufCount) := by
  constructor <;> simp [init, State.busy, hpos]

/-- A piece begins, or the first waiter goes on. -/
theorem Lawful.run {waiters : List Piece} (h : Lawful s) (hp : s.phase p = .fresh ∨ s.phase p = .waiting)
    (hwaiters : waiters.Nodup) (hmem : ∀ q, q ∈ waiters ↔ q ∈ s.bufWaiters ∧ q ≠ p) :
    Lawful (setPhase p .running { s with bufWaiters := waiters }) := by
  have hphase : ∀ q, Function.update s.phase p .running q = if q = p then .running else s.phase q :=
    Function.update_apply s.phase p .running
  obtain ⟨hnext, hinUse, hinRange, hdistinct, hhandles, howner, hoperation, hqueued, hnodup, hbegun, hpushed, honce,
    hended, hanswered⟩ := h
  refine ⟨hnext, hinUse, hinRange, hdistinct, ?_, ?_, ?_, ?_, hwaiters, ?_, ?_, honce, ?_, ?_⟩ <;>
    simp only [setPhase] <;> grind

theorem Lawful.park (h : Lawful s) (hp : s.phase p = .running) :
    Lawful (setPhase p .waiting { s with bufWaiters := s.bufWaiters ++ [p] }) := by
  have hphase : ∀ q, Function.update s.phase p .waiting q = if q = p then .waiting else s.phase q :=
    Function.update_apply s.phase p .waiting
  obtain ⟨hnext, hinUse, hinRange, hdistinct, hhandles, howner, hoperation, hqueued, hnodup, hbegun, hpushed, honce,
    hended, hanswered⟩ := h
  refine ⟨hnext, hinUse, hinRange, hdistinct, ?_, ?_, ?_, ?_, ?_, ?_, ?_, honce, ?_, ?_⟩ <;>
    simp only [setPhase] <;> grind

theorem busy_submit : (submit p slot s).busy.Perm (slot :: s.busy) := by
  have hperm : ((s.inFlight ++ [(slot, p)]) ++ s.completed).Perm ((slot, p) :: (s.inFlight ++ s.completed)) := by
    rw [List.append_assoc, List.singleton_append]
    exact List.perm_middle
  exact hperm.map Prod.fst

/-- What a submission needs: its slot is free, and marked as in use if it is a buffer. -/
theorem Lawful.submit {inUse : Nat → Bool} {next : Nat} (h : Lawful s) (hp : s.phase p = .running ∨ s.phase p = .fresh)
    (hslot : slot ∉ s.busy) (hnext : next < s.bufCount) (hrange : ∀ i, slot = .buffer i → i < s.bufCount)
    (hinUse' : ∀ i < s.bufCount, inUse i = true ↔ s.bufInUse i = true ∨ slot = .buffer i) :
    Lawful (submit p slot { s with bufInUse := inUse, nextFreeBuf := next }) := by
  have hphase : ∀ q, Function.update s.phase p (.submitted slot) q = if q = p then .submitted slot else s.phase q :=
    Function.update_apply s.phase p (.submitted slot)
  have hhandle : ∀ i, Function.update s.handles slot (some p) i = if i = slot then some p else s.handles i :=
    Function.update_apply s.handles slot (some p)
  have hperm : (UringFile.submit p slot { s with bufInUse := inUse, nextFreeBuf := next }).busy.Perm (slot :: s.busy) :=
    busy_submit
  -- nobody else is suspended for the slot
  have hnobody : ∀ q, s.phase q ≠ .submitted slot := by
    intro q hq
    rcases h.operation q slot hq with ⟨hmem, -⟩ | ⟨hmem, -⟩
    · exact hslot (List.mem_map.mpr ⟨_, List.mem_append_left _ hmem, rfl⟩)
    · exact hslot (List.mem_map.mpr ⟨_, List.mem_append_right _ hmem, rfl⟩)
  obtain ⟨-, hinUse, hinRange, hdistinct, hhandles, howner, hoperation, hqueued, hnodup, hbegun, hpushed, honce,
    hended, hanswered⟩ := h
  refine ⟨hnext, fun i hi => ?_, fun i hi => ?_, ?_, ?_, ?_, ?_, ?_, hnodup, ?_, ?_, ?_, ?_, ?_⟩
  · rw [hperm.mem_iff, List.mem_cons]
    refine (hinUse' i hi).trans ?_
    rw [hinUse i hi, or_comm, eq_comm]
  · rcases List.mem_cons.mp (hperm.mem_iff.mp hi) with heq | hi
    · exact hrange i heq.symm
    · exact hinRange i hi
  · exact hperm.nodup_iff.mpr (List.nodup_cons.mpr ⟨hslot, hdistinct⟩)
  all_goals
    simp only [UringFile.submit, setPhase, List.mem_append] at howner ⊢
    grind

theorem Lawful.tryAcquireBuf_eq_some (h : Lawful s) (hidx : tryAcquireBuf s = some idx) :
    idx < s.bufCount ∧ s.bufInUse idx = false ∧ .buffer idx ∉ s.busy := by
  obtain ⟨hlt, hfree⟩ := RoundRobin.search_eq_some h.next hidx
  refine ⟨hlt, hfree, fun hbusy => ?_⟩
  cases ((h.inUse idx hlt).mpr hbusy).symm.trans hfree

theorem Lawful.attempt (h : Lawful s) (hp : s.phase p = .running) : Lawful (attempt p s) := by
  rw [UringFile.attempt]
  cases htry : tryAcquireBuf s with
  | none => exact h.park hp
  | some idx =>
      obtain ⟨hlt, hfree, hbusy⟩ := h.tryAcquireBuf_eq_some htry
      refine h.submit (Or.inl hp) hbusy (Nat.mod_lt _ (Nat.zero_lt_of_lt hlt)) (fun i hi => ?_) fun i hi => ?_
      · cases hi
        exact hlt
      · rw [Function.update_apply]
        grind

/-- At most one buffer is free when somebody waits. -/
theorem Lawful.full_attempt (h : Lawful s)
    (hone : s.bufWaiters ≠ [] → ∀ i < s.bufCount, ∀ j < s.bufCount, s.bufInUse i = false → s.bufInUse j = false → i = j) :
    Full (UringFile.attempt p s) := by
  rw [UringFile.attempt]
  cases htry : tryAcquireBuf s with
  | none => exact fun _ => (RoundRobin.search_eq_none_iff h.next).mp htry
  | some idx =>
      obtain ⟨hlt, hfree, -⟩ := h.tryAcquireBuf_eq_some htry
      intro hne i hi
      change Function.update s.bufInUse idx true i = true
      by_cases heq : i = idx
      · rw [heq, Function.update_self]
      · rw [Function.update_of_ne heq]
        by_contra hnot
        exact heq (hone hne i hi idx hlt (by simpa using hnot) hfree)

theorem Lawful.unique {q : Piece} (h : Lawful s) (hp : s.phase p = .submitted slot) (hq : s.phase q = .submitted slot) :
    p = q :=
  Option.some.inj (((h.handles slot p).mpr hp).symm.trans ((h.handles slot q).mpr hq))

theorem Lawful.destroyPiece (h : Lawful s) : Lawful (destroyPiece s p) := by
  have hphase : ∀ q, Function.update s.phase p .destroyed q = if q = p then .destroyed else s.phase q :=
    Function.update_apply s.phase p .destroyed
  have hunique : ∀ slot q, s.phase p = .submitted slot → s.phase q = .submitted slot → p = q := fun _ _ => h.unique
  rw [UringFile.destroyPiece]
  cases hp : s.phase p with
  | waiting =>
      obtain ⟨hnext, hinUse, hinRange, hdistinct, hhandles, howner, hoperation, hqueued, hnodup, hbegun, hpushed, honce,
        hended, hanswered⟩ := h
      refine ⟨hnext, hinUse, hinRange, hdistinct, ?_, ?_, ?_, ?_, hnodup.erase p, ?_, ?_, honce, ?_, ?_⟩ <;>
        simp only [setPhase, hnodup.mem_erase_iff] <;> grind
  | submitted slot =>
      have hhandle : ∀ i, Function.update s.handles slot none i = if i = slot then none else s.handles i :=
        Function.update_apply s.handles slot none
      obtain ⟨hnext, hinUse, hinRange, hdistinct, hhandles, howner, hoperation, hqueued, hnodup, hbegun, hpushed, honce,
        hended, hanswered⟩ := h
      refine ⟨hnext, hinUse, hinRange, hdistinct, ?_, ?_, ?_, ?_, hnodup, ?_, ?_, honce, ?_, ?_⟩ <;>
        simp only [setPhase] <;> grind
  | _ => exact h

theorem Lawful.complete {op : Slot × Piece} (h : Lawful s) (hop : op ∈ s.inFlight) : Lawful (complete op s) := by
  have hops : (s.inFlight.erase op ++ (s.completed ++ [op])).Perm (s.inFlight ++ s.completed) := by
    refine List.perm_append_comm.trans ?_
    rw [List.append_assoc, List.singleton_append]
    exact ((List.perm_cons_erase hop).symm.append_left s.completed).trans List.perm_append_comm
  have hperm : (UringFile.complete op s).busy.Perm s.busy := hops.map Prod.fst
  have hphase := h.owner op (List.mem_append_left _ hop)
  obtain ⟨hnext, hinUse, hinRange, hdistinct, hhandles, howner, hoperation, hqueued, hnodup, hbegun, hpushed, honce,
    hended, hanswered⟩ := h
  refine ⟨hnext, fun i hi => (hinUse i hi).trans hperm.mem_iff.symm, fun i hi => hinRange i (hperm.mem_iff.mp hi),
    hperm.nodup_iff.mpr hdistinct, hhandles, fun op' hop' => howner op' (hops.mem_iff.mp hop'), fun p slot hp => ?_,
    hqueued, hnodup, hbegun, hpushed, honce, ?_, fun p hp => List.mem_cons_of_mem _ (hanswered p hp)⟩
  · simp only [UringFile.complete, List.mem_append, List.mem_cons]
    by_cases heq : (slot, p) = op
    · subst heq
      exact Or.inr ⟨Or.inr (Or.inl rfl), Or.inl rfl⟩
    · rcases hoperation p slot hp with ⟨hmem, hnot⟩ | ⟨hmem, hfinished⟩
      · refine Or.inl ⟨(List.mem_erase_of_ne heq).mpr hmem, ?_⟩
        rintro (rfl | hfinished)
        · rcases hphase with hphase | hphase
          · exact heq (by cases hp.symm.trans hphase; rfl)
          · cases hp.symm.trans hphase
        · exact hnot hfinished
      · exact Or.inr ⟨Or.inl hmem, Or.inr hfinished⟩
  · intro p hp
    rcases List.mem_cons.mp hp with rfl | hp
    · change s.phase op.2 ≠ .fresh ∧ s.phase op.2 ≠ .running ∧ s.phase op.2 ≠ .waiting
      rcases hphase with hphase | hphase <;> simp [hphase]
    · exact hended p hp

/-- The operation that is completed first leaves the kernel, and with it its slot. -/
theorem Lawful.settle {completed : List (Slot × Piece)} {op : Slot × Piece} (h : Lawful s) (inUse : Nat → Bool)
    (hcompleted : s.completed = op :: completed)
    (hinUse' : ∀ i < s.bufCount, inUse i = true ↔ s.bufInUse i = true ∧ op.1 ≠ .buffer i) :
    (∀ p, s.handles op.1 = some p → s.phase p = .submitted op.1 ∧ p ∈ s.finished ∧
      Lawful (setPhase p .done { s with
        completed := completed, bufInUse := inUse, handles := Function.update s.handles op.1 none })) ∧
    (s.handles op.1 = none → Lawful { s with
      completed := completed, bufInUse := inUse, handles := Function.update s.handles op.1 none }) := by
  have hperm : s.busy.Perm (op.1 :: (s.inFlight ++ completed).map Prod.fst) := by
    rw [State.busy, hcompleted]
    exact List.perm_middle.map Prod.fst
  have hdistinct := hperm.nodup_iff.mp h.distinct
  obtain ⟨hnot, hdistinct'⟩ := List.nodup_cons.mp hdistinct
  have hinUse'' : ∀ i < s.bufCount, inUse i = true ↔ .buffer i ∈ (s.inFlight ++ completed).map Prod.fst := by
    intro i hi
    rw [hinUse' i hi, h.inUse i hi, hperm.mem_iff, List.mem_cons]
    grind
  have hinRange' : ∀ i, .buffer i ∈ (s.inFlight ++ completed).map Prod.fst → i < s.bufCount := fun i hi =>
    h.inRange i (hperm.mem_iff.mpr (List.mem_cons_of_mem _ hi))
  have hhandle : ∀ i, Function.update s.handles op.1 none i = if i = op.1 then none else s.handles i :=
    Function.update_apply s.handles op.1 none
  -- the other operations are at other slots
  have hother : ∀ op' ∈ s.inFlight ++ completed, op'.1 ≠ op.1 := fun op' hop' heq =>
    hnot (heq ▸ List.mem_map_of_mem hop')
  have hsub : ∀ op' ∈ s.inFlight ++ completed, op' ∈ s.inFlight ++ s.completed := by
    rw [hcompleted]
    grind
  have hunique : ∀ p q, s.phase p = .submitted op.1 → s.phase q = .submitted op.1 → p = q := fun _ _ => h.unique
  obtain ⟨hnext, hinUse, hinRange, -, hhandles, howner, hoperation, hqueued, hnodup, hbegun, hpushed, honce,
    hended, hanswered⟩ := h
  have hoperation' : ∀ p slot, s.phase p = .submitted slot → slot ≠ op.1 →
      ((slot, p) ∈ s.inFlight ∧ p ∉ s.finished) ∨ ((slot, p) ∈ completed ∧ p ∈ s.finished) := by
    intro p slot hp hne
    refine (hoperation p slot hp).imp_right fun ⟨hmem, hfinished⟩ => ⟨?_, hfinished⟩
    rw [hcompleted] at hmem
    exact (List.mem_cons.mp hmem).resolve_left fun heq => hne (congrArg Prod.fst heq)
  have howner' : ∀ op' ∈ s.inFlight ++ completed, s.phase op'.2 = .submitted op'.1 ∨ s.phase op'.2 = .destroyed :=
    fun op' hop' => howner op' (hsub op' hop')
  refine ⟨fun p hp => ?_, fun hnone => ?_⟩
  · have hsubmitted := (hhandles op.1 p).mp hp
    have hfinished : p ∈ s.finished := by
      rcases hoperation p op.1 hsubmitted with ⟨hmem, -⟩ | ⟨-, hfinished⟩
      · exact absurd rfl (hother (op.1, p) (List.mem_append_left _ hmem))
      · exact hfinished
    have hphase : ∀ q, Function.update s.phase p .done q = if q = p then .done else s.phase q :=
      Function.update_apply s.phase p .done
    have hnobody : ∀ op' ∈ s.inFlight ++ completed, op'.2 ≠ p := by
      rintro op' hop' rfl
      rcases howner' op' hop' with heq | heq <;> rw [hsubmitted] at heq
      · exact hother op' hop' (Phase.submitted.inj heq).symm
      · cases heq
    refine ⟨hsubmitted, hfinished, hnext, hinUse'', hinRange', hdistinct', ?_, ?_, ?_, ?_, hnodup, ?_, ?_, honce, ?_, ?_⟩
    all_goals
      simp only [setPhase]
      grind
  · have hsame : Function.update s.handles op.1 none = s.handles := by
      rw [← hnone, Function.update_eq_self]
    rw [hsame]
    refine ⟨hnext, hinUse'', hinRange', hdistinct', hhandles, howner', fun p slot hp => hoperation' p slot hp ?_, hqueued,
      hnodup, hbegun, hpushed, honce, hended, hanswered⟩
    rintro rfl
    cases ((hhandles op.1 p).mpr hp).symm.trans hnone

/-! ### Waiters -/

theorem attempt_setPhase {q : Piece} {phase : Phase} (hne : q ≠ p) :
    UringFile.attempt q (setPhase p phase s) = setPhase p phase (UringFile.attempt q s) := by
  have htry : tryAcquireBuf (setPhase p phase s) = tryAcquireBuf s := rfl
  rw [UringFile.attempt, UringFile.attempt, htry]
  cases tryAcquireBuf s <;>
    simp only [setPhase, UringFile.submit, takeBuf] <;>
    rw [Function.update_comm hne]

theorem wakeWaiter_setPhase {phase : Phase} (hp : p ∉ s.bufWaiters) :
    wakeWaiter (setPhase p phase s) = setPhase p phase (wakeWaiter s) := by
  have hwaiters : (setPhase p phase s).bufWaiters = s.bufWaiters := rfl
  rw [wakeWaiter, wakeWaiter, hwaiters]
  cases hqueue : s.bufWaiters with
  | nil => rfl
  | cons w waiters =>
      have hne : w ≠ p := fun heq => hp (by rw [hqueue, heq]; exact List.mem_cons_self)
      dsimp only
      rw [← attempt_setPhase hne]
      simp only [setPhase]
      rw [Function.update_comm hne]

theorem Lawful.wake (h : Lawful s)
    (hone : s.bufWaiters ≠ [] → ∀ i < s.bufCount, ∀ j < s.bufCount, s.bufInUse i = false → s.bufInUse j = false → i = j) :
    Lawful (wakeWaiter s) ∧ Full (wakeWaiter s) := by
  rw [wakeWaiter]
  cases hqueue : s.bufWaiters with
  | nil => exact ⟨h, fun hne => absurd hqueue hne⟩
  | cons w waiters =>
      have hw : s.phase w = .waiting := (h.queued w).mp (by rw [hqueue]; exact List.mem_cons_self)
      have hnodup := h.nodup
      rw [hqueue] at hnodup
      obtain ⟨hnot, hwaiters⟩ := List.nodup_cons.mp hnodup
      have hrun := h.run (Or.inr hw) hwaiters fun q => by
        rw [hqueue]
        grind
      exact ⟨hrun.attempt (Function.update_self ..), hrun.full_attempt fun _ => hone (by rw [hqueue]; simp)⟩

/-- The first waiter goes on in the middle of what a piece does when it was resumed. -/
theorem Lawful.wake_done (h : Lawful (setPhase p .done s)) (hp : p ∉ s.bufWaiters)
    (hone : s.bufWaiters ≠ [] → ∀ i < s.bufCount, ∀ j < s.bufCount, s.bufInUse i = false → s.bufInUse j = false → i = j) :
    Lawful (setPhase p .done (wakeWaiter s)) ∧ Full (wakeWaiter s) := by
  have hwake := h.wake hone
  rw [wakeWaiter_setPhase hp] at hwake
  exact hwake

/-! ### Calls -/

/-- The calls are as they were, and of the pieces none but suspended ones changed. -/
structure Quiet (s s' : State) : Prop where
  stage : s'.stage = s.stage
  pieces : s'.pieces = s.pieces
  remaining : s'.remaining = s.remaining
  resumed : s'.resumed = s.resumed
  written : s'.written = s.written
  scopes : s'.scopes = s.scopes
  scratch : s'.scratch = s.scratch
  bufSize : s'.bufSize = s.bufSize
  phase : ∀ q, s'.phase q = s.phase q ∨ (s.phase q).Suspended ∧ (s'.phase q).Suspended

theorem Phase.Suspended.ne {phase : Phase} (h : phase.Suspended) : phase ≠ .fresh ∧ phase ≠ .done := by
  cases phase <;> simp_all [Phase.Suspended]

/-- What `attempt` does to the calls and to the phases. -/
theorem attempt_calls (p : Piece) (s : State) : ∃ phase : Phase, phase.Suspended ∧
    (UringFile.attempt p s).phase = Function.update s.phase p phase ∧
    (UringFile.attempt p s).stage = s.stage ∧ (UringFile.attempt p s).pieces = s.pieces ∧
    (UringFile.attempt p s).remaining = s.remaining ∧ (UringFile.attempt p s).resumed = s.resumed ∧
    (UringFile.attempt p s).written = s.written ∧ (UringFile.attempt p s).scopes = s.scopes ∧
    (UringFile.attempt p s).scratch = s.scratch ∧ (UringFile.attempt p s).bufSize = s.bufSize := by
  rw [UringFile.attempt]
  cases tryAcquireBuf s with
  | none => exact ⟨.waiting, trivial, rfl, rfl, rfl, rfl, rfl, rfl, rfl, rfl, rfl⟩
  | some idx => exact ⟨.submitted (.buffer idx), trivial, rfl, rfl, rfl, rfl, rfl, rfl, rfl, rfl, rfl⟩

theorem quiet_wakeWaiter (h : ∀ p ∈ s.bufWaiters, s.phase p = .waiting) : Quiet s (wakeWaiter s) := by
  rw [wakeWaiter]
  cases hqueue : s.bufWaiters with
  | nil => exact ⟨rfl, rfl, rfl, rfl, rfl, rfl, rfl, rfl, fun _ => Or.inl rfl⟩
  | cons w waiters =>
      have hw : s.phase w = .waiting := h w (by rw [hqueue]; exact List.mem_cons_self)
      obtain ⟨phase, hphase, hphases, hstage, hpieces, hremaining, hresumed, hwritten, hscopes, hscratch, hbufSize⟩ :=
        attempt_calls w (setPhase w .running { s with bufWaiters := waiters })
      refine ⟨hstage, hpieces, hremaining, hresumed, hwritten, hscopes, hscratch, hbufSize, fun q => ?_⟩
      dsimp only
      rw [hphases]
      simp only [setPhase]
      by_cases heq : q = w
      · subst heq
        rw [Function.update_self, hw]
        exact Or.inr ⟨trivial, hphase⟩
      · rw [Function.update_of_ne heq, Function.update_of_ne heq]
        exact Or.inl rfl

theorem State.Joined.quiet {s' : State} (h : s.Joined) (hquiet : Quiet s s') : s'.Joined := by
  obtain ⟨hstage, hpieces, hremaining, hresumed, hwritten, -, -, -, hphase⟩ := hquiet
  have hfresh : ∀ q, s'.phase q ≠ .fresh → s.phase q ≠ .fresh := fun q hq => by
    rcases hphase q with heq | ⟨hsuspended, -⟩
    · rwa [← heq]
    · exact hsuspended.ne.1
  have hdone : ∀ q, s'.phase q = .done ↔ s.phase q = .done := fun q => by
    rcases hphase q with heq | ⟨hsuspended, hsuspended'⟩
    · rw [heq]
    · exact iff_of_false hsuspended'.ne.2 hsuspended.ne.2
  rw [State.Joined, hstage, hpieces, hremaining, hresumed, hwritten]
  refine ⟨fun q hq => h.known q (hfresh q hq), h.nodup, h.nonempty, h.call, fun c hc q hq => ?_, fun c hc => ?_, h.pos,
    fun c hc q hq => (hdone q).mpr (h.done c hc q hq), fun c hc q hq => ?_, h.answered, h.once, h.covers⟩
  · rcases hphase q with heq | ⟨-, hsuspended'⟩
    · rw [heq]
      exact h.active c hc q hq
    · exact Or.inl hsuspended'
  · refine (h.count c hc).trans (congrArg List.length (List.filter_congr fun q _ => ?_))
    rw [decide_eq_decide, not_iff_not, hdone q]
  · rcases hphase q with heq | ⟨hsuspended, -⟩
    · rw [heq]
      exact h.destroyed c hc q hq
    · rcases h.destroyed c hc q hq with hq | hq <;> rw [hq] at hsuspended <;> cases hsuspended

end

section

variable {phase : Piece → Phase} {stage : Call → Stage} {pieces : Call → List Piece} {remaining : Call → Nat}
  {resumed : List Call} {written : Call → Option Rng1U64} {p : Piece} {c : Call}

/-- A suspended piece belongs to an active call. -/
theorem Joined.active_of_suspended (h : Joined phase stage pieces remaining resumed written) (hp : (phase p).Suspended) :
    stage p.call = .active ∧ p ∈ pieces p.call := by
  obtain ⟨hmem, hstage⟩ := h.known p hp.ne.1
  refine ⟨?_, hmem⟩
  cases hcall : stage p.call with
  | active => rfl
  | fresh => exact absurd hcall hstage
  | done =>
      rw [h.done _ hcall p hmem] at hp
      cases hp
  | destroyed => rcases h.destroyed _ hcall p hmem with heq | heq <;> rw [heq] at hp <;> cases hp

/-- The pieces that are not done, when one more is. -/
theorem filter_update_done {ps : List Piece} (hnodup : ps.Nodup) (hmem : p ∈ ps) (hp : phase p ≠ .done) :
    (ps.filter (Function.update phase p .done · ≠ .done)).length + 1 = (ps.filter (phase · ≠ .done)).length := by
  have herase : ps.filter (Function.update phase p .done · ≠ .done) = (ps.filter (phase · ≠ .done)).erase p := by
    rw [(hnodup.filter _).erase_eq_filter, List.filter_filter]
    refine List.filter_congr fun q _ => ?_
    rw [Function.update_apply]
    split_ifs with heq <;> simp [heq]
  have hmem' : p ∈ ps.filter (phase · ≠ .done) := List.mem_filter.mpr ⟨hmem, decide_eq_true hp⟩
  rw [herase, List.length_erase_of_mem hmem']
  have := List.length_pos_of_mem hmem'
  omega

/-- One more piece of a call is done, and others are not. -/
theorem Joined.arrive (h : Joined phase stage pieces remaining resumed written) (hp : (phase p).Suspended)
    (hmore : remaining p.call - 1 ≠ 0) :
    Joined (Function.update phase p .done) stage pieces (Function.update remaining p.call (remaining p.call - 1)) resumed
      written := by
  obtain ⟨hstage, hmem⟩ := h.active_of_suspended hp
  have hfilter := filter_update_done (h.nodup p.call) hmem hp.ne.2
  have hcount := h.count p.call hstage
  have hphase : ∀ q, Function.update phase p .done q = if q = p then .done else phase q :=
    Function.update_apply phase p .done
  have hother : ∀ d, d ≠ p.call → ∀ q ∈ pieces d, q ≠ p := fun d hd q hq heq =>
    hd ((h.call d q hq).symm.trans (congrArg Piece.call heq))
  refine ⟨fun q hq => h.known q ?_, h.nodup, h.nonempty, h.call, fun d hd q hq => ?_, fun d hd => ?_, fun d hd => ?_,
    fun d hd q hq => ?_, fun d hd q hq => ?_, h.answered, h.once, h.covers⟩
  · rw [hphase] at hq
    split_ifs at hq with heq
    · exact heq ▸ hp.ne.1
    · exact hq
  · rw [hphase]
    split_ifs
    · exact Or.inr rfl
    · exact h.active d hd q hq
  · rw [Function.update_apply]
    split_ifs with heq
    · subst heq
      omega
    · refine (h.count d hd).trans (congrArg List.length (List.filter_congr fun q hq => ?_))
      rw [hphase, if_neg (hother d heq q hq)]
  · rw [Function.update_apply]
    split_ifs
    · exact Nat.pos_of_ne_zero hmore
    · exact h.pos d hd
  · rw [hphase, h.done d hd q hq, ite_self]
  · rw [hphase]
    split_ifs
    · exact Or.inl rfl
    · exact h.destroyed d hd q hq

/-- The last piece of a call is done. -/
theorem Joined.arrive_last (h : Joined phase stage pieces remaining resumed written) (hp : (phase p).Suspended)
    (hlast : remaining p.call - 1 = 0) :
    Joined (Function.update phase p .done) (Function.update stage p.call .done) pieces
      (Function.update remaining p.call (remaining p.call - 1)) (p.call :: resumed) written := by
  obtain ⟨hstage, hmem⟩ := h.active_of_suspended hp
  have hfilter := filter_update_done (h.nodup p.call) hmem hp.ne.2
  have hcount := h.count p.call hstage
  have hphase : ∀ q, Function.update phase p .done q = if q = p then .done else phase q :=
    Function.update_apply phase p .done
  have hstages : ∀ d, Function.update stage p.call .done d = if d = p.call then .done else stage d :=
    Function.update_apply stage p.call .done
  have hother : ∀ d, d ≠ p.call → ∀ q ∈ pieces d, q ≠ p := fun d hd q hq heq =>
    hd ((h.call d q hq).symm.trans (congrArg Piece.call heq))
  -- every other piece was done before
  have hall : ∀ q ∈ pieces p.call, Function.update phase p .done q = .done := by
    have hnil : (pieces p.call).filter (Function.update phase p .done · ≠ .done) = [] :=
      List.length_eq_zero_iff.mp (by omega)
    exact fun q hq => by simpa using List.filter_eq_nil_iff.mp hnil q hq
  refine ⟨fun q hq => ?_, h.nodup, fun d hd => h.nonempty d fun hfresh => ?_, h.call, fun d hd => ?_, fun d hd => ?_,
    fun d hd => ?_, fun d hd q hq => ?_, fun d hd q hq => ?_, fun d => ?_, List.nodup_cons.mpr ⟨fun hmem => ?_, h.once⟩, fun d rng hrng => ?_⟩
  · have hq' : phase q ≠ .fresh := by
      rw [hphase] at hq
      split_ifs at hq with heq
      · exact heq ▸ hp.ne.1
      · exact hq
    refine ⟨(h.known q hq').1, ?_⟩
    rw [hstages]
    split_ifs
    · decide
    · exact (h.known q hq').2
  · rw [hstages, hfresh] at hd
    split_ifs at hd with heq
    · rw [heq, hstage] at hfresh
      cases hfresh
    · exact hd rfl
  · rw [hstages] at hd
    split_ifs at hd with heq
    intro q hq
    rw [hphase, if_neg (hother d heq q hq)]
    exact h.active d hd q hq
  · rw [hstages] at hd
    split_ifs at hd with heq
    rw [Function.update_of_ne heq]
    refine (h.count d hd).trans (congrArg List.length (List.filter_congr fun q hq => ?_))
    rw [hphase, if_neg (hother d heq q hq)]
  · rw [hstages] at hd
    split_ifs at hd with heq
    rw [Function.update_of_ne heq]
    exact h.pos d hd
  · rw [hstages] at hd
    split_ifs at hd with heq
    · exact hall q (heq ▸ hq)
    · rw [hphase, h.done d hd q hq, ite_self]
  · rw [hstages] at hd
    split_ifs at hd with heq
    rw [hphase, if_neg (hother d heq q hq)]
    exact h.destroyed d hd q hq
  · rw [hstages, List.mem_cons, h.answered d]
    split_ifs with heq
    · exact iff_of_true (Or.inl heq) rfl
    · exact or_iff_right heq
  · cases hstage.symm.trans ((h.answered p.call).mp hmem)
  · refine ⟨?_, (h.covers d rng hrng).2⟩
    rw [hstages]
    split_ifs
    · decide
    · exact (h.covers d rng hrng).1

/-- A call begins, its pieces are suspended. -/
theorem Joined.begin {ps : List Piece} {phase' : Piece → Phase} {written' : Call → Option Rng1U64}
    (h : Joined phase stage pieces remaining resumed written) (hc : stage c = .fresh) (hps : ps ≠ [])
    (hnodup : ps.Nodup) (hcall : ∀ p ∈ ps, p.call = c) (hsuspended : ∀ p ∈ ps, (phase' p).Suspended)
    (hphase : ∀ q, q ∉ ps → phase' q = phase q)
    (hwritten : ∀ d rng, written' d = some rng → written d = some rng ∨
      d = c ∧ (ps.map (·.rng.submitted)).flatMap Rng1U64.bytes = rng.bytes) :
    Joined phase' (Function.update stage c .active) (Function.update pieces c ps)
      (Function.update remaining c ps.length) resumed written' := by
  have hstages : ∀ d, Function.update stage c .active d = if d = c then .active else stage d :=
    Function.update_apply stage c .active
  have hpieces : ∀ d, Function.update pieces c ps d = if d = c then ps else pieces d :=
    Function.update_apply pieces c ps
  have hother : ∀ d, d ≠ c → ∀ q ∈ pieces d, phase' q = phase q := fun d hd q hq =>
    hphase q fun hmem => hd ((h.call d q hq).symm.trans (hcall q hmem))
  have hall : ps.filter (phase' · ≠ .done) = ps :=
    List.filter_eq_self.mpr fun q hq => decide_eq_true (hsuspended q hq).ne.2
  refine ⟨fun q hq => ?_, fun d => ?_, fun d hd => ?_, fun d q hq => ?_, fun d hd q hq => ?_, fun d hd => ?_,
    fun d hd => ?_, fun d hd q hq => ?_, fun d hd q hq => ?_, fun d => ?_, h.once, fun d rng hrng => ?_⟩
  · by_cases hmem : q ∈ ps
    · rw [hcall q hmem, Function.update_self, Function.update_self]
      exact ⟨hmem, by decide⟩
    · rw [hphase q hmem] at hq
      have hne : q.call ≠ c := fun heq => (h.known q hq).2 (heq ▸ hc)
      rw [Function.update_of_ne hne, Function.update_of_ne hne]
      exact h.known q hq
  · rw [hpieces]
    split_ifs
    · exact hnodup
    · exact h.nodup d
  · rw [hstages] at hd
    rw [hpieces]
    split_ifs at hd ⊢
    · exact hps
    · exact h.nonempty d hd
  · rw [hpieces] at hq
    split_ifs at hq with heq
    · exact (hcall q hq).trans heq.symm
    · exact h.call d q hq
  · rw [hstages] at hd
    rw [hpieces] at hq
    split_ifs at hd hq with heq
    · exact Or.inl (hsuspended q hq)
    · rw [hother d heq q hq]
      exact h.active d hd q hq
  · rw [hstages] at hd
    rw [hpieces, Function.update_apply]
    split_ifs at hd ⊢ with heq
    · rw [hall]
    · refine (h.count d hd).trans (congrArg List.length (List.filter_congr fun q hq => ?_))
      rw [hother d heq q hq]
  · rw [hstages] at hd
    rw [Function.update_apply]
    split_ifs at hd ⊢ with heq
    · exact List.length_pos_of_ne_nil hps
    · exact h.pos d hd
  · rw [hstages] at hd
    split_ifs at hd with heq
    rw [hpieces, if_neg heq] at hq
    rw [hother d heq q hq]
    exact h.done d hd q hq
  · rw [hstages] at hd
    split_ifs at hd with heq
    rw [hpieces, if_neg heq] at hq
    rw [hother d heq q hq]
    exact h.destroyed d hd q hq
  · rw [h.answered d, hstages]
    split_ifs with heq
    · exact iff_of_false (by rw [heq, hc]; decide) (by decide)
    · exact Iff.rfl
  · rw [hstages, hpieces]
    rcases hwritten d rng hrng with hold | ⟨rfl, hcover⟩
    · obtain ⟨hstage, hcover⟩ := h.covers d rng hold
      have hne : d ≠ c := fun heq => hstage (heq ▸ hc)
      rw [if_neg hne, if_neg hne]
      exact ⟨hstage, hcover⟩
    · rw [if_pos rfl, if_pos rfl]
      exact ⟨by decide, hcover⟩

/-- A call and its suspended pieces are destroyed. -/
theorem Joined.destroy {phase' : Piece → Phase} (h : Joined phase stage pieces remaining resumed written)
    (hc : stage c = .active) (hgone : ∀ p ∈ pieces c, phase' p = .done ∨ phase' p = .destroyed)
    (hphase : ∀ q, q ∉ pieces c → phase' q = phase q) :
    Joined phase' (Function.update stage c .destroyed) pieces remaining resumed written := by
  have hstages : ∀ d, Function.update stage c .destroyed d = if d = c then .destroyed else stage d :=
    Function.update_apply stage c .destroyed
  have hother : ∀ d, d ≠ c → ∀ q ∈ pieces d, phase' q = phase q := fun d hd q hq =>
    hphase q fun hmem => hd ((h.call d q hq).symm.trans (h.call c q hmem))
  refine ⟨fun q hq => ?_, h.nodup, fun d hd => h.nonempty d fun hfresh => ?_, h.call, fun d hd q hq => ?_,
    fun d hd => ?_, fun d hd => ?_, fun d hd q hq => ?_, fun d hd q hq => ?_, fun d => ?_, h.once,
    fun d rng hrng => ⟨?_, (h.covers d rng hrng).2⟩⟩
  · rw [hstages]
    by_cases hmem : q ∈ pieces c
    · rw [h.call c q hmem, if_pos rfl]
      exact ⟨hmem, by decide⟩
    · rw [hphase q hmem] at hq
      refine ⟨(h.known q hq).1, ?_⟩
      split_ifs
      · decide
      · exact (h.known q hq).2
  · rw [hstages, hfresh] at hd
    split_ifs at hd with heq
    · rw [heq, hc] at hfresh
      cases hfresh
    · exact hd rfl
  · rw [hstages] at hd
    split_ifs at hd with heq
    rw [hother d heq q hq]
    exact h.active d hd q hq
  · rw [hstages] at hd
    split_ifs at hd with heq
    refine (h.count d hd).trans (congrArg List.length (List.filter_congr fun q hq => ?_))
    rw [hother d heq q hq]
  · rw [hstages] at hd
    split_ifs at hd
    exact h.pos d hd
  · rw [hstages] at hd
    split_ifs at hd with heq
    rw [hother d heq q hq]
    exact h.done d hd q hq
  · rw [hstages] at hd
    split_ifs at hd with heq
    · exact hgone q (heq ▸ hq)
    · rw [hother d heq q hq]
      exact h.destroyed d hd q hq
  · rw [h.answered d, hstages]
    split_ifs with heq
    · exact iff_of_false (by rw [heq, hc]; decide) (by decide)
    · exact Iff.rfl
  · rw [hstages]
    split_ifs
    · decide
    · exact (h.covers d rng hrng).1

end

end Plexdb.UringFile
