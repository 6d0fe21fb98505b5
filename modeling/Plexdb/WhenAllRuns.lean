import Mathlib
import Plexdb.WhenAll

/-! Every run of `when_all`: the tasks are started once, the joiner goes past the join once and after all of them, and
every frame is destroyed once. -/

namespace Plexdb.WhenAll

/-! ### What the phases say -/

def TaskState.Sound (t : TaskState) : Prop :=
  match t.phase with
  | .fresh => t.starts = 0 ∧ t.arrivals = 0 ∧ t.destructions = 0
  | .running => t.starts = 1 ∧ t.arrivals = 0 ∧ t.destructions = 0
  | .suspended => t.starts = 1 ∧ t.arrivals = 0 ∧ t.destructions = 0
  | .done => t.starts = 1 ∧ t.arrivals = 1 ∧ t.destructions = 0
  | .destroyed => t.starts = 1 ∧ t.arrivals ≤ 1 ∧ t.destructions = 1

/-- The joiner or its destruction is on the stack. -/
def Joiner.active : Joiner → Bool
  | .firing _ | .joined _ | .cancelled _ => true
  | _ => false

/-- How many tasks have been started. -/
def Joiner.fired (n : Nat) : Joiner → Nat
  | .firing i => i
  | _ => n

/-- How many runners have been destroyed. -/
def Joiner.torn (n : Nat) : Joiner → Nat
  | .joined k | .cancelled k => k
  | .returned | .gone => n
  | _ => 0

def Joiner.past : Joiner → Bool
  | .joined _ | .returned => true
  | _ => false

def Joiner.cut : Joiner → Bool
  | .cancelled _ | .gone => true
  | _ => false

/-- The tasks that have not arrived. -/
def pending (n : Nat) (task : Nat → TaskState) : Finset Nat := (Finset.range n).filter fun i => (task i).arrivals = 0

structure Ledger (n : Nat) (task : Nat → TaskState) (latch : Latch) (joiner : Joiner) (continues : Nat) : Prop where
  sound : ∀ i, (task i).Sound
  fired : joiner.fired n ≤ n
  fresh : ∀ i, (task i).phase = .fresh ↔ joiner.fired n ≤ i
  torn : joiner.torn n ≤ n
  destroyed : ∀ i, (task i).phase = .destroyed ↔ i < joiner.torn n
  remaining : latch.remaining = (pending n task).card
  waiter : latch.waiter = true ↔ joiner = .parked
  continues : continues = if joiner.past then 1 else 0
  complete : joiner.past = true → pending n task = ∅
  outstanding : joiner = .parked → (pending n task).Nonempty

/-- Below the tasks that run, each on top of what resumed it, is the joiner or the code outside. -/
def base (joiner : Joiner) : List Act := if joiner.active then [.joiner, .outside] else [.outside]

def Calls (task : Nat → TaskState) (joiner : Joiner) (stack : List Act) : Prop :=
  ∃ running : List Nat, stack = running.map Act.task ++ base joiner ∧ running.Nodup ∧
    ∀ i, i ∈ running ↔ (task i).phase = .running

structure Inv (n : Nat) (s : State) : Prop where
  count : s.count = n
  ledger : Ledger n s.task s.latch s.joiner s.continues
  calls : Calls s.task s.joiner s.stack

section

variable {n i j k : Nat} {task : Nat → TaskState} {t : TaskState} {latch latch' : Latch} {joiner : Joiner}
  {continues : Nat} {stack below : List Act}

theorem mem_pending : i ∈ pending n task ↔ i < n ∧ (task i).arrivals = 0 := by
  rw [pending, Finset.mem_filter, Finset.mem_range]

theorem pending_update_same (h : t.arrivals = (task i).arrivals) :
    pending n (Function.update task i t) = pending n task := by
  ext j
  rw [mem_pending, mem_pending]
  by_cases hj : j = i
  · subst hj
    rw [Function.update_self, h]
  · rw [Function.update_of_ne hj]

theorem pending_update_arrived (h : t.arrivals ≠ 0) :
    pending n (Function.update task i t) = (pending n task).erase i := by
  ext j
  rw [Finset.mem_erase, mem_pending, mem_pending]
  by_cases hj : j = i
  · subst hj
    rw [Function.update_self]
    simp [h]
  · rw [Function.update_of_ne hj]
    simp [hj]

theorem Ledger.lt_count (h : Ledger n task latch joiner continues) (hi : (task i).phase ≠ .fresh) : i < n := by
  have hfired := h.fired
  rw [Ne, h.fresh i] at hi
  omega

theorem sound_update (h : ∀ j, (task j).Sound) (ht : t.Sound) (j : Nat) : (Function.update task i t j).Sound := by
  by_cases hj : j = i
  · subst hj
    rwa [Function.update_self]
  · rw [Function.update_of_ne hj]
    exact h j

/-- A change that neither makes nor removes a given phase. -/
theorem phase_update {p : Phase} {P : Nat → Prop} (h : ∀ j, (task j).phase = p ↔ P j) (ht : t.phase = p ↔ P i) (j : Nat) :
    (Function.update task i t j).phase = p ↔ P j := by
  by_cases hj : j = i
  · subst hj
    rwa [Function.update_self]
  · rw [Function.update_of_ne hj]
    exact h j

/-- A task is resumed or suspends. -/
theorem Ledger.turn (h : Ledger n task latch joiner continues) (hold : (task i).phase = .running ∨ (task i).phase = .suspended)
    {p : Phase} (hp : p = .running ∨ p = .suspended) :
    Ledger n (Function.update task i { task i with phase := p }) latch joiner continues := by
  have hsound := h.sound i
  rw [TaskState.Sound] at hsound
  have ht : TaskState.Sound { task i with phase := p } := by
    rw [TaskState.Sound]
    rcases hold with hold | hold <;> rcases hp with rfl | rfl <;> rw [hold] at hsound <;> exact hsound
  have hfresh := h.fresh i
  have hdestroyed := h.destroyed i
  have hpending : pending n (Function.update task i { task i with phase := p }) = pending n task :=
    pending_update_same rfl
  refine ⟨sound_update h.sound ht, h.fired, phase_update h.fresh ?_, h.torn, phase_update h.destroyed ?_, ?_, h.waiter,
    h.continues, ?_, ?_⟩
  · rw [← hfresh]
    rcases hold with hold | hold <;> rcases hp with rfl | rfl <;> simp [hold]
  · rw [← hdestroyed]
    rcases hold with hold | hold <;> rcases hp with rfl | rfl <;> simp [hold]
  · rw [hpending]
    exact h.remaining
  · rw [hpending]
    exact h.complete
  · rw [hpending]
    exact h.outstanding

theorem base_ne_task (joiner : Joiner) (i : Nat) (below : List Act) : base joiner ≠ .task i :: below := by
  intro h
  rw [base] at h
  split_ifs at h <;> simp at h

/-- The task on top of the stack. -/
theorem Calls.top (h : Calls task joiner (.task i :: below)) : (task i).phase = .running ∧
    ∃ rest : List Nat, below = rest.map Act.task ++ base joiner ∧ rest.Nodup ∧
      ∀ j, j ∈ rest ↔ j ≠ i ∧ (task j).phase = .running := by
  obtain ⟨running, hstack, hnodup, hmem⟩ := h
  cases running with
  | nil => exact absurd hstack.symm (base_ne_task joiner i below)
  | cons i' rest =>
      rw [List.map_cons, List.cons_append, List.cons.injEq, Act.task.injEq] at hstack
      obtain ⟨rfl, hbelow⟩ := hstack
      obtain ⟨hnot, hnodup⟩ := List.nodup_cons.mp hnodup
      refine ⟨(hmem i).mp List.mem_cons_self, rest, hbelow, hnodup, fun j => ?_⟩
      rw [← hmem j, List.mem_cons]
      constructor
      · intro hj
        exact ⟨fun hji => hnot (hji ▸ hj), .inr hj⟩
      · rintro ⟨hji, hj⟩
        exact hj.resolve_left hji

/-- When the joiner is on top of the stack, no task runs. -/
theorem Calls.top_joiner (h : Calls task joiner (.joiner :: below)) :
    joiner.active = true ∧ below = [.outside] ∧ ∀ i, (task i).phase ≠ .running := by
  obtain ⟨running, hstack, -, hmem⟩ := h
  cases running with
  | nil =>
      rw [List.map_nil, List.nil_append, base] at hstack
      split_ifs at hstack with hactive
      · refine ⟨hactive, (List.cons.inj hstack).2, fun i hi => ?_⟩
        exact List.not_mem_nil ((hmem i).mpr hi)
      · cases hstack
  | cons i rest => cases hstack

theorem Calls.push (h : Calls task joiner stack) (hi : (task i).phase ≠ .running) (ht : t.phase = .running) :
    Calls (Function.update task i t) joiner (.task i :: stack) := by
  obtain ⟨running, rfl, hnodup, hmem⟩ := h
  refine ⟨i :: running, rfl, List.nodup_cons.mpr ⟨fun hrun => hi ((hmem i).mp hrun), hnodup⟩, fun j => ?_⟩
  rw [List.mem_cons]
  by_cases hj : j = i
  · subst hj
    rw [Function.update_self]
    simp [ht]
  · rw [Function.update_of_ne hj, hmem j]
    simp [hj]

theorem Calls.pop (h : Calls task joiner (.task i :: below)) (ht : t.phase ≠ .running) :
    Calls (Function.update task i t) joiner below := by
  obtain ⟨-, rest, rfl, hnodup, hmem⟩ := h.top
  refine ⟨rest, rfl, hnodup, fun j => ?_⟩
  rw [hmem j]
  by_cases hj : j = i
  · subst hj
    rw [Function.update_self]
    simp [ht]
  · rw [Function.update_of_ne hj]
    simp [hj]

theorem idle_update (h : ∀ j, (task j).phase ≠ .running) (ht : t.phase ≠ .running) (j : Nat) :
    (Function.update task i t j).phase ≠ .running := by
  by_cases hj : j = i
  · subst hj
    rwa [Function.update_self]
  · rw [Function.update_of_ne hj]
    exact h j

/-- The joiner moves on while no task runs. -/
theorem calls_of_idle (hidle : ∀ i, (task i).phase ≠ .running) (joiner : Joiner) : Calls task joiner (base joiner) :=
  ⟨[], rfl, List.nodup_nil, fun i => ⟨fun hi => absurd hi List.not_mem_nil, fun hi => absurd hi (hidle i)⟩⟩

/-! ### Arrivals -/

theorem arrive_last (hremaining : latch.remaining = 1) (hwaiter : latch.waiter = true) :
    latch.arrive = some (⟨0, false⟩, true) := by
  rw [Latch.arrive, if_pos (by omega), hremaining]
  exact if_pos ⟨rfl, hwaiter⟩

theorem arrive_other (hpos : 0 < latch.remaining) (h : ¬ (latch.remaining = 1 ∧ latch.waiter = true)) :
    latch.arrive = some ({ latch with remaining := latch.remaining - 1 }, false) := by
  rw [Latch.arrive, if_pos hpos]
  refine if_neg fun hlast => h ⟨?_, hlast.2⟩
  have hzero : latch.remaining - 1 = 0 := hlast.1
  omega

theorem Ledger.pending_of_running (h : Ledger n task latch joiner continues) (hi : (task i).phase = .running) :
    i ∈ pending n task := by
  have hsound := h.sound i
  rw [TaskState.Sound, hi] at hsound
  exact mem_pending.mpr ⟨h.lt_count (by rw [hi]; decide), hsound.2.1⟩

theorem Ledger.remaining_pos (h : Ledger n task latch joiner continues) (hi : (task i).phase = .running) :
    0 < latch.remaining := by
  rw [h.remaining]
  exact Finset.card_pos.mpr ⟨i, h.pending_of_running hi⟩

/-- The task that arrives. -/
def arrived (t : TaskState) : TaskState := { t with phase := .done, arrivals := t.arrivals + 1 }

/-- What an arrival does to all but the latch and the joiner. -/
theorem Ledger.arrived_parts (h : Ledger n task latch joiner continues) (hi : (task i).phase = .running) :
    (∀ j, (Function.update task i (arrived (task i)) j).Sound) ∧
      (∀ j, (Function.update task i (arrived (task i)) j).phase = .fresh ↔ joiner.fired n ≤ j) ∧
      (∀ j, (Function.update task i (arrived (task i)) j).phase = .destroyed ↔ j < joiner.torn n) ∧
      pending n (Function.update task i (arrived (task i))) = (pending n task).erase i ∧
      ((pending n task).erase i).card = latch.remaining - 1 := by
  have hsound := h.sound i
  rw [TaskState.Sound, hi] at hsound
  have hfresh := h.fresh i
  have hdestroyed := h.destroyed i
  rw [hi] at hfresh hdestroyed
  refine ⟨sound_update h.sound ⟨hsound.1, ?_, hsound.2.2⟩, phase_update h.fresh ?_, phase_update h.destroyed ?_,
    pending_update_arrived (Nat.succ_ne_zero _), ?_⟩
  · dsimp only [arrived]
    rw [hsound.2.1]
  · rw [← hfresh]
    simp [arrived]
  · rw [← hdestroyed]
    simp [arrived]
  · rw [Finset.card_erase_of_mem (h.pending_of_running hi), h.remaining]

theorem Ledger.arrive_last (h : Ledger n task latch joiner continues) (hi : (task i).phase = .running)
    (hremaining : latch.remaining = 1) (hwaiter : latch.waiter = true) :
    Ledger n (Function.update task i (arrived (task i))) ⟨0, false⟩ (.joined 0) (continues + 1) ∧
      ∀ j, (task j).phase = .running → j = i := by
  obtain ⟨hsound, hfresh, hdestroyed, hpending, hcard⟩ := h.arrived_parts hi
  obtain rfl := h.waiter.mp hwaiter
  have hnone : (pending n task).erase i = ∅ := Finset.card_eq_zero.mp (by omega)
  refine ⟨⟨hsound, le_rfl, hfresh, Nat.zero_le n, hdestroyed, ?_, ?_, ?_, fun _ => hpending.trans hnone, ?_⟩, ?_⟩
  · rw [hpending, hnone, Finset.card_empty]
  · exact ⟨fun hfalse => absurd hfalse Bool.false_ne_true, fun hparked => (by cases hparked)⟩
  · rw [h.continues]
    rfl
  · intro hparked
    cases hparked
  · intro j hj
    by_contra hji
    have hmem := Finset.mem_erase.mpr ⟨hji, h.pending_of_running hj⟩
    rw [hnone] at hmem
    exact absurd hmem (Finset.notMem_empty j)

theorem Ledger.arrive_other (h : Ledger n task latch joiner continues) (hi : (task i).phase = .running)
    (hother : ¬ (latch.remaining = 1 ∧ latch.waiter = true)) :
    Ledger n (Function.update task i (arrived (task i))) { latch with remaining := latch.remaining - 1 } joiner
      continues := by
  obtain ⟨hsound, hfresh, hdestroyed, hpending, hcard⟩ := h.arrived_parts hi
  have hpos := h.remaining_pos hi
  refine ⟨hsound, h.fired, hfresh, h.torn, hdestroyed, ?_, h.waiter, h.continues, fun hpast => ?_, fun hparked => ?_⟩
  · rw [hpending, hcard]
  · have hmem := h.pending_of_running hi
    rw [h.complete hpast] at hmem
    exact absurd hmem (Finset.notMem_empty i)
  · rw [hpending]
    have hne : latch.remaining ≠ 1 := fun hone => hother ⟨hone, h.waiter.mpr hparked⟩
    exact Finset.card_pos.mp (by omega)

/-! ### The joiner -/

/-- The next task is started. -/
theorem Ledger.fire (h : Ledger n task latch (.firing i) continues) (hi : i < n) :
    Ledger n (Function.update task i { task i with phase := .running, starts := (task i).starts + 1 }) latch
      (.firing (i + 1)) continues := by
  have hphase : (task i).phase = .fresh := (h.fresh i).mpr le_rfl
  have hsound := h.sound i
  rw [TaskState.Sound, hphase] at hsound
  have hpending : pending n (Function.update task i { task i with phase := .running, starts := (task i).starts + 1 })
      = pending n task := pending_update_same rfl
  refine ⟨sound_update h.sound ⟨by rw [hsound.1], hsound.2⟩, hi, fun j => ?_, Nat.zero_le n, fun j => ?_, ?_, ?_,
    h.continues, fun hpast => (by cases hpast), fun hparked => (by cases hparked)⟩
  · by_cases hj : j = i
    · subst hj
      rw [Function.update_self]
      simp [Joiner.fired]
    · rw [Function.update_of_ne hj, h.fresh j, Joiner.fired, Joiner.fired]
      omega
  · by_cases hj : j = i
    · subst hj
      rw [Function.update_self]
      simp [Joiner.torn]
    · rw [Function.update_of_ne hj]
      exact h.destroyed j
  · rw [hpending]
    exact h.remaining
  · rw [h.waiter]
    exact ⟨fun hparked => (by cases hparked), fun hparked => (by cases hparked)⟩

/-- Behind the loop. -/
theorem Ledger.park (h : Ledger n task latch (.firing n) continues) (hremaining : 0 < latch.remaining) :
    Ledger n task { latch with waiter := true } .parked continues := by
  refine ⟨h.sound, le_rfl, h.fresh, Nat.zero_le n, h.destroyed, h.remaining, ⟨fun _ => rfl, fun _ => rfl⟩, h.continues,
    fun hpast => (by cases hpast), fun _ => ?_⟩
  rw [h.remaining] at hremaining
  exact Finset.card_pos.mp hremaining

theorem Ledger.pass (h : Ledger n task latch (.firing n) continues) (hremaining : ¬ 0 < latch.remaining) :
    Ledger n task latch (.joined 0) (continues + 1) := by
  refine ⟨h.sound, le_rfl, h.fresh, Nat.zero_le n, h.destroyed, h.remaining, ?_, ?_, fun _ => ?_,
    fun hparked => (by cases hparked)⟩
  · rw [h.waiter]
    exact ⟨fun hparked => (by cases hparked), fun hparked => (by cases hparked)⟩
  · rw [h.continues]
    rfl
  · rw [h.remaining] at hremaining
    exact Finset.card_eq_zero.mp (by omega)

/-- The guard's loop ends. -/
theorem Ledger.leave (h : Ledger n task latch joiner continues) {joiner' : Joiner} (hfired : joiner'.fired n = joiner.fired n)
    (htorn : joiner'.torn n = joiner.torn n) (hpast : joiner'.past = joiner.past) (hparked : joiner ≠ .parked)
    (hparked' : joiner' ≠ .parked) : Ledger n task latch joiner' continues := by
  refine ⟨h.sound, hfired ▸ h.fired, fun i => hfired ▸ h.fresh i, htorn ▸ h.torn, fun i => htorn ▸ h.destroyed i,
    h.remaining, ?_, hpast ▸ h.continues, hpast ▸ h.complete, fun hp => absurd hp hparked'⟩
  rw [h.waiter]
  exact ⟨fun hp => absurd hp hparked, fun hp => absurd hp hparked'⟩

def tornDown (t : TaskState) : TaskState := { t with phase := .destroyed, destructions := t.destructions + 1 }

/-- The frames of a task that is not running are destroyed. -/
theorem Ledger.tear (h : Ledger n task latch joiner continues) (joiner' : Joiner) (hk : joiner.torn n = k)
    (hfired : joiner.fired n = n) (hkn : k < n) (hidle : (task k).phase ≠ .running) (hfired' : joiner'.fired n = n)
    (htorn' : joiner'.torn n = k + 1) (hpast : joiner'.past = joiner.past) (hparked : joiner ≠ .parked)
    (hparked' : joiner' ≠ .parked) :
    ((task k).phase = .suspended ∨ (task k).phase = .done) ∧
      Ledger n (Function.update task k (tornDown (task k))) latch joiner' continues := by
  have hfresh := h.fresh k
  have hdestroyed := h.destroyed k
  rw [hfired] at hfresh
  rw [hk] at hdestroyed
  have hphase : (task k).phase = .suspended ∨ (task k).phase = .done := by
    cases hp : (task k).phase with
    | fresh => exact absurd (hfresh.mp hp) (by omega)
    | running => exact absurd hp hidle
    | suspended => exact .inl rfl
    | done => exact .inr rfl
    | destroyed => exact absurd (hdestroyed.mp hp) (by omega)
  have hsound := h.sound k
  rw [TaskState.Sound] at hsound
  have ht : (tornDown (task k)).Sound := by
    rcases hphase with hp | hp <;> rw [hp] at hsound <;> dsimp only at hsound
    · exact ⟨hsound.1, hsound.2.1.trans_le (Nat.zero_le 1), by dsimp only [tornDown]; omega⟩
    · exact ⟨hsound.1, hsound.2.1.le, by dsimp only [tornDown]; omega⟩
  have hpending : pending n (Function.update task k (tornDown (task k))) = pending n task := pending_update_same rfl
  refine ⟨hphase, sound_update h.sound ht, hfired'.le, fun j => ?_, by omega, fun j => ?_, ?_, ?_, ?_, ?_,
    fun hp => absurd hp hparked'⟩
  · rw [hfired']
    by_cases hj : j = k
    · subst hj
      rw [Function.update_self]
      simp [tornDown, hkn]
    · rw [Function.update_of_ne hj, h.fresh j, hfired]
  · rw [htorn']
    by_cases hj : j = k
    · subst hj
      rw [Function.update_self]
      simp [tornDown]
    · rw [Function.update_of_ne hj, h.destroyed j, hk]
      omega
  · rw [hpending]
    exact h.remaining
  · rw [h.waiter]
    exact ⟨fun hp => absurd hp hparked, fun hp => absurd hp hparked'⟩
  · rw [hpast]
    exact h.continues
  · rw [hpast, hpending]
    exact h.complete

end

/-! ### Steps -/

section

variable {n i k : Nat} {task : Nat → TaskState} {latch : Latch} {joiner : Joiner} {continues : Nat} {s s' : State}
  {below : List Act} {l : Label}

theorem Calls.idle (h : Calls task joiner (base joiner)) (i : Nat) : (task i).phase ≠ .running := by
  obtain ⟨running, hstack, -, hmem⟩ := h
  have hnil : running = [] := by
    have hlen := congrArg List.length hstack
    rw [List.length_append, List.length_map] at hlen
    exact List.eq_nil_of_length_eq_zero (by omega)
  intro hi
  rw [← hmem i, hnil] at hi
  exact List.not_mem_nil hi

theorem inv_start (n : Nat) : Inv n (start n) := by
  have hpending : pending n (fun _ => freshTask) = Finset.range n := Finset.filter_true_of_mem fun _ _ => rfl
  have hcalls : ∀ joiner, Calls (fun _ => freshTask) joiner (base joiner) :=
    fun joiner => calls_of_idle (fun _ h => by cases h) joiner
  rcases Nat.eq_zero_or_pos n with rfl | hpos
  · refine ⟨rfl, ⟨fun _ => ⟨rfl, rfl, rfl⟩, le_rfl, fun i => ⟨fun _ => Nat.zero_le i, fun _ => rfl⟩, le_rfl, fun i => ?_,
      rfl, ?_, rfl, fun _ => hpending, fun h => (by cases h)⟩, hcalls (.joined 0)⟩
    · exact ⟨fun h => (by cases h), fun h => absurd h (Nat.not_lt_zero i)⟩
    · exact ⟨fun h => (by cases h), fun h => (by cases h)⟩
  · have hjoiner : (start n).joiner = .firing 0 := if_neg (by omega)
    have hcontinues : (start n).continues = 0 := if_neg (by omega)
    refine ⟨rfl, ?_, ?_⟩
    · rw [hjoiner, hcontinues]
      refine ⟨fun _ => ⟨rfl, rfl, rfl⟩, Nat.zero_le n, fun i => ⟨fun _ => Nat.zero_le i, fun _ => rfl⟩, Nat.zero_le n,
        fun i => ?_, ?_, ?_, rfl, fun h => (by cases h), fun h => (by cases h)⟩
      · exact ⟨fun h => (by cases h), fun h => absurd h (Nat.not_lt_zero i)⟩
      · exact (congrArg Finset.card hpending).trans (Finset.card_range n) |>.symm
      · exact ⟨fun h => (by cases h), fun h => (by cases h)⟩
    · rw [hjoiner]
      exact hcalls (.firing 0)

theorem destroyRunner_eq (h : (s.task k).phase = .suspended ∨ (s.task k).phase = .done) :
    destroyRunner s k = some (s.setTask k (tornDown (s.task k))) := by
  rw [destroyRunner]
  rcases h with h | h <;> rw [h] <;> rfl

/-- What stands below the joiner is the code outside, and the joiner's next statement is defined. -/
theorem Inv.advance (h : Inv n s) (hstack : s.stack = .joiner :: below) :
    ∃ s', advance s below = some s' ∧ Inv n s' := by
  obtain ⟨hcount, hledger, hcalls⟩ := h
  rw [hstack] at hcalls
  obtain ⟨hactive, rfl, hidle⟩ := hcalls.top_joiner
  rw [WhenAll.advance]
  cases hjoiner : s.joiner with
  | parked => rw [hjoiner] at hactive; cases hactive
  | returned => rw [hjoiner] at hactive; cases hactive
  | gone => rw [hjoiner] at hactive; cases hactive
  | firing i =>
      rw [hjoiner] at hledger hcalls
      dsimp only
      by_cases hi : i < s.count
      · rw [if_pos hi]
        refine ⟨_, rfl, hcount, hledger.fire (hcount ▸ hi), ?_⟩
        have hpush := hcalls.push (i := i) (t := { s.task i with phase := .running, starts := (s.task i).starts + 1 })
          (hidle i) rfl
        rw [← hstack] at hpush
        exact hpush
      · rw [if_neg hi]
        obtain rfl : i = n := by
          have hfired : i ≤ n := hledger.fired
          omega
        rw [awaitLatch]
        by_cases hremaining : 0 < s.latch.remaining
        · rw [if_pos hremaining]
          exact ⟨_, rfl, hcount, hledger.park hremaining, calls_of_idle hidle .parked⟩
        · rw [if_neg hremaining]
          refine ⟨_, rfl, hcount, hledger.pass hremaining, ?_⟩
          rw [hstack]
          exact calls_of_idle hidle (.joined 0)
  | joined k =>
      rw [hjoiner] at hledger
      dsimp only
      by_cases hk : k < s.count
      · obtain ⟨hphase, htear⟩ := hledger.tear (k := k) (.joined (k + 1)) rfl rfl (hcount ▸ hk) (hidle k)
          rfl rfl rfl (fun h => by cases h) (fun h => by cases h)
        rw [if_pos hk, destroyRunner_eq hphase]
        refine ⟨_, rfl, hcount, htear, ?_⟩
        rw [show (s.setTask k (tornDown (s.task k))).stack = s.stack from rfl, hstack]
        exact calls_of_idle (idle_update hidle Phase.noConfusion) (.joined (k + 1))
      · rw [if_neg hk]
        obtain rfl : k = n := by
          have htorn : k ≤ n := hledger.torn
          omega
        exact ⟨_, rfl, hcount, hledger.leave rfl rfl rfl (fun h => by cases h) (fun h => by cases h),
          calls_of_idle hidle .returned⟩
  | cancelled k =>
      rw [hjoiner] at hledger
      dsimp only
      by_cases hk : k < s.count
      · obtain ⟨hphase, htear⟩ := hledger.tear (k := k) (.cancelled (k + 1)) rfl rfl (hcount ▸ hk) (hidle k)
          rfl rfl rfl (fun h => by cases h) (fun h => by cases h)
        rw [if_pos hk, destroyRunner_eq hphase]
        refine ⟨_, rfl, hcount, htear, ?_⟩
        rw [show (s.setTask k (tornDown (s.task k))).stack = s.stack from rfl, hstack]
        exact calls_of_idle (idle_update hidle Phase.noConfusion) (.cancelled (k + 1))
      · rw [if_neg hk]
        obtain rfl : k = n := by
          have htorn : k ≤ n := hledger.torn
          omega
        exact ⟨_, rfl, hcount, hledger.leave rfl rfl rfl (fun h => by cases h) (fun h => by cases h),
          calls_of_idle hidle .gone⟩

/-- The task on top of the stack can end at any time: the latch expects its arrival. -/
theorem Inv.finish (h : Inv n s) (hstack : s.stack = .task i :: below) (threw : Bool) :
    ∃ s', finish s i below threw = some s' ∧ Inv n s' := by
  obtain ⟨hcount, hledger, hcalls⟩ := h
  rw [hstack] at hcalls
  obtain ⟨hphase, rest, hbelow, -, hmem⟩ := hcalls.top
  rw [WhenAll.finish]
  by_cases hlast : s.latch.remaining = 1 ∧ s.latch.waiter = true
  · obtain ⟨hjoined, honly⟩ := hledger.arrive_last hphase hlast.1 hlast.2
    rw [arrive_last hlast.1 hlast.2]
    refine ⟨_, rfl, hcount, hjoined, ?_⟩
    have hrest : rest = [] := by
      refine List.eq_nil_iff_forall_not_mem.mpr fun j hj => ?_
      obtain ⟨hji, hrun⟩ := (hmem j).mp hj
      exact hji (honly j hrun)
    rw [hrest, hledger.waiter.mp hlast.2] at hbelow
    have hidle : ∀ j, (Function.update s.task i (arrived (s.task i)) j).phase ≠ .running := by
      intro j hj
      by_cases hji : j = i
      · rw [hji, Function.update_self] at hj
        cases hj
      · rw [Function.update_of_ne hji] at hj
        exact hji (honly j hj)
    rw [hbelow]
    exact calls_of_idle hidle (.joined 0)
  · rw [arrive_other (hledger.remaining_pos hphase) hlast]
    exact ⟨_, rfl, hcount, hledger.arrive_other hphase hlast, hcalls.pop Phase.noConfusion⟩

/-- The joiner is destroyed while it is suspended: the latch loses its waiter first. -/
theorem Ledger.cancel (h : Ledger n task latch .parked continues) :
    Ledger n task { latch with waiter := false } (.cancelled 0) continues := by
  refine ⟨h.sound, h.fired, h.fresh, h.torn, h.destroyed, h.remaining, ?_, h.continues, fun hpast => (by cases hpast),
    fun hparked => (by cases hparked)⟩
  exact ⟨fun hwaiter => (by cases hwaiter), fun hparked => (by cases hparked)⟩

theorem Inv.step (h : Inv n s) (hstep : step s l = some s') : Inv n s' := by
  cases l with
  | advance =>
      rw [WhenAll.step] at hstep
      split at hstep
      case h_1 below hstack =>
          obtain ⟨s₁, hs₁, h'⟩ := h.advance hstack
          rw [hs₁] at hstep
          cases hstep
          exact h'
      case h_2 => cases hstep
  | resume i =>
      rw [WhenAll.step] at hstep
      split_ifs at hstep with hphase
      cases hstep
      have hidle : (s.task i).phase ≠ .running := by rw [hphase]; decide
      exact ⟨h.count, h.ledger.turn (.inr hphase) (.inl rfl), h.calls.push hidle rfl⟩
  | suspend =>
      rw [WhenAll.step] at hstep
      split at hstep
      case h_1 i below hstack =>
          cases hstep
          have hcalls := h.calls
          rw [hstack] at hcalls
          exact ⟨h.count, h.ledger.turn (.inl hcalls.top.1) (.inr rfl), hcalls.pop Phase.noConfusion⟩
      case h_2 => cases hstep
  | finish threw =>
      rw [WhenAll.step] at hstep
      split at hstep
      case h_1 i below hstack =>
          obtain ⟨s₁, hs₁, h'⟩ := h.finish hstack threw
          rw [hs₁] at hstep
          cases hstep
          exact h'
      case h_2 => cases hstep
  | destroy =>
      rw [WhenAll.step] at hstep
      split at hstep
      case h_1 hjoiner hstack =>
          cases hstep
          have hledger := h.ledger
          have hcalls := h.calls
          rw [hjoiner] at hledger hcalls
          rw [hstack] at hcalls
          exact ⟨h.count, hledger.cancel, calls_of_idle hcalls.idle (.cancelled 0)⟩
      case h_2 => cases hstep

/-! ### What every state shows -/

/-- A joiner past the join stays past it, and one that is being destroyed goes on being destroyed. -/
theorem Inv.joiner_step (h : Inv n s) (hstep : WhenAll.step s l = some s') :
    (s.joiner.past = true → s'.joiner.past = true) ∧ (s.joiner.cut = true → s'.joiner.cut = true) := by
  cases l with
  | advance =>
      rw [WhenAll.step] at hstep
      split at hstep
      case h_2 => cases hstep
      case h_1 below hstack =>
          rw [WhenAll.advance] at hstep
          cases hjoiner : s.joiner with
          | parked => rw [hjoiner] at hstep; cases hstep
          | returned => rw [hjoiner] at hstep; cases hstep
          | gone => rw [hjoiner] at hstep; cases hstep
          | firing j => exact ⟨fun hpast => (by cases hpast), fun hcut => (by cases hcut)⟩
          | joined k =>
              rw [hjoiner] at hstep
              dsimp only at hstep
              refine ⟨fun _ => ?_, fun hcut => (by cases hcut)⟩
              split_ifs at hstep
              · obtain ⟨s₁, -, rfl⟩ := Option.map_eq_some_iff.mp hstep
                rfl
              · cases hstep
                rfl
          | cancelled k =>
              rw [hjoiner] at hstep
              dsimp only at hstep
              refine ⟨fun hpast => (by cases hpast), fun _ => ?_⟩
              split_ifs at hstep
              · obtain ⟨s₁, -, rfl⟩ := Option.map_eq_some_iff.mp hstep
                rfl
              · cases hstep
                rfl
  | resume j =>
      rw [WhenAll.step] at hstep
      split_ifs at hstep
      cases hstep
      exact ⟨id, id⟩
  | suspend =>
      rw [WhenAll.step] at hstep
      split at hstep
      case h_1 => cases hstep; exact ⟨id, id⟩
      case h_2 => cases hstep
  | finish threw =>
      rw [WhenAll.step] at hstep
      split at hstep
      case h_2 => cases hstep
      case h_1 i below hstack =>
          rw [WhenAll.finish] at hstep
          obtain ⟨⟨latch, wakes⟩, harrive, rfl⟩ := Option.map_eq_some_iff.mp hstep
          cases wakes with
          | false => exact ⟨id, id⟩
          | true =>
              -- only a joiner that is suspended at the latch is its waiter
              have hwaiter : s.latch.waiter = true := by
                by_contra hno
                rcases Nat.eq_zero_or_pos s.latch.remaining with hzero | hpos
                · rw [Latch.arrive, if_neg (by omega)] at harrive
                  cases harrive
                · rw [arrive_other hpos fun hlast => hno hlast.2] at harrive
                  cases harrive
              rw [h.ledger.waiter.mp hwaiter]
              exact ⟨fun hpast => (by cases hpast), fun hcut => (by cases hcut)⟩
  | destroy =>
      rw [WhenAll.step] at hstep
      split at hstep
      case h_2 => cases hstep
      case h_1 hjoiner hstack =>
          rw [hjoiner]
          exact ⟨fun hpast => (by cases hpast), fun hcut => (by cases hcut)⟩

theorem Ledger.past_iff (h : Ledger n task latch joiner continues) : continues = 1 ↔ joiner.past = true := by
  rw [h.continues]
  cases joiner.past with
  | true => exact ⟨fun _ => rfl, fun _ => rfl⟩
  | false => exact ⟨fun hzero => (by cases hzero), fun hpast => (by cases hpast)⟩

/-- Past the join every task has arrived, once. -/
theorem Ledger.arrivals_past (h : Ledger n task latch joiner continues) (hpast : joiner.past = true) (i : Nat) :
    (task i).arrivals = if i < n then 1 else 0 := by
  have hsound := h.sound i
  have hfresh := h.fresh i
  have hfired : joiner.fired n = n := by
    cases joiner with
    | firing j => cases hpast
    | _ => rfl
  rw [hfired] at hfresh
  rw [TaskState.Sound] at hsound
  split_ifs with hi
  · have hnot : i ∉ pending n task := by
      rw [h.complete hpast]
      exact Finset.notMem_empty i
    rw [mem_pending] at hnot
    cases hphase : (task i).phase <;> rw [hphase] at hsound <;> dsimp only at hsound <;> omega
  · rw [hfresh.mpr (Nat.le_of_not_lt hi)] at hsound
    exact hsound.2.1

/-- What `when_all` keeps to in every state. -/
structure Joins (n : Nat) (s : State) : Prop where
  /-- No task is started twice, -/
  startedOnce : ∀ i, (s.task i).starts ≤ 1
  /-- and behind the loop each has been started. -/
  startedAll : (∀ i, s.joiner ≠ .firing i) → ∀ i < n, (s.task i).starts = 1
  continuesOnce : s.continues ≤ 1
  continuesLast : s.continues = 1 → ∀ i < n, (s.task i).arrivals = 1
  noneAfter : s.continues = 1 → ∀ l s', step s l = some s' → ∀ i, (s'.task i).arrivals = (s.task i).arrivals
  /-- The latch expects every arrival: its assertion holds, -/
  arrives : ∀ i below threw, s.stack = .task i :: below → (step s (.finish threw)).isSome = true
  /-- and the joiner never gets stuck: it destroys no frame that runs or is gone. -/
  advances : ∀ below, s.stack = .joiner :: below → (step s .advance).isSome = true
  /-- When control is back outside, the joiner waits for a task that is suspended, or has returned, or was destroyed. -/
  outside : s.stack = [.outside] → (s.joiner = .parked ∧ ∃ i < n, (s.task i).phase = .suspended) ∨
    (s.joiner = .returned ∧ s.continues = 1) ∨ s.joiner = .gone
  destroyedOnce : ∀ i, (s.task i).destructions ≤ 1
  destroyedAll : s.joiner = .returned ∨ s.joiner = .gone → ∀ i < n, (s.task i).destructions = 1
  /-- A joiner that is destroyed has not continued and never does. -/
  neverResumed : s.joiner.cut = true → s.continues = 0 ∧ ∀ l s', step s l = some s' → s'.joiner.cut = true

/-- Control outside: nothing of the batch is on the stack. -/
theorem Inv.outside (h : Inv n s) (hstack : s.stack = [.outside]) : s.joiner.active = false ∧
    ∀ i, (s.task i).phase ≠ .running := by
  obtain ⟨running, hrunning, -, hmem⟩ := h.calls
  rw [hstack] at hrunning
  cases running with
  | nil =>
      rw [List.map_nil, List.nil_append, base] at hrunning
      split_ifs at hrunning with hactive
      · cases hrunning
      · exact ⟨Bool.eq_false_iff.mpr hactive, fun i hi => List.not_mem_nil ((hmem i).mpr hi)⟩
  | cons i rest => cases hrunning

theorem Inv.joins (h : Inv n s) : Joins n s := by
  have hledger := h.ledger
  constructor
  · intro i
    have hsound := hledger.sound i
    rw [TaskState.Sound] at hsound
    cases hphase : (s.task i).phase <;> rw [hphase] at hsound <;> dsimp only at hsound <;> omega
  · intro hloop i hi
    have hsound := hledger.sound i
    have hfresh := hledger.fresh i
    have hfired : s.joiner.fired n = n := by
      cases hjoiner : s.joiner with
      | firing j => exact absurd hjoiner (hloop j)
      | _ => rfl
    rw [hfired] at hfresh
    rw [TaskState.Sound] at hsound
    cases hphase : (s.task i).phase with
    | fresh => exact absurd (hfresh.mp hphase) (by omega)
    | _ => rw [hphase] at hsound; exact hsound.1
  · rw [hledger.continues]
    split_ifs <;> omega
  · intro hcontinues i hi
    rw [hledger.arrivals_past (hledger.past_iff.mp hcontinues) i, if_pos hi]
  · intro hcontinues l s' hstep i
    have hpast := hledger.past_iff.mp hcontinues
    rw [hledger.arrivals_past hpast i, (h.step hstep).ledger.arrivals_past ((h.joiner_step hstep).1 hpast) i]
  · intro i below threw hstack
    obtain ⟨s', hs', -⟩ := h.finish hstack threw
    rw [WhenAll.step, hstack]
    dsimp only
    rw [hs']
    rfl
  · intro below hstack
    obtain ⟨s', hs', -⟩ := h.advance hstack
    rw [WhenAll.step, hstack]
    dsimp only
    rw [hs']
    rfl
  · intro hstack
    obtain ⟨hactive, hidle⟩ := h.outside hstack
    cases hjoiner : s.joiner with
    | firing i => rw [hjoiner] at hactive; cases hactive
    | joined k => rw [hjoiner] at hactive; cases hactive
    | cancelled k => rw [hjoiner] at hactive; cases hactive
    | returned => exact .inr (.inl ⟨rfl, hledger.past_iff.mpr (by rw [hjoiner]; rfl)⟩)
    | gone => exact .inr (.inr rfl)
    | parked =>
        obtain ⟨i, hi⟩ := hledger.outstanding hjoiner
        obtain ⟨hin, harrivals⟩ := mem_pending.mp hi
        have hsound := hledger.sound i
        have hfresh := hledger.fresh i
        have hdestroyed := hledger.destroyed i
        rw [hjoiner] at hfresh hdestroyed
        rw [TaskState.Sound] at hsound
        refine .inl ⟨rfl, i, hin, ?_⟩
        cases hphase : (s.task i).phase with
        | fresh => exact absurd (hfresh.mp hphase) (Nat.not_le_of_lt hin)
        | running => exact absurd hphase (hidle i)
        | suspended => rfl
        | done => rw [hphase] at hsound; dsimp only at hsound; omega
        | destroyed => exact absurd (hdestroyed.mp hphase) (Nat.not_lt_zero i)
  · intro i
    have hsound := hledger.sound i
    rw [TaskState.Sound] at hsound
    cases hphase : (s.task i).phase <;> rw [hphase] at hsound <;> dsimp only at hsound <;> omega
  · intro hend i hi
    have hsound := hledger.sound i
    have htorn : s.joiner.torn n = n := by
      rcases hend with hend | hend <;> rw [hend] <;> rfl
    have hphase : (s.task i).phase = .destroyed := (hledger.destroyed i).mpr (by rwa [htorn])
    rw [TaskState.Sound, hphase] at hsound
    exact hsound.2.2
  · intro hcut
    refine ⟨?_, fun l s' hstep => (h.joiner_step hstep).2 hcut⟩
    rw [hledger.continues]
    cases hjoiner : s.joiner with
    | cancelled k => rfl
    | gone => rfl
    | _ => rw [hjoiner] at hcut; cases hcut

end

/-- Whatever the tasks of a batch do, in whatever order, and wherever the joiner is destroyed while it is suspended. -/
theorem whenAll_joins (n : Nat) (labels : List Label) (s : State)
    (hrun : Run step (fun _ _ => True) (start n) labels s) : Joins n s := by
  have h : Inv n s := hrun.invariant (fun s l s' h _ hstep => Inv.step h hstep) (inv_start n)
  exact h.joins

/-- The second task resumes the first, which throws; then the second is the last to arrive. -/
theorem whenAll_joins_nested : ∃ s : State, Joins 2 s ∧ s.joiner = .returned ∧ s.continues = 1 := by
  have hend : ((runAll step (fun _ _ => true) (start 2)
      [.advance, .suspend, .advance, .suspend, .advance, .resume 1, .resume 0, .finish true, .finish false, .advance,
        .advance, .advance]).map fun s => decide (s.joiner = .returned ∧ s.continues = 1)) = some true := by
    decide
  obtain ⟨s, hs, hend⟩ := Option.map_eq_some_iff.mp hend
  exact ⟨s, whenAll_joins 2 _ s ((Run.of_runAll hs).mono fun _ _ _ => trivial), of_decide_eq_true hend⟩

end Plexdb.WhenAll
