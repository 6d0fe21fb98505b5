import Mathlib
import Plexdb.BoundedFifo
import Plexdb.Runs

/-! The single-producer single-consumer queue of `core/shard/spsc.cppm`, with the loads and the stores of the
producer and of the consumer as the steps. The steps of the two are interleaved in any order. -/

namespace Plexdb

structure SpscQueue (T : Type) (capacity : UInt64) where
  head : UInt64 := 0
  tail : UInt64 := 0
  buffer : Vector T capacity.toNat

namespace SpscQueue

variable {T : Type} {capacity : UInt64}

/-- The assertion on the capacity. -/
def Admits (capacity : UInt64) : Prop := capacity &&& (capacity - 1) = 0

instance : Decidable (Admits capacity) := inferInstanceAs (Decidable (_ = _))

def mask (capacity : UInt64) : UInt64 := capacity - 1

def store (q : SpscQueue T capacity) (position : UInt64) (value : T) : Option (SpscQueue T capacity) :=
  let i := (position &&& mask capacity).toNat
  if h : i < capacity.toNat then some { q with buffer := q.buffer.set i value h } else none

def load (q : SpscQueue T capacity) (position : UInt64) : Option T :=
  q.buffer[(position &&& mask capacity).toNat]?

/-- Where the producer stands in `try_push`. -/
inductive Producer (T : Type) where
  | idle
  | loadedHead (value : T) (h : UInt64)
  | hasRoom (value : T) (h : UInt64)
  | wrote (value : T) (h : UInt64)

/-- Where the consumer stands in `try_pop`. -/
inductive Consumer (T : Type) where
  | idle
  | loadedTail (t : UInt64)
  | hasValue (t : UInt64)
  | read (t : UInt64) (out : T)

structure State (T : Type) (capacity : UInt64) where
  queue : SpscQueue T capacity
  producer : Producer T := .idle
  consumer : Consumer T := .idle
  /-- What the calls returned; a push and a pop stand where their store to the counter does. -/
  log : List (Outcome T) := []

/-- Who takes the next step. -/
inductive Turn (T : Type) where
  | push (value : T)
  | produce
  | consume

namespace State

/-- A call of `try_push` loads `head`. -/
def push (s : State T capacity) (value : T) : Option (State T capacity) :=
  match s.producer with
  | .idle => some { s with producer := .loadedHead value s.queue.head }
  | _ => none

def produce (s : State T capacity) : Option (State T capacity) :=
  match s.producer with
  | .idle => none
  | .loadedHead value h =>
      let t := s.queue.tail
      if h - t ≥ capacity then some { s with producer := .idle, log := s.log ++ [.full] }
      else some { s with producer := .hasRoom value h }
  | .hasRoom value h => (s.queue.store h value).map fun queue => { s with queue, producer := .wrote value h }
  | .wrote value h =>
      some { s with
        queue := { s.queue with head := h + 1 }
        producer := .idle
        log := s.log ++ [.pushed value] }

def consume (s : State T capacity) : Option (State T capacity) :=
  match s.consumer with
  | .idle => some { s with consumer := .loadedTail s.queue.tail }
  | .loadedTail t =>
      let h := s.queue.head
      if t = h then some { s with consumer := .idle, log := s.log ++ [.empty] }
      else some { s with consumer := .hasValue t }
  | .hasValue t => (s.queue.load t).map fun out => { s with consumer := .read t out }
  | .read t out =>
      some { s with
        queue := { s.queue with tail := t + 1 }
        consumer := .idle
        log := s.log ++ [.popped out] }

def step (s : State T capacity) : Turn T → Option (State T capacity)
  | .push value => s.push value
  | .produce => s.produce
  | .consume => s.consume

end State

/-- The run of any turns from an empty queue, whose buffer holds whatever it holds. -/
def Runs (buffer : Vector T capacity.toNat) (turns : List (Turn T)) (s : State T capacity) : Prop :=
  Run State.step (fun _ _ => True) { queue := { buffer } } turns s

/-! ### Positions -/

/-- A position is masked to its remainder: the capacity is zero or a power of two. -/
theorem Admits.masked (hadmits : Admits capacity) (hpos : 0 < capacity.toNat) (k : ℕ) :
    (UInt64.ofNat k &&& mask capacity).toNat = k % capacity.toNat := by
  have hmask : (mask capacity).toNat = capacity.toNat - 1 := UInt64.toNat_sub_of_le capacity 1 hpos
  have hand : capacity.toNat &&& (capacity.toNat - 1) = 0 := by
    rw [← hmask, ← UInt64.toNat_and]
    exact congrArg UInt64.toNat hadmits
  obtain ⟨j, hj⟩ := (Nat.and_sub_one_eq_zero_iff_isPowerOfTwo hpos.ne').mp hand
  have hlt : 2 ^ j < 2 ^ 64 := hj ▸ capacity.toNat_lt
  have hdvd : 2 ^ j ∣ 2 ^ 64 := pow_dvd_pow 2 ((Nat.pow_lt_pow_iff_right (by norm_num)).mp hlt).le
  rw [UInt64.toNat_and, hmask, hj, Nat.and_two_pow_sub_one_eq_mod, UInt64.toNat_ofNat', Nat.mod_mod_of_dvd k hdvd]

/-- The difference of the counters counts the values held, also after they have wrapped around. -/
theorem counter_sub (c n : ℕ) : UInt64.ofNat (c + n) - UInt64.ofNat c = UInt64.ofNat n := by
  rw [Nat.add_comm c n, UInt64.ofNat_add, UInt64.add_sub_cancel]

theorem counter_eq_iff {c n : ℕ} (hn : n < 2 ^ 64) : UInt64.ofNat c = UInt64.ofNat (c + n) ↔ n = 0 := by
  constructor
  · intro h
    have hsub := counter_sub c n
    rw [← h, UInt64.sub_self] at hsub
    have hzero := congrArg UInt64.toNat hsub
    rw [UInt64.toNat_ofNat_of_lt' hn] at hzero
    exact hzero.symm
  · rintro rfl
    rfl

/-! ### What the counters and the buffer hold -/

open Outcome BoundedFifo

def Producer.Stands (q : SpscQueue T capacity) (log : List (Outcome T)) (content : List T) : Producer T → Prop
  | .idle => True
  | .loadedHead _ h => h = q.head
  | .hasRoom _ h => h = q.head ∧ content.length < capacity.toNat
  | .wrote value h => h = q.head ∧ content.length < capacity.toNat ∧
      q.buffer[(pushes log).length % capacity.toNat]? = some value

def Consumer.Stands (q : SpscQueue T capacity) (content : List T) : Consumer T → Prop
  | .idle => True
  | .loadedTail t => t = q.tail
  | .hasValue t => t = q.tail ∧ content ≠ []
  | .read t out => t = q.tail ∧ content.head? = some out

/-- A push in between leaves the consumer's value at the front. -/
theorem Consumer.Stands.pushed {q q' : SpscQueue T capacity} {content : List T} {c : Consumer T}
    (h : c.Stands q content) (htail : q'.tail = q.tail) (value : T) : c.Stands q' (content ++ [value]) := by
  cases c with
  | idle => trivial
  | loadedTail t => exact h.trans htail.symm
  | hasValue t => exact ⟨h.1.trans htail.symm, List.append_ne_nil_of_left_ne_nil h.2 [value]⟩
  | read t out =>
      refine ⟨h.1.trans htail.symm, ?_⟩
      rw [List.head?_append, h.2]
      rfl

/-- A pop in between leaves the producer its room. -/
theorem Producer.Stands.popped {q q' : SpscQueue T capacity} {log : List (Outcome T)} {out : T} {rest : List T}
    {p : Producer T} (h : p.Stands q log (out :: rest)) (hhead : q'.head = q.head) (hbuffer : q'.buffer = q.buffer) :
    p.Stands q' (log ++ [.popped out]) rest := by
  cases p with
  | idle => trivial
  | loadedHead value hd => exact h.trans hhead.symm
  | hasRoom value hd => exact ⟨h.1.trans hhead.symm, (Nat.lt_succ_self _).trans h.2⟩
  | wrote value hd =>
      refine ⟨h.1.trans hhead.symm, (Nat.lt_succ_self _).trans h.2.1, ?_⟩
      have hlog : pushes (log ++ [.popped out]) = pushes log := by simp [pushes]
      rw [hbuffer, hlog]
      exact h.2.2

theorem Producer.Stands.log {q : SpscQueue T capacity} {log log' : List (Outcome T)} {content : List T}
    {p : Producer T} (h : p.Stands q log content) (hlog : pushes log' = pushes log) : p.Stands q log' content := by
  cases p with
  | idle => trivial
  | loadedHead value hd => exact h
  | hasRoom value hd => exact h
  | wrote value hd =>
      rw [Stands, hlog]
      exact h

/-- The queue holds `content`: the log leads to it, the counters count the pushes and the pops of the log, and the
values stand in the buffer from the position of the tail on. -/
structure Holds (s : State T capacity) (content : List T) : Prop where
  accepted : Accepts capacity.toNat s.log content
  head_eq : s.queue.head = UInt64.ofNat (pushes s.log).length
  tail_eq : s.queue.tail = UInt64.ofNat (pops s.log).length
  slot : ∀ i (hi : i < content.length),
    s.queue.buffer[((pops s.log).length + i) % capacity.toNat]? = some content[i]
  producer : s.producer.Stands s.queue s.log content
  consumer : s.consumer.Stands s.queue content

variable {s s' : State T capacity} {content : List T}

theorem Holds.init (buffer : Vector T capacity.toNat) :
    Holds ({ queue := { buffer } } : State T capacity) [] := by
  constructor
  · exact .nil
  · rfl
  · rfl
  · intro i hi
    exact absurd hi (Nat.not_lt_zero i)
  · trivial
  · trivial

theorem Holds.head_sub_tail (h : Holds s content) :
    s.queue.head - s.queue.tail = UInt64.ofNat content.length := by
  rw [h.head_eq, h.tail_eq, h.accepted.length_pushes, counter_sub]

theorem Holds.length_lt (h : Holds s content) : content.length < 2 ^ 64 :=
  h.accepted.length_le.trans_lt capacity.toNat_lt

theorem Holds.sub_ge_iff (h : Holds s content) :
    s.queue.head - s.queue.tail ≥ capacity ↔ capacity.toNat ≤ content.length := by
  rw [h.head_sub_tail, ge_iff_le, UInt64.le_iff_toNat_le, UInt64.toNat_ofNat_of_lt' h.length_lt]

theorem Holds.tail_eq_head_iff (h : Holds s content) : s.queue.tail = s.queue.head ↔ content = [] := by
  rw [h.head_eq, h.tail_eq, h.accepted.length_pushes, counter_eq_iff h.length_lt, List.length_eq_zero_iff]

/-! ### What the steps keep -/

theorem Holds.push (h : Holds s content) {value : T} (hstep : s.push value = some s') : Holds s' content := by
  rw [State.push] at hstep
  split at hstep
  · cases hstep
    exact ⟨h.accepted, h.head_eq, h.tail_eq, h.slot, rfl, h.consumer⟩
  · cases hstep

/-- The slot of the next value is none of those that hold one. -/
theorem slot_ne {c i n : ℕ} (hi : i < n) (hn : n < capacity.toNat) :
    (c + i) % capacity.toNat ≠ (c + n) % capacity.toNat := by
  intro heq
  have hmod : i ≡ n [MOD capacity.toNat] := Nat.ModEq.add_left_cancel' c heq
  exact hi.ne (Nat.ModEq.eq_of_lt_of_lt hmod (hi.trans hn) hn)

theorem store_masked (hadmits : Admits capacity) (hpos : 0 < capacity.toNat) (q : SpscQueue T capacity) (k : ℕ)
    (value : T) : q.store (UInt64.ofNat k) value
      = some { q with buffer := q.buffer.set (k % capacity.toNat) value (Nat.mod_lt k hpos) } := by
  simp only [store, hadmits.masked hpos, Nat.mod_lt k hpos, dif_pos]

theorem load_masked (hadmits : Admits capacity) (hpos : 0 < capacity.toNat) (q : SpscQueue T capacity) (k : ℕ) :
    q.load (UInt64.ofNat k) = q.buffer[k % capacity.toNat]? := by
  rw [load, hadmits.masked hpos]

theorem Holds.produce (hadmits : Admits capacity) (h : Holds s content) (hstep : s.produce = some s') :
    ∃ content', Holds s' content' := by
  have hat := h.producer
  rw [State.produce] at hstep
  split at hstep
  · cases hstep
  · rename_i value hd hprod
    rw [hprod] at hat
    cases hat
    dsimp only at hstep
    split_ifs at hstep with hfull
    · cases hstep
      have hlen : content.length = capacity.toNat :=
        Nat.le_antisymm h.accepted.length_le (h.sub_ge_iff.mp hfull)
      refine ⟨content, .snoc h.accepted (.full hlen), ?_, ?_, ?_, trivial, h.consumer⟩
      · simpa [pushes] using h.head_eq
      · simpa [pops] using h.tail_eq
      · simpa [pops] using h.slot
    · cases hstep
      have hlen : content.length < capacity.toNat := by
        rw [h.sub_ge_iff] at hfull
        omega
      exact ⟨content, h.accepted, h.head_eq, h.tail_eq, h.slot, ⟨rfl, hlen⟩, h.consumer⟩
  · rename_i value hd hprod
    rw [hprod] at hat
    obtain ⟨rfl, hlen⟩ := hat
    have hpos : 0 < capacity.toNat := (Nat.zero_le _).trans_lt hlen
    rw [h.head_eq, store_masked hadmits hpos] at hstep
    cases hstep
    refine ⟨content, h.accepted, h.head_eq, h.tail_eq, ?_, ⟨h.head_eq.symm, hlen, ?_⟩, h.consumer⟩
    · intro i hi
      have hne := slot_ne (c := (pops s.log).length) hi hlen
      rw [← h.accepted.length_pushes] at hne
      rw [← h.slot i hi]
      exact Vector.getElem?_set_ne (Nat.mod_lt _ hpos) hne.symm
    · exact Vector.getElem?_set_self (Nat.mod_lt _ hpos)
  · rename_i value hd hprod
    rw [hprod] at hat
    obtain ⟨rfl, hlen, hslot⟩ := hat
    cases hstep
    refine ⟨content ++ [value], .snoc h.accepted (.pushed value hlen), ?_, ?_, ?_, trivial, ?_⟩
    · simp [pushes, h.head_eq, UInt64.ofNat_add]
    · simpa [pops] using h.tail_eq
    · intro i hi
      rw [List.length_append, List.length_singleton] at hi
      have hpops : pops (s.log ++ [.pushed value]) = pops s.log := by simp [pops]
      rw [hpops]
      by_cases hi' : i < content.length
      · rw [List.getElem_append_left hi']
        exact h.slot i hi'
      · obtain rfl : i = content.length := by omega
        rw [← h.accepted.length_pushes, List.getElem_concat_length rfl]
        exact hslot
    · exact h.consumer.pushed rfl value

theorem Holds.consume (hadmits : Admits capacity) (h : Holds s content) (hstep : s.consume = some s') :
    ∃ content', Holds s' content' := by
  have hat := h.consumer
  rw [State.consume] at hstep
  split at hstep
  · cases hstep
    exact ⟨content, h.accepted, h.head_eq, h.tail_eq, h.slot, h.producer, rfl⟩
  · rename_i t hcons
    rw [hcons] at hat
    cases hat
    dsimp only at hstep
    split_ifs at hstep with hempty
    · cases hstep
      obtain rfl := h.tail_eq_head_iff.mp hempty
      refine ⟨[], .snoc h.accepted .empty, ?_, ?_, ?_, ?_, trivial⟩
      · simpa [pushes] using h.head_eq
      · simpa [pops] using h.tail_eq
      · simp [pops]
      · have hlog : pushes (s.log ++ [.empty]) = pushes s.log := by simp [pushes]
        exact h.producer.log hlog
    · cases hstep
      exact ⟨content, h.accepted, h.head_eq, h.tail_eq, h.slot, h.producer, rfl,
        fun hnil => hempty (h.tail_eq_head_iff.mpr hnil)⟩
  · rename_i t hcons
    rw [hcons] at hat
    obtain ⟨rfl, hne⟩ := hat
    obtain ⟨out, rest, rfl⟩ := List.exists_cons_of_ne_nil hne
    have hpos : 0 < capacity.toNat := (Nat.zero_lt_succ _).trans_le h.accepted.length_le
    have hslot := h.slot 0 (Nat.zero_lt_succ _)
    rw [Nat.add_zero, List.getElem_cons_zero] at hslot
    rw [h.tail_eq, load_masked hadmits hpos, hslot] at hstep
    cases hstep
    exact ⟨out :: rest, h.accepted, h.head_eq, h.tail_eq, h.slot, h.producer, h.tail_eq.symm, rfl⟩
  · rename_i t out hcons
    rw [hcons] at hat
    obtain ⟨rfl, hhead⟩ := hat
    obtain ⟨rest, rfl⟩ := List.head?_eq_some_iff.mp hhead
    cases hstep
    refine ⟨rest, .snoc h.accepted (.popped out rest), ?_, ?_, ?_, ?_, trivial⟩
    · simpa [pushes] using h.head_eq
    · simp [pops, h.tail_eq, UInt64.ofNat_add]
    · intro i hi
      have hslot := h.slot (i + 1) (Nat.succ_lt_succ hi)
      rw [List.getElem_cons_succ] at hslot
      rw [← hslot]
      simp [pops, Nat.add_assoc, Nat.add_comm 1 i]
    · exact h.producer.popped rfl rfl

theorem Holds.step (hadmits : Admits capacity) (h : Holds s content) {turn : Turn T}
    (hstep : s.step turn = some s') : ∃ content', Holds s' content' := by
  cases turn with
  | push value => exact ⟨content, h.push hstep⟩
  | produce => exact h.produce hadmits hstep
  | consume => exact h.consume hadmits hstep

theorem Runs.holds (hadmits : Admits capacity) {buffer : Vector T capacity.toNat} {turns : List (Turn T)}
    (hrun : Runs buffer turns s) : ∃ content, Holds s content := by
  have hkeep : ∀ (s : State T capacity) (turn : Turn T) (s' : State T capacity), (∃ content, Holds s content) →
      True → s.step turn = some s' → ∃ content, Holds s' content := by
    rintro s turn s' ⟨content, h⟩ _ hstep
    exact h.step hadmits hstep
  exact hrun.invariant hkeep ⟨[], Holds.init buffer⟩

/-- Neither party is ever stuck: no index leaves the buffer. -/
theorem Holds.enabled (hadmits : Admits capacity) (h : Holds s content) :
    (s.step .consume).isSome ∧ ∀ value, (s.step (.push value)).isSome ∨ (s.step .produce).isSome := by
  constructor
  · have hat := h.consumer
    rw [State.step, State.consume]
    split
    · rfl
    · dsimp only
      split_ifs <;> rfl
    · rename_i t hcons
      rw [hcons] at hat
      obtain ⟨rfl, hne⟩ := hat
      have hlen : 0 < content.length := List.length_pos_of_ne_nil hne
      have hpos : 0 < capacity.toNat := hlen.trans_le h.accepted.length_le
      rw [h.tail_eq, load_masked hadmits hpos, Option.isSome_map]
      exact Option.isSome_iff_exists.mpr ⟨content[0], h.slot 0 hlen⟩
    · rfl
  · intro value
    have hat := h.producer
    rw [State.step, State.step, State.push, State.produce]
    cases hprod : s.producer with
    | idle => exact .inl rfl
    | loadedHead value hd =>
        right
        dsimp only
        split_ifs <;> rfl
    | hasRoom value hd =>
        right
        rw [hprod] at hat
        obtain ⟨rfl, hlen⟩ := hat
        have hpos : 0 < capacity.toNat := (Nat.zero_le _).trans_lt hlen
        rw [h.head_eq]
        dsimp only
        rw [store_masked hadmits hpos]
        rfl
    | wrote value hd => exact .inr rfl

/-- The slot that the producer is about to write is never the one that the consumer is about to read. -/
theorem Holds.slots_apart (hadmits : Admits capacity) (h : Holds s content) {value : T} {hd t : UInt64}
    (hprod : s.producer = .hasRoom value hd) (hcons : s.consumer = .hasValue t) :
    hd &&& mask capacity ≠ t &&& mask capacity := by
  have hp := h.producer
  have hc := h.consumer
  rw [hprod] at hp
  rw [hcons] at hc
  obtain ⟨rfl, hlen⟩ := hp
  obtain ⟨rfl, hne⟩ := hc
  have hpos : 0 < capacity.toNat := (Nat.zero_le _).trans_lt hlen
  intro heq
  have hmod := congrArg UInt64.toNat heq
  rw [h.head_eq, h.tail_eq, hadmits.masked hpos, hadmits.masked hpos, h.accepted.length_pushes] at hmod
  exact slot_ne (c := (pops s.log).length) (List.length_pos_of_ne_nil hne) hlen hmod.symm

/-- In every interleaving the pops return the pushed values in their order, a push is refused only while `capacity`
values are unpopped and a pop only while none is, and neither party is ever stuck. -/
theorem spsc_fifo (hadmits : Admits capacity) {buffer : Vector T capacity.toNat} {turns : List (Turn T)}
    (hrun : Runs buffer turns s) :
    pops s.log <+: pushes s.log ∧
    (∀ before after, s.log = before ++ .full :: after →
      (pushes before).length = (pops before).length + capacity.toNat) ∧
    (∀ before after, s.log = before ++ .empty :: after → pops before = pushes before) ∧
    (s.step .consume).isSome ∧ ∀ value, (s.step (.push value)).isSome ∨ (s.step .produce).isSome := by
  obtain ⟨content, h⟩ := hrun.holds hadmits
  exact ⟨h.accepted.pops_initial, fun _ _ => h.accepted.full_only, fun _ _ => h.accepted.empty_only,
    h.enabled hadmits⟩

/-- A queue of one slot: a refused pop in the middle of a push, a refused push and the read of the value. -/
def oneSlot : List (Turn ℕ) :=
  [.push 7, .produce, .consume, .produce, .consume, .produce, .push 8, .produce, .consume, .consume, .consume]

def oneSlotEnd : State ℕ 1 :=
  { queue := { head := 1, tail := 0, buffer := Vector.replicate (UInt64.toNat 1) 7 }
    consumer := .read 0 7, log := [.empty, .pushed 7, .full] }

theorem spsc_fifo_oneSlot : Admits 1 ∧ pops oneSlotEnd.log <+: pushes oneSlotEnd.log := by
  have hall : runAll State.step (fun _ _ => true) { queue := { buffer := Vector.replicate (UInt64.toNat 1) 0 } }
      oneSlot = some oneSlotEnd := rfl
  have hrun : Runs (Vector.replicate (UInt64.toNat 1) 0) oneSlot oneSlotEnd :=
    (Run.of_runAll hall).mono fun _ _ _ => trivial
  exact ⟨by decide, (spsc_fifo (by decide) hrun).1⟩

end SpscQueue

end Plexdb
