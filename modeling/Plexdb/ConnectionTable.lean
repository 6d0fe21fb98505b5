import Plexdb.Runs
import Plexdb.SentinelMap

/-! The open connections of a listener (`core/tcp/tcp.detail.cppm`), looked up by their handle in a
`MapFixedSentinel` (`core/base/containers.cppm`). The socket listener also looks up by handle what a blocked
connection waits for. -/

namespace Plexdb.Tcp

open SentinelMap (Slots Probed Spares probe freeSlot entries)

abbrev Handle := UInt64

def zeroHandle : Handle := ~~~0

/-- `hash(Handle)`. -/
def hashHandle (h : Handle) : Nat := (1 + h).toNat

def maxConcurrentConnections : Nat := 1000

def slotCount : Nat := 2 * maxConcurrentConnections

/-! ### The map, where `none` is a failed assertion -/

section

variable {α : Type} (sentinel : Handle)

/-- `find` and `find_it`: the slot of the key. -/
def find (map : Slots Handle α) (key : Handle) : Option (Option Nat) :=
  if key = sentinel then none
  else match probe hashHandle slotCount map key with
    | .full => none
    | .free _ => some none
    | .held slot => some (some slot)

def insert (map : Slots Handle α) (key : Handle) : Option Nat :=
  if key = sentinel then none else freeSlot hashHandle slotCount map key

/-- The slot that is the key's from then on. -/
def findOrInsert (map : Slots Handle α) (key : Handle) : Option Nat := do
  match ← find sentinel map key with
  | some slot => some slot
  | none => insert sentinel map key

def tryRemove (map : Slots Handle α) (key : Handle) : Option (Bool × Slots Handle α) :=
  if key = sentinel then none
  else match probe hashHandle slotCount map key with
    | .held slot => some (true, Function.update map slot none)
    | .free _ | .full => some (false, map)

def removeIt (map : Slots Handle α) (slot : Nat) : Option (Slots Handle α) :=
  if slot < slotCount then some (Function.update map slot none) else none

end

/-! ### The listeners -/

inductive Kind where
  | uring
  | socket
  deriving DecidableEq

/-- The socket listener leaves the sentinel at its default. -/
def Kind.sentinel : Kind → Handle
  | .uring => zeroHandle
  | .socket => 0

/-- `connection` is the entry that the request of the connection points to. -/
structure Connection where
  client : Handle
  connection : Nat
  deriving DecidableEq

inductive Op where
  | none
  | waitWrite
  | waitRead
  deriving DecidableEq

structure Listener where
  clientToConnection : Slots Handle Connection := fun _ => none
  waitingOp : Slots Handle Op := fun _ => none
  activeConnections : UInt64 := 0

def Listener.enter (kind : Kind) (client : Handle) (l : Listener) : Option Listener := do
  let slot ← findOrInsert kind.sentinel l.clientToConnection client
  some { l with
    clientToConnection := Function.update l.clientToConnection slot (some (client, ⟨client, slot⟩))
    activeConnections := l.activeConnections + 1 }

/-- An accepted client, and whether its connection was kept. -/
def accept (client : Handle) (l : Listener) : Kind → Option (Bool × Listener)
  | .uring => (l.enter .uring client).map fun l => (true, l)
  | .socket =>
      if maxConcurrentConnections ≤ l.activeConnections.toNat then some (false, l)
      else (l.enter .socket client).map fun l => (true, l)

def closeAndCleanup (client : Handle) (l : Listener) : Kind → Option Listener
  | .uring => do
      match ← find Kind.uring.sentinel l.clientToConnection client with
      | none => some l
      | some slot =>
          let clients ← removeIt l.clientToConnection slot
          some { l with clientToConnection := clients, activeConnections := l.activeConnections - 1 }
  | .socket => do
      match ← find Kind.socket.sentinel l.clientToConnection client with
      | none => some l
      | some slot =>
          let waiting ← match ← find Kind.socket.sentinel l.waitingOp client with
            | none => some l.waitingOp
            | some waitingSlot => removeIt l.waitingOp waitingSlot
          let clients ← removeIt l.clientToConnection slot
          some {
            clientToConnection := clients
            waitingOp := waiting
            activeConnections := if 0 < l.activeConnections then l.activeConnections - 1 else l.activeConnections }

/-- A read or a write of the socket listener that would block. -/
def block (client : Handle) (op : Op) (l : Listener) : Option Listener := do
  let slot ← findOrInsert Kind.socket.sentinel l.waitingOp client
  some { l with waitingOp := Function.update l.waitingOp slot (some (client, op)) }

/-- An event for which a blocked connection waits. -/
def unblock (client : Handle) (l : Listener) : Option Listener := do
  match ← find Kind.socket.sentinel l.clientToConnection client with
  | none => some l
  | some _ =>
      match ← find Kind.socket.sentinel l.waitingOp client with
      | none => some l
      | some slot =>
          let waiting ← removeIt l.waitingOp slot
          some { l with waitingOp := waiting }

/-! ### Runs -/

/-- `live` are the handles of the clients whose connections were kept and not closed. -/
structure State where
  listener : Listener := {}
  live : List Handle := []

/-- `tryRemove`, which no listener calls, is on both maps. -/
inductive Action where
  | accept (client : Handle)
  | close (client : Handle)
  | find (client : Handle)
  | tryRemove (client : Handle)
  | block (client : Handle) (op : Op)
  | unblock (client : Handle)
  deriving DecidableEq

def Action.client : Action → Handle
  | .accept client | .close client | .find client | .tryRemove client | .block client _ | .unblock client => client

def step (kind : Kind) (s : State) : Action → Option State
  | .accept client => do
      let (kept, l) ← accept client s.listener kind
      some ⟨l, if kept then client :: s.live else s.live⟩
  | .close client => do
      let l ← closeAndCleanup client s.listener kind
      some ⟨l, s.live.erase client⟩
  | .find client => do
      let _ ← find kind.sentinel s.listener.clientToConnection client
      some s
  | .tryRemove client => do
      let (_, clients) ← tryRemove kind.sentinel s.listener.clientToConnection client
      let (_, waiting) ← tryRemove kind.sentinel s.listener.waitingOp client
      some ⟨{ s.listener with clientToConnection := clients, waitingOp := waiting }, s.live.erase client⟩
  | .block client op => do
      let l ← block client op s.listener
      some { s with listener := l }
  | .unblock client => do
      let l ← unblock client s.listener
      some { s with listener := l }

/-- The system hands out no handle that is open; the uring listener does not count its connections. -/
def possible (kind : Kind) (s : State) : Action → Prop
  | .accept client => client ∉ s.live ∧ (kind = .uring → s.live.length < maxConcurrentConnections)
  | .close client => client ∈ s.live
  | .find _ | .tryRemove _ => True
  | .block client _ => kind = .socket ∧ client ∈ s.live
  | .unblock _ => kind = .socket

/-- The sentinel is not a client, and what is removed lies on no other client's way. -/
def Spared (kind : Kind) (s : State) (a : Action) : Prop :=
  a.client ≠ kind.sentinel ∧ match a with
    | .accept _ | .find _ | .block _ _ => True
    | .close client | .tryRemove client =>
        Spares hashHandle slotCount s.listener.clientToConnection client ∧
          Spares hashHandle slotCount s.listener.waitingOp client
    | .unblock client => Spares hashHandle slotCount s.listener.waitingOp client

/-! ### The map under few keys -/

/-- The keys are among `live`. -/
structure Keeps {α : Type} (live : List Handle) (map : Slots Handle α) : Prop where
  probed : Probed hashHandle slotCount map
  keys : ∀ slot key v, map slot = some (key, v) → key ∈ live

section

variable {α : Type} {live : List Handle} {map : Slots Handle α} {sentinel key : Handle} {slot : Nat}

theorem keeps_empty : Keeps live (fun _ => none : Slots Handle α) where
  probed := SentinelMap.probed_empty
  keys _ _ _ h := by cases h

theorem Keeps.mono (h : Keeps live map) {live' : List Handle} (hsub : ∀ k ∈ live, k ∈ live') : Keeps live' map :=
  ⟨h.probed, fun slot k v hslot => hsub k (h.keys slot k v hslot)⟩

theorem Keeps.find_of_held (h : Keeps live map) (hkey : key ≠ sentinel) {v : α} (hslot : map slot = some (key, v)) :
    find sentinel map key = some (some slot) := by
  rw [find, if_neg hkey, h.probed.probe_of_held hslot]

theorem Keeps.probe_of_absent (h : Keeps live map) (hlive : live.length ≤ maxConcurrentConnections)
    (habsent : ∀ slot v, map slot ≠ some (key, v)) : ∃ slot, probe hashHandle slotCount map key = .free slot := by
  have hroom : live.length < slotCount - 1 := by
    rw [slotCount]
    rw [maxConcurrentConnections] at hlive ⊢
    omega
  obtain ⟨d, hd, hfree⟩ := h.probed.exists_free h.keys hroom (hashHandle key)
  exact SentinelMap.probe_of_absent habsent hd hfree

theorem Keeps.find_of_absent (h : Keeps live map) (hlive : live.length ≤ maxConcurrentConnections)
    (hkey : key ≠ sentinel) (habsent : ∀ slot v, map slot ≠ some (key, v)) : find sentinel map key = some none := by
  obtain ⟨slot, hprobe⟩ := h.probe_of_absent hlive habsent
  rw [find, if_neg hkey, hprobe]

theorem held_or_absent (map : Slots Handle α) (key : Handle) :
    (∃ slot v, map slot = some (key, v)) ∨ ∀ slot v, map slot ≠ some (key, v) := by
  by_cases h : ∃ slot v, map slot = some (key, v)
  · exact Or.inl h
  · push Not at h
    exact Or.inr h

theorem Keeps.findOrInsert (h : Keeps live map) (hlive : live.length ≤ maxConcurrentConnections)
    (hkey : key ≠ sentinel) : ∃ slot, findOrInsert sentinel map key = some slot ∧
      (∀ e, map slot = some e → e.1 = key) ∧
      ∀ v, Keeps (key :: live) (Function.update map slot (some (key, v))) := by
  have hkeys : ∀ slot v slot' k w, Function.update map slot (some (key, v)) slot' = some (k, w) → k ∈ key :: live := by
    intro slot v slot' k w hslot'
    rw [Function.update_apply] at hslot'
    split_ifs at hslot'
    · obtain ⟨rfl, -⟩ := Prod.mk.inj (Option.some.inj hslot')
      exact List.mem_cons_self
    · exact List.mem_cons_of_mem _ (h.keys slot' k w hslot')
  rcases held_or_absent map key with ⟨slot, v, hslot⟩ | habsent
  · refine ⟨slot, ?_, fun e he => ?_, fun w => ⟨h.probed.modify hslot w, hkeys slot w⟩⟩
    · rw [Tcp.findOrInsert, h.find_of_held hkey hslot]
      rfl
    · obtain rfl := Option.some.inj (hslot.symm.trans he)
      rfl
  · obtain ⟨slot, hprobe⟩ := h.probe_of_absent hlive habsent
    refine ⟨slot, ?_, fun e he => ?_, fun w => ⟨h.probed.insert hprobe w, hkeys slot w⟩⟩
    · rw [Tcp.findOrInsert, h.find_of_absent hlive hkey habsent]
      change insert sentinel map key = some slot
      rw [insert, if_neg hkey, SentinelMap.freeSlot_of_probe hprobe]
    · cases (SentinelMap.probeFrom_free hprobe).2.1.symm.trans he

/-- Without the key, the others are left. -/
theorem Keeps.remove (h : Keeps live map) (hspares : Spares hashHandle slotCount map key) {v : α}
    (hslot : map slot = some (key, v)) : Keeps (live.erase key) (Function.update map slot none) where
  probed := h.probed.remove hslot hspares
  keys slot' k w hslot' := by
    rw [Function.update_apply] at hslot'
    split_ifs at hslot' with heq
    refine (List.mem_erase_of_ne ?_).mpr (h.keys slot' k w hslot')
    rintro rfl
    exact heq (h.probed.unique _ _ _ _ _ hslot' hslot)

theorem Keeps.erase_of_absent (h : Keeps live map) (habsent : ∀ slot v, map slot ≠ some (key, v)) :
    Keeps (live.erase key) map where
  probed := h.probed
  keys slot k w hslot := by
    refine (List.mem_erase_of_ne ?_).mpr (h.keys slot k w hslot)
    rintro rfl
    exact habsent slot w hslot

theorem Keeps.removeIt (h : Keeps live map) {v : α} (hslot : map slot = some (key, v)) :
    removeIt map slot = some (Function.update map slot none) :=
  if_pos (h.probed.slot_lt hslot)

end

/-! ### The invariant -/

/-- Each live client stands in one entry, which its request points to. -/
structure Table (live : List Handle) (map : Slots Handle Connection) : Prop extends Keeps live map where
  entry : ∀ slot h c, map slot = some (h, c) → c = ⟨h, slot⟩
  held : ∀ h ∈ live, ∃ slot c, map slot = some (h, c)

section

variable {live : List Handle} {map : Slots Handle Connection} {client : Handle} {slot : Nat}

theorem Table.insert (h : Table live map) (hslot : ∀ e, map slot = some e → e.1 = client)
    (hkeeps : Keeps (client :: live) (Function.update map slot (some (client, ⟨client, slot⟩)))) :
    Table (client :: live) (Function.update map slot (some (client, ⟨client, slot⟩))) where
  toKeeps := hkeeps
  entry slot' k c hslot' := by
    rw [Function.update_apply] at hslot'
    split_ifs at hslot' with heq
    · obtain ⟨rfl, rfl⟩ := Prod.mk.inj (Option.some.inj hslot')
      rw [heq]
    · exact h.entry slot' k c hslot'
  held k hk := by
    by_cases heq : k = client
    · exact ⟨slot, _, by rw [heq, Function.update_self]⟩
    · obtain ⟨slot', c, hslot'⟩ := h.held k (List.mem_of_ne_of_mem heq hk)
      refine ⟨slot', c, ?_⟩
      rwa [Function.update_of_ne]
      rintro rfl
      exact heq (hslot _ hslot')

theorem Table.remove (h : Table live map) (hnodup : live.Nodup)
    (hspares : Spares hashHandle slotCount map client) {c : Connection} (hslot : map slot = some (client, c)) :
    Table (live.erase client) (Function.update map slot none) where
  toKeeps := h.toKeeps.remove hspares hslot
  entry slot' k c hslot' := by
    rw [Function.update_apply] at hslot'
    split_ifs at hslot'
    exact h.entry slot' k c hslot'
  held k hk := by
    obtain ⟨hne, hk⟩ := hnodup.mem_erase_iff.mp hk
    obtain ⟨slot', c', hslot'⟩ := h.held k hk
    refine ⟨slot', c', ?_⟩
    rwa [Function.update_of_ne]
    rintro rfl
    exact hne (Prod.mk.inj (Option.some.inj (hslot'.symm.trans hslot))).1

theorem Table.absent (h : Table live map) (hclient : client ∉ live) (slot : Nat) (c : Connection) :
    map slot ≠ some (client, c) :=
  fun hslot => hclient (h.keys slot client c hslot)

end

structure Holds (kind : Kind) (s : State) : Prop where
  clients : Table s.live s.listener.clientToConnection
  waiting : Keeps s.live s.listener.waitingOp
  idle : kind = .uring → ∀ slot, s.listener.waitingOp slot = none
  nodup : s.live.Nodup
  bounded : s.live.length ≤ maxConcurrentConnections
  valid : kind.sentinel ∉ s.live
  counted : kind = .socket → s.live.length ≤ s.listener.activeConnections.toNat ∧
    s.listener.activeConnections.toNat ≤ maxConcurrentConnections

theorem holds_init (kind : Kind) : Holds kind {} where
  clients := ⟨keeps_empty, fun _ _ _ h => absurd h.symm (Option.some_ne_none _), fun _ h => absurd h List.not_mem_nil⟩
  waiting := keeps_empty
  idle _ _ := rfl
  nodup := List.nodup_nil
  bounded := Nat.zero_le _
  valid := List.not_mem_nil
  counted _ := ⟨Nat.zero_le _, Nat.zero_le _⟩

/-! ### What a step keeps -/

section

variable {kind : Kind} {s : State} {client : Handle}

theorem Holds.enter (h : Holds kind s) (hclient : client ∉ s.live) (hvalid : client ≠ kind.sentinel)
    (hroom : s.live.length < maxConcurrentConnections)
    (hcount : kind = .socket → s.listener.activeConnections.toNat < maxConcurrentConnections) :
    ∃ l, s.listener.enter kind client = some l ∧ Holds kind ⟨l, client :: s.live⟩ := by
  obtain ⟨slot, hfind, hslot, hkeeps⟩ := h.clients.toKeeps.findOrInsert h.bounded hvalid
  refine ⟨{ s.listener with
    clientToConnection := Function.update s.listener.clientToConnection slot (some (client, ⟨client, slot⟩))
    activeConnections := s.listener.activeConnections + 1 }, ?_, h.clients.insert hslot (hkeeps _), h.waiting.mono fun k => List.mem_cons_of_mem _,
    h.idle, List.nodup_cons.mpr ⟨hclient, h.nodup⟩, hroom, ?_, fun hkind => ?_⟩
  · rw [Listener.enter, hfind]
    rfl
  · exact List.not_mem_cons_of_ne_of_not_mem hvalid.symm h.valid
  · have hadd : (s.listener.activeConnections + 1).toNat = s.listener.activeConnections.toNat + 1 := by
      rw [UInt64.toNat_add, Nat.mod_eq_of_lt]
      · rfl
      · have := hcount hkind
        rw [maxConcurrentConnections] at this
        change _ + 1 < _
        omega
    change _ ≤ (s.listener.activeConnections + 1).toNat ∧ (s.listener.activeConnections + 1).toNat ≤ _
    rw [hadd]
    exact ⟨Nat.succ_le_succ (h.counted hkind).1, hcount hkind⟩

/-- The step drops a client of the socket listener when its count is full. -/
theorem Holds.accept (h : Holds kind s) (hpossible : possible kind s (.accept client))
    (hvalid : client ≠ kind.sentinel) : ∃ s', step kind s (.accept client) = some s' ∧ Holds kind s' := by
  obtain ⟨hclient, hroom⟩ := hpossible
  cases kind with
  | uring =>
      obtain ⟨l, hl, hholds⟩ := h.enter hclient hvalid (hroom rfl) (fun hkind => Kind.noConfusion hkind)
      refine ⟨_, ?_, hholds⟩
      rw [step, Tcp.accept, hl]
      rfl
  | socket =>
      by_cases hfull : maxConcurrentConnections ≤ s.listener.activeConnections.toNat
      · refine ⟨s, ?_, h⟩
        rw [step, Tcp.accept, if_pos hfull]
        rfl
      · have hcount := Nat.lt_of_not_le hfull
        obtain ⟨l, hl, hholds⟩ :=
          h.enter hclient hvalid ((h.counted rfl).1.trans_lt hcount) fun _ => hcount
        refine ⟨_, ?_, hholds⟩
        rw [step, Tcp.accept, if_neg hfull, hl]
        rfl

theorem Holds.length_erase (h : Holds kind s) (client : Handle) :
    (s.live.erase client).length ≤ maxConcurrentConnections :=
  List.length_erase_le.trans h.bounded

theorem Holds.sentinel_erase (h : Holds kind s) (client : Handle) : kind.sentinel ∉ s.live.erase client :=
  fun hmem => h.valid (List.mem_of_mem_erase hmem)

theorem Holds.close (h : Holds kind s) (hclient : client ∈ s.live) (hvalid : client ≠ kind.sentinel)
    (hclients : Spares hashHandle slotCount s.listener.clientToConnection client)
    (hwaiting : Spares hashHandle slotCount s.listener.waitingOp client) :
    ∃ s', step kind s (.close client) = some s' ∧ Holds kind s' := by
  obtain ⟨slot, c, hslot⟩ := h.clients.held client hclient
  have hfind := h.clients.find_of_held hvalid hslot
  have hremove := h.clients.removeIt hslot
  have htable := h.clients.remove h.nodup hclients hslot
  have hpos : 0 < s.live.length := List.length_pos_of_mem hclient
  cases kind with
  | uring =>
      refine ⟨⟨{ s.listener with
        clientToConnection := Function.update s.listener.clientToConnection slot none
        activeConnections := s.listener.activeConnections - 1 }, s.live.erase client⟩, ?_, htable, ?_, h.idle, h.nodup.erase client, h.length_erase client, h.sentinel_erase client,
        fun hkind => Kind.noConfusion hkind⟩
      · rw [step, closeAndCleanup, hfind]
        simp only [Option.bind_eq_bind, Option.bind_some, hremove]
      · refine h.waiting.erase_of_absent fun slot v => ?_
        rw [h.idle rfl]
        exact (Option.some_ne_none _).symm
  | socket =>
      obtain ⟨hlow, hhigh⟩ := h.counted rfl
      have hactive : 0 < s.listener.activeConnections := UInt64.lt_iff_toNat_lt.mpr (hpos.trans_le hlow)
      have hcount : (s.live.erase client).length ≤ (s.listener.activeConnections - 1).toNat ∧
          (s.listener.activeConnections - 1).toNat ≤ maxConcurrentConnections := by
        have hone : 1 ≤ s.listener.activeConnections := UInt64.le_iff_toNat_le.mpr (hpos.trans_le hlow)
        rw [UInt64.toNat_sub_of_le _ _ hone, List.length_erase_of_mem hclient]
        exact ⟨Nat.sub_le_sub_right hlow 1, (Nat.sub_le _ _).trans hhigh⟩
      rcases held_or_absent s.listener.waitingOp client with ⟨waitingSlot, op, hwait⟩ | habsent
      · refine ⟨⟨⟨Function.update s.listener.clientToConnection slot none,
          Function.update s.listener.waitingOp waitingSlot none, s.listener.activeConnections - 1⟩,
          s.live.erase client⟩, ?_, htable, h.waiting.remove hwaiting hwait, fun hkind => Kind.noConfusion hkind, h.nodup.erase client,
          h.length_erase client, h.sentinel_erase client, fun _ => hcount⟩
        rw [step, closeAndCleanup, hfind]
        simp only [Option.bind_eq_bind, Option.bind_some, hremove, h.waiting.find_of_held hvalid hwait,
          h.waiting.removeIt hwait, if_pos hactive]
      · refine ⟨⟨⟨Function.update s.listener.clientToConnection slot none, s.listener.waitingOp,
          s.listener.activeConnections - 1⟩, s.live.erase client⟩, ?_, htable,
          h.waiting.erase_of_absent habsent, fun hkind => Kind.noConfusion hkind, h.nodup.erase client,
          h.length_erase client, h.sentinel_erase client, fun _ => hcount⟩
        rw [step, closeAndCleanup, hfind]
        simp only [Option.bind_eq_bind, Option.bind_some, hremove,
          h.waiting.find_of_absent h.bounded hvalid habsent, if_pos hactive]

/-- Of both maps, `tryRemove` removes the client if it is there. -/
theorem Keeps.tryRemove {α : Type} {live : List Handle} {map : Slots Handle α} {sentinel : Handle}
    (h : Keeps live map) (hlive : live.length ≤ maxConcurrentConnections) (hvalid : client ≠ sentinel)
    (hspares : Spares hashHandle slotCount map client) :
    ∃ found map', tryRemove sentinel map client = some (found, map') ∧ Keeps (live.erase client) map' ∧
      ((∃ slot v, map slot = some (client, v) ∧ map' = Function.update map slot none) ∨
        ((∀ slot v, map slot ≠ some (client, v)) ∧ map' = map)) := by
  rcases held_or_absent map client with ⟨slot, v, hslot⟩ | habsent
  · refine ⟨true, _, ?_, h.remove hspares hslot, Or.inl ⟨slot, v, hslot, rfl⟩⟩
    rw [Tcp.tryRemove, if_neg hvalid, h.probed.probe_of_held hslot]
  · obtain ⟨slot, hprobe⟩ := h.probe_of_absent hlive habsent
    refine ⟨false, map, ?_, h.erase_of_absent habsent, Or.inr ⟨habsent, rfl⟩⟩
    rw [Tcp.tryRemove, if_neg hvalid, hprobe]

theorem Holds.tryRemove (h : Holds kind s) (hvalid : client ≠ kind.sentinel)
    (hclients : Spares hashHandle slotCount s.listener.clientToConnection client)
    (hwaiting : Spares hashHandle slotCount s.listener.waitingOp client) :
    ∃ s', step kind s (.tryRemove client) = some s' ∧ Holds kind s' := by
  obtain ⟨found, clients, hremove, hkeeps, hcases⟩ := h.clients.toKeeps.tryRemove h.bounded hvalid hclients
  obtain ⟨found', waiting, hremove', hkeeps', hcases'⟩ := h.waiting.tryRemove h.bounded hvalid hwaiting
  refine ⟨⟨{ s.listener with clientToConnection := clients, waitingOp := waiting }, s.live.erase client⟩, ?_, ?_, hkeeps',
    fun hkind slot => ?_, h.nodup.erase client, h.length_erase client, h.sentinel_erase client, fun hkind =>
      ⟨List.length_erase_le.trans (h.counted hkind).1, (h.counted hkind).2⟩⟩
  · simp only [step, hremove, hremove', Option.bind_eq_bind, Option.bind_some]
  · rcases hcases with ⟨slot, c, hslot, rfl⟩ | ⟨habsent, rfl⟩
    · exact h.clients.remove h.nodup hclients hslot
    · have hclient : client ∉ s.live := by
        intro hmem
        obtain ⟨slot, c, hslot⟩ := h.clients.held client hmem
        exact habsent slot c hslot
      change Table (s.live.erase client) s.listener.clientToConnection
      rw [List.erase_of_not_mem hclient]
      exact h.clients
  · rcases hcases' with ⟨slot', op, hslot', rfl⟩ | ⟨-, rfl⟩
    · cases (h.idle hkind slot').symm.trans hslot'
    · exact h.idle hkind slot

theorem Holds.find (h : Holds kind s) (hvalid : client ≠ kind.sentinel) :
    step kind s (.find client) = some s := by
  rw [step]
  rcases held_or_absent s.listener.clientToConnection client with ⟨slot, c, hslot⟩ | habsent
  · rw [h.clients.find_of_held hvalid hslot]
    rfl
  · rw [h.clients.find_of_absent h.bounded hvalid habsent]
    rfl

theorem Holds.block (h : Holds kind s) {op : Op} (hpossible : possible kind s (.block client op))
    (hvalid : client ≠ kind.sentinel) : ∃ s', step kind s (.block client op) = some s' ∧ Holds kind s' := by
  obtain ⟨rfl, hclient⟩ := hpossible
  obtain ⟨slot, hfind, -, hkeeps⟩ := h.waiting.findOrInsert h.bounded hvalid
  refine ⟨⟨{ s.listener with waitingOp := Function.update s.listener.waitingOp slot (some (client, op)) }, s.live⟩, ?_,
    h.clients, (hkeeps op).mono fun k hk => ?_, fun hkind => Kind.noConfusion hkind, h.nodup, h.bounded, h.valid,
    h.counted⟩
  · rw [step, Tcp.block, hfind]
    rfl
  · rcases List.mem_cons.mp hk with rfl | hk
    · exact hclient
    · exact hk

theorem Holds.unblock (h : Holds kind s) (hpossible : possible kind s (.unblock client))
    (hvalid : client ≠ kind.sentinel) (hwaiting : Spares hashHandle slotCount s.listener.waitingOp client) :
    ∃ s', step kind s (.unblock client) = some s' ∧ Holds kind s' := by
  obtain rfl : kind = .socket := hpossible
  rw [step, Tcp.unblock]
  rcases held_or_absent s.listener.clientToConnection client with ⟨slot, c, hslot⟩ | habsent
  · rw [h.clients.find_of_held hvalid hslot]
    rcases held_or_absent s.listener.waitingOp client with ⟨waitingSlot, op, hwait⟩ | habsent'
    · refine ⟨⟨{ s.listener with waitingOp := Function.update s.listener.waitingOp waitingSlot none }, s.live⟩, ?_, h.clients,
        (h.waiting.remove hwaiting hwait).mono fun k => List.mem_of_mem_erase, fun hkind => Kind.noConfusion hkind,
        h.nodup, h.bounded, h.valid, h.counted⟩
      simp only [Option.bind_eq_bind, Option.bind_some, h.waiting.find_of_held hvalid hwait, h.waiting.removeIt hwait]
    · refine ⟨s, ?_, h⟩
      simp only [Option.bind_eq_bind, Option.bind_some, h.waiting.find_of_absent h.bounded hvalid habsent']
  · refine ⟨s, ?_, h⟩
    simp only [Option.bind_eq_bind, Option.bind_some, h.clients.find_of_absent h.bounded hvalid habsent]

theorem Holds.step (h : Holds kind s) {a : Action} (hpossible : possible kind s a) (hspared : Spared kind s a) :
    ∃ s', step kind s a = some s' ∧ Holds kind s' := by
  obtain ⟨hvalid, hspares⟩ := hspared
  cases a with
  | accept client => exact h.accept hpossible hvalid
  | close client => exact h.close hpossible hvalid hspares.1 hspares.2
  | find client => exact ⟨s, h.find hvalid, h⟩
  | tryRemove client => exact h.tryRemove hvalid hspares.1 hspares.2
  | block client op => exact h.block hpossible hvalid
  | unblock client => exact h.unblock hpossible hvalid hspares

end

/-- In every run in which the sentinel is no client and what is removed lies on no other client's way: a live
client is found in its own entry and no other handle is, an iteration visits the entry of each live client once,
and no assertion fails. -/
theorem clients_found {kind : Kind} {as : List Action} {s : State}
    (hrun : Run (step kind) (fun s a => possible kind s a ∧ Spared kind s a) {} as s) :
    (∀ client ∈ s.live, ∃ slot, find kind.sentinel s.listener.clientToConnection client = some (some slot) ∧
        s.listener.clientToConnection slot = some (client, ⟨client, slot⟩)) ∧
      (∀ client, client ∉ s.live → client ≠ kind.sentinel →
        find kind.sentinel s.listener.clientToConnection client = some none) ∧
      ((entries slotCount s.listener.clientToConnection).map fun e => e.2.client).Perm s.live ∧
      ∀ a, possible kind s a → Spared kind s a → ∃ s', step kind s a = some s' := by
  have h : Holds kind s := by
    refine hrun.invariant (fun s a s' h hcond hstep => ?_) (holds_init kind)
    obtain ⟨s'', hstep', h'⟩ := h.step hcond.1 hcond.2
    rwa [← Option.some.inj (hstep'.symm.trans hstep)]
  refine ⟨fun client hclient => ?_, fun client hclient hvalid => ?_, ?_, fun a hpossible hspared => ?_⟩
  · obtain ⟨slot, c, hslot⟩ := h.clients.held client hclient
    have hvalid : client ≠ kind.sentinel := by
      rintro rfl
      exact h.valid hclient
    rw [h.clients.find_of_held hvalid hslot]
    exact ⟨slot, rfl, by rw [hslot, h.clients.entry _ _ _ hslot]⟩
  · exact h.clients.find_of_absent h.bounded hvalid (h.clients.absent hclient)
  · have hkeys : (entries slotCount s.listener.clientToConnection).map (fun e => e.2.client) =
        (entries slotCount s.listener.clientToConnection).map Prod.fst := by
      refine List.map_congr_left fun e he => ?_
      obtain ⟨slot, hslot⟩ := h.clients.probed.mem_entries_iff.mp he
      rw [h.clients.entry slot e.1 e.2 hslot]
    rw [hkeys, List.perm_ext_iff_of_nodup h.clients.probed.nodup_keys h.nodup]
    intro client
    rw [List.mem_map]
    constructor
    · rintro ⟨e, he, rfl⟩
      obtain ⟨slot, hslot⟩ := h.clients.probed.mem_entries_iff.mp he
      exact h.clients.keys slot e.1 e.2 hslot
    · intro hclient
      obtain ⟨slot, c, hslot⟩ := h.clients.held client hclient
      exact ⟨(client, c), h.clients.probed.mem_entries_iff.mpr ⟨slot, hslot⟩, rfl⟩
  · obtain ⟨s', hstep, -⟩ := h.step hpossible hspared
    exact ⟨s', hstep⟩

/-- Two clients with the same home slot, of which the later one closes. -/
theorem clients_found_later :
    ∃ s : State, s.live = [5] ∧
      (∀ client ∈ s.live, ∃ slot, find Kind.uring.sentinel s.listener.clientToConnection client = some (some slot) ∧
          s.listener.clientToConnection slot = some (client, ⟨client, slot⟩)) ∧
        (∀ client, client ∉ s.live → client ≠ Kind.uring.sentinel →
          find Kind.uring.sentinel s.listener.clientToConnection client = some none) ∧
        ((entries slotCount s.listener.clientToConnection).map fun e => e.2.client).Perm s.live ∧
        ∀ a, possible .uring s a → Spared .uring s a → ∃ s', step .uring s a = some s' := by
  have hspares : Spares hashHandle slotCount (Function.update (Function.update (fun _ => none) 6 (some (5, ⟨5, 6⟩))) 7
      (some (2005, ⟨2005, 7⟩)) : Slots Handle Connection) 2005 := by
    intro slot v hslot slot' k v' hslot' hne
    simp only [Function.update_apply] at hslot hslot'
    have hslot : slot = 7 := by
      split_ifs at hslot with h₁ h₂
      · exact h₁
      · exact absurd (Prod.mk.inj (Option.some.inj hslot)).1 (by decide)
    split_ifs at hslot' with h₁ h₂
    · exact absurd (Prod.mk.inj (Option.some.inj hslot')).1.symm hne
    · obtain ⟨rfl, -⟩ := Prod.mk.inj (Option.some.inj hslot')
      rw [hslot, h₂]
      decide
  have hrun : ∃ s : State, Run (step .uring) (fun s a => possible .uring s a ∧ Spared .uring s a) {}
      [.accept 5, .accept 2005, .close 2005] s ∧ s.live = [5] := by
    refine ⟨_, .cons ⟨⟨List.not_mem_nil, fun _ => by decide⟩, by decide, trivial⟩ rfl (.cons ⟨⟨?_, fun _ => by decide⟩,
      by decide, trivial⟩ rfl (.cons ⟨List.mem_cons_self, by decide, hspares, ?_⟩ rfl (.nil _))), by decide⟩
    · change (2005 : Handle) ∉ [5]
      decide
    · exact fun _ _ hslot => absurd hslot.symm (Option.some_ne_none _)
  obtain ⟨s, hrun, hlive⟩ := hrun
  exact ⟨s, hlive, clients_found hrun⟩

/-- Two clients with the same home slot, of which the earlier one closes; and the first file descriptor as a client
of the socket listener. -/
theorem live_client_lost :
    (∃ s, Run (step .uring) (possible .uring) {} [.accept 5, .accept 2005, .close 5] s ∧ 2005 ∈ s.live ∧
        find Kind.uring.sentinel s.listener.clientToConnection 2005 = some none) ∧
      possible .socket {} (.accept 0) ∧ step .socket {} (.accept 0) = none := by
  refine ⟨⟨_, .cons ⟨List.not_mem_nil, fun _ => by decide⟩ rfl (.cons ⟨?_, fun _ => by decide⟩ rfl (.cons ?_ rfl
    (.nil _))), by decide, by decide⟩, ⟨List.not_mem_nil, fun hkind => Kind.noConfusion hkind⟩, rfl⟩
  · change (2005 : Handle) ∉ [5]
    decide
  · change (5 : Handle) ∈ [2005, 5]
    decide

end Plexdb.Tcp
