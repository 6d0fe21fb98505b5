import Mathlib.Data.List.Nodup
import Mathlib.Logic.Function.Basic

/-! The intrusive `Deque` of `core/base/containers.cppm`. Its nodes lie in the frames of whoever waits,
so the memory is a partial map: a node that is gone cannot be read, and an operation that would read it
is `none`. What the links spell is a list of node addresses. -/

namespace Plexdb

namespace Deque

structure Node (α : Type) where
  value : α
  next : Option Nat
  prev : Option Nat
  deriving DecidableEq

def Node.linkNext {α : Type} (next : Option Nat) (node : Node α) : Node α := { node with next := next }

def Node.linkPrev {α : Type} (prev : Option Nat) (node : Node α) : Node α := { node with prev := prev }

abbrev Memory (α : Type) := Nat → Option (Node α)

end Deque

structure Deque where
  head : Option Nat := none
  tail : Option Nat := none
  length : Nat := 0
  deriving DecidableEq

namespace Deque

variable {α : Type}

/-- Overwrites a node, if there is one to overwrite. -/
def write (f : Node α → Node α) (mem : Memory α) : Option Nat → Option (Memory α)
  | none => some mem
  | some n => (mem n).map fun node => Function.update mem n (some (f node))

/-- `front`: the node at the head. -/
def front (d : Deque) (mem : Memory α) : Option (Nat × Node α) := do
  let n ← d.head
  let node ← mem n
  some (n, node)

def pushBack (d : Deque) (n : Nat) (mem : Memory α) : Option (Deque × Memory α) := do
  let mem ← write (fun node => (node.linkNext none).linkPrev d.tail) mem (some n)
  let mem ← write (Node.linkNext (some n)) mem d.tail
  some (⟨if d.head.isNone then some n else d.head, some n, d.length + 1⟩, mem)

/-- The asserted head is the first that is read. -/
def popFront (d : Deque) (mem : Memory α) : Option (Deque × Memory α) := do
  let (_, node) ← d.front mem
  let mem ← write (Node.linkPrev none) mem node.next
  some (⟨node.next, if node.next.isNone then none else d.tail, d.length - 1⟩, mem)

def remove (d : Deque) (n : Nat) (mem : Memory α) : Option (Deque × Memory α) := do
  let node ← mem n
  let mem ← write (Node.linkNext node.next) mem node.prev
  let mem ← write (Node.linkPrev node.prev) mem node.next
  some (⟨if node.prev.isNone then node.next else d.head, if node.next.isNone then node.prev else d.tail,
    d.length - 1⟩, mem)

@[simp] theorem Node.value_linkNext (next : Option Nat) (node : Node α) : (node.linkNext next).value = node.value := rfl

@[simp] theorem Node.value_linkPrev (prev : Option Nat) (node : Node α) : (node.linkPrev prev).value = node.value := rfl

def valueAt (mem : Memory α) (n : Nat) : Option α := (mem n).map Node.value

/-! ### The list that the links spell -/

/-- The addresses from the head to the tail, each node linked to its neighbours. -/
structure Linked (mem : Memory α) (d : Deque) (l : List Nat) : Prop where
  nodup : l.Nodup
  head : d.head = l.head?
  tail : d.tail = l.getLast?
  length : d.length = l.length
  node : ∀ before n after, l = before ++ n :: after → ∃ v, mem n = some ⟨v, after.head?, before.getLast?⟩

theorem linked_nil (mem : Memory α) : Linked mem {} [] :=
  ⟨List.nodup_nil, rfl, rfl, rfl, fun before n after h => by simp at h⟩

section

variable {mem mem' : Memory α} {d : Deque} {l : List Nat} {n : Nat}

theorem Linked.exists_node (h : Linked mem d l) (hn : n ∈ l) : ∃ node, mem n = some node := by
  obtain ⟨before, after, rfl⟩ := List.append_of_mem hn
  obtain ⟨v, hv⟩ := h.node before n after rfl
  exact ⟨_, hv⟩

/-- Memory outside the list does not matter. -/
theorem Linked.congr (h : Linked mem d l) (hmem : ∀ m ∈ l, mem' m = mem m) : Linked mem' d l := by
  refine ⟨h.nodup, h.head, h.tail, h.length, fun before m after heq => ?_⟩
  rw [hmem m (by rw [heq]; exact List.mem_append_right _ List.mem_cons_self)]
  exact h.node before m after heq

theorem Linked.update (h : Linked mem d l) (hn : n ∉ l) (node : Option (Node α)) :
    Linked (Function.update mem n node) d l := by
  refine h.congr fun m hm => Function.update_of_ne ?_ _ _
  intro heq
  exact hn (heq ▸ hm)

theorem Linked.front_eq (h : Linked mem d (n :: l)) :
    ∃ v, valueAt mem n = some v ∧ d.front mem = some (n, ⟨v, l.head?, none⟩) := by
  obtain ⟨v, hv⟩ := h.node [] n l rfl
  refine ⟨v, by rw [valueAt, hv]; rfl, ?_⟩
  rw [front, h.head]
  simp only [List.head?_cons, Option.bind_eq_bind, Option.bind_some, hv]
  rfl

end

/-! ### Writing through a link -/

section

variable {f : Node α → Node α} {mem mem' : Memory α} {link : Option Nat}

theorem exists_write (f : Node α → Node α) (mem : Memory α) (link : Option Nat)
    (h : ∀ m, link = some m → ∃ node, mem m = some node) :
    ∃ mem', write f mem link = some mem' := by
  cases link with
  | none => exact ⟨mem, rfl⟩
  | some m =>
      obtain ⟨node, hnode⟩ := h m rfl
      exact ⟨_, by rw [write, hnode, Option.map_some]⟩

theorem write_apply (h : write f mem link = some mem') (n : Nat) :
    mem' n = if link = some n then (mem n).map f else mem n := by
  cases link with
  | none => rw [← Option.some.inj h, if_neg (by simp)]
  | some m =>
      obtain ⟨node, hnode, rfl⟩ := Option.map_eq_some_iff.mp h
      by_cases hn : m = n
      · rw [← hn, Function.update_self, if_pos rfl, hnode, Option.map_some]
      · rw [Function.update_of_ne (Ne.symm hn), if_neg fun heq => hn (Option.some.inj heq)]

theorem valueAt_write (hf : ∀ node, (f node).value = node.value) (h : write f mem link = some mem') (n : Nat) :
    valueAt mem' n = valueAt mem n := by
  rw [valueAt, valueAt, write_apply h]
  split_ifs
  · rw [Option.map_map]
    exact congrArg (Option.map · (mem n)) (funext hf)
  · rfl

end

/-! ### The operations on the list -/

section

variable {mem : Memory α} {d : Deque} {l before after : List Nat} {n m : Nat}

theorem getLast?_ne_of_nodup {k : Nat} (h : (before ++ m :: k :: after).Nodup) :
    (before ++ m :: k :: after).getLast? ≠ some m := by
  rw [List.getLast?_append_of_ne_nil _ (List.cons_ne_nil _ _), List.getLast?_cons_cons]
  intro hlast
  exact (List.nodup_cons.mp (List.nodup_append.mp h).2.1).1 (List.mem_of_getLast? hlast)

/-- A waiter joins at the end. -/
theorem Linked.pushBack (h : Linked mem d l) {node : Node α} (hnode : mem n = some node) (hn : n ∉ l) :
    ∃ d' mem', d.pushBack n mem = some (d', mem') ∧ Linked mem' d' (l ++ [n]) ∧
      ∀ k, valueAt mem' k = valueAt mem k := by
  obtain ⟨mem₁, hmem₁⟩ := exists_write (fun node => (node.linkNext none).linkPrev d.tail) mem (some n)
    fun m hm => ⟨node, Option.some.inj hm ▸ hnode⟩
  have hmem₁' := write_apply hmem₁
  have hne : ∀ k ∈ l, n ≠ k := fun k hk heq => hn (heq ▸ hk)
  obtain ⟨mem₂, hmem₂⟩ := exists_write (Node.linkNext (some n)) mem₁ d.tail <| by
    intro m hm
    rw [h.tail] at hm
    have hml := List.mem_of_getLast? hm
    rw [hmem₁', if_neg fun heq => hne m hml (Option.some.inj heq)]
    exact h.exists_node hml
  have hmem₂' := write_apply hmem₂
  refine ⟨_, mem₂, by simp only [Deque.pushBack, hmem₁, hmem₂, Option.bind_eq_bind, Option.bind_some]; rfl, ?_, fun k => ?_⟩
  · constructor
    · exact List.Nodup.append h.nodup (List.nodup_singleton n) (List.disjoint_singleton.mpr hn)
    · cases l with
      | nil => rw [h.head]; rfl
      | cons k ks => rw [h.head]; rfl
    · rw [List.getLast?_concat]
    · rw [h.length, List.length_append, List.length_singleton]
    · intro before m after heq
      rcases List.eq_nil_or_concat after with rfl | ⟨rest, k, rfl⟩
      · -- the new node
        obtain ⟨rfl, hm⟩ := List.append_inj' heq rfl
        obtain rfl := (List.cons.inj hm).1
        have htail : d.tail ≠ some n := fun hlast => hn (List.mem_of_getLast? (h.tail ▸ hlast))
        exact ⟨node.value, by rw [hmem₂', if_neg htail, hmem₁', if_pos rfl, hnode, Option.map_some, h.tail]; rfl⟩
      · rw [List.concat_eq_append, ← List.cons_append, ← List.append_assoc] at heq
        obtain ⟨rfl, hk⟩ := List.append_inj' heq rfl
        obtain rfl := (List.cons.inj hk).1
        obtain ⟨v, hv⟩ := h.node before m rest rfl
        have hnm : n ≠ m := hne m (by simp)
        refine ⟨v, ?_⟩
        rw [hmem₂', hmem₁', if_neg fun heq => hnm (Option.some.inj heq), hv, h.tail, Option.map_some]
        cases rest with
        | nil => rw [if_pos (by simp)]; rfl
        | cons k ks => rw [if_neg (getLast?_ne_of_nodup h.nodup)]; rfl
  · rw [valueAt_write (Node.value_linkNext _) hmem₂, valueAt_write (f := fun node => (node.linkNext none).linkPrev d.tail) (fun _ => rfl) hmem₁]

/-- A node is taken out wherever it stands. -/
theorem Linked.remove (h : Linked mem d (before ++ n :: after)) :
    ∃ d' mem', d.remove n mem = some (d', mem') ∧ Linked mem' d' (before ++ after) ∧
      ∀ k, valueAt mem' k = valueAt mem k := by
  obtain ⟨v, hv⟩ := h.node before n after rfl
  obtain ⟨hbefore, hrest, hdisj⟩ := List.nodup_append.mp h.nodup
  obtain ⟨hnafter, hafter⟩ := List.nodup_cons.mp hrest
  obtain ⟨mem₁, hmem₁⟩ := exists_write (Node.linkNext after.head?) mem before.getLast?
    fun m hm => h.exists_node (List.mem_append_left _ (List.mem_of_getLast? hm))
  have hmem₁' := write_apply hmem₁
  obtain ⟨mem₂, hmem₂⟩ := exists_write (Node.linkPrev before.getLast?) mem₁ after.head? <| by
    intro m hm
    have hmem := h.exists_node (List.mem_append_right before (List.mem_cons_of_mem n (List.mem_of_head? hm)))
    rw [hmem₁', if_neg]
    · exact hmem
    · intro hlast
      exact hdisj m (List.mem_of_getLast? hlast) m (List.mem_cons_of_mem n (List.mem_of_head? hm)) rfl
  have hmem₂' := write_apply hmem₂
  refine ⟨_, mem₂, by simp only [Deque.remove, hv, hmem₁, hmem₂, Option.bind_eq_bind, Option.bind_some]; rfl,
    ?_, fun k => ?_⟩
  · constructor
    · exact List.Nodup.append hbefore hafter fun m hm hm' => hdisj m hm m (List.mem_cons_of_mem n hm') rfl
    · rw [h.head]
      cases before with
      | nil => rfl
      | cons k ks => simp
    · rw [h.tail]
      cases after with
      | nil => simp
      | cons k ks => simp
    · simp only [h.length, List.length_append, List.length_cons]
      omega
    · intro front m back heq
      have hbehind : ∀ c, front = before ++ c → after = c ++ m :: back →
          ∃ v, mem₂ m = some ⟨v, back.head?, front.getLast?⟩ := by
        rintro c rfl hback
        have hfront : before.getLast? ≠ some m := fun hlast =>
          hdisj m (List.mem_of_getLast? hlast) m (by rw [hback]; simp) rfl
        obtain ⟨v, hv⟩ := h.node (before ++ n :: c) m back (by rw [hback]; simp)
        refine ⟨v, ?_⟩
        rw [hmem₂', hmem₁', if_neg hfront, hv, hback]
        cases c with
        | nil => rw [List.nil_append, List.head?_cons, if_pos rfl, List.append_nil]; rfl
        | cons k ks =>
            have hk : k ≠ m := fun heq => by simp [hback, heq] at hafter
            rw [List.cons_append, List.head?_cons, if_neg fun heq => hk (Option.some.inj heq)]
            simp
      rcases List.append_eq_append_iff.mp heq with ⟨c, hc, hback⟩ | ⟨c, rfl, hback⟩
      · exact hbehind c hc hback
      · cases c with
        | nil => exact hbehind [] (by simp) hback.symm
        | cons k ks =>
            obtain ⟨rfl, rfl⟩ := List.cons.inj hback
            have hnext : after.head? ≠ some m := fun hhead =>
              hdisj m (by simp) m (List.mem_cons_of_mem n (List.mem_of_head? hhead)) rfl
            obtain ⟨v, hv⟩ := h.node front m (ks ++ n :: after) (by simp)
            refine ⟨v, ?_⟩
            rw [hmem₂', if_neg hnext, hmem₁', hv]
            cases ks with
            | nil => rw [List.getLast?_concat, if_pos rfl]; rfl
            | cons k ks => rw [if_neg (getLast?_ne_of_nodup hbefore)]; rfl
  · rw [valueAt_write (Node.value_linkPrev _) hmem₂, valueAt_write (Node.value_linkNext _) hmem₁]

/-- The head is taken out. -/
theorem Linked.popFront (h : Linked mem d (n :: l)) :
    ∃ d' mem', d.popFront mem = some (d', mem') ∧ Linked mem' d' l ∧ ∀ k, valueAt mem' k = valueAt mem k := by
  obtain ⟨v, hv⟩ := h.node [] n l rfl
  have h' : Linked mem d ([] ++ n :: l) := h
  obtain ⟨d', mem', hremove, hlinked, hvalue⟩ := h'.remove
  refine ⟨d', mem', ?_, hlinked, hvalue⟩
  obtain ⟨v', -, hfront⟩ := h.front_eq
  rw [← hremove]
  simp only [Deque.popFront, Deque.remove, hfront, hv, Option.bind_eq_bind, Option.bind_some]
  rfl

end

end Deque

end Plexdb
