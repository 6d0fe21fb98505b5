import Mathlib
import Plexdb.Runs
import Plexdb.SlottedInternalSteps

/-! Runs of operations on slotted internal pages. The pages of one tree have one layout, and a suffix is copied from one
of them to an empty one. -/

namespace Plexdb.Slots.InternalPages

open ByteArea
open SlottedInternalPage (Valid Keyed FitsKey FitsInstead FitsSuffix keyIn keysIn)

/-- The children have a region within the page, at least the first of them. -/
structure InternalLayout where
  pageSize : UInt16
  maxChildren : Nat
  first : 1 ≤ maxChildren
  region : 8 * maxChildren ≤ pageSize.toNat

theorem region_ofNode {n : Nat} (h : 16 ≤ n) : 8 * (n / (internalSlotBytes + 1 + nodeRefBytes) + 1) ≤ n := by
  rw [internalSlotBytes, nodeRefBytes]
  omega

/-- The layout that `internal_page` gives the pages of a node: a child for each key of one byte, and one more. -/
def InternalLayout.ofNode (pageCap : UInt16) (hcap : 16 ≤ pageCap.toNat) : InternalLayout where
  pageSize := pageCap
  maxChildren := pageCap.toNat / (internalSlotBytes + 1 + nodeRefBytes) + 1
  first := Nat.le_add_left 1 _
  region := region_ofNode hcap

def freshInternal (l : InternalLayout) (mem : Memory) : SlottedInternalPage :=
  { mem, count := 0, slotEnd := 0, dataLow := l.pageSize.toNat - 8 * l.maxChildren, pageSize := l.pageSize.toNat,
    maxChildren := l.maxChildren }

inductive InternalOp where
  | insert (page : Nat) (staging : Memory) (i : Nat) (k : Bytes) (c : Nat) (ref : UInt64)
  | replaceKey (page : Nat) (staging : Memory) (i : Nat) (k : Bytes)
  | remove (page i : Nat)
  | removeFront (page : Nat)
  | compact (page : Nat) (staging : Memory)
  | copySuffixTo (src start dst : Nat)

abbrev Pages := Nat → SlottedInternalPage

/-- `insert_key`, and `insert_child` when that had room. -/
def insertEntry (p : SlottedInternalPage) (staging : Memory) (i : Nat) (k : Bytes) (c : Nat) (ref : UInt64) :
    Option (SlottedInternalPage × Bool) := do
  let (p, ok) ← p.insertKey staging i k
  if ok then
    let p ← p.insertChild c ref.toNat
    pure (p, true)
  else pure (p, false)

/-- The pages after an operation, and whether it reports success. -/
def internalStep (s : Pages) : InternalOp → Option (Pages × Bool)
  | .insert page staging i k c ref =>
      (insertEntry (s page) staging i k c ref).map fun r => (Function.update s page r.1, r.2)
  | .replaceKey page staging i k =>
      ((s page).replaceKey staging i k).map fun r => (Function.update s page r.1, r.2)
  | .remove page i => ((s page).remove i).map fun p => (Function.update s page p, true)
  | .removeFront page => ((s page).removeFront).map fun p => (Function.update s page p, true)
  | .compact page staging => ((s page).compact staging).map fun p => (Function.update s page p, true)
  | .copySuffixTo src start dst => ((s src).copySuffixTo start (s dst)).map fun p => (Function.update s dst p, true)

/-! ### The same operations on lists -/

structure NodeLists where
  keys : List Bytes
  children : List Nat

/-- What an operation that reports success does to the lists. -/
def listStep (lists : Nat → NodeLists) : InternalOp → Nat → NodeLists
  | .insert page _ i k c ref =>
      Function.update lists page ⟨(lists page).keys.insertIdx i k, (lists page).children.insertIdx c ref.toNat⟩
  | .replaceKey page _ i k => Function.update lists page ⟨(lists page).keys.set i k, (lists page).children⟩
  | .remove page i =>
      Function.update lists page ⟨(lists page).keys.eraseIdx i, (lists page).children.eraseIdx (i + 1)⟩
  | .removeFront page => Function.update lists page ⟨(lists page).keys.tail, (lists page).children.tail⟩
  | .compact _ _ => lists
  | .copySuffixTo src start dst =>
      Function.update lists dst ⟨(lists src).keys.drop start, (lists src).children.drop start⟩

/-- The pages, with the lists that the operations have led to. One that reports failure leaves the lists. -/
structure Tracked where
  pages : Pages
  lists : Nat → NodeLists

def trackedStep (t : Tracked) (op : InternalOp) : Option Tracked :=
  (internalStep t.pages op).map fun r => ⟨r.1, if r.2 then listStep t.lists op else t.lists⟩

/-- A fresh page has one child, whatever its memory holds. -/
def Tracked.fresh (l : InternalLayout) (mem : Nat → Memory) : Tracked :=
  ⟨fun n => freshInternal l (mem n), fun n => ⟨[], (freshInternal l (mem n)).children⟩⟩

/-- The positions exist, and a suffix goes to an empty page. -/
def Proper (s : Pages) : InternalOp → Prop
  | .insert page _ i _ c _ => i ≤ (s page).count ∧ c ≤ (s page).count + 1
  | .replaceKey page _ i _ => i < (s page).count
  | .remove page i => i < (s page).count
  | .removeFront page => 0 < (s page).count
  | .compact _ _ => True
  | .copySuffixTo src start dst => start ≤ (s src).count ∧ (s dst).count = 0

/-- The key at a position does not lie below the bytes in use. Only a key without bytes can. -/
def InUse (p : SlottedInternalPage) (i : Nat) : Prop := p.dataLow ≤ (internalSlot p.mem i).off

/-- An insertion that finds room adds up to a `U16` and has room for the child too; a replacement finds room, or the
old key still stands where it stood; a key that goes is not below the bytes in use; and a suffix has room in the other
page. -/
def Safe (s : Pages) : InternalOp → Prop
  | .insert page _ _ k _ _ =>
      FitsKey (s page) k → internalSlotBytes + k.length < 2 ^ 16 ∧ (s page).count + 2 ≤ (s page).maxChildren
  | .replaceKey page _ i k =>
      InUse (s page) i ∧ (FitsInstead (s page) i k ∨ (s page).stale i = keyIn (s page).mem i)
  | .remove page i => InUse (s page) i
  | .removeFront page => InUse (s page) 0
  | .compact _ _ => True
  | .copySuffixTo src start dst => FitsSuffix (s src) start (s dst)

instance (p : SlottedInternalPage) (i : Nat) : Decidable (InUse p i) := inferInstanceAs (Decidable (_ ≤ _))

instance (s : Pages) : (op : InternalOp) → Decidable (Proper s op)
  | .insert _ _ _ _ _ _ => inferInstanceAs (Decidable (_ ∧ _))
  | .replaceKey _ _ _ _ => inferInstanceAs (Decidable (_ < _))
  | .remove _ _ => inferInstanceAs (Decidable (_ < _))
  | .removeFront _ => inferInstanceAs (Decidable (_ < _))
  | .compact _ _ => inferInstanceAs (Decidable True)
  | .copySuffixTo _ _ _ => inferInstanceAs (Decidable (_ ∧ _))

instance (s : Pages) : (op : InternalOp) → Decidable (Safe s op)
  | .insert _ _ _ _ _ _ => inferInstanceAs (Decidable (_ → _))
  | .replaceKey _ _ _ _ => inferInstanceAs (Decidable (_ ∧ _))
  | .remove _ _ => inferInstanceAs (Decidable (InUse _ _))
  | .removeFront _ => inferInstanceAs (Decidable (InUse _ _))
  | .compact _ _ => inferInstanceAs (Decidable True)
  | .copySuffixTo _ _ _ => inferInstanceAs (Decidable (FitsSuffix _ _ _))

/-! ### The invariant -/

/-- The page is as its layout says and represents the lists. -/
structure Represents (l : InternalLayout) (p : SlottedInternalPage) (node : NodeLists) : Prop where
  valid : Valid p
  keys : p.keys = node.keys
  children : p.children = node.children
  size : p.pageSize = l.pageSize.toNat
  maxChildren : p.maxChildren = l.maxChildren

def InternalInv (l : InternalLayout) (t : Tracked) : Prop := ∀ n, Represents l (t.pages n) (t.lists n)

section

variable {l : InternalLayout} {t : Tracked} {p : SlottedInternalPage} {node : NodeLists} {n i : Nat} {k : Bytes}
  {op : InternalOp} {staging mem : Memory}

theorem represents_fresh (l : InternalLayout) (mem : Memory) :
    Represents l (freshInternal l mem) ⟨[], (freshInternal l mem).children⟩ := by
  have hsize := l.pageSize.toNat_lt
  have husable : (freshInternal l mem).usable = l.pageSize.toNat - 8 * l.maxChildren :=
    SlottedInternalPage.usable_eq hsize l.region
  refine ⟨⟨⟨hsize, l.region, rfl, Nat.zero_le _, ?_, Laid.nil _ _⟩, l.first⟩, rfl, rfl, rfl, rfl⟩
  rw [husable]
  exact le_rfl

theorem InternalInv.update (h : InternalInv l t) (hp : Represents l p node) :
    InternalInv l ⟨Function.update t.pages n p, Function.update t.lists n node⟩ := by
  intro n'
  by_cases hn : n' = n
  · subst hn
    dsimp only
    rw [Function.update_self, Function.update_self]
    exact hp
  · dsimp only
    rw [Function.update_of_ne hn, Function.update_of_ne hn]
    exact h n'

/-- A page that still represents its lists. -/
theorem InternalInv.updatePage (h : InternalInv l t) (hp : Represents l p (t.lists n)) :
    InternalInv l ⟨Function.update t.pages n p, t.lists⟩ := by
  have hupdate := h.update (n := n) hp
  rwa [Function.update_eq_self] at hupdate

theorem Represents.insert (h : Represents l p node) (staging : Memory) {c : Nat} (ref : UInt64) (hi : i ≤ p.count)
    (hc : c ≤ p.count + 1)
    (hsafe : FitsKey p k → internalSlotBytes + k.length < 2 ^ 16 ∧ p.count + 2 ≤ p.maxChildren) :
    ∃ p', insertEntry p staging i k c ref = some (p', decide (FitsKey p k)) ∧
      Represents l p' (if FitsKey p k then ⟨node.keys.insertIdx i k, node.children.insertIdx c ref.toNat⟩ else node) := by
  rw [insertEntry]
  by_cases hfits : FitsKey p k
  · obtain ⟨hlen, hspare⟩ := hsafe hfits
    obtain ⟨q, p', hq, hp', hvalid, hkeys, hchildren, hsize, hmax⟩ := h.valid.insert staging hi hc hlen hfits hspare
      (by exact ref.toNat_lt : ref.toNat < 256 ^ nodeRefBytes)
    refine ⟨p', ?_, ?_⟩
    · rw [hq]
      simp only [Option.bind_eq_bind, Option.bind_some, if_true, hp', decide_eq_true hfits]
      rfl
    · rw [if_pos hfits]
      exact ⟨hvalid, by rw [hkeys, h.keys], by rw [hchildren, h.children], hsize.trans h.size,
        hmax.trans h.maxChildren⟩
  · obtain ⟨q, hq, hkeyed, hkeys, hcount, hregion⟩ := h.valid.insertKey_fails staging i hfits
    refine ⟨q, ?_, ?_⟩
    · rw [hq, decide_eq_false hfits]
      rfl
    · rw [if_neg hfits]
      have hspare : q.count + 1 ≤ q.maxChildren := by
        rw [hcount, hregion.maxChildren]
        exact h.valid.spare
      exact ⟨⟨hkeyed, hspare⟩, hkeys.trans h.keys, (hregion.children hcount).trans h.children,
        hregion.size.trans h.size, hregion.maxChildren.trans h.maxChildren⟩

theorem Represents.replaceKey (h : Represents l p node) (staging : Memory) (k : Bytes) (hi : i < p.count)
    (huse : InUse p i) :
    ∃ p', p.replaceKey staging i k = some (p', decide (FitsInstead p i k)) ∧
      Represents l p' ⟨node.keys.set i (if FitsInstead p i k then k else p.stale i), node.children⟩ := by
  obtain ⟨p', hp', hkeyed, hkeys, hcount, hregion⟩ := h.valid.replaceKey (k := k) staging hi huse
  have hspare : p'.count + 1 ≤ p'.maxChildren := by
    rw [hcount, hregion.maxChildren]
    exact h.valid.spare
  exact ⟨p', hp', ⟨hkeyed, hspare⟩, by rw [hkeys, h.keys], (hregion.children hcount).trans h.children,
    hregion.size.trans h.size, hregion.maxChildren.trans h.maxChildren⟩

theorem Represents.getElem_keys (h : Represents l p node) (hi : i < p.count) :
    node.keys.set i (keyIn p.mem i) = node.keys := by
  have hlen : i < (keysIn p.mem p.count).length := by rwa [SlottedInternalPage.length_keysIn]
  rw [← h.keys, SlottedInternalPage.keys, ← SlottedInternalPage.getElem_keysIn hlen, List.set_getElem_self]

/-- A replacement that reports failure keeps the list if and only if the old key still stands where it stood. -/
theorem Represents.replaceKey_fails (h : Represents l p node) (hi : i < p.count) (huse : InUse p i)
    {p' : SlottedInternalPage} (hp' : p.replaceKey staging i k = some (p', false)) :
    Represents l p' node ↔ p.stale i = keyIn p.mem i := by
  obtain ⟨q, hq, hrep⟩ := h.replaceKey staging k hi huse
  rw [hq] at hp'
  obtain ⟨rfl, hfits⟩ := Prod.mk.inj (Option.some.inj hp')
  rw [if_neg (of_decide_eq_false hfits)] at hrep
  have hlen : i < node.keys.length := by
    rw [← h.keys, SlottedInternalPage.length_keys]
    exact hi
  constructor
  · intro hsame
    have hset : node.keys.set i (p.stale i) = node.keys.set i (keyIn p.mem i) := by
      rw [h.getElem_keys hi]
      exact hrep.keys.symm.trans hsame.keys
    have hat : (node.keys.set i (p.stale i))[i]? = (node.keys.set i (keyIn p.mem i))[i]? := congrArg (·[i]?) hset
    rw [List.getElem?_set_self hlen, List.getElem?_set_self hlen] at hat
    exact Option.some.inj hat
  · intro hstale
    rw [hstale, h.getElem_keys hi] at hrep
    exact hrep

/-- A step that meets the condition is taken, and it takes the lists along. -/
theorem InternalInv.step (h : InternalInv l t) (hproper : Proper t.pages op) (hsafe : Safe t.pages op) :
    ∃ t', trackedStep t op = some t' ∧ InternalInv l t' := by
  cases op with
  | insert page staging i k c ref =>
      obtain ⟨p, hp, hrep⟩ := (h page).insert staging ref hproper.1 hproper.2 hsafe
      by_cases hfits : FitsKey (t.pages page) k
      · rw [if_pos hfits] at hrep
        rw [decide_eq_true hfits] at hp
        exact ⟨_, by rw [trackedStep, internalStep, hp]; rfl, h.update hrep⟩
      · rw [if_neg hfits] at hrep
        rw [decide_eq_false hfits] at hp
        exact ⟨_, by rw [trackedStep, internalStep, hp]; rfl, h.updatePage hrep⟩
  | replaceKey page staging i k =>
      have hi : i < (t.pages page).count := hproper
      obtain ⟨huse, hroom⟩ := hsafe
      obtain ⟨p, hp, hrep⟩ := (h page).replaceKey staging k hi huse
      by_cases hfits : FitsInstead (t.pages page) i k
      · rw [if_pos hfits] at hrep
        rw [decide_eq_true hfits] at hp
        exact ⟨_, by rw [trackedStep, internalStep, hp]; rfl, h.update hrep⟩
      · rw [if_neg hfits, hroom.resolve_left hfits, (h page).getElem_keys hi] at hrep
        rw [decide_eq_false hfits] at hp
        exact ⟨_, by rw [trackedStep, internalStep, hp]; rfl, h.updatePage hrep⟩
  | remove page i =>
      obtain ⟨hvalid, hkeys, hchildren, hsize, hmax⟩ := h page
      obtain ⟨p, hp, hvalid', hkeys', hchildren', hsize', hmax'⟩ := hvalid.remove hproper hsafe
      rw [hkeys] at hkeys'
      rw [hchildren] at hchildren'
      exact ⟨_, by rw [trackedStep, internalStep, hp]; rfl,
        h.update ⟨hvalid', hkeys', hchildren', hsize'.trans hsize, hmax'.trans hmax⟩⟩
  | removeFront page =>
      obtain ⟨hvalid, hkeys, hchildren, hsize, hmax⟩ := h page
      obtain ⟨p, hp, hvalid', hkeys', hchildren', hsize', hmax'⟩ := hvalid.removeFront hproper hsafe
      rw [hkeys] at hkeys'
      rw [hchildren] at hchildren'
      exact ⟨_, by rw [trackedStep, internalStep, hp]; rfl,
        h.update ⟨hvalid', hkeys', hchildren', hsize'.trans hsize, hmax'.trans hmax⟩⟩
  | compact page staging =>
      obtain ⟨hvalid, hkeys, hchildren, hsize, hmax⟩ := h page
      obtain ⟨p, hp, hkeyed, hkeys', hcount, -, hregion⟩ := hvalid.readable.compact staging
      have hspare : p.count + 1 ≤ p.maxChildren := by
        rw [hcount, hregion.maxChildren]
        exact hvalid.spare
      exact ⟨_, by rw [trackedStep, internalStep, hp]; rfl,
        h.updatePage ⟨⟨hkeyed, hspare⟩, hkeys'.trans hkeys, (hregion.children hcount).trans hchildren,
          hregion.size.trans hsize, hregion.maxChildren.trans hmax⟩⟩
  | copySuffixTo src start dst =>
      obtain ⟨hvalid, hkeys, hchildren, hsize, hmax⟩ := h src
      obtain ⟨hdst, -, -, hdsize, hdmax⟩ := h dst
      obtain ⟨p, hp, hvalid', hkeys', hchildren', hsize', hmax'⟩ := hvalid.copySuffixTo hdst hproper.2
        (hdsize.trans hsize.symm) (hdmax.trans hmax.symm) hproper.1 hsafe
      rw [hkeys] at hkeys'
      rw [hchildren] at hchildren'
      exact ⟨_, by rw [trackedStep, internalStep, hp]; rfl,
        h.update ⟨hvalid', hkeys', hchildren', hsize'.trans hdsize, hmax'.trans hdmax⟩⟩

end

theorem internalRun_inv {l : InternalLayout} {t t' : Tracked} {ops : List InternalOp}
    (hrun : Run trackedStep (fun t op => Proper t.pages op ∧ Safe t.pages op) t ops t') (h : InternalInv l t) :
    InternalInv l t' := by
  refine hrun.invariant (fun t op t₁ h cond hstep => ?_) h
  obtain ⟨t₂, hstep', h'⟩ := h.step cond.1 cond.2
  rw [hstep] at hstep'
  cases hstep'
  exact h'

section

variable {l : InternalLayout} {p p' : SlottedInternalPage} {node : NodeLists} {i c : Nat} {k : Bytes} {ref : UInt64}
  {staging : Memory}

/-- An insertion that reports failure keeps the lists. -/
theorem Represents.insert_fails (h : Represents l p node) (hfails : insertEntry p staging i k c ref = some (p', false)) :
    Represents l p' node := by
  have hkey : p.insertKey staging i k = some (p', false) := by
    rw [insertEntry] at hfails
    obtain ⟨⟨q, ok⟩, hq, hrest⟩ := Option.bind_eq_some_iff.mp hfails
    cases ok with
    | true =>
        obtain ⟨r, -, hr⟩ := Option.bind_eq_some_iff.mp hrest
        cases hr
    | false =>
        cases hrest
        exact hq
  have hfits := h.valid.insertKey_false hkey
  obtain ⟨q, hq, hkeyed, hkeys, hcount, hregion⟩ := h.valid.insertKey_fails staging i hfits
  rw [hkey] at hq
  cases hq
  have hspare : p'.count + 1 ≤ p'.maxChildren := by
    rw [hcount, hregion.maxChildren]
    exact h.valid.spare
  exact ⟨⟨hkeyed, hspare⟩, hkeys.trans h.keys, (hregion.children hcount).trans h.children,
    hregion.size.trans h.size, hregion.maxChildren.trans h.maxChildren⟩

/-- Operations that close the gap of a key are carried out only when it is in use. -/
theorem Represents.inUse (h : Represents l p node) (hsome : (p.replaceKey staging i k).isSome ∨ (p.remove i).isSome ∨
    i = 0 ∧ (p.removeFront).isSome) : InUse p i := by
  refine h.valid.inUse_of_closeGap ?_
  rcases hsome with hsome | hsome | ⟨rfl, hsome⟩
  · exact Option.isSome_of_isSome_bind hsome
  · exact Option.isSome_of_isSome_bind hsome
  · exact Option.isSome_of_isSome_bind hsome

end

/-- In every run whose steps meet the condition, every page represents the lists that the same operations on lists lead
to, with one more child than keys, the keys apart from each other between the slots and the children; and every further
operation that meets the condition is carried out. An insertion that reports failure keeps the lists; a replacement that
does keeps them if and only if it meets the condition; and one that closes the gap of a key is carried out only when the
key is in use. -/
theorem internalPages_run (l : InternalLayout) (mem : Nat → Memory) (ops : List InternalOp) (t : Tracked)
    (hrun : Run trackedStep (fun t op => Proper t.pages op ∧ Safe t.pages op) (Tracked.fresh l mem) ops t) :
    (∀ n, Represents l (t.pages n) (t.lists n) ∧ (t.lists n).children.length = (t.lists n).keys.length + 1) ∧
    (∀ op, Proper t.pages op → Safe t.pages op → (internalStep t.pages op).isSome) ∧
    (∀ n staging i k c ref p, insertEntry (t.pages n) staging i k c ref = some (p, false) → Represents l p (t.lists n)) ∧
    (∀ n staging i k p, Proper t.pages (.replaceKey n staging i k) →
      (t.pages n).replaceKey staging i k = some (p, false) →
        (Represents l p (t.lists n) ↔ Safe t.pages (.replaceKey n staging i k))) ∧
    ∀ n staging i k, ((t.pages n).replaceKey staging i k).isSome ∨ ((t.pages n).remove i).isSome ∨
      i = 0 ∧ ((t.pages n).removeFront).isSome → InUse (t.pages n) i := by
  have h : InternalInv l t := internalRun_inv hrun fun n => represents_fresh l (mem n)
  refine ⟨fun n => ⟨h n, ?_⟩, fun op hproper hsafe => ?_, fun n staging i k c ref p hp => (h n).insert_fails hp,
    fun n staging i k p hi hp => ?_, fun n staging i k hsome => (h n).inUse hsome⟩
  · rw [← (h n).keys, ← (h n).children, SlottedInternalPage.length_keys, SlottedInternalPage.length_children]
  · obtain ⟨t', ht', -⟩ := h.step hproper hsafe
    rw [trackedStep] at ht'
    obtain ⟨r, hr, -⟩ := Option.map_eq_some_iff.mp ht'
    rw [hr]
    rfl
  · have huse : InUse (t.pages n) i := (h n).inUse (.inl (by rw [hp]; rfl))
    obtain ⟨q, hq, -⟩ := (h n).replaceKey staging k hi huse
    rw [hq] at hp
    have hfits := of_decide_eq_false (Prod.mk.inj (Option.some.inj hp)).2
    refine ((h n).replaceKey_fails hi huse (hq.trans hp)).trans ⟨fun hstale => ⟨huse, .inr hstale⟩, fun hsafe => ?_⟩
    exact hsafe.2.resolve_left hfits

def smallLayout : InternalLayout := InternalLayout.ofNode 64 (by decide)

/-- Two keys are inserted, the first gets another length, the second is removed, and the rest goes to an empty page. -/
def movedKey : List InternalOp :=
  [.insert 0 (fun _ => 0) 0 [1] 1 7, .insert 0 (fun _ => 0) 1 [2, 3] 2 8, .replaceKey 0 (fun _ => 0) 0 [4, 5, 6],
    .remove 0 1, .copySuffixTo 0 0 1]

theorem internalPages_run_movedKey : ∃ t : Tracked, Represents smallLayout (t.pages 1) (t.lists 1) ∧
    (t.lists 1).keys = [[4, 5, 6]] ∧ (t.lists 1).children = [0, 7] := by
  have hlists : ((runAll trackedStep (fun t op => decide (Proper t.pages op ∧ Safe t.pages op))
      (Tracked.fresh smallLayout fun _ _ => 0) movedKey).map fun t =>
        decide ((t.lists 1).keys = [[4, 5, 6]] ∧ (t.lists 1).children = [0, 7])) = some true := by
    decide +kernel
  obtain ⟨t, ht, hend⟩ := Option.map_eq_some_iff.mp hlists
  have hrun := (Run.of_runAll ht).mono fun _ _ hcond => of_decide_eq_true hcond
  exact ⟨t, ((internalPages_run smallLayout (fun _ _ => 0) movedKey t hrun).1 1).1, of_decide_eq_true hend⟩

/-- The new key of a replacement has no room. -/
def longKey : List InternalOp :=
  [.insert 0 (fun _ => 0) 0 [1, 1] 1 7, .insert 0 (fun _ => 0) 1 [2, 2, 2, 2] 2 8,
    .replaceKey 0 (fun _ => 0) 0 (List.replicate 30 3)]

/-- The bytes of the second key have moved up over those of the first, which the page no longer holds. -/
theorem internalPages_run_failing : ∃ t : Tracked,
    Run trackedStep (fun t op => Proper t.pages op) (Tracked.fresh smallLayout fun _ _ => 0) longKey t ∧
      (t.lists 0).keys = [[1, 1], [2, 2, 2, 2]] ∧ (t.pages 0).keys = [[2, 2], [2, 2, 2, 2]] := by
  have hkeys : ((runAll trackedStep (fun t op => decide (Proper t.pages op))
      (Tracked.fresh smallLayout fun _ _ => 0) longKey).map fun t =>
        decide ((t.lists 0).keys = [[1, 1], [2, 2, 2, 2]] ∧ (t.pages 0).keys = [[2, 2], [2, 2, 2, 2]])) = some true := by
    decide +kernel
  obtain ⟨t, ht, hend⟩ := Option.map_eq_some_iff.mp hkeys
  exact ⟨t, (Run.of_runAll ht).mono fun _ _ hcond => of_decide_eq_true hcond, of_decide_eq_true hend⟩

end Plexdb.Slots.InternalPages
