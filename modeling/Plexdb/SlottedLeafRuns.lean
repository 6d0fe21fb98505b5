import Mathlib
import Plexdb.Runs
import Plexdb.SlottedLeafSteps

/-! Runs of operations on slotted leaf pages. The pages of one tree have one size, and a suffix is copied from one of
them to an empty one. -/

namespace Plexdb.Slots

open ByteArea

inductive LeafOp where
  | insert (page : Nat) (staging : Memory) (i : Nat) (k v : Bytes)
  | remove (page i : Nat)
  | compact (page : Nat) (staging : Memory)
  | copySuffixTo (src start dst : Nat)

abbrev LeafPages := Nat → SlottedLeafPage

def freshLeaf (pageSize : UInt16) (mem : Memory) : SlottedLeafPage :=
  { mem, count := 0, slotEnd := 0, dataLow := pageSize.toNat, pageSize := pageSize.toNat }

def leafStep (s : LeafPages) : LeafOp → Option LeafPages
  | .insert page staging i k v => ((s page).insert staging i k v).map fun r => Function.update s page r.1
  | .remove page i => ((s page).remove i).map fun p => Function.update s page p
  | .compact page staging => ((s page).compact staging).map fun p => Function.update s page p
  | .copySuffixTo src start dst => ((s src).copySuffixTo start (s dst)).map fun p => Function.update s dst p

/-- The positions exist, and a suffix goes to an empty page. -/
def Proper (s : LeafPages) : LeafOp → Prop
  | .insert page _ i _ _ => i ≤ (s page).count
  | .remove page i => i < (s page).count
  | .compact _ _ => True
  | .copySuffixTo src start dst => start ≤ (s src).count ∧ (s dst).count = 0

/-- The lengths of an entry and of its slot add up to a `U16`, or the page has not even room for the remainder, and a
removal has room for its two moves. -/
def Safe (s : LeafPages) : LeafOp → Prop
  | .insert page _ _ k v =>
      leafSlotBytes + k.length + v.length < 2 ^ 16 ∨ (s page).freeSpace < SlottedLeafPage.needed k v
  | .remove page i => Removable (s page) i
  | .compact _ _ => True
  | .copySuffixTo _ _ _ => True

instance (s : LeafPages) : (op : LeafOp) → Decidable (Proper s op)
  | .insert _ _ _ _ _ => inferInstanceAs (Decidable (_ ≤ _))
  | .remove _ _ => inferInstanceAs (Decidable (_ < _))
  | .compact _ _ => inferInstanceAs (Decidable True)
  | .copySuffixTo _ _ _ => inferInstanceAs (Decidable (_ ∧ _))

instance (s : LeafPages) : (op : LeafOp) → Decidable (Safe s op)
  | .insert _ _ _ _ _ => inferInstanceAs (Decidable (_ ∨ _))
  | .remove _ _ => inferInstanceAs (Decidable (Removable _ _))
  | .compact _ _ => inferInstanceAs (Decidable True)
  | .copySuffixTo _ _ _ => inferInstanceAs (Decidable True)

/-- The same operations on lists of entries. -/
def listStep (pageSize : Nat) (lists : Nat → List Entry) : LeafOp → Nat → List Entry
  | .insert page _ i k v =>
      if Fits pageSize ((lists page).insertIdx i (k, v)) then
        Function.update lists page ((lists page).insertIdx i (k, v))
      else lists
  | .remove page i => Function.update lists page ((lists page).eraseIdx i)
  | .compact _ _ => lists
  | .copySuffixTo src start dst => Function.update lists dst ((lists src).drop start)

def listsAfter (pageSize : Nat) (ops : List LeafOp) : Nat → List Entry := ops.foldl (listStep pageSize) fun _ => []

/-- Every page represents its list, and no byte between its slots and its end is lost. -/
def LeafInv (pageSize : Nat) (s : LeafPages) (lists : Nat → List Entry) : Prop :=
  ∀ n, Represents (s n) (lists n) ∧ Tight (s n) (lists n) ∧ (s n).pageSize = pageSize

theorem represents_fresh (pageSize : UInt16) (mem : Memory) :
    Represents (freshLeaf pageSize mem) [] ∧ Tight (freshLeaf pageSize mem) [] := by
  refine ⟨?_, rfl⟩
  constructor
  · exact pageSize.toNat_lt
  · rfl
  · rfl
  · exact Nat.zero_le _
  · exact le_rfl
  · exact Laid.nil _ _
  · intro s hs
    exact absurd hs List.not_mem_nil
  · exact .nil

section

variable {pageSize : Nat} {s s' : LeafPages} {lists : Nat → List Entry} {op : LeafOp}

theorem LeafInv.update (h : LeafInv pageSize s lists) {n : Nat} {p : SlottedLeafPage} {es : List Entry}
    (hrep : Represents p es) (htight : Tight p es) (hsize : p.pageSize = pageSize) :
    LeafInv pageSize (Function.update s n p) (Function.update lists n es) := by
  intro n'
  by_cases hn : n' = n
  · subst hn
    rw [Function.update_self, Function.update_self]
    exact ⟨hrep, htight, hsize⟩
  · rw [Function.update_of_ne hn, Function.update_of_ne hn]
    exact h n'

/-- An insertion that meets the condition tells whether the entry fits. -/
theorem LeafInv.insert (h : LeafInv pageSize s lists) (staging : Memory) {page i : Nat} {k v : Bytes}
    (hi : i ≤ (s page).count)
    (hsafe : leafSlotBytes + k.length + v.length < 2 ^ 16 ∨ (s page).freeSpace < SlottedLeafPage.needed k v) :
    ∃ p, (s page).insert staging i k v = some (p, decide (Fits pageSize ((lists page).insertIdx i (k, v)))) ∧
      LeafInv pageSize (Function.update s page p) (listStep pageSize lists (.insert page staging i k v)) := by
  obtain ⟨hrep, htight, hsize⟩ := h page
  have hi' := hi.trans_eq hrep.count
  rw [listStep]
  rcases Nat.lt_or_ge (leafSlotBytes + k.length + v.length) (2 ^ 16) with hlen | hlen
  · obtain ⟨p, hp, hrep', htight', hsize'⟩ := hrep.insert staging hi' hlen
    rw [hsize] at hp hrep' htight' hsize'
    refine ⟨p, hp, ?_⟩
    have hupdate := h.update (n := page) hrep' (htight' htight) hsize'
    split_ifs at hupdate ⊢
    · exact hupdate
    · rwa [Function.update_eq_self] at hupdate
  · obtain ⟨p, hp, hfits, hrep', htight', hsize'⟩ := hrep.insert_long htight staging hi' hlen
      (hsafe.resolve_left (Nat.not_lt.mpr hlen))
    rw [hsize] at hp hfits hsize'
    refine ⟨p, hp, ?_⟩
    have hupdate := h.update (n := page) hrep' htight' hsize'
    rw [if_neg hfits]
    rwa [Function.update_eq_self] at hupdate

/-- A step that meets the condition is taken, and it takes the lists along. -/
theorem LeafInv.step (h : LeafInv pageSize s lists) (hproper : Proper s op) (hsafe : Safe s op) :
    ∃ s', leafStep s op = some s' ∧ LeafInv pageSize s' (listStep pageSize lists op) := by
  cases op with
  | insert page staging i k v =>
      obtain ⟨p, hp, h'⟩ := h.insert staging hproper hsafe
      exact ⟨_, by rw [leafStep, hp]; rfl, h'⟩
  | remove page i =>
      obtain ⟨hrep, htight, hsize⟩ := h page
      have hi : i < (s page).count := hproper
      obtain ⟨p, hp, hrep', hroom, hsize'⟩ := hrep.remove (hi.trans_eq hrep.count) hsafe
      refine ⟨_, by rw [leafStep, hp]; rfl, h.update hrep' ?_ (hsize'.trans hsize)⟩
      rw [Tight] at htight ⊢
      omega
  | compact page staging =>
      obtain ⟨hrep, htight, hsize⟩ := h page
      obtain ⟨p, hp, hrep', htight', hsize', -⟩ := hrep.compact staging
      refine ⟨_, by rw [leafStep, hp]; rfl, ?_⟩
      have hupdate := h.update (n := page) hrep' htight' (hsize'.trans hsize)
      rwa [Function.update_eq_self] at hupdate
  | copySuffixTo src start dst =>
      obtain ⟨hrep, -, hsize⟩ := h src
      obtain ⟨hdst, hdtight, hdsize⟩ := h dst
      have hnil : lists dst = [] := List.eq_nil_of_length_eq_zero (hdst.count.symm.trans hproper.2)
      rw [hnil] at hdst hdtight
      obtain ⟨p, hp, hrep', htight', hsize'⟩ := hrep.copySuffixTo hdst hdtight (hdsize.trans hsize.symm)
        (hproper.1.trans_eq hrep.count)
      exact ⟨_, by rw [leafStep, hp]; rfl, h.update hrep' htight' (hsize'.trans hdsize)⟩

end

theorem leafRun_inv {pageSize : Nat} {s s' : LeafPages} {lists : Nat → List Entry} {ops : List LeafOp}
    (hrun : Run leafStep (fun s op => Proper s op ∧ Safe s op) s ops s') (h : LeafInv pageSize s lists) :
    LeafInv pageSize s' (ops.foldl (listStep pageSize) lists) := by
  induction hrun generalizing lists with
  | nil s => exact h
  | cons cond hstep _ ih =>
      obtain ⟨s₁, hstep', h'⟩ := h.step cond.1 cond.2
      rw [hstep] at hstep'
      cases hstep'
      exact ih h'

/-- In every run whose insertions add up to `U16`s and whose removals have room for their moves, every page represents
the list that the same operations on lists lead to, nothing overlaps or is lost, every further operation that meets the
condition is carried out, a removal that does not is not, and an insertion fails only when the entry does not fit after
compaction. -/
theorem leafPages_run (pageSize : UInt16) (mem : Nat → Memory) (ops : List LeafOp) (s : LeafPages)
    (hrun : Run leafStep (fun s op => Proper s op ∧ Safe s op) (fun n => freshLeaf pageSize (mem n)) ops s) :
    (∀ n, Represents (s n) (listsAfter pageSize.toNat ops n) ∧ Tight (s n) (listsAfter pageSize.toNat ops n)) ∧
    (∀ op, Proper s op → Safe s op → (leafStep s op).isSome) ∧
    (∀ n i, Proper s (.remove n i) → (leafStep s (.remove n i)).isSome → Safe s (.remove n i)) ∧
    ∀ n staging i k v, Proper s (.insert n staging i k v) → Safe s (.insert n staging i k v) →
      ∃ p, (s n).insert staging i k v = some (p,
        decide (Fits pageSize.toNat ((listsAfter pageSize.toNat ops n).insertIdx i (k, v)))) := by
  have hfresh : LeafInv pageSize.toNat (fun n => freshLeaf pageSize (mem n)) fun _ => [] := fun n =>
    ⟨(represents_fresh pageSize (mem n)).1, (represents_fresh pageSize (mem n)).2, rfl⟩
  have h := leafRun_inv hrun hfresh
  refine ⟨fun n => ⟨(h n).1, (h n).2.1⟩, fun op hproper hsafe => ?_, fun n i hproper hsome => ?_,
    fun n staging i k v hproper hsafe => ?_⟩
  · obtain ⟨s', hs', -⟩ := h.step hproper hsafe
    rw [hs']
    rfl
  · have hi : i < (s n).count := hproper
    rw [leafStep, Option.isSome_map] at hsome
    exact (h n).1.removable (hi.trans_eq (h n).1.count) hsome
  · obtain ⟨p, hp, -⟩ := h.insert staging hproper hsafe
    exact ⟨p, hp⟩

/-- Two entries are inserted, the first is removed, and the other is copied to an empty page. -/
def copiedEntry : List LeafOp :=
  [.insert 0 (fun _ => 0) 0 [1] [2], .insert 0 (fun _ => 0) 1 [3] [4, 5], .remove 0 0, .copySuffixTo 0 0 1]

theorem leafPages_run_copiedEntry : ∃ s : LeafPages,
    Represents (s 1) (listsAfter 64 copiedEntry 1) ∧ listsAfter 64 copiedEntry 1 = [([3], [4, 5])] := by
  have hsome : (runAll leafStep (fun s op => decide (Proper s op ∧ Safe s op))
      (fun _ => freshLeaf 64 fun _ => 0) copiedEntry).isSome = true := by
    decide +kernel
  obtain ⟨s, hs⟩ := Option.isSome_iff_exists.mp hsome
  have hrun := (Run.of_runAll hs).mono fun _ _ hcond => of_decide_eq_true hcond
  exact ⟨s, ((leafPages_run 64 (fun _ _ => 0) copiedEntry s hrun).1 1).1, by decide +kernel⟩

/-- The value of the second entry has no bytes. -/
def emptyValue : List LeafOp :=
  [.insert 0 (fun _ => 0) 0 [1] [2], .insert 0 (fun _ => 0) 1 [3] [], .remove 0 0]

/-- The removal of the first entry moves the other's key up to where its value is said to lie; the removal of the other
then moves the bytes from behind the key up to there, which is a negative count of them. -/
theorem leafPages_run_failing : ∃ s : LeafPages, Run leafStep Proper (fun _ => freshLeaf 64 fun _ => 0) emptyValue s ∧
    Proper s (.remove 0 0) ∧ leafStep s (.remove 0 0) = none := by
  have hfails : ((runAll leafStep (fun s op => decide (Proper s op)) (fun _ => freshLeaf 64 fun _ => 0) emptyValue).map
      fun s => decide (Proper s (.remove 0 0)) && (leafStep s (.remove 0 0)).isNone) = some true := by
    decide +kernel
  obtain ⟨s, hs, hend⟩ := Option.map_eq_some_iff.mp hfails
  rw [Bool.and_eq_true, decide_eq_true_eq, Option.isNone_iff_eq_none] at hend
  exact ⟨s, (Run.of_runAll hs).mono fun _ _ hcond => of_decide_eq_true hcond, hend.1, hend.2⟩

end Plexdb.Slots
