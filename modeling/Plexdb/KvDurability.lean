import Plexdb.KvRefinement
import Plexdb.PagerPrograms

/-! The key-value store on a pager with a WAL. Every statement is a transaction of its own; over runs of statements,
and over crashes. -/

namespace Plexdb.Kv

open Blob (Heap Rests Views)
open BTree (NodeRef Replaced wordLayout)
open Pager (CrashesTo Files Recovers Sys mediaOf)

variable {W : Nat}

/-- A new index, in a transaction of its own. -/
def Paged.createTx (s : Sys W) : Option (Sys W × NodeRef) := do
  let s ← s.step .begin
  let (s, index) ← (BTree.create (wordLayout W)).run Blob.store s
  let s ← s.step .commit
  pure (s, index)

namespace KvSys

/-- The statement stays in bounds, and each allocation of its transaction finds what it must. -/
def SafeTx (index : NodeRef) (fuel : Nat) (t : KvSys W) (st : Statement) : Prop :=
  st.InBounds W fuel t.map ∧
    ∀ s, t.sys.step .begin = some s → (Paged.execute index fuel st).Meets Blob.store Sys.Commits s

/-- Between transactions, with the store in the pages of the last commit; the pages `live` are as they were. -/
structure Sound (index : NodeRef) (live : Finset Nat) (h : Heap W) (salt : BitVec 64) (t : KvSys W) : Prop where
  durable : t.sys.Durable (mediaOf salt t.sys.pager.issued)
  stores : ∃ live' h' pages, Rests t.sys live' h' ∧ Represents index h' pages t.map ∧ Replaced live live' h h' [] pages

end KvSys

/-- What a transaction returns that has begun and run its program: it was committed. -/
theorem commit_of_transaction {α : Type} {prog : Blob.BlobProgram W α} {s s₁ s₂ : Sys W} {a : α} {r : Sys W × α}
    (hbegin : s.step .begin = some s₁) (hrun : prog.run Blob.store s₁ = some (s₂, a))
    (hreturns : ((s.step .begin).bind fun s => (prog.run Blob.store s).bind fun r =>
      (r.1.step .commit).bind fun s => some (s, r.2)) = some r) : s₂.step .commit = some r.1 ∧ r.2 = a := by
  rw [hbegin, Option.bind_some, hrun, Option.bind_some] at hreturns
  obtain ⟨s₃, hcommit, hr⟩ := Option.bind_eq_some_iff.mp hreturns
  cases hr
  exact ⟨hcommit, rfl⟩

section

variable {index : NodeRef} {live live' : Finset Nat} {h h' : Heap W} {pages pages' : List Nat} {d : KvMap}
  {salt : BitVec 64} {fuel : Nat}

/-- A heap that describes every live page describes every one after the store has changed. -/
theorem Represents.full (hd : Represents index h' pages' d) (hr : Replaced live live' h h' pages pages')
    (hfull : ∀ i ∈ live, ∃ data, h i = some data) : ∀ i ∈ live', ∃ data, h' i = some data := by
  intro i hi
  obtain ⟨items, n, t, hst, -, rfl⟩ := hd
  rw [hr.live_eq, Finset.mem_union, Finset.mem_sdiff, List.mem_toFinset, List.mem_toFinset] at hi
  rcases hi with ⟨hlive, hnot⟩ | hmem
  · obtain ⟨data, hdata⟩ := hfull i hlive
    exact ⟨data, (hr.frame i hlive hnot).trans hdata⟩
  · exact hst.exists_page i hmem

/-- A program that leaves a store, in a transaction of its own: it ends as it should, a crash in its midst leaves what
was committed, and a commit makes its store the committed one. -/
theorem run_transaction (hW : 0 < W) (checkpointInterval : Nat) {α : Type} {s : Sys W} {live₀ : Finset Nat}
    {h₀ : Heap W} {prog : Blob.BlobProgram W α} {Q : α → Prop} {result : α → NodeRef}
    (hdurable : s.Durable (mediaOf salt s.pager.issued)) (hs : Rests s live h) (hr : Replaced live₀ live h₀ h [] pages)
    (hmeets : ∀ s₁, s.step .begin = some s₁ → prog.Meets Blob.store Sys.Commits s₁)
    (hdoes : ∀ s₁, Views s₁ live h → Blob.Does prog (fun s₂ a => Q a ∧ Leaves (result a) live h pages d s₂) s₁) :
    ∃ s₁ s₂ a, s.step .begin = some s₁ ∧ prog.run Blob.store s₁ = some (s₂, a) ∧ Q a ∧
      ∀ s₃, s₂.step .commit = some s₃ → KvSys.Sound (result a) live₀ h₀ salt ⟨s₃, d⟩ ∧
        CrashesTo salt checkpointInterval s.pager.issued s₃.pager.issued s.committed s₃.committed := by
  obtain ⟨s₁, hbegin, hviews, hunder, hcom₁, hissued₁⟩ := hs.begin hdurable
  rw [← hissued₁] at hunder
  obtain ⟨s₂, a, hrun, ⟨hQ, live', h', pages', hviews₂, hd, hr'⟩, hunder₂, hcom₂, hissued₂, hcrashes₂⟩ :=
    hunder.run hW checkpointInterval (hdoes s₁ hviews) (hmeets s₁ hbegin)
  refine ⟨s₁, s₂, a, hbegin, hrun, hQ, fun s₃ hcommit => ?_⟩
  have hfull := hd.full hr' hs.full
  obtain ⟨hdurable₃, hissued₃, hcrashes₃⟩ :=
    (hunder₂.durable hviews₂ hfull).crashes hW (show s₂.SparesCommitted .commit from trivial) hcommit checkpointInterval
  refine ⟨⟨hdurable₃, live', h', pages', hviews₂.commit hfull hunder₂ hcommit, hd, hr.trans hr'⟩, ?_⟩
  rw [hissued₁, hcom₁] at hcrashes₂
  rw [hcom₂, hcom₁] at hcrashes₃
  intro done hbase hdone f hf
  rcases List.prefix_or_prefix_of_prefix hdone hissued₃ with hle | hle
  · exact .inl ((hcrashes₂ done hbase hle f hf).elim id id)
  · exact hcrashes₃ done hle hdone f hf

section

variable (hW : 10 ≤ W) (hpage : 8 * W < 2 ^ 16)

include hW

/-- The pages of an idle pager, before there is a store. -/
theorem sound_create {checkpointInterval : Nat} {ops : List (Pager.Op W)} {s s' : Sys W}
    (hrun : Sys.Run (fun s op => s.KeepsBitsets op ∧ s.SparesCommitted op) (Sys.create salt true checkpointInterval) ops s)
    (hidle : s.pager.transactionActive = false)
    (hmeets : ∀ s₁, s.step .begin = some s₁ → (BTree.create (wordLayout W)).Meets Blob.store Sys.Commits s₁)
    (hcreate : Paged.createTx s = some (s', index)) :
    KvSys.Sound index s.live (fun i => if i ∈ s.live then s.pager.content i else none) salt ⟨s', Dict.empty⟩ := by
  obtain ⟨hdurable, hlawful⟩ : s.Durable (mediaOf salt s.pager.issued) ∧ s.Lawful := by
    refine @Sys.Run.invariant W _ (fun s => s.Durable (mediaOf salt s.pager.issued) ∧ s.Lawful) ?_ _ _ _ hrun
      ⟨Pager.Sys.durable_create salt checkpointInterval, Pager.Sys.lawful_create salt true checkpointInterval⟩
    exact fun s op s' hs hcond hstep =>
      ⟨(hs.1.crashes (by omega) hcond.2 hstep 0).1, hs.2.step (by omega) hcond.1 hstep⟩
  have hs : Rests s s.live fun i => if i ∈ s.live then s.pager.content i else none := by
    refine ⟨hidle, hlawful.law.covers, rfl, fun i data hi => ?_, fun i hi => ?_⟩
    · split_ifs at hi with hmem
      exact ⟨hmem, hi⟩
    · obtain ⟨-, ⟨data, hdata⟩, -⟩ := hdurable.tracks i hi
      exact ⟨data, (if_pos hi).trans hdata⟩
  have hr : Replaced s.live s.live (fun i => if i ∈ s.live then s.pager.content i else none)
      (fun i => if i ∈ s.live then s.pager.content i else none) [] [] :=
    Replaced.refl fun _ hi => absurd hi List.not_mem_nil
  have hdoes : ∀ s₁, Views s₁ s.live (fun i => if i ∈ s.live then s.pager.content i else none) →
      Blob.Does (BTree.create (wordLayout W)) (fun s₂ index => True ∧ Leaves (id index) s.live
        (fun i => if i ∈ s.live then s.pager.content i else none) [] Dict.empty s₂) s₁ := fun s₁ hs₁ =>
    (does_create hW hs₁).mono fun s₂ a hleaves => ⟨trivial, hleaves⟩
  obtain ⟨s₁, s₂, index', hbegin, hprog, -, hcommit⟩ := run_transaction (show 0 < W by omega)
    checkpointInterval hdurable hs hr hmeets fun s₁ hs₁ => hdoes s₁ hs₁
  obtain ⟨hs', rfl⟩ := commit_of_transaction hbegin hprog hcreate
  exact (hcommit _ hs').1

include hpage

/-- A statement answers as the dictionary does, and a crash in its midst leaves the store as it was before it or after
it. -/
theorem KvSys.Sound.execute (checkpointInterval : Nat) {t : KvSys W} (ht : t.Sound index live h salt) {st : Statement}
    (hsafe : t.SafeTx index fuel st) : ∃ s₁ s₂, t.sys.step .begin = some s₁ ∧
      (Paged.execute index fuel st).run Blob.store s₁ = some (s₂, t.map.answer st) ∧
      ∀ s₃, s₂.step .commit = some s₃ → KvSys.Sound index live h salt ⟨s₃, t.map.effect st⟩ ∧
        CrashesTo salt checkpointInterval t.sys.pager.issued s₃.pager.issued t.sys.committed s₃.committed := by
  obtain ⟨live', h', pages, hs, hd, hr⟩ := ht.stores
  obtain ⟨s₁, s₂, a, hbegin, hrun, rfl, hcommit⟩ := run_transaction (show 0 < W by omega) checkpointInterval ht.durable
    hs hr hsafe.2 fun s₁ hs₁ => does_execute hW hpage hs₁ hd hsafe.1
  exact ⟨s₁, s₂, hbegin, hrun, hcommit⟩

end

end

/-! ### A first transaction -/

/-- An allocation finds no stale bitset, and grows the file over all that is committed. -/
def commits (s : Sys 10) : Bool :=
  BTree.allocates s &&
  (match s.pager.findFree s.pager.bitsetCount 1 with
    | some (q, none) => ((q.grow (s.pager.header.pageCount + 2)).content s.pager.header.pageCount).all fun bitset =>
        (List.range 640).all fun j => !bitset.bit j
    | _ => true) &&
  s.pager.growTarget.all (fun n => decide (s.committed.header.pageCount ≤ n)) &&
  decide (∀ k ∈ s.committed.live, 0 < k ∧ k < s.committed.header.pageCount)

end Plexdb.Kv
