import Plexdb.BTreePages
import Plexdb.PagerDurability

/-! A B+tree on a pager with a WAL, over runs of transactions and crashes. -/

namespace Plexdb

variable {W : Nat}

/-! ### One I/O operation after another -/

namespace Pager

/-- A step inside a transaction cuts neither a committed page nor a committed bitset off, and its page number fits its
64 bits. -/
def Sys.Keeps (s : Sys W) : Prop :=
  s.KeepsBitsets (.tx .newPage) ∧ s.SparesCommitted (.tx .newPage) ∧ ∀ p idx,
    s.pager.newPage = some (p, idx) → idx < 2 ^ 64

/-- Every crash between the I/O operations `base` and `issued` leaves one of two snapshots. -/
def CrashesTo (salt : BitVec 64) (checkpointInterval : Nat) (base issued : List (IoOp W)) (a b : Snapshot W) : Prop :=
  ∀ done, base <+: done → done <+: issued → ∀ f, (mediaOf salt done).Crash f →
    Recovers f a checkpointInterval ∨ Recovers f b checkpointInterval

theorem Sys.Durable.crashes {s s' : Sys W} {salt : BitVec 64} (hW : 0 < W)
    (hs : s.Durable (mediaOf salt s.pager.issued))
    {op : Op W} (hcond : s.SparesCommitted op) (hstep : s.step op = some s')
    (checkpointInterval : Nat) : s'.Durable (mediaOf salt s'.pager.issued) ∧ s.pager.issued <+: s'.pager.issued ∧
      CrashesTo salt checkpointInterval s.pager.issued s'.pager.issued s.committed s'.committed := by
  obtain ⟨new, hissued, hs', hthrough⟩ := hs.step hW hcond hstep
  have hmedia : mediaOf salt s'.pager.issued = (mediaOf salt s.pager.issued).run new := by
    rw [hissued, mediaOf, Media.run, List.foldl_append]
    rfl
  refine ⟨hmedia ▸ hs', ⟨new, hissued.symm⟩, ?_⟩
  rintro _ ⟨done, rfl⟩ hbefore f hf
  rw [hissued] at hbefore
  rw [mediaOf, Media.run, List.foldl_append] at hf
  rcases hthrough.of_prefix ((List.prefix_append_right_inj _).mp hbefore) f hf with hold | hnew
  · exact .inl (recovers_of_consistent hold hs.committedTracks _)
  · exact .inr (recovers_of_consistent hnew hs'.committedTracks _)

theorem Sys.Durable.crashesTo {s : Sys W} {salt : BitVec 64} (hs : s.Durable (mediaOf salt s.pager.issued))
    (checkpointInterval : Nat) : CrashesTo salt checkpointInterval s.pager.issued s.pager.issued
      s.committed s.committed := by
  intro done hbase hdone f hf
  obtain rfl := hbase.eq_of_length_le hdone.length_le
  exact .inl (recovers_of_consistent (hs.safe.consistent hf) hs.committedTracks _)

theorem CrashesTo.trans {salt : BitVec 64} {checkpointInterval : Nat}
    {base issued issued' : List (IoOp W)} {a : Snapshot W}
    (h : CrashesTo salt checkpointInterval base issued a a) (h' : CrashesTo salt checkpointInterval issued issued' a a)
    (hbefore : issued <+: issued') : CrashesTo salt checkpointInterval base issued' a a := by
  intro done hbase hdone f hf
  rcases List.prefix_or_prefix_of_prefix hdone hbefore with hle | hle
  · exact h done hbase hle f hf
  · exact h' done hle hdone f hf

end Pager

namespace BTree

open Pager Blob

variable {κ ν : Type} [LinearOrder κ]

/-! ### Inside a transaction -/

/-- A transaction in which no crash so far has lost the snapshot of the last commit. -/
structure DurableViews (salt : BitVec 64) (checkpointInterval : Nat) (base : List (IoOp W))
    (snap : Snapshot W) (s : Sys W)
    (live : Finset Nat) (h : Heap W) : Prop extends Blob.Views s live h where
  durable : s.Durable (mediaOf salt s.pager.issued)
  lawful : s.Lawful
  committed : s.committed = snap
  issued : base <+: s.pager.issued
  crashes : CrashesTo salt checkpointInterval base s.pager.issued snap snap

namespace DurableViews

variable {salt : BitVec 64} {checkpointInterval : Nat} {base : List (IoOp W)} {snap : Snapshot W} {s s' : Sys W}
  {live live' : Finset Nat} {h h' : Heap W}

theorem step (hW : 0 < W) (hs : DurableViews salt checkpointInterval base snap s live h) (op : TxOp W)
    (hkeeps : s.KeepsBitsets (.tx op)) (hspares : s.SparesCommitted (.tx op)) (hstep : s.txStep op = some s')
    (hs' : Blob.Views s' live' h') : DurableViews salt checkpointInterval base snap s' live' h' := by
  have hcommitted : s'.committed = snap := (Sys.txStep_pager hstep).2.trans hs.committed
  obtain ⟨hdurable, hissued, hcrashes⟩ := hs.durable.crashes hW hspares hstep checkpointInterval
  rw [hs.committed, hcommitted] at hcrashes
  exact ⟨hs', hdurable, hs.lawful.step hW hkeeps hstep, hcommitted, hs.issued.trans hissued,
    hs.crashes.trans hcrashes hissued⟩

end DurableViews

/-- The rules of a transaction hold with all that a crash may find. -/
def durableRules (hW : 0 < W) (salt : BitVec 64) (checkpointInterval : Nat) (base : List (IoOp W)) (snap : Snapshot W)
    {blank : Page W} (hblank : blank = Page.zero) : HeapRules (Blob.store (W := W)) Sys.Keeps blank (· < 2 ^ 64) where
  Views := DurableViews salt checkpointInterval base snap
  mem_live hs hi := (hs.page _ _ hi).1
  ne_zero hs hi := (Blob.heapRules hW).ne_zero hs.toViews hi
  newPage {s live h Q} hs hQ := by
    rintro ⟨hkeeps, hspares, hlt⟩
    have hrule : (PageProgram.newPage .done).Ensures Blob.store Blob.Allocates (fun s' idx =>
      idx ∉ live ∧ idx < 2 ^ 64 ∧
        Blob.Views s' (insert idx live) (Function.update h idx (some Page.zero))) s :=
      (Blob.heapRules hW).newPage hs.toViews fun s' idx hfresh hfits hs' => ⟨hfresh, hfits, hs'⟩
    obtain ⟨s', idx, hnew, hfresh, hfits, hs'⟩ := hrule ⟨hs.lawful.law.groupsAligned hW, hlt⟩
    refine ⟨s', idx, hnew, hQ s' idx hfresh hfits (hs.step hW .newPage hkeeps hspares ?_ (hblank ▸ hs'))⟩
    obtain ⟨r, hr, heq⟩ := Option.map_eq_some_iff.mp hnew
    cases heq
    exact Option.map_eq_some_iff.mpr ⟨r, hr, rfl⟩
  deletePage {s live h idx Q} hs hidx hQ := by
    have hrule : (PageProgram.deletePage idx (.done ())).Ensures Blob.store Blob.Allocates (fun s' _ =>
        Blob.Views s' (live.erase idx) (Function.update h idx none)) s :=
      (Blob.heapRules hW).deletePage hs.toViews hidx fun s' hs' => hs'
    obtain ⟨s', hdelete, hs'⟩ := hrule
    exact ⟨s', hdelete, hQ s' (hs.step hW (.deletePage idx) trivial trivial hdelete hs')⟩
  rpage {s live h idx data Q} hs hdata hQ := by
    have hrule : (PageProgram.rpage idx .done).Ensures Blob.store Blob.Allocates (fun s' data' => data' = data ∧
        Blob.Views s' live h) s :=
      (Blob.heapRules hW).rpage hs.toViews hdata fun s' hs' => ⟨rfl, hs'⟩
    obtain ⟨s', data', hread, rfl, hs'⟩ := hrule
    refine ⟨s', data', hread, hQ s' (hs.step hW (.read idx) trivial trivial ?_ hs')⟩
    obtain ⟨r, hr, heq⟩ := Option.map_eq_some_iff.mp hread
    cases heq
    exact Option.map_eq_some_iff.mpr ⟨r.1, Option.map_eq_some_iff.mpr ⟨r, hr, rfl⟩, rfl⟩
  rwpage {s live h idx data write Q} hs hdata hQ := by
    have hrule : (PageProgram.rwpage idx write .done).Ensures Blob.store Blob.Allocates (fun s' data' => data' = data ∧
        Blob.Views s' live (Function.update h idx (some (write data)))) s :=
      (Blob.heapRules hW).rwpage hs.toViews hdata fun s' hs' => ⟨rfl, hs'⟩
    obtain ⟨s', data', hwrite, rfl, hs'⟩ := hrule
    refine ⟨s', data', hwrite, hQ s' (hs.step hW (.write idx (write data')) trivial trivial ?_ hs')⟩
    obtain ⟨r, hr, heq⟩ := Option.map_eq_some_iff.mp hwrite
    cases heq
    have hlive : idx ∈ s.live := hs.live_eq ▸ (hs.page _ _ hdata).1
    rw [Sys.txStep, if_pos hlive]
    exact Option.map_eq_some_iff.mpr ⟨_, Option.bind_eq_some_iff.mpr ⟨r, hr, rfl⟩, rfl⟩

/-! ### Transactions -/

/-- A pager with a tree in it, the dictionary the tree should be, and the one it was at the last commit. -/
structure TreeDb (W : Nat) (κ ν : Type) [LinearOrder κ] where
  sys : Sys W
  dict : Dict κ ν
  committed : Dict κ ν

inductive DbOp (κ ν : Type) where
  | begin
  | call (op : TreeOp κ ν)
  | commit
  | rollback
  | checkpoint

namespace TreeDb

def step (L : Layout (Page W) κ ν) (header : NodeRef) (t : TreeDb W κ ν) : DbOp κ ν → Option (TreeDb W κ ν)
  | .begin => (t.sys.step .begin).map fun s => { t with sys := s }
  | .call op => ((op.program L header).run Blob.store t.sys).map fun r =>
    { t with sys := r.1, dict := op.effect t.dict }
  | .commit => (t.sys.step .commit).map fun s => ⟨s, t.dict, t.dict⟩
  | .rollback => (t.sys.step .rollback).map fun s => ⟨s, t.committed, t.committed⟩
  | .checkpoint => (t.sys.step .checkpoint).map fun s => { t with sys := s }

/-- A call is made inside a transaction. -/
def Safe (FitsSize : Nat → Prop) (L : Layout (Page W) κ ν) (header : NodeRef) (t : TreeDb W κ ν) : DbOp κ ν → Prop
  | .call op => t.sys.pager.transactionActive = true ∧ FitsSize (t.dict.size + 1) ∧
      (op.program L header).Meets Blob.store Sys.Keeps t.sys
  | _ => True

end TreeDb

/-- The tree under `header`, on live pages with these contents, is the dictionary. -/
def Stores (FitsSize : Nat → Prop) (L : Layout (Page W) κ ν) (header : NodeRef) (live : Finset Nat)
    (content : Nat → Option (Page W)) (d : Dict κ ν) : Prop :=
  ∃ h : Heap W, ∃ n, ∃ tree : Tree κ ν n, (∀ i data, h i = some data → i ∈ live ∧ content i = some data) ∧
    IsTree L (· < 2 ^ 64) FitsSize header h tree ∧ tree.entries = d.entries

structure TreeDb.Sound (FitsSize : Nat → Prop) (L : Layout (Page W) κ ν) (header : NodeRef) (salt : BitVec 64)
    (t : TreeDb W κ ν) : Prop where
  durable : t.sys.Durable (mediaOf salt t.sys.pager.issued)
  lawful : t.sys.Lawful
  stores : Stores FitsSize L header t.sys.live t.sys.pager.content t.dict
  committed : Stores FitsSize L header t.sys.committed.live t.sys.committed.page t.committed

theorem Stores.mono {FitsSize : Nat → Prop} {L : Layout (Page W) κ ν} {header : NodeRef} {live live' : Finset Nat}
    {content content' : Nat → Option (Page W)} {d : Dict κ ν} (h : Stores FitsSize L header live content d)
    (hsame : ∀ i data, i ∈ live → content i = some data → i ∈ live' ∧ content' i = some data) :
    Stores FitsSize L header live' content' d := by
  obtain ⟨heap, n, tree, hheap, htree, hentries⟩ := h
  exact ⟨heap, n, tree, fun i data hi => hsame i data (hheap i data hi).1 (hheap i data hi).2, htree, hentries⟩

/-- Between transactions the tree is the committed one. -/
theorem stores_iff_of_idle {FitsSize : Nat → Prop} {L : Layout (Page W) κ ν} {header : NodeRef}
    {s : Sys W} {m : Media W}
    {d : Dict κ ν} (hs : s.Durable m) (hidle : s.pager.transactionActive = false) :
    Stores FitsSize L header s.live s.pager.content d ↔
      Stores FitsSize L header s.committed.live s.committed.page d := by
  obtain ⟨-, hlive, hempty, -⟩ := hs.idle hidle
  have hsame : ∀ i ∈ s.committed.live, s.pager.content i = s.committed.page i := fun i hi => by
    rw [content_of_empty hempty, hs.kept i (.inl hi)]
  rw [hlive]
  refine ⟨fun h => h.mono fun i data hi hdata => ⟨hi, ?_⟩, fun h => h.mono fun i data hi hdata => ⟨hi, ?_⟩⟩
  · rw [← hsame i hi, hdata]
  · rw [hsame i hi, hdata]

theorem sound_commit {FitsSize : Nat → Prop} {L : Layout (Page W) κ ν} {header : NodeRef}
    {salt : BitVec 64} {s s' : Sys W}
    {d : Dict κ ν} (hW : 0 < W) (hdurable : s.Durable (mediaOf salt s.pager.issued)) (hlawful : s.Lawful)
    (hstores : Stores FitsSize L header s.live s.pager.content d) (hstep : s.step .commit = some s') :
    TreeDb.Sound FitsSize L header salt ⟨s', d, d⟩ := by
  obtain ⟨hdurable', -, -⟩ := hdurable.crashes hW (show s.SparesCommitted .commit from trivial) hstep 0
  have hlawful' := hlawful.step hW (show s.KeepsBitsets .commit from trivial) hstep
  obtain ⟨p, hp, rfl⟩ := Option.map_eq_some_iff.mp hstep
  exact ⟨hdurable', hlawful', (stores_iff_of_idle hdurable' (commit_spec hp hdurable.ok).inactive).mpr hstores, hstores⟩

/-! ### Reopening -/

section

variable {L : Layout (Page W) κ ν} {FitsSize : Nat → Prop} {header : NodeRef} {salt : BitVec 64}
  (law : L.Lawful (· < 2 ^ 64) FitsSize) (hblank : L.blank = Page.zero) (hsize : L.nodeSize < 2 ^ 16)
  (hleaf : 2 ≤ L.leafCapacity) (hinternal : 3 ≤ L.internalCapacity) (hstride : L.keyStride < 2 ^ 16)

include law hblank hsize hleaf hinternal hstride

/-- A call answers as the dictionary does, and a crash in the midst of it leaves what was committed. -/
theorem TreeDb.Sound.call (hW : 0 < W) (checkpointInterval : Nat) {t : TreeDb W κ ν}
    (ht : t.Sound FitsSize L header salt)
    {op : TreeOp κ ν} (hsafe : t.Safe FitsSize L header (.call op)) :
    ∃ s', (op.program L header).run Blob.store t.sys = some (s', op.answer t.dict) ∧
      TreeDb.Sound FitsSize L header salt ⟨s', op.effect t.dict, t.committed⟩ ∧ s'.committed = t.sys.committed ∧
      CrashesTo salt checkpointInterval t.sys.pager.issued s'.pager.issued t.sys.committed t.sys.committed := by
  obtain ⟨hactive, hfits, hmeets⟩ := hsafe
  obtain ⟨h, n, tree, hheap, htree, hentries⟩ := ht.stores
  have hviews : DurableViews salt checkpointInterval t.sys.pager.issued t.sys.committed t.sys t.sys.live h := by
    exact ⟨⟨hactive, ht.durable.ok, ht.lawful.law.covers, rfl, hheap⟩, ht.durable, ht.lawful, rfl, List.prefix_rfl,
      ht.durable.crashesTo checkpointInterval⟩
  obtain ⟨s', a, hrun, rfl, live', h', m, tree', hs', htree', hentries', -⟩ :=
    (does_op (durableRules hW salt checkpointInterval _ _ hblank)
      law hsize hleaf hinternal hstride hviews htree hentries hfits
      op).run hmeets
  refine ⟨s', hrun, ⟨hs'.durable, hs'.lawful, ⟨h', m, tree', ?_, htree', hentries'⟩, ?_⟩, hs'.committed, hs'.crashes⟩
  · intro i data hi
    exact hs'.live_eq ▸ hs'.page i data hi
  · change Stores FitsSize L header s'.committed.live s'.committed.page t.committed
    rw [hs'.committed]
    exact ht.committed

/-- Each step keeps what is stored, and a crash in the midst of it leaves what was committed before it, or after it. -/
theorem TreeDb.Sound.step (hW : 0 < W) (checkpointInterval : Nat) {t t' : TreeDb W κ ν}
    (ht : t.Sound FitsSize L header salt)
    {op : DbOp κ ν} (hsafe : t.Safe FitsSize L header op) (hstep : t.step L header op = some t') :
    t'.Sound FitsSize L header salt ∧
      CrashesTo salt checkpointInterval t.sys.pager.issued t'.sys.pager.issued t.sys.committed t'.sys.committed := by
  cases op with
  | call op =>
      obtain ⟨s', hrun, ht', hcommitted, hcrashes⟩ :=
        ht.call law hblank hsize hleaf hinternal hstride hW checkpointInterval hsafe
      rw [TreeDb.step, hrun] at hstep
      cases hstep
      rw [hcommitted]
      exact ⟨ht', hcrashes⟩
  | begin =>
      obtain ⟨s', hs', rfl⟩ := Option.map_eq_some_iff.mp hstep
      obtain ⟨hdurable, -, hcrashes⟩ :=
        ht.durable.crashes hW (show t.sys.SparesCommitted .begin from trivial) hs' checkpointInterval
      have hlawful := ht.lawful.step hW (show t.sys.KeepsBitsets .begin from trivial) hs'
      obtain ⟨p, hp, rfl⟩ := Option.map_eq_some_iff.mp hs'
      obtain ⟨-, rfl⟩ := begin_eq_some hp
      exact ⟨⟨hdurable, hlawful, ht.stores, ht.committed⟩, hcrashes⟩
  | commit =>
      obtain ⟨s', hs', rfl⟩ := Option.map_eq_some_iff.mp hstep
      obtain ⟨-, -, hcrashes⟩ := ht.durable.crashes hW (show t.sys.SparesCommitted .commit from trivial)
        hs' checkpointInterval
      exact ⟨sound_commit hW ht.durable ht.lawful ht.stores hs', hcrashes⟩
  | rollback =>
      obtain ⟨s', hs', rfl⟩ := Option.map_eq_some_iff.mp hstep
      obtain ⟨hdurable, -, hcrashes⟩ :=
        ht.durable.crashes hW (show t.sys.SparesCommitted .rollback from trivial) hs' checkpointInterval
      have hlawful := ht.lawful.step hW (show t.sys.KeepsBitsets .rollback from trivial) hs'
      rw [Sys.step] at hs'
      split at hs'
      · cases hs'
        exact ⟨⟨hdurable, hlawful, (stores_iff_of_idle hdurable rfl).mpr ht.committed, ht.committed⟩, hcrashes⟩
      · cases hs'
  | checkpoint =>
      obtain ⟨s', hs', rfl⟩ := Option.map_eq_some_iff.mp hstep
      obtain ⟨hdurable, -, hcrashes⟩ :=
        ht.durable.crashes hW (show t.sys.SparesCommitted .checkpoint from trivial) hs' checkpointInterval
      have hlawful := ht.lawful.step hW (show t.sys.KeepsBitsets .checkpoint from trivial) hs'
      rw [Sys.step] at hs'
      split at hs'
      · cases hs'
      · rename_i hinactive
        have hidle : t.sys.pager.transactionActive = false := by simpa using hinactive
        obtain ⟨p, hp, rfl⟩ := Option.map_eq_some_iff.mp hs'
        obtain ⟨wal, writes, -, hcheck⟩ := checkpoint_spec hp
        have hfields := hcheck.eq
        rw [issueAll_files] at hfields
        have hidle' : p.transactionActive = false := by rw [hfields, hidle]
        exact ⟨⟨hdurable, hlawful, (stores_iff_of_idle hdurable hidle').mpr
          ((stores_iff_of_idle ht.durable hidle).mp ht.stores),
          ht.committed⟩, hcrashes⟩

omit hsize hleaf hinternal hstride in
/-- A new tree that was committed. -/
theorem sound_create (hW : 0 < W) {checkpointInterval : Nat} {ops : List (Op W)} {s s₁ s₂ : Sys W}
    (hrun : Sys.Run (fun s op => s.KeepsBitsets op ∧ s.SparesCommitted op)
      (Sys.create salt true checkpointInterval) ops s)
    (hactive : s.pager.transactionActive = true) (hzero : FitsSize 0) (hmeets : (create L).Meets Blob.store Sys.Keeps s)
    (hcreate : (create L).run Blob.store s = some (s₁, header)) (hcommit : s₁.step .commit = some s₂) :
    TreeDb.Sound FitsSize L header salt ⟨s₂, Dict.empty, Dict.empty⟩ := by
  obtain ⟨hdurable, hlawful⟩ : s.Durable (mediaOf salt s.pager.issued) ∧ s.Lawful := by
    refine @Sys.Run.invariant W _ (fun s => s.Durable (mediaOf salt s.pager.issued) ∧ s.Lawful) ?_ _ _ _ hrun
      ⟨Sys.durable_create salt checkpointInterval, Sys.lawful_create salt true checkpointInterval⟩
    exact fun s op s' hs hcond hstep => ⟨(hs.1.crashes hW hcond.2 hstep 0).1, hs.2.step hW hcond.1 hstep⟩
  have hviews : DurableViews salt checkpointInterval s.pager.issued s.committed s s.live fun _ => none :=
    ⟨⟨hactive, hdurable.ok, hlawful.law.covers, rfl, fun _ _ h => by cases h⟩, hdurable, hlawful, rfl, List.prefix_rfl,
      hdurable.crashesTo checkpointInterval⟩
  obtain ⟨live', h', tree, hs', htree, hentries, -⟩ :=
    (does_create (durableRules hW salt checkpointInterval _ _ hblank) law hzero hviews).of_run hmeets hcreate
  exact sound_commit hW hs'.durable hs'.lawful
    ⟨h', 0, tree, fun i data hi => hs'.live_eq ▸ hs'.page i data hi, htree, hentries⟩ hcommit

end

/-! ### A committed entry -/

/-- An allocation before the first commit finds no stale bitset. -/
def keeps (s : Sys 10) : Bool :=
  (match s.pager.findFree s.pager.bitsetCount 1 with
    | some (q, none) => ((q.grow (s.pager.header.pageCount + 2)).content s.pager.header.pageCount).all fun bitset =>
        (List.range 640).all fun j => !bitset.bit j
    | _ => true) &&
  decide (s.committed.header.pageCount = 1) && decide (s.committed.live = ∅) && s.pager.newPage.all fun r =>
    decide (r.2 < 2 ^ 64)

end BTree

end Plexdb
