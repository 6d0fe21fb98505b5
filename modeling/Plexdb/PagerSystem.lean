import Plexdb.PagerRollback
import Plexdb.PagerCheckpoint

/-! A pager over whole runs of transactions and checkpoints, next to what it should store: the pages
allocated and not freed since, and what the last commit left. -/

namespace Plexdb

open Pager

variable {W : Nat}

namespace Pager

/-! ### Stored pages and clean entries during a transaction -/

theorem lt_growTarget {p : Pager W} {n : Nat} (h : p.growTarget = some n) : p.header.pageCount < n := by
  rw [growTarget] at h
  split at h
  · split at h
    · cases h
      omega
    · cases h
  · cases h
    omega
  · cases h

theorem load_of_spared {p p' : Pager W} {ns : List Nat} (h : InTx p p' ns) {i : Nat} {data : Page W}
    (hload : p.load i = some data) (hspared : p.frameOf i = none → ∀ n ∈ ns, i < n) :
    p'.load i = some data := by
  rw [load_inTx h]
  rw [load] at hload
  cases hframe : p.frameOf i with
  | some frame =>
      rw [hframe] at hload
      exact hload
  | none =>
      rw [hframe] at hload
      dsimp only at hload ⊢
      rw [readPage_foldl_resize hload, if_pos (hspared hframe)]

theorem load_txStep {p p' : Pager W} {op : TxOp W} (h : p.txStep op = some p') {i : Nat}
    {data : Page W} (hi : i < p.header.pageCount) (hload : p.load i = some data) :
    p'.load i = some data := by
  refine load_of_spared (txStep_inTx h) hload fun _ n hn => ?_
  cases op with
  | newPage => exact Nat.lt_trans hi (lt_growTarget (Option.mem_toList.mp hn))
  | _ => cases hn

/-- An entry that is clean after the step was clean before it, or holds what is stored. -/
theorem lookup_clean_txStep {p p' : Pager W} {op : TxOp W} (h : p.txStep op = some p') {i : Nat}
    {entry : PageCacheEntry W} (hlookup : p'.pageCache.lookup i = some entry)
    (hclean : entry.dirty = false) :
    p.pageCache.lookup i = some entry ∨
      (p.pageCache.lookup i = none ∧ p.load i = some entry.data) := by
  have hins : ∀ (q : Pager W) (idx : Nat) (data : Page W),
      (q.insertCache idx data true).pageCache.lookup i = some entry →
      q.pageCache.lookup i = some entry := by
    intro q idx data hq
    rw [lookup_insertCache] at hq
    split at hq
    · cases hq
      cases hclean
    · exact hq
  cases op with
  | newPage =>
      obtain ⟨⟨q, idx⟩, hnew, rfl⟩ := Option.map_eq_some_iff.mp h
      obtain ⟨-, r, htouched, ⟨g, bitset, j, -, -, rfl⟩ | ⟨-, -, -, -, bitset, -, rfl⟩⟩ :=
        newPage_spec hnew
      · rw [takeSlot, ensurePageZeroed] at hlookup
        have hlookup := hins _ _ _ hlookup
        split at hlookup <;> exact htouched.clean i entry (hins r _ _ hlookup) hclean
      · rw [addGroup, ensurePageZeroed] at hlookup
        exact htouched.clean i entry (hins _ _ _ (hins _ _ _ (hins _ _ _ hlookup))) hclean
  | deletePage idx =>
      obtain ⟨-, -, g, j, bitset, -, -, -, -, ⟨-, rfl⟩ | ⟨-, n, q, htouched, -, rfl⟩⟩ :=
        deletePage_spec h
      · exact .inl (hins _ _ _ (hins _ _ _ hlookup))
      · rcases htouched.clean i entry hlookup hclean with hold | ⟨hnone, hload⟩
        · exact .inl (hins _ _ _ (hins _ _ _ hold))
        · exact .inr ⟨lookup_none_of_insertCache (lookup_none_of_insertCache hnone), hload⟩
  | write idx data =>
      obtain ⟨⟨q, old⟩, hread, h⟩ := Option.bind_eq_some_iff.mp h
      cases h
      exact (rwpage_touched hread).clean i entry (hins _ _ _ hlookup) hclean
  | read idx =>
      obtain ⟨⟨q, data⟩, hread, rfl⟩ := Option.map_eq_some_iff.mp h
      exact (rpage_eq_some hread).2.2.2.1.clean i entry hlookup hclean
  | setRoot page =>
      rw [txStep, setRoot] at h
      split at h
      · cases h
        exact .inl hlookup
      · cases h

theorem cleanAt_txStep {p p' : Pager W} {op : TxOp W} (h : p.txStep op = some p') {i : Nat}
    (hi : i < p.header.pageCount) (hclean : p.CleanAt i) : p'.CleanAt i := by
  intro entry hlookup hdirty
  rcases lookup_clean_txStep h hlookup hdirty with hold | hload
  · exact load_txStep h hi (hclean entry hold hdirty)
  · exact load_txStep h hi hload.2

/-! ### Runs -/

/-- What a commit leaves. -/
structure Snapshot (W : Nat) where
  header : Header
  live : Finset Nat
  page : Nat → Option (Page W)

structure Sys (W : Nat) where
  pager : Pager W
  live : Finset Nat
  committed : Snapshot W

inductive Op (W : Nat) where
  | begin
  | tx (op : TxOp W)
  | commit
  | rollback
  | checkpoint

namespace Sys

def txStep (s : Sys W) : TxOp W → Option (Sys W)
  | .newPage => s.pager.newPage.map fun r => { s with pager := r.1, live := insert r.2 s.live }
  | .deletePage idx =>
      (s.pager.deletePage idx).map fun p => { s with pager := p, live := s.live.erase idx }
  -- a caller writes the pages it got from `new_page`
  | .write idx data =>
      if idx ∈ s.live then (s.pager.writePage idx data).map fun p => { s with pager := p } else none
  | op => (s.pager.txStep op).map fun p => { s with pager := p }

/-- Checkpoints stand between transactions, or inside a commit. -/
def step (s : Sys W) : Op W → Option (Sys W)
  | .begin => s.pager.begin.map fun p => { s with pager := p }
  | .tx op => s.txStep op
  | .commit => s.pager.commit.map fun p =>
      { s with pager := p, committed := ⟨s.pager.header, s.live, s.pager.content⟩ }
  | .rollback =>
      if s.pager.transactionActive then
        some { s with pager := s.pager.rollback, live := s.committed.live }
      else none
  | .checkpoint =>
      if s.pager.transactionActive then none
      else s.pager.checkpoint.map fun p => { s with pager := p }

/-- The system after `ops`, whose steps all meet `Cond`. -/
inductive Run (Cond : Sys W → Op W → Prop) : Sys W → List (Op W) → Sys W → Prop where
  | nil (s : Sys W) : Run Cond s [] s
  | cons {s s' s'' : Sys W} {op : Op W} {ops : List (Op W)} (cond : Cond s op)
      (step : s.step op = some s') (run : Run Cond s' ops s'') : Run Cond s (op :: ops) s''

/-- An invariant that every step meeting the condition keeps holds at the end of every such run. -/
theorem Run.invariant {Cond : Sys W → Op W → Prop} {Inv : Sys W → Prop}
    (hstep : ∀ s op s', Inv s → Cond s op → s.step op = some s' → Inv s') {s s' : Sys W}
    {ops : List (Op W)} (h : Run Cond s ops s') (hs : Inv s) : Inv s' := by
  induction h with
  | nil => exact hs
  | cons cond step _ ih => exact ih (hstep _ _ _ hs cond step)

def exec (s : Sys W) : List (Op W) → Option (Sys W)
  | [] => some s
  | op :: ops => (s.step op).bind (exec · ops)

theorem run_of_exec {s s' : Sys W} {ops : List (Op W)} (h : s.exec ops = some s') :
    Run (fun _ _ => True) s ops s' := by
  induction ops generalizing s with
  | nil =>
      cases h
      exact .nil _
  | cons op ops ih =>
      obtain ⟨t, hstep, hrest⟩ := Option.bind_eq_some_iff.mp h
      exact .cons trivial hstep (ih hrest)

/-- A new pager, with or without a WAL. -/
def create (salt : BitVec 64) (withWal : Bool) (checkpointInterval : Nat) : Sys W where
  pager := opened (createdFiles salt) withWal checkpointInterval
  live := ∅
  committed := ⟨⟨1, 2 ^ 64 - 1⟩, ∅, fun _ => none⟩

end Sys

/-- `init` on new files has nothing to recover. -/
theorem init_createdFiles (salt : BitVec 64) (withWal : Bool) (checkpointInterval : Nat) :
    init (createdFiles salt) withWal checkpointInterval =
      some (Sys.create (W := W) salt withWal checkpointInterval).pager := by
  cases withWal <;> rfl

/-! ### What every step keeps -/

/-- Facts about the pager that hold whatever the callers do. -/
structure Sys.Sound (s : Sys W) : Prop where
  ok : s.pager.StorageOk
  saved : s.pager.transactionActive = true → s.pager.savedHeader = s.committed.header
  idle : s.pager.transactionActive = false → s.pager.header = s.committed.header ∧
    s.live = s.committed.live ∧ s.pager.pageCache = ∅ ∧ s.pager.headerInWriteSet = false

theorem Sys.sound_create (salt : BitVec 64) (withWal : Bool) (checkpointInterval : Nat) :
    (Sys.create (W := W) salt withWal checkpointInterval).Sound where
  ok wal hwal := by
    cases withWal with
    | false => cases hwal
    | true =>
        cases hwal
        exact ⟨le_rfl, nofun, fun _ => rfl⟩
  saved := nofun
  idle _ := ⟨rfl, rfl, rfl, rfl⟩

theorem InTx.storageOk {p p' : Pager W} {ns : List Nat} (h : InTx p p' ns) (hok : p.StorageOk) :
    p'.StorageOk := by
  intro wal hwal
  rw [h.eq] at hwal ⊢
  exact hok wal hwal

/-- A step inside a transaction acts on the pager like `Pager.txStep`. -/
theorem Sys.txStep_pager {s s' : Sys W} {op : TxOp W} (h : s.txStep op = some s') :
    s.pager.txStep op = some s'.pager ∧ s'.committed = s.committed := by
  cases op with
  | newPage =>
      obtain ⟨r, hr, rfl⟩ := Option.map_eq_some_iff.mp h
      exact ⟨by rw [Pager.txStep, hr]; rfl, rfl⟩
  | deletePage idx =>
      obtain ⟨p, hp, rfl⟩ := Option.map_eq_some_iff.mp h
      exact ⟨hp, rfl⟩
  | write idx data =>
      rw [Sys.txStep] at h
      split at h
      · obtain ⟨p, hp, rfl⟩ := Option.map_eq_some_iff.mp h
        exact ⟨hp, rfl⟩
      · cases h
  | read idx =>
      obtain ⟨p, hp, rfl⟩ := Option.map_eq_some_iff.mp h
      exact ⟨hp, rfl⟩
  | setRoot page =>
      obtain ⟨p, hp, rfl⟩ := Option.map_eq_some_iff.mp h
      exact ⟨hp, rfl⟩

theorem Sys.txStep_inTx {s s' : Sys W} {op : TxOp W} (h : s.txStep op = some s') :
    InTx s.pager s'.pager (op.growTarget s.pager).toList :=
  Pager.txStep_inTx (Sys.txStep_pager h).1

theorem txStep_active {p p' : Pager W} {op : TxOp W} (h : p.txStep op = some p') :
    p.transactionActive = true := by
  cases op with
  | newPage =>
      obtain ⟨r, hr, -⟩ := Option.map_eq_some_iff.mp h
      exact (newPage_spec hr).1
  | deletePage idx => exact (deletePage_spec h).1
  | write idx data =>
      obtain ⟨r, hr, -⟩ := Option.bind_eq_some_iff.mp h
      exact (rwpage_eq_some hr).1
  | read idx =>
      obtain ⟨r, hr, -⟩ := Option.map_eq_some_iff.mp h
      exact (rpage_eq_some hr).1
  | setRoot page =>
      rw [txStep, setRoot] at h
      split at h
      · assumption
      · cases h

theorem begin_eq_some {p p' : Pager W} (h : p.begin = some p') :
    p.transactionActive = false ∧
      p' = { p with savedHeader := p.header, transactionActive := true } := by
  rw [begin] at h
  split at h
  · cases h
  · cases h
    exact ⟨by simpa using ‹¬ p.transactionActive = true›, rfl⟩

theorem Sys.Sound.step {s s' : Sys W} {op : Op W} (hs : s.Sound) (h : s.step op = some s') :
    s'.Sound := by
  cases op with
  | begin =>
      obtain ⟨p, hp, rfl⟩ := Option.map_eq_some_iff.mp h
      obtain ⟨hinactive, rfl⟩ := begin_eq_some hp
      exact ⟨hs.ok, fun _ => (hs.idle hinactive).1, nofun⟩
  | tx op =>
      have htx := Sys.txStep_inTx h
      obtain ⟨hstep, hcommitted⟩ := Sys.txStep_pager h
      have hactive := txStep_active hstep
      refine ⟨htx.storageOk hs.ok, fun _ => ?_, fun hidle => ?_⟩
      · rw [hcommitted, htx.eq]
        exact hs.saved hactive
      · rw [htx.eq] at hidle
        exact absurd (hactive.symm.trans hidle) nofun
  | commit =>
      obtain ⟨p, hp, rfl⟩ := Option.map_eq_some_iff.mp h
      have hdone := commit_spec hp hs.ok
      exact ⟨hdone.ok, fun hactive => absurd (hactive.symm.trans hdone.inactive) nofun,
        fun _ => ⟨hdone.header_eq, rfl, hdone.empty, hdone.header_written⟩⟩
  | rollback =>
      rw [Sys.step] at h
      split at h
      · rename_i hactive
        cases h
        exact ⟨hs.ok, nofun, fun _ => ⟨hs.saved hactive, rfl, rfl, rfl⟩⟩
      · cases h
  | checkpoint =>
      rw [Sys.step] at h
      split at h
      · cases h
      · rename_i hinactive
        obtain ⟨p, hp, rfl⟩ := Option.map_eq_some_iff.mp h
        obtain ⟨wal, writes, -, hcheck⟩ := checkpoint_spec hp
        have heq := hcheck.eq
        rw [issueAll_files] at heq
        have hidle := hs.idle (by simpa using hinactive)
        refine ⟨?_, ?_, fun _ => ?_⟩
        · intro w hw
          rw [heq] at hw
          cases hw
          exact ⟨Nat.zero_le _, nofun, fun _ => rfl⟩
        · intro hactive
          rw [heq] at hactive
          exact absurd hactive hinactive
        · rw [heq]
          exact hidle

end Pager

end Plexdb
