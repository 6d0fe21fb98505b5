import Plexdb.PagerAllocation

/-! Rolling back a transaction. The transaction changes the header and the cache, which a rollback
restores, and the length of the main file, which it does not: `new_page` resizes the file at once,
to a page count that `delete_page` may have trimmed below what is committed. -/

namespace Plexdb

open Pager

variable {W : Nat}

namespace Pager

/-! ### One transaction -/

inductive TxOp (W : Nat) where
  | newPage
  | deletePage (idx : Nat)
  | write (idx : Nat) (data : Page W)
  | read (idx : Nat)
  | setRoot (page : Nat)

def txStep (p : Pager W) : TxOp W → Option (Pager W)
  | .newPage => p.newPage.map (·.1)
  | .deletePage idx => p.deletePage idx
  | .write idx data => p.writePage idx data
  | .read idx => (p.rpage idx).map (·.1)
  | .setRoot page => p.setRoot page

def txRun (p : Pager W) : List (TxOp W) → Option (Pager W)
  | [] => some p
  | op :: ops => (p.txStep op).bind (txRun · ops)

/-- A transaction, up to its commit or rollback. -/
def transaction (p : Pager W) (ops : List (TxOp W)) : Option (Pager W) := p.begin.bind (txRun · ops)

/-- The page count to which the next `new_page` grows the file, if it does. -/
def growTarget (p : Pager W) : Option Nat :=
  match p.findFree p.bitsetCount 1 with
  | some (_, some (bitsetPage, _, bitIdx)) =>
      if p.header.pageCount ≤ bitsetPage + 1 + bitIdx then some (bitsetPage + 1 + bitIdx + 1) else none
  | some (_, none) => some (p.header.pageCount + 2)
  | none => none

def TxOp.growTarget (p : Pager W) : TxOp W → Option Nat
  | .newPage => p.growTarget
  | _ => none

/-- The page counts to which the operations grow the file. -/
def growTargets (p : Pager W) : List (TxOp W) → List Nat
  | [] => []
  | op :: ops =>
      (op.growTarget p).toList ++
        match p.txStep op with
        | some p' => growTargets p' ops
        | none => []

def transactionGrowth (p : Pager W) (ops : List (TxOp W)) : List Nat :=
  match p.begin with
  | some p => growTargets p ops
  | none => []

/-! ### What a transaction leaves alone -/

def resized (p : Pager W) (targets : List Nat) : Pager W :=
  p.issueAll (targets.map fun n => .main (.resize n))

/-- `p'` is `p` with the file resized to the targets in turn, and another header and cache. -/
def InTx (p p' : Pager W) (targets : List Nat) : Prop :=
  p' = { p.resized targets with
    header := p'.header
    headerInWriteSet := p'.headerInWriteSet
    pageCache := p'.pageCache }

theorem resized_append (p : Pager W) (ms ns : List Nat) :
    p.resized (ms ++ ns) = (p.resized ms).resized ns := by
  rw [resized, resized, resized, issueAll, issueAll, issueAll, List.map_append, List.foldl_append]

theorem resized_with (p : Pager W) (h : Header) (b : Bool) (c : DynamicMap Nat (PageCacheEntry W))
    (ns : List Nat) :
    Pager.resized { p with header := h, headerInWriteSet := b, pageCache := c } ns =
      { p.resized ns with header := h, headerInWriteSet := b, pageCache := c } := by
  induction ns generalizing p with
  | nil => rfl
  | cons n ns ih =>
      have hcons : ∀ p : Pager W, p.resized (n :: ns) =
          Pager.resized (p.issue (.main (.resize n))) ns := fun _ => rfl
      rw [hcons, hcons, ← ih]
      rfl

theorem InTx.trans {p q r : Pager W} {ms ns : List Nat} (hpq : InTx p q ms) (hqr : InTx q r ns) :
    InTx p r (ms ++ ns) := by
  rw [InTx] at hpq hqr ⊢
  rw [hpq, resized_with] at hqr
  rw [resized_append]
  exact hqr

theorem Touched.inTx {p q : Pager W} (h : Touched p q) : InTx p q [] := by
  rw [InTx, h.rest]
  rfl

theorem inTx_insertCache (p : Pager W) (idx : Nat) (data : Page W) (dirty : Bool) :
    InTx p (p.insertCache idx data dirty) [] := rfl

theorem newPage_inTx {p p' : Pager W} {idx : Nat} (h : p.newPage = some (p', idx)) :
    InTx p p' p.growTarget.toList := by
  rw [newPage] at h
  split at h
  · obtain ⟨⟨q, slot⟩, hfind, h⟩ := Option.bind_eq_some_iff.mp h
    have htouched : Touched p q := (findFree_first hfind).1
    rw [growTarget, hfind]
    cases slot with
    | some slot =>
        obtain ⟨b, bitset, bitIdx⟩ := slot
        cases h
        have hins := htouched.inTx.trans (inTx_insertCache q b (bitset.setBit bitIdx) true)
        have hcount : (q.insertCache b (bitset.setBit bitIdx) true).header.pageCount =
            p.header.pageCount := by
          rw [← htouched.header_eq]
          rfl
        rw [hcount]
        dsimp only
        by_cases hgrow : p.header.pageCount ≤ b + 1 + bitIdx
        · rw [if_pos hgrow, if_pos hgrow]
          exact hins.trans rfl
        · rw [if_neg hgrow, if_neg hgrow]
          exact hins.trans (inTx_insertCache _ _ _ _)
    | none =>
        dsimp only at h ⊢
        rw [htouched.header_eq] at h
        split at h
        · obtain ⟨⟨r, bitset⟩, hread, h⟩ := Option.bind_eq_some_iff.mp h
          cases h
          have hgrow : InTx q (q.grow (p.header.pageCount + 1 + 1)) [p.header.pageCount + 1 + 1] := rfl
          have hr := ((htouched.inTx.trans hgrow).trans (rwpage_touched hread).inTx)
          exact (hr.trans (inTx_insertCache _ _ _ _)).trans (inTx_insertCache _ _ _ _)
        · cases h
  · cases h

theorem deletePage_inTx {p p' : Pager W} {idx : Nat} (h : p.deletePage idx = some p') :
    InTx p p' [] := by
  obtain ⟨-, -, g, bitIdx, bitset, -, -, -, -, ⟨-, rfl⟩ | ⟨-, n, q, htouched, -, rfl⟩⟩ :=
    deletePage_spec h
  · rfl
  · rw [InTx, htouched.rest]
    rfl

theorem txStep_inTx {p p' : Pager W} {op : TxOp W} (h : p.txStep op = some p') :
    InTx p p' (op.growTarget p).toList := by
  cases op with
  | newPage =>
      obtain ⟨⟨q, idx⟩, hnew, rfl⟩ := Option.map_eq_some_iff.mp h
      exact newPage_inTx hnew
  | deletePage idx => exact deletePage_inTx h
  | write idx data =>
      obtain ⟨⟨q, old⟩, hread, h⟩ := Option.bind_eq_some_iff.mp h
      cases h
      exact (rwpage_touched hread).inTx.trans (inTx_insertCache _ _ _ _)
  | read idx =>
      obtain ⟨⟨q, data⟩, hread, rfl⟩ := Option.map_eq_some_iff.mp h
      exact (rpage_eq_some hread).2.2.2.1.inTx
  | setRoot page =>
      rw [txStep, setRoot] at h
      split at h
      · cases h
        rfl
      · cases h

theorem txRun_inTx {p p' : Pager W} {ops : List (TxOp W)} (h : p.txRun ops = some p') :
    InTx p p' (p.growTargets ops) := by
  induction ops generalizing p with
  | nil =>
      cases h
      rfl
  | cons op ops ih =>
      obtain ⟨q, hstep, hrest⟩ := Option.bind_eq_some_iff.mp h
      rw [growTargets, hstep]
      exact (txStep_inTx hstep).trans (ih hrest)

theorem resized_eq (p : Pager W) (ns : List Nat) :
    p.resized ns = { p with
      files := { p.files with main := ns.foldl MainFile.resize p.files.main }
      issued := p.issued ++ ns.map fun n => .main (.resize n) } := by
  have hops : (ns.map fun n => IoOp.main (MainOp.resize n)) =
      (ns.map MainOp.resize).map (IoOp.main (W := W)) := by
    rw [List.map_map]
    rfl
  rw [resized, issueAll_files, hops, foldl_mainOps, List.foldl_map]
  rfl

/-- Everything a transaction leaves alone, in one equation. -/
theorem InTx.eq {p p' : Pager W} {ns : List Nat} (h : InTx p p' ns) :
    p' = { p with
      files := { p.files with main := ns.foldl MainFile.resize p.files.main }
      issued := p.issued ++ ns.map fun n => .main (.resize n)
      header := p'.header
      headerInWriteSet := p'.headerInWriteSet
      pageCache := p'.pageCache } := by
  rw [InTx, resized_eq] at h
  exact h

theorem load_inTx {p p' : Pager W} {ns : List Nat} (h : InTx p p' ns) (idx : Nat) :
    p'.load idx =
      match p.frameOf idx with
      | some (wal, frameIdx) => p.readFramePage wal frameIdx
      | none => (ns.foldl MainFile.resize p.files.main).readPage idx := by
  rw [h.eq]
  rfl

/-! ### Reading back -/

/-- The page as the next transaction reads it. -/
def readBack (p : Pager W) (idx : Nat) : Option (Page W) := (p.begin.bind (·.rpage idx)).map (·.2)

/-- The bit of the page is set in the committed bitset. -/
def Allocated (p : Pager W) (idx : Nat) : Prop :=
  idx < p.header.pageCount ∧ ∃ g j bitset, j < 64 * W ∧ idx = freePage W g j ∧
    p.readBack (bitsetPage W g) = some bitset ∧ bitset.bit j = true

/-- Between transactions, with every allocated page readable. -/
structure Committed (p : Pager W) : Prop where
  inactive : p.transactionActive = false
  empty : p.pageCache = ∅
  readable : ∀ i, p.Allocated i → ∃ data, p.readBack i = some data

theorem readBack_eq_load {p : Pager W} {idx : Nat} (hinactive : p.transactionActive = false)
    (hempty : p.pageCache = ∅) (hrange : p.InRange idx) : p.readBack idx = p.load idx := by
  rw [readBack, begin, hinactive, if_neg Bool.false_ne_true, Option.bind_some, rpage,
    if_pos ⟨rfl, hrange⟩]
  dsimp only
  rw [hempty, AList.lookup_empty]
  change Option.map _ (p.load idx >>= _) = _
  cases p.load idx <;> rfl

theorem readPage_foldl_resize {m : MainFile W} {idx : Nat} {data : Page W}
    (h : m.readPage idx = some data) (ns : List Nat) :
    (ns.foldl MainFile.resize m).readPage idx =
      if ∀ n ∈ ns, idx < n then some data
      else if ∀ n ∈ ns.getLast?, idx < n then some Page.zero else none := by
  induction ns using List.reverseRecOn with
  | nil => simpa using h
  | append_singleton ns n ih =>
      rw [List.foldl_append, List.foldl_cons, List.foldl_nil, MainFile.readPage_resize, ih]
      have hlast : (∀ k ∈ (ns ++ [n]).getLast?, idx < k) ↔ idx < n := by
        rw [List.getLast?_concat]
        simp
      by_cases hn : idx < n
      · have hsnoc : (∀ k ∈ ns ++ [n], idx < k) ↔ ∀ k ∈ ns, idx < k := by
          simp [or_imp, forall_and, hn]
        rw [if_pos hn, if_congr hsnoc rfl (if_pos (hlast.mpr hn))]
        split_ifs <;> rfl
      · have hsnoc : ¬ ∀ k ∈ ns ++ [n], idx < k := fun h => hn (h n (by simp))
        rw [if_neg hn, if_neg hsnoc, if_neg fun h => hn (hlast.mp h)]

/-- A rollback restores the header and every allocated page exactly when each allocated page that
lives in the main file alone is below every page count the transaction grew the file to, or holds
zeros and is below the last of them. -/
theorem rollback_restores_iff (p p' : Pager W) (ops : List (TxOp W)) (hp : p.Committed)
    (h : p.transaction ops = some p') :
    (p'.rollback.header = p.header ∧
        ∀ i, p.Allocated i → p'.rollback.readBack i = p.readBack i) ↔
      ∀ i, p.Allocated i → p.frameOf i = none →
        (∀ n ∈ p.transactionGrowth ops, i < n) ∨
          (p.readBack i = some Page.zero ∧ ∀ n ∈ (p.transactionGrowth ops).getLast?, i < n) := by
  obtain ⟨q, hbegin, hrun⟩ := Option.bind_eq_some_iff.mp h
  rw [transactionGrowth, hbegin]
  rw [begin, hp.inactive, if_neg Bool.false_ne_true] at hbegin
  cases hbegin
  have htx := txRun_inTx hrun
  dsimp only
  generalize Pager.growTargets _ ops = ns at htx ⊢
  have hheader : p'.rollback.header = p.header := by
    rw [rollback, htx.eq]
  have hrange : ∀ i, p.Allocated i → p.InRange i := by
    rintro i ⟨hlt, g, j, bitset, -, rfl, -⟩
    exact ⟨by rw [freePage]; omega, hlt⟩
  have hread : ∀ i, p.Allocated i → p'.rollback.readBack i =
      match p.frameOf i with
      | some (wal, frameIdx) => p.readFramePage wal frameIdx
      | none => (ns.foldl MainFile.resize p.files.main).readPage i := by
    intro i hi
    rw [readBack_eq_load rfl rfl ⟨(hrange i hi).1, hheader ▸ (hrange i hi).2⟩]
    exact load_inTx htx i
  have hback : ∀ i, p.Allocated i → p.readBack i = p.load i := fun i hi =>
    readBack_eq_load hp.inactive hp.empty (hrange i hi)
  have hpage : ∀ i, p.Allocated i → (p'.rollback.readBack i = p.readBack i ↔ (p.frameOf i = none →
      (∀ n ∈ ns, i < n) ∨ (p.readBack i = some Page.zero ∧ ∀ n ∈ ns.getLast?, i < n))) := by
    intro i hi
    obtain ⟨data, hdata⟩ := hp.readable i hi
    rw [hread i hi, hdata]
    rw [hback i hi, load] at hdata
    cases hframe : p.frameOf i with
    | some frame =>
        rw [hframe] at hdata
        simp [hdata]
    | none =>
        rw [hframe] at hdata
        dsimp only at hdata ⊢
        rw [readPage_foldl_resize hdata]
        split_ifs with hall hlast
        · exact ⟨fun _ _ => .inl hall, fun _ => rfl⟩
        · exact ⟨fun heq _ => .inr ⟨heq.symm, hlast⟩,
            fun hcond => ((hcond rfl).resolve_left hall).1.symm⟩
        · exact ⟨fun heq => absurd heq (by simp), fun hcond => absurd ((hcond rfl).resolve_left hall).2 hlast⟩
  constructor
  · rintro ⟨-, hall⟩ i hi
    exact (hpage i hi).mp (hall i hi)
  · exact fun hall => ⟨hheader, fun i hi => (hpage i hi).mpr (hall i hi)⟩

/-- Three allocated pages after a checkpoint: everything is in the main file. -/
def threePages : Pager 4 where
  files :=
    { main :=
        { size := 5
          header := ⟨5, 2⟩
          pages := fun i => if i = 1 then ((Page.zero.setBit 0).setBit 1).setBit 2 else fun _ => 7 }
      wal := ⟨0, 0, 0, fun _ => WalFile.zeroFrame⟩ }
  issued := []
  header := ⟨5, 2⟩
  savedHeader := ⟨5, 2⟩
  headerInWriteSet := false
  transactionActive := false
  checkpointInterval := 2
  walTransactionCount := 0
  pageCache := ∅
  wal := some ⟨0, 0, ∅⟩

theorem threePages_committed : threePages.Committed := by
  refine ⟨rfl, rfl, ?_⟩
  rintro i ⟨hlt, g, j, bitset, -, rfl, -⟩
  have hall : ∀ i < 5, 0 < i → (threePages.readBack i).isSome := by decide +kernel
  exact Option.isSome_iff_exists.mp (hall _ hlt (by rw [freePage]; omega))

theorem threePages_allocated : threePages.Allocated 4 :=
  ⟨by decide, 0, 2, ((Page.zero.setBit 0).setBit 1).setBit 2, by decide, by decide,
    by decide +kernel, by decide +kernel⟩

/-- A fourth page, a write and a free, rolled back. -/
theorem rollback_restores_threePages : ∃ p',
    threePages.transaction [.newPage, .write 2 Page.zero, .deletePage 3] = some p' ∧
      p'.rollback.header = threePages.header ∧
      ∀ i, threePages.Allocated i → p'.rollback.readBack i = threePages.readBack i := by
  have hsome : (threePages.transaction [.newPage, .write 2 Page.zero, .deletePage 3]).isSome := by
    decide +kernel
  obtain ⟨p', h⟩ := Option.isSome_iff_exists.mp hsome
  have hgrowth : threePages.transactionGrowth [.newPage, .write 2 Page.zero, .deletePage 3] = [6] := by
    decide +kernel
  refine ⟨p', h, (rollback_restores_iff threePages p' _ threePages_committed h).mpr ?_⟩
  rintro i ⟨hlt, -⟩ -
  have : i < 5 := hlt
  rw [hgrowth]
  exact .inl fun n hn => by
    rw [List.mem_singleton] at hn
    omega

/-- Free pages 4 and 3 and allocate one page: the file is cut to four pages, and the rollback leaves
it there. -/
theorem rollback_loses_page : threePages.Committed ∧ threePages.Allocated 4 ∧
    threePages.readBack 4 = some (fun _ => 7) ∧
    (threePages.transaction [.deletePage 4, .deletePage 3, .newPage]).map
      (fun p' => p'.rollback.readBack 4) = some none :=
  ⟨threePages_committed, threePages_allocated, by decide +kernel, by decide +kernel⟩

end Pager

end Plexdb
