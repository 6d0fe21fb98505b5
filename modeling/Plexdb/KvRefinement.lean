import Plexdb.KvOperations

/-! The key-value store on a pager over whole runs, next to the dictionary it stands for. -/

namespace Plexdb.Kv

open Blob (BlobProgram Does Fits Heap Views)
open BTree (U64 NodeRef Tree Iterator wordLayout)
open Pager (Sys)
open PageProgram (ensures_bind)

variable {W : Nat}

/-! ### Walks over the entries -/

def idEntries (es : List (U64 × Item)) : List (U64 × U64) := es.map fun e => (e.1, e.2.id)

def pairEntries (es : List (U64 × Item)) : List (U64 × Bytes × Bytes) := es.map fun e => (e.1, e.2.pair)

section

variable {index : NodeRef} {s : Sys W} {live : Finset Nat} {h : Heap W} {n : Nat} {t : Tree U64 U64 n} {items : Items}
  {es : List (U64 × Item)} {β : Type} {Q : Sys W → β → Prop}

theorem matching_cons (pattern : Bytes) (e : U64 × Item) (es : List (U64 × Item)) :
    KvMap.matching pattern (pairEntries (e :: es)) = if globMatch e.2.key pattern then
      e.2.key :: KvMap.matching pattern (pairEntries es) else KvMap.matching pattern (pairEntries es) :=
  List.filter_cons

/-- The key of the entry that the iterator is at is read. -/
theorem does_readHead (hW : 10 ≤ W) (hpage : 8 * W < 2 ^ 16) (hs : Views s live h) {e : U64 × Item}
    (he : e.2.Stored h) {it : Iterator (Page W)}
    (hat : Iterator.At (wordLayout W) t (idEntries (e :: es)) (some it)) {f : U64 → Bytes → BlobProgram W β}
    (hQ : ∀ s', Views s' live h → Does (f e.2.id e.2.key) Q s') :
    Does (Paged.deref it >>= fun id => Paged.readKey id >>= f id) Q s := by
  obtain ⟨e', rest, hcons, -, hvalue⟩ := hat.head (BTree.wordLayout_lawful (by omega)) hpage
  obtain ⟨rfl, -⟩ := List.cons.inj hcons
  refine PageProgram.ensures_ofOption_bind hvalue ((does_readKey (by omega) hs he.entry he.head).bind ?_)
  rintro s₁ - ⟨rfl, hs₁⟩
  exact hQ s₁ hs₁

section

variable (hW : 10 ≤ W) (hpage : 8 * W < 2 ^ 16) (hst : IsStore index h t items)

include hW hpage hst

theorem does_advanceHead (hs : Views s live h) {e : U64 × Item} {it : Iterator (Page W)}
    (hat : Iterator.At (wordLayout W) t (idEntries (e :: es)) (some it))
    {f : Option (Iterator (Page W)) → BlobProgram W β}
    (hQ : ∀ s' next, Views s' live h → Iterator.At (wordLayout W) t (idEntries es) next → Does (f next) Q s') :
    Does (it.advance (wordLayout W) >>= f) Q s :=
  BTree.does_advance (Blob.heapRules (show 0 < W by omega)).toReadRules (BTree.wordLayout_lawful (by omega)) hpage hs
    hst.tree hat hQ

theorem does_collectKeys (hs : Views s live h) {it : Option (Iterator (Page W))}
    (hat : Iterator.At (wordLayout W) t (idEntries es) it) (hstored : ∀ e ∈ es, e.2.Stored h) (pattern : Bytes)
    {fuel : Nat} (hfuel : es.length ≤ fuel) : Does (Paged.collectKeys pattern fuel it)
      (fun s' out => out = KvMap.matching pattern (pairEntries es) ∧ Views s' live h) s := by
  induction es generalizing s it fuel with
  | nil =>
      cases it with
      | none => cases fuel <;> exact ⟨rfl, hs⟩
      | some it =>
          obtain ⟨e, rest, hcons, -⟩ := hat.head (BTree.wordLayout_lawful (by omega)) hpage
          cases hcons
  | cons e es ih =>
      cases it with
      | none => cases (show idEntries (e :: es) = [] from hat)
      | some it =>
          obtain ⟨fuel, rfl⟩ := Nat.exists_eq_add_of_le' (Nat.lt_of_lt_of_le (Nat.succ_pos _) hfuel)
          refine does_readHead hW hpage hs (hstored e List.mem_cons_self) hat fun s₁ hs₁ => ?_
          refine does_advanceHead hW hpage hst hs₁ hat fun s₂ next hs₂ hnext => ?_
          refine (ih hs₂ hnext (fun e' he' => hstored e' (List.mem_cons_of_mem _ he')) (by simpa using hfuel)).bind ?_
          rintro s₃ - ⟨rfl, hs₃⟩
          exact ⟨(matching_cons pattern e es).symm, hs₃⟩

theorem does_scanKeys (hs : Views s live h) {it : Option (Iterator (Page W))}
    (hat : Iterator.At (wordLayout W) t (idEntries es) it) (hstored : ∀ e ∈ es, e.2.Stored h) (pattern : Bytes)
    (count : Nat) : Does (Paged.scanKeys pattern count it) (fun s' r =>
      r.1 = KvMap.matching pattern (pairEntries (es.take count)) ∧
        Iterator.At (wordLayout W) t (idEntries (es.drop count)) r.2 ∧ Views s' live h) s := by
  induction es generalizing s it count with
  | nil =>
      cases it with
      | none => cases count <;> exact ⟨rfl, rfl, hs⟩
      | some it =>
          obtain ⟨e, rest, hcons, -⟩ := hat.head (BTree.wordLayout_lawful (by omega)) hpage
          cases hcons
  | cons e es ih =>
      cases it with
      | none => cases (show idEntries (e :: es) = [] from hat)
      | some it =>
          cases count with
          | zero => exact ⟨rfl, hat, hs⟩
          | succ count =>
              refine does_readHead hW hpage hs (hstored e List.mem_cons_self) hat fun s₁ hs₁ => ?_
              refine does_advanceHead hW hpage hst hs₁ hat fun s₂ next hs₂ hnext => ?_
              refine (ih hs₂ hnext (fun e' he' => hstored e' (List.mem_cons_of_mem _ he')) count).bind ?_
              rintro s₃ ⟨keys, last⟩ ⟨rfl, hlast, hs₃⟩
              exact ⟨(matching_cons pattern e (es.take count)).symm, hlast, hs₃⟩

omit hst in
theorem does_nextCursor (hs : Views s live h) {it : Option (Iterator (Page W))}
    (hat : Iterator.At (wordLayout W) t (idEntries es) it) (hstored : ∀ e ∈ es, e.2.Stored h) :
    Does (Paged.nextCursor it) (fun s' out => out = KvMap.cursorOf (pairEntries es) ∧ Views s' live h) s := by
  cases es with
  | nil =>
      cases it with
      | none => exact ⟨rfl, hs⟩
      | some it =>
          obtain ⟨e, rest, hcons, -⟩ := hat.head (BTree.wordLayout_lawful (by omega)) hpage
          cases hcons
  | cons e es =>
      cases it with
      | none => cases (show idEntries (e :: es) = [] from hat)
      | some it =>
          exact does_readHead hW hpage hs (hstored e List.mem_cons_self) hat fun s₁ hs₁ => ⟨rfl, hs₁⟩

theorem does_scanStart (hs : Views s live h) (cursor : UInt64) {f : Option (Iterator (Page W)) → BlobProgram W β}
    (hQ : ∀ s' it es, Views s' live h → Iterator.At (wordLayout W) t (idEntries es) it → (∀ e ∈ es, e.2.Stored h) →
      pairEntries es = (mapOf items).behind cursor → Does (f it) Q s') :
    Does (Paged.scanStart index cursor >>= f) Q s := by
  unfold Paged.scanStart
  split_ifs with hzero
  · refine BTree.does_begin (Blob.heapRules (show 0 < W by omega)).toReadRules hs hst.tree fun s₁ it hs₁ hat => ?_
    rw [hst.entries] at hat
    refine hQ s₁ it items.entries hs₁ hat hst.stored ?_
    rw [KvMap.behind, if_pos hzero]
    rfl
  · refine BTree.does_findFirst (Blob.heapRules (show 0 < W by omega)).toReadRules (BTree.finds_geq cursor.toFin) hs
      hst.tree fun s₁ it hs₁ hat => ?_
    rw [hst.entries] at hat
    have hids : idEntries (items.entries.filter fun e => cursor.toFin ≤ e.1) =
        (items.map Item.id).entries.filter fun e => cursor.toFin ≤ e.1 := by
      change List.map _ _ = List.filter _ (List.map _ _)
      rw [List.filter_map]
      rfl
    have hpairs : pairEntries (items.entries.filter fun e => cursor.toFin ≤ e.1) =
        (mapOf items).entries.filter fun e => cursor.toFin ≤ e.1 := by
      change List.map _ _ = List.filter _ (List.map _ _)
      rw [List.filter_map]
      rfl
    refine hQ s₁ it (items.entries.filter fun e => cursor.toFin ≤ e.1) hs₁ (hids ▸ hat)
      (fun e he => hst.stored e (List.mem_of_mem_filter he)) ?_
    rw [KvMap.behind, if_neg hzero, hpairs]

theorem does_executeScan (hs : Views s live h) (cursor : UInt64) (pattern : Option Bytes) (count : Option UInt64) :
    Does (Paged.executeScan index cursor pattern count) (fun s' a =>
      a = (mapOf items).answer (.scan cursor pattern count) ∧ Views s' live h) s := by
  refine does_scanStart hW hpage hst hs cursor fun s₁ it es hs₁ hat hstored hpairs => ?_
  refine (does_scanKeys hW hpage hst hs₁ hat hstored _ _).bind ?_
  rintro s₂ ⟨keys, last⟩ ⟨rfl, hlast, hs₂⟩
  refine (does_nextCursor hW hpage hs₂ hlast fun e he => hstored e (List.mem_of_mem_drop he)).bind ?_
  rintro s₃ - ⟨rfl, hs₃⟩
  refine ⟨?_, hs₃⟩
  have htake : ∀ k, pairEntries (es.take k) = ((mapOf items).behind cursor).take k := fun k => by
    rw [← hpairs]
    exact List.map_take
  have hdrop : ∀ k, pairEntries (es.drop k) = ((mapOf items).behind cursor).drop k := fun k => by
    rw [← hpairs]
    exact List.map_drop
  rw [htake, hdrop]
  rfl

end

end

/-! ### One statement -/

/-- The entries that a statement may store. -/
def Statement.written : Statement → List (Bytes × Bytes)
  | .set key value _ _ => [(key, value)]
  | .mset pairs => pairs
  | _ => []

/-- The entries of the statement fit their blobs, the store can count them, the fuel is enough for a walk over all
entries, and the statement is not one that the paged engine does not carry out as the dictionary does. -/
structure Statement.InBounds (W fuel : Nat) (d : KvMap) (st : Statement) : Prop where
  fits : ∀ p ∈ st.written, Fits W (16 + p.1.length + p.2.length)
  size : d.size + st.written.length < 2 ^ 64
  fuel : ∀ pattern, st = .keys pattern → d.size ≤ fuel
  database : ∀ i, st = .selectDb i → i = 0
  notFlush : st ≠ .flushDb ∧ st ≠ .flushAll

section

variable {index : NodeRef} {s : Sys W} {live : Finset Nat} {h : Heap W} {pages : List Nat} {d : KvMap} {fuel : Nat}

theorem does_size {β : Type} {n : Nat} {t : Tree U64 U64 n} {items : Items} {f : UInt64 → BlobProgram W β}
    {Q : Sys W → β → Prop} (hW : 10 ≤ W) (hs : Views s live h) (hst : IsStore index h t items)
    (hQ : ∀ s', Views s' live h → Does (f (UInt64.ofNat (mapOf items).size)) Q s') :
    Does (Paged.size index >>= f) Q s := by
  obtain ⟨p, hp, -, hlen, -⟩ := hst.tree.page
  have hsize : ((wordLayout W).header p).size = (mapOf items).size := by
    rw [hlen, hst.entries]
    exact Dict.size_map.trans Dict.size_map.symm
  refine ensures_bind.mpr (ensures_bind.mpr ?_)
  refine BTree.does_readHeader (Blob.heapRules (show 0 < W by omega)).toReadRules hs hp fun s₁ hs₁ => ?_
  rw [hsize]
  exact hQ s₁ hs₁

/-- A statement answers as the dictionary does, and leaves the store of the dictionary it makes. -/
theorem does_execute (hW : 10 ≤ W) (hpage : 8 * W < 2 ^ 16) (hs : Views s live h) (hd : Represents index h pages d)
    {st : Statement} (hst : st.InBounds W fuel d) : Does (Paged.execute index fuel st) (fun s' a =>
      a = d.answer st ∧ Leaves index live h pages (d.effect st) s') s := by
  have hsame : ∀ s', Views s' live h → Leaves index live h pages d s' := fun s' hs' => hd.leaves hs'
  obtain ⟨items, n, t, hstore, rfl, rfl⟩ := id hd
  cases st with
  | ping message => cases message <;> exact ⟨rfl, hsame s hs⟩
  | quit => exact ⟨rfl, hsame s hs⟩
  | get key =>
      refine (does_tfind hW hs hstore key).bind ?_
      rintro s₁ o ⟨ho, hs₁⟩
      have hfind := does_readIfFound hW hs₁ hstore ho
      cases hget : items.get (keyHash key) with
      | none =>
          rw [hget] at ho
          rw [ho]
          refine ⟨?_, hsame s₁ hs₁⟩
          rw [KvMap.answer, KvMap.find, mapOf, Dict.get_map, hget]
          rfl
      | some i =>
          rw [hget] at ho
          rw [ho]
          have hi := hstore.stored _ (Dict.get_eq_some.mp hget)
          refine (does_readValue (by omega) hs₁ hi.entry hi.head).bind ?_
          rintro s₂ - ⟨rfl, hs₂⟩
          refine ⟨?_, hsame s₂ hs₂⟩
          rw [KvMap.answer, KvMap.find, mapOf, Dict.get_map, hget]
          rfl
  | set key value nx xx =>
      refine (does_tfind hW hs hstore key).bind ?_
      rintro s₁ o ⟨ho, hs₁⟩
      have hcontains : (mapOf items).contains key = o.isSome := by rw [contains_map, ho]
      have hnone : o.isNone = !(mapOf items).contains key := by rw [hcontains, Option.not_isSome]
      rw [← hcontains, hnone, KvMap.answer, KvMap.effect, KvMap.refuses]
      cases nx && (mapOf items).contains key with
      | true => exact ⟨rfl, hsame s₁ hs₁⟩
      | false =>
          cases xx && !(mapOf items).contains key with
          | true => exact ⟨rfl, hsame s₁ hs₁⟩
          | false =>
              have hlen : items.size = (mapOf items).size := Dict.size_map.symm
              refine (does_storeEntry hW hs₁ hstore ho (hst.fits (key, value) (List.mem_singleton.mpr rfl))
                (hlen ▸ hst.size)).bind ?_
              rintro s₂ - hleaves
              exact ⟨rfl, hleaves⟩
  | del keys =>
      refine (does_deleteKeys hW hpage hs hd 0 keys).bind ?_
      rintro s₁ - ⟨rfl, hleaves⟩
      refine ⟨?_, hleaves⟩
      rw [Nat.zero_add]
      rfl
  | exists_ keys =>
      refine (does_countKeys hW hs hstore 0 keys).bind ?_
      rintro s₁ - ⟨rfl, hs₁⟩
      refine ⟨?_, hsame s₁ hs₁⟩
      rw [Nat.zero_add]
      rfl
  | mget keys =>
      refine (does_readKeys hW hs hstore keys).bind ?_
      rintro s₁ - ⟨rfl, hs₁⟩
      exact ⟨rfl, hsame s₁ hs₁⟩
  | mset pairs =>
      refine (does_storePairs hW hs hd pairs hst.fits hst.size).bind ?_
      rintro s₁ - hleaves
      exact ⟨rfl, hleaves⟩
  | keys pattern =>
      refine BTree.does_begin (Blob.heapRules (show 0 < W by omega)).toReadRules hs hstore.tree fun s₁ it hs₁ hat => ?_
      rw [hstore.entries] at hat
      have hlen : items.entries.length = (mapOf items).size := Dict.size_map.symm
      refine (does_collectKeys hW hpage hstore hs₁ hat hstore.stored pattern
        (hlen ▸ hst.fuel pattern rfl)).bind ?_
      rintro s₂ - ⟨rfl, hs₂⟩
      exact ⟨rfl, hsame s₂ hs₂⟩
  | scan cursor pattern count =>
      refine (does_executeScan hW hpage hstore hs cursor pattern count).mono ?_
      rintro s₁ a ⟨ha, hs₁⟩
      exact ⟨ha, hsame s₁ hs₁⟩
  | flushDb => exact absurd rfl hst.notFlush.1
  | flushAll => exact absurd rfl hst.notFlush.2
  | dbSize => exact does_size hW hs hstore fun s₁ hs₁ => ⟨rfl, hsame s₁ hs₁⟩
  | typeOf key =>
      refine (does_tfind hW hs hstore key).bind ?_
      rintro s₁ - ⟨rfl, hs₁⟩
      refine ⟨?_, hsame s₁ hs₁⟩
      rw [KvMap.answer, contains_map]
  | cmd => exact ⟨rfl, hsame s hs⟩
  | selectDb database =>
      have hzero := hst.database database rfl
      rw [Paged.execute, if_neg (not_not_intro hzero)]
      exact ⟨rfl, hsame s hs⟩
  | clientGetName => exact ⟨rfl, hsame s hs⟩
  | client _ => exact ⟨rfl, hsame s hs⟩
  | info _ => exact does_size hW hs hstore fun s₁ hs₁ => ⟨rfl, hsame s₁ hs₁⟩
  | unknown name _ => exact ⟨rfl, hsame s hs⟩

end

/-! ### Runs -/

/-- A pager with a store in it, inside a transaction, and the dictionary the store should be. -/
structure KvSys (W : Nat) where
  sys : Sys W
  map : KvMap

namespace KvSys

def step (index : NodeRef) (fuel : Nat) (t : KvSys W) (st : Statement) : Option (KvSys W) :=
  ((Paged.execute index fuel st).run Blob.store t.sys).map fun r => ⟨r.1, t.map.effect st⟩

/-- The statement stays in bounds, and each of its allocations finds what it must. -/
def Safe (index : NodeRef) (fuel : Nat) (t : KvSys W) (st : Statement) : Prop :=
  st.InBounds W fuel t.map ∧ (Paged.execute index fuel st).Meets Blob.store Blob.Allocates t.sys

end KvSys

section

variable {index : NodeRef} {s s' : Sys W} {live : Finset Nat} {h : Heap W} {fuel : Nat}
  (hW : 10 ≤ W) (hpage : 8 * W < 2 ^ 16)

include hW

/-- A new index is an empty store. -/
theorem does_create (hs : Views s live h) :
    Does (BTree.create (wordLayout W)) (fun s' index => Leaves index live h [] Dict.empty s') s := by
  refine (BTree.does_create (Blob.heapRules (show 0 < W by omega)) (BTree.wordLayout_lawful (by omega)) (by decide)
    hs).mono ?_
  rintro s' index ⟨live', h', t, hs', ht, hentries, hr⟩
  have hpages : pagesOf index t [] = index :: t.refs := List.append_nil _
  refine ⟨live', h', _, hs', ⟨Dict.empty, 0, t, ⟨⟨ht, fun _ he => absurd he List.not_mem_nil, ?_⟩, hentries⟩, rfl,
    hpages⟩, hr⟩
  rw [show (Dict.empty : Items).entries = [] from rfl, hpages]
  exact List.nodup_cons.mpr ⟨ht.out, ht.sound.nodup⟩

include hpage

theorem Leaves.execute {d : KvMap} (hl : Leaves index live h [] d s) {st : Statement} (hst : st.InBounds W fuel d) :
    Does (Paged.execute index fuel st) (fun s' a => a = d.answer st ∧ Leaves index live h [] (d.effect st) s') s := by
  obtain ⟨live', h', pages, hs, hd, hr⟩ := hl
  refine (does_execute hW hpage hs hd hst).mono ?_
  rintro s₁ a ⟨ha, hleaves⟩
  exact ⟨ha, hleaves.trans hr⟩

/-- After every run from a new index on. -/
theorem leaves_of_run (hs : Views s live h) (hmeets : (BTree.create (wordLayout W)).Meets Blob.store Blob.Allocates s)
    (hcreate : (BTree.create (wordLayout W)).run Blob.store s = some (s', index)) {sts : List Statement} {t : KvSys W}
    (hrun : Run (KvSys.step index fuel) (KvSys.Safe index fuel) ⟨s', Dict.empty⟩ sts t) :
    Leaves index live h [] t.map t.sys := by
  refine @Run.invariant _ _ _ _ (fun t : KvSys W => Leaves index live h [] t.map t.sys) ?_ _ _ _ hrun
    ((does_create hW hs).of_run hmeets hcreate)
  intro t st t' ht hsafe hstep
  obtain ⟨⟨s₁, a⟩, hexecute, rfl⟩ := Option.map_eq_some_iff.mp hstep
  exact ((ht.execute hW hpage hsafe.1).of_run hsafe.2 hexecute).2

/-- After every run the live pages are those that were live before the store, which are as they were, and the pages of
the index and of the blobs, each once. A blob has the pages its entry needs. -/
theorem kv_owns (hs : Views s live h) (hmeets : (BTree.create (wordLayout W)).Meets Blob.store Blob.Allocates s)
    (hcreate : (BTree.create (wordLayout W)).run Blob.store s = some (s', index)) {sts : List Statement} {t : KvSys W}
    (hrun : Run (KvSys.step index fuel) (KvSys.Safe index fuel) ⟨s', Dict.empty⟩ sts t) :
    ∃ h' n, ∃ tree : Tree U64 U64 n, ∃ items : Items, IsStore index h' tree items ∧ mapOf items = t.map ∧
      Views t.sys (live ∪ (pagesOf index tree items.entries).toFinset) h' ∧
      (pagesOf index tree items.entries).Nodup ∧ (∀ i ∈ pagesOf index tree items.entries, i ∉ live) ∧
      (∀ i ∈ live, h' i = h i) ∧ ∀ e ∈ items.entries, e.2.blob.pages.length =
        Blob.dataCount W (16 + e.2.key.length + e.2.value.length) +
          Blob.headerCount W (Blob.dataCount W (16 + e.2.key.length + e.2.value.length)) := by
  obtain ⟨live', h', pages, hs', ⟨items, n, tree, hst, hmap, rfl⟩, hr⟩ :=
    leaves_of_run hW hpage hs hmeets hcreate hrun
  refine ⟨h', n, tree, items, hst, hmap, ?_, hst.nodup, fun i hi => ?_, fun i hi => ?_, fun e he => ?_⟩
  · have hlive := hr.live_eq
    rw [List.toFinset_nil, Finset.sdiff_empty] at hlive
    exact hlive ▸ hs'
  · exact (hr.owned i hi).resolve_left List.not_mem_nil
  · exact hr.frame i hi List.not_mem_nil
  · have hentry := (hst.stored e he).entry
    have hsize := hentry.size
    rw [length_entryBytes] at hsize
    rw [Blob.BlobDynamicPaged.pages, List.length_append, hentry.stored.header, hentry.stored.data, hsize]

end

/-! ### A first entry -/

theorem inBounds_first {d : KvMap} {st : Statement} (hst : st = .set [107] [118] false false ∨ st = .get [107])
    (hsize : d.size + 1 < 2 ^ 64) : st.InBounds 10 0 d := by
  rcases hst with rfl | rfl
  · exact ⟨List.forall_mem_singleton.mpr (by decide), hsize, fun _ h => (by cases h), fun _ h => (by cases h),
      fun h => (by cases h), fun h => (by cases h)⟩
  · exact ⟨fun _ h => absurd h List.not_mem_nil, Nat.lt_of_succ_lt hsize, fun _ h => (by cases h),
      fun _ h => (by cases h), fun h => (by cases h), fun h => (by cases h)⟩

/-- An entry is stored in a new store. -/
theorem exists_run_set : ∃ s' index t,
    (BTree.create (wordLayout 10)).Meets Blob.store Blob.Allocates BTree.firstTransaction ∧
    (BTree.create (wordLayout 10)).run Blob.store BTree.firstTransaction = some (s', index) ∧
    Run (KvSys.step index 0) (KvSys.Safe index 0) ⟨s', Dict.empty⟩ [.set [107] [118] false false] t ∧
    t.map.find [107] = some [118] ∧ t.Safe index 0 (.get [107]) := by
  let safe (index : NodeRef) (t : KvSys 10) (st : Statement) : Bool :=
    decide (st = .set [107] [118] false false ∨ st = .get [107]) && decide (t.map.size + 1 < 2 ^ 64) &&
      (Paged.execute index 0 st).checks Blob.store BTree.allocates t.sys
  have hsafe : ∀ index t st, safe index t st = true → t.Safe index 0 st := fun index t st h => by
    obtain ⟨h, hmeets⟩ := Bool.and_eq_true_iff.mp h
    obtain ⟨hst, hsize⟩ := Bool.and_eq_true_iff.mp h
    exact ⟨inBounds_first (of_decide_eq_true hst) (of_decide_eq_true hsize),
      PageProgram.meets_of_checks BTree.allocates_of_eq_true hmeets⟩
  have hchecks : (BTree.create (wordLayout 10)).checks Blob.store BTree.allocates BTree.firstTransaction = true := by
    decide +kernel
  have hsome : (((BTree.create (wordLayout 10)).run Blob.store BTree.firstTransaction).bind fun r =>
      (runAll (KvSys.step r.2 0) (safe r.2) ⟨r.1, Dict.empty⟩ [.set [107] [118] false false]).map fun t =>
        (t.map.find [107], safe r.2 t (.get [107]))) = some (some [118], true) := by
    decide +kernel
  obtain ⟨⟨s', index⟩, hcreate, hsome⟩ := Option.bind_eq_some_iff.mp hsome
  obtain ⟨t, hrun, ht⟩ := Option.map_eq_some_iff.mp hsome
  obtain ⟨hfind, hget⟩ := Prod.mk.inj ht
  exact ⟨s', index, t, PageProgram.meets_of_checks BTree.allocates_of_eq_true hchecks, hcreate,
    (Run.of_runAll hrun).mono (hsafe index), hfind, hsafe index t _ hget⟩

/-- The live pages of a store with one entry are its own. -/
theorem kv_owns_set : ∃ s' index t,
    (BTree.create (wordLayout 10)).run Blob.store BTree.firstTransaction = some (s', index) ∧
    Run (KvSys.step index 0) (KvSys.Safe index 0) ⟨s', Dict.empty⟩ [.set [107] [118] false false] t ∧
    ∃ n, ∃ tree : Tree U64 U64 n, ∃ items : Items, mapOf items = t.map ∧
      t.sys.live = (pagesOf index tree items.entries).toFinset ∧ (pagesOf index tree items.entries).Nodup := by
  obtain ⟨s', index, t, hmeets, hcreate, hrun, -, -⟩ := exists_run_set
  obtain ⟨h', n, tree, items, -, hmap, hviews, hnodup, -⟩ :=
    kv_owns (by decide) (by decide) BTree.views_firstTransaction hmeets hcreate hrun
  refine ⟨s', index, t, hcreate, hrun, n, tree, items, hmap, ?_, hnodup⟩
  rw [hviews.live_eq, Finset.empty_union]

end Plexdb.Kv
