import Plexdb.BTreeRuns
import Plexdb.BlobRefinement

/-! Trees from 64-bit keys to 64-bit values on the pages of a pager. Of the words of a node's page the first has the
number of keys in its low half, the next two are the links; the keys begin at the fourth, and the values or children
behind the room for the keys. -/

namespace Plexdb

namespace Page

variable {W : Nat}

/-- The `n` words from `start` on. -/
def words (page : Page W) (start n : Nat) : List (BitVec 64) := (List.range n).map fun i => page.word (start + i)

def setWords (page : Page W) (start : Nat) (ws : List (BitVec 64)) : Page W := fun i =>
  if start ≤ i.val then (ws[i.val - start]?).getD (page i) else page i

theorem word_setWords {page : Page W} {start : Nat} {ws : List (BitVec 64)} {i : Nat} (hi : i < W) :
    (page.setWords start ws).word i = if start ≤ i then (ws[i - start]?).getD (page.word i) else page.word i := by
  rw [word, dif_pos hi, word, dif_pos hi]
  rfl

theorem words_setWords {page : Page W} {start : Nat} {ws : List (BitVec 64)} (hfit : start + ws.length ≤ W) :
    (page.setWords start ws).words start ws.length = ws := by
  refine List.ext_getElem (by simp [words]) fun i hi hi' => ?_
  simp only [words, List.getElem_map, List.getElem_range]
  rw [word_setWords (by omega), if_pos (Nat.le_add_right start i), Nat.add_sub_cancel_left,
    List.getElem?_eq_getElem hi']
  rfl

theorem word_setWords_of_not_mem {page : Page W} {start i : Nat} {ws : List (BitVec 64)}
    (hi : i < start ∨ start + ws.length ≤ i) : (page.setWords start ws).word i = page.word i := by
  by_cases hlt : i < W
  · rw [word_setWords hlt]
    split_ifs with hle
    · rw [List.getElem?_eq_none (by omega)]
      rfl
    · rfl
  · rw [word, word, dif_neg hlt, dif_neg hlt]

theorem words_congr {page page' : Page W} {start n : Nat}
    (h : ∀ i, start ≤ i → i < start + n → page.word i = page'.word i) :
    page.words start n = page'.words start n :=
  List.map_congr_left fun i hi => h _ (Nat.le_add_right start i) (Nat.add_lt_add_left (List.mem_range.mp hi) start)

/-- The low 16 bits of a word. -/
def low (w : BitVec 64) : Nat := w.toNat % 2 ^ 16

def setLow (n : Nat) (w : BitVec 64) : BitVec 64 := BitVec.ofNat 64 (w.toNat / 2 ^ 16 * 2 ^ 16 + n % 2 ^ 16)

/-- Write the number of keys, the keys, and what belongs to them. -/
def writeNode (start : Nat) (ks vs : List (BitVec 64)) (page : Page W) : Page W :=
  ((page.modifyWord 0 (setLow ks.length)).setWords 3 ks).setWords start vs

theorem low_setLow {n : Nat} (hn : n < 2 ^ 16) (w : BitVec 64) : low (setLow n w) = n := by
  have hw := w.isLt
  rw [low, setLow, BitVec.toNat_ofNat, Nat.mod_eq_of_lt hn]
  omega

end Page

namespace BTree

variable {W : Nat}

abbrev U64 := Fin (2 ^ 64)

/-- `BTreePaged` with keys and values of eight bytes. -/
def wordLayout (W : Nat) : Layout (Page W) U64 U64 where
  nodeSize := 8 * W
  keyStride := 8
  valueStride := 8
  blank := Page.zero
  header p := ⟨(p.word 0).toNat, (p.word 1).toNat, (p.word 2).toNat, (p.word 3).toNat, Page.low (p.word 4)⟩
  setHeader hd p := (p.setWords 0 [BitVec.ofNat 64 hd.depth, BitVec.ofNat 64 hd.size, BitVec.ofNat 64 hd.root,
    BitVec.ofNat 64 hd.leaves]).modifyWord 4 (Page.setLow hd.maxKeyBytes)
  prev p := (p.word 1).toNat
  next p := (p.word 2).toNat
  setPrev r p := p.modifyWord 1 fun _ => BitVec.ofNat 64 r
  setNext r p := p.modifyWord 2 fun _ => BitVec.ofNat 64 r
  entries p := ((p.words 3 (Page.low (p.word 0))).map BitVec.toFin).zip
    ((p.words (3 + (maxKeysLeaf (8 * W) 8 8).getD 0) (Page.low (p.word 0))).map BitVec.toFin)
  setEntries es p := p.writeNode (3 + (maxKeysLeaf (8 * W) 8 8).getD 0) (es.map fun e => BitVec.ofFin e.1)
    (es.map fun e => BitVec.ofFin e.2)
  keys p := (p.words 3 (Page.low (p.word 0))).map BitVec.toFin
  children p := (p.words (3 + (maxKeysInternal (8 * W) 8).getD 0) (Page.low (p.word 0) + 1)).map BitVec.toNat
  setInternal ks cs p := p.writeNode (3 + (maxKeysInternal (8 * W) 8).getD 0) (ks.map BitVec.ofFin)
    (cs.map (BitVec.ofNat 64))
  -- both take the node size for a `U16`
  copyNode dst src := fun i => if 8 * i.val < u16 (8 * W) then src i else dst i
  valueAt p i := if i < Page.low (p.word 0)
    then some (p.word (3 + (maxKeysLeaf (u16 (8 * W)) 8 8).getD 0 + i)).toFin else none

theorem toNat_ofNat_of_lt {r : Nat} (hr : r < 2 ^ 64) : (BitVec.ofNat 64 r).toNat = r := by
  rw [BitVec.toNat_ofNat, Nat.mod_eq_of_lt hr]

/-- What a node's page holds after it was written. -/
theorem word_writeNode {p q : Page W} {capacity : Nat} {ks vs : List (BitVec 64)}
    (hq : q = p.writeNode (3 + capacity) ks vs)
    (hks : ks.length ≤ capacity) (hvs : 3 + capacity + vs.length ≤ W) (hcapacity : capacity < 2 ^ 16) :
    Page.low (q.word 0) = ks.length ∧ q.word 1 = p.word 1 ∧ q.word 2 = p.word 2 ∧ q.words 3 ks.length = ks ∧
      q.words (3 + capacity) vs.length = vs := by
  subst hq
  unfold Page.writeNode
  have houter : ∀ i < 3 + capacity, Page.word (((p.modifyWord 0 (Page.setLow ks.length)).setWords 3 ks).setWords
      (3 + capacity) vs) i = ((p.modifyWord 0 (Page.setLow ks.length)).setWords 3 ks).word i := fun i hi =>
    Page.word_setWords_of_not_mem (Or.inl hi)
  have hinner : ∀ i < 3, Page.word
    (((p.modifyWord 0 (Page.setLow ks.length)).setWords 3 ks).setWords (3 + capacity) vs) i =
      if i = 0 then Page.setLow ks.length (p.word i) else p.word i := fun i hi => by
    rw [houter i (by omega), Page.word_setWords_of_not_mem (Or.inl hi), Page.word_modifyWord _ _ _ (by omega)]
  refine ⟨?_, hinner 1 (by omega), hinner 2 (by omega), ?_, Page.words_setWords hvs⟩
  · rw [hinner 0 (by omega), if_pos rfl, Page.low_setLow (by omega)]
  · rw [Page.words_congr fun i _ hi => houter i (by omega), Page.words_setWords (by omega)]

/-- A leaf's page has room for as many keys and values as there can be. -/
theorem maxKeysLeaf_le (hW : 3 ≤ W) : 3 + 2 * (maxKeysLeaf (8 * W) 8 8).getD 0 ≤ W ∧
    (maxKeysLeaf (8 * W) 8 8).getD 0 < 2 ^ 16 := by
  unfold maxKeysLeaf nodeHeaderBytes
  split_ifs
  · rw [Option.getD_some]
    omega
  · rw [Option.getD_none]
    omega

theorem maxKeysInternal_le (hW : 4 ≤ W) :
    4 + 2 * (maxKeysInternal (8 * W) 8).getD 0 ≤ W ∧ (maxKeysInternal (8 * W) 8).getD 0 < 2 ^ 16 := by
  unfold maxKeysInternal nodeHeaderBytes
  split_ifs
  · rw [Option.getD_some]
    omega
  · rw [Option.getD_none]
    omega

/-- A write to one of the links. -/
theorem word_writeLink {p : Page W} {e i r : Nat} (hi : i < W) : (p.modifyWord e fun _ => BitVec.ofNat 64 r).word i =
    if i = e then BitVec.ofNat 64 r else p.word i :=
  Page.word_modifyWord _ _ _ hi

theorem words_writeLink {p : Page W} {e r start n : Nat} (he : e < start) :
    (p.modifyWord e fun _ => BitVec.ofNat 64 r).words start n = p.words start n :=
  Page.words_congr fun i hle _ => by
    by_cases hi : i < W
    · rw [word_writeLink hi, if_neg (by omega)]
    · rw [Page.word, Page.word, dif_neg hi, dif_neg hi]

theorem map_toFin_ofFin {α : Type} (es : List α) (f : α → U64) :
    (es.map fun e => BitVec.ofFin (f e)).map BitVec.toFin = es.map f := by
  rw [List.map_map]
  rfl

theorem wordLayout_lawful (hW : 5 ≤ W) : (wordLayout W).Lawful (· < 2 ^ 64) (· < 2 ^ 64) where
  fits_prev p := BitVec.isLt _
  fits_next p := BitVec.isLt _
  fits_children p c hc := by
    obtain ⟨w, -, rfl⟩ := List.mem_map.mp hc
    exact w.isLt
  fitsSize_of_le h h' := h.trans_lt h'
  leaf_blank := by
    have hword : ∀ i, (Page.zero : Page W).word i = 0 := fun i => by
      unfold Page.word Page.zero
      split <;> rfl
    simp [wordLayout, Layout.leaf, hword, Page.low, Page.words]
  internal_blank := by
    have hword : ∀ i, (Page.zero : Page W).word i = 0 := fun i => by
      unfold Page.word Page.zero
      split <;> rfl
    simp [wordLayout, Layout.internal, hword, Page.low, Page.words]
  header_setHeader := by
    intro hd p hdepth hsize hroot hleaves hmax
    have hword : ∀ i < 4, (((wordLayout W).setHeader hd p).word i).toNat = [hd.depth, hd.size, hd.root,
      hd.leaves].getD i 0 := by
      intro i hi
      change (Page.word (Page.modifyWord (p.setWords 0 _) 4 _) i).toNat = _
      rw [Page.word_modifyWord _ _ _ (by omega), if_neg (by omega), Page.word_setWords (by omega),
        if_pos (Nat.zero_le i)]
      interval_cases i
      · exact toNat_ofNat_of_lt hdepth
      · exact toNat_ofNat_of_lt hsize
      · exact toNat_ofNat_of_lt hroot
      · exact toNat_ofNat_of_lt hleaves
    have hlow : Page.low (((wordLayout W).setHeader hd p).word 4) = hd.maxKeyBytes := by
      change Page.low (Page.word (Page.modifyWord (p.setWords 0 _) 4 _) 4) = _
      rw [Page.word_modifyWord _ _ _ (by omega), if_pos rfl, Page.low_setLow hmax]
    change Header.mk _ _ _ _ _ = hd
    rw [hword 0 (by omega), hword 1 (by omega), hword 2 (by omega), hword 3 (by omega), hlow]
    rfl
  leaf_setPrev := by
    intro r p hr
    simp (disch := omega) [Layout.leaf, wordLayout, word_writeLink, words_writeLink, toNat_ofNat_of_lt hr]
  leaf_setNext := by
    intro r p hr
    simp (disch := omega) [Layout.leaf, wordLayout, word_writeLink, words_writeLink, toNat_ofNat_of_lt hr]
  internal_setPrev := by
    intro r p hr
    simp (disch := omega) [Layout.internal, wordLayout, word_writeLink, words_writeLink, toNat_ofNat_of_lt hr]
  internal_setNext := by
    intro r p hr
    simp (disch := omega) [Layout.internal, wordLayout, word_writeLink, words_writeLink, toNat_ofNat_of_lt hr]
  leaf_setEntries := by
    intro es p (hes : es.length ≤ (maxKeysLeaf (8 * W) 8 8).getD 0)
    obtain ⟨hfit, hsmall⟩ := @maxKeysLeaf_le W (by omega)
    obtain ⟨hcount, hprev, hnext, hkeys, hvalues⟩ := word_writeNode
      (show (wordLayout W).setEntries es p = p.writeNode _ _ _ from rfl) (by rwa [List.length_map])
        (by rw [List.length_map]; omega) hsmall
    have hentries : (wordLayout W).entries ((wordLayout W).setEntries es p) = es := by
      rw [List.length_map] at hcount hkeys hvalues
      change ((Page.words _ 3 (Page.low _)).map BitVec.toFin).zip
        ((Page.words _ (3 + (maxKeysLeaf (8 * W) 8 8).getD 0) (Page.low _)).map BitVec.toFin) = es
      rw [hcount, hkeys, hvalues, map_toFin_ofFin, map_toFin_ofFin]
      exact (List.zip_of_prod rfl rfl).symm
    change Leaf.mk (Page.word _ 1).toNat (Page.word _ 2).toNat _ = Leaf.mk _ _ _
    rw [hentries, hprev, hnext]
    rfl
  internal_setInternal := by
    intro ks cs p (hks : ks.length ≤ (maxKeysInternal (8 * W) 8).getD 0) hcs hfits
    obtain ⟨hfit, hsmall⟩ := @maxKeysInternal_le W (by omega)
    obtain ⟨hcount, hprev, hnext, hkeys, hchildren⟩ := word_writeNode
      (show (wordLayout W).setInternal ks cs p = p.writeNode _ _ _ from rfl) (by rwa [List.length_map])
        (by rw [List.length_map]; omega) hsmall
    rw [List.length_map] at hcount hkeys hchildren
    have hks' : (wordLayout W).keys ((wordLayout W).setInternal ks cs p) = ks := by
      change (Page.words _ 3 (Page.low _)).map BitVec.toFin = ks
      rw [hcount, hkeys]
      exact (map_toFin_ofFin ks id).trans (List.map_id ks)
    have hcs' : (wordLayout W).children ((wordLayout W).setInternal ks cs p) = cs := by
      change (Page.words _ (3 + (maxKeysInternal (8 * W) 8).getD 0) (Page.low _ + 1)).map BitVec.toNat = cs
      rw [hcount, ← hcs, hchildren, List.map_map]
      exact (List.map_congr_left fun c hc => toNat_ofNat_of_lt (hfits c hc)).trans (List.map_id cs)
    change Internal.mk (Page.word _ 1).toNat (Page.word _ 2).toNat _ _ = Internal.mk _ _ _ _
    rw [hks', hcs', hprev, hnext]
    rfl
  copyNode := by
    intro (hnode : 8 * W < 2 ^ 16) dst src
    funext i
    change (if 8 * i.val < u16 (8 * W) then src i else dst i) = src i
    rw [u16, Nat.mod_eq_of_lt hnode, if_pos (by omega)]
  valueAt := by
    intro (hnode : 8 * W < 2 ^ 16) p i
    change (if i < Page.low (p.word 0)
      then some (p.word (3 + (maxKeysLeaf (u16 (8 * W)) 8 8).getD 0 + i)).toFin else none) =
      ((List.zip ((Page.words p 3 (Page.low _)).map BitVec.toFin)
        ((Page.words p _ (Page.low _)).map BitVec.toFin))[i]?).map (·.2)
    rw [u16, Nat.mod_eq_of_lt hnode]
    split_ifs with hi
    · simp [Page.words, hi]
    · simp [Page.words, hi]

end BTree

/-- A pager inside a transaction is a heap. -/
def Blob.heapRules (hW : 0 < W) : HeapRules (Blob.store (W := W)) Blob.Allocates Page.zero (· < 2 ^ 64) where
  Views := Blob.Views
  mem_live hs hi := (hs.page _ _ hi).1
  ne_zero hs hi := by
    obtain ⟨⟨hpos, -⟩, -⟩ := hs.inRange (hs.page _ _ hi).1
    exact hpos.ne'
  newPage hs hQ := hs.newPage hW fun s' idx hfresh hlt _ hs' => hQ s' idx hfresh hlt hs'
  deletePage hs hidx hQ := hs.deletePage hidx hQ
  rpage hs hdata hQ := hs.rpage hdata hQ
  rwpage {s live h idx data write Q} hs hdata hQ := by
    obtain ⟨hlive, hcontent⟩ := hs.page idx data hdata
    have hp := Pager.rwpage_of_content hs.active (hs.inRange hlive).1 hcontent
    obtain ⟨s', data', hrun, hs'⟩ := hs.rwpage hdata write (Q := fun s' _ => Q s' data) hQ
    obtain ⟨r, hr, hrun'⟩ := Option.map_eq_some_iff.mp hrun
    obtain rfl : data = data' := by
      rw [hp] at hr
      cases hr
      exact congrArg Prod.snd hrun'
    exact ⟨s', data, hrun, hs'⟩

theorem Pager.groupsAligned_of_newPage {p p' : Pager W} {idx : Nat} (hpos : 0 < p.header.pageCount)
    (h : p.newPage = some (p', idx)) : p.GroupsAligned := by
  obtain ⟨-, q, -, ⟨g, bitset, j, hslot, -, -⟩ | ⟨-, -, halign, -, -⟩⟩ := newPage_spec h
  · intro hfull
    obtain ⟨bitset', hbitset', hset⟩ := hfull g ((lt_bitsetCount_iff hpos).mpr hslot.inRange.2)
    obtain rfl := Option.some.inj (hslot.content_eq.symm.trans hbitset')
    exact absurd (hset j hslot.lt) (by rw [hslot.clear]; decide)
  · exact fun _ => halign

/-! ### A first transaction -/

namespace BTree

/-- A new pager with pages of 80 bytes, in its first transaction. -/
def firstTransaction : Pager.Sys 10 :=
  let s := Pager.Sys.create 0 true 10
  { s with pager := { s.pager with savedHeader := s.pager.header, transactionActive := true } }

/-- An allocation succeeds, on a page whose number fits its 64 bits. -/
def allocates (s : Pager.Sys 10) : Bool :=
  decide (0 < s.pager.header.pageCount) && s.pager.newPage.any fun r => decide (r.2 < 2 ^ 64)

theorem allocates_of_eq_true (s : Pager.Sys 10) (h : allocates s = true) : Blob.Allocates s := by
  obtain ⟨hpos, hnew⟩ := Bool.and_eq_true_iff.mp h
  obtain ⟨r, hr, hlt⟩ := (Option.any_eq_true _ _).mp hnew
  refine ⟨Pager.groupsAligned_of_newPage (of_decide_eq_true hpos) hr, fun p idx hp => ?_⟩
  obtain rfl := Option.some.inj (hr.symm.trans hp)
  exact of_decide_eq_true hlt

theorem views_firstTransaction : Blob.Views firstTransaction ∅ fun _ => none := by
  have hstep : (Pager.Sys.create (W := 10) 0 true 10).step .begin = some firstTransaction := rfl
  have hkeep : (Pager.Sys.create (W := 10) 0 true 10).KeepsBitsets .begin := trivial
  have hready : Blob.Ready firstTransaction := Blob.ready_of_run (by decide) (.cons hkeep hstep (.nil _)) rfl
  exact ⟨hready.active, hready.ok, hready.covers, rfl, fun _ _ h => by cases h⟩

/-- A new tree with one entry. -/
theorem exists_run_insert : ∃ s' header t, (create (wordLayout 10)).Meets Blob.store Blob.Allocates firstTransaction ∧
    (create (wordLayout 10)).run Blob.store firstTransaction = some (s', header) ∧
    Run (TreeSys.step Blob.store (wordLayout 10) header)
      (TreeSys.Safe Blob.store Blob.Allocates (· < 2 ^ 64) (wordLayout 10) header) ⟨s', Dict.empty⟩ [.insert 5 7] t ∧
    t.dict.entries = [(5, 7)] ∧ t.Safe Blob.store Blob.Allocates (· < 2 ^ 64) (wordLayout 10) header (.find 5) := by
  let safe (header : NodeRef) (t : TreeSys (Pager.Sys 10) U64 U64) (op : TreeOp U64 U64) : Bool :=
    decide (t.dict.size + 1 < 2 ^ 64) && (op.program (wordLayout 10) header).checks Blob.store allocates t.store
  have hsafe : ∀ header t op, safe header t op = true →
      t.Safe Blob.store Blob.Allocates (· < 2 ^ 64) (wordLayout 10) header op := fun header t op h => by
    obtain ⟨hfits, hmeets⟩ := Bool.and_eq_true_iff.mp h
    exact ⟨of_decide_eq_true hfits, PageProgram.meets_of_checks allocates_of_eq_true hmeets⟩
  have hchecks : (create (wordLayout 10)).checks Blob.store allocates firstTransaction = true := by decide +kernel
  have hsome : (((create (wordLayout 10)).run Blob.store firstTransaction).bind fun r =>
      (runAll (TreeSys.step Blob.store (wordLayout 10) r.2) (safe r.2) ⟨r.1, Dict.empty⟩ [.insert 5 7]).map fun t =>
        (t.dict.entries, safe r.2 t (.find 5))) = some ([(5, 7)], true) := by
    decide +kernel
  obtain ⟨⟨s', header⟩, hcreate, hsome⟩ := Option.bind_eq_some_iff.mp hsome
  obtain ⟨t, hrun, ht⟩ := Option.map_eq_some_iff.mp hsome
  obtain ⟨hentries, hfind⟩ := Prod.mk.inj ht
  exact ⟨s', header, t, PageProgram.meets_of_checks allocates_of_eq_true hchecks, hcreate,
    (Run.of_runAll hrun).mono (hsafe header), hentries, hsafe header t _ hfind⟩

/-- A tree with one entry has two pages. -/
theorem btree_owns_insert : ∃ s' header t,
    (create (wordLayout 10)).run Blob.store firstTransaction = some (s', header) ∧
    Run (TreeSys.step Blob.store (wordLayout 10) header)
      (TreeSys.Safe Blob.store Blob.Allocates (· < 2 ^ 64) (wordLayout 10) header) ⟨s', Dict.empty⟩ [.insert 5 7] t ∧
    ∃ live n, ∃ tree : Tree U64 U64 n, t.store.live = live ∧ (header :: tree.refs).Nodup ∧
      (∀ i, i ∈ live ↔ i ∈ header :: tree.refs) ∧ (header :: tree.refs).length ≤ 2 := by
  obtain ⟨s', header, t, hmeets, hcreate, hrun, hentries, -⟩ := exists_run_insert
  obtain ⟨live, h, n, tree, hviews, -, -, hnodup, hreplaced, hlen, -⟩ := btree_owns (Blob.heapRules (by decide))
    (wordLayout_lawful (by decide)) (by decide) (by decide) (by decide)
    (by decide) views_firstTransaction (by decide) hmeets
    hcreate hrun
  have hsize : t.dict.size = 1 := congrArg List.length hentries
  rw [hsize] at hlen
  refine ⟨s', header, t, hcreate, hrun, live, n, tree, hviews.live_eq, hnodup, fun i => ?_, hlen⟩
  rw [hreplaced.live_eq]
  simp

end BTree

end Plexdb
