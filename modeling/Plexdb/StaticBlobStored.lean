import Plexdb.BlobRefinement
import Plexdb.StaticBlob

/-! Static blobs in a heap: the pages are one run of words, the first of which list the pages after the first. Creating
a blob fills the header word by word, and loading it reads the words back. -/

namespace Plexdb.Blob.Static

open Pager (Sys)

variable {W : Nat} {s : Sys W} {live : Finset Nat} {h : Heap W} {pages : List Nat}

/-! ### The header -/

/-- The first `m` words of the pages list the pages after the first, and the others are zero. -/
structure Filled (h : Heap W) (pages : List Nat) (m : Nat) : Prop where
  mapped : ∀ page ∈ pages, ∃ data, h page = some data
  entry : ∀ k < m, ∀ page next, pages[k / W]? = some page → pages[k + 1]? = some next → h.Entry page (k % W) next
  zero : ∀ k, m ≤ k → ∀ page data, pages[k / W]? = some page → h page = some data → data.word (k % W) = 0

/-- What the array of pages holds at its positions. -/
def Lists (entry : Nat → Nat) (pages : List Nat) : Prop := ∀ k page, pages[k]? = some page → entry k = page ∧ page < 2 ^ 64

theorem word_copyEntries {entry : Nat → Nat} {first count e : Nat} {data : Page W} (he : e < W) :
    (copyEntries entry first count data).word e =
      if e < count then BitVec.ofNat 64 (entry (first + e)) else data.word e := by
  rw [Page.word, dif_pos he, Page.word, dif_pos he]
  rfl

theorem Filled.step (hW : 0 < W) {entry : Nat → Nat} (hentry : Lists entry pages) (hnodup : pages.Nodup) {j page count : Nat}
    {data : Page W} (hf : Filled h pages (j * W)) (hpage : pages[j]? = some page) (hdata : h page = some data)
    (hcount : count ≤ W) :
    Filled (Function.update h page (some (copyEntries entry (1 + j * W) count data))) pages (j * W + count) := by
  have hsame {k page' : Nat} (hk : pages[k / W]? = some page') (heq : page' = page) : k = j * W + k % W := by
    have hlt := (List.getElem?_eq_some_iff.mp hk).1
    have hdiv := (List.getElem?_inj hlt hnodup).mp (hk.trans (heq ▸ hpage.symm))
    have := Nat.div_add_mod k W
    rw [hdiv, Nat.mul_comm] at this
    exact this.symm
  refine ⟨fun page' hmem => ?_, fun k hk page' next hpage' hnext => ?_, fun k hk page' data' hpage' hdata' => ?_⟩
  · by_cases heq : page' = page
    · subst heq
      exact ⟨_, Function.update_self _ _ _⟩
    · rw [Function.update_of_ne heq]
      exact hf.mapped page' hmem
  · by_cases heq : page' = page
    · have hk' := hsame hpage' heq
      have hlt := Nat.mod_lt k hW
      obtain ⟨hvalue, hsmall⟩ := hentry _ _ hnext
      subst heq
      refine ⟨_, Function.update_self _ _ _, ?_⟩
      rw [word_copyEntries hlt, if_pos (by omega), show 1 + j * W + k % W = k + 1 by omega, hvalue, BitVec.toNat_ofNat,
        Nat.mod_eq_of_lt hsmall]
    · refine (hf.entry k ?_ page' next hpage' hnext).congr (Function.update_of_ne heq _ _)
      by_contra hge
      have hle : j ≤ k / W := (Nat.le_div_iff_mul_le hW).mpr (Nat.le_of_not_lt hge)
      have hlt : k / W < j + 1 := by
        rw [Nat.div_lt_iff_lt_mul hW, Nat.succ_mul]
        omega
      have hj : k / W = j := by omega
      rw [hj] at hpage'
      exact heq (Option.some.inj (hpage'.symm.trans hpage))
  · by_cases heq : page' = page
    · have hk' := hsame hpage' heq
      have hlt := Nat.mod_lt k hW
      subst heq
      rw [Function.update_self] at hdata'
      cases hdata'
      rw [word_copyEntries hlt, if_neg (by omega)]
      exact hf.zero k (by omega) page' data hpage' hdata
    · rw [Function.update_of_ne heq] at hdata'
      exact hf.zero k (by omega) page' data' hpage' hdata'

/-- `news` are new pages of a heap. -/
structure Allocated (live : Finset Nat) (h : Heap W) (news : List Nat) (live' : Finset Nat) (h' : Heap W) : Prop where
  nodup : news.Nodup
  fresh : ∀ i ∈ news, i ∉ live
  live_eq : live' = live ∪ news.toFinset
  zero : ∀ i ∈ news, h' i = some Page.zero
  frame : ∀ i, i ∉ news → h' i = h i

/-- The header of new pages is empty. -/
theorem Allocated.filled {live' : Finset Nat} {h' : Heap W} (ha : Allocated live h pages live' h') :
    Filled h' pages 0 where
  mapped page hpage := ⟨_, ha.zero page hpage⟩
  entry k hk := absurd hk (Nat.not_lt_zero k)
  zero k _ page data hpage hdata := by
    obtain rfl := Option.some.inj (hdata.symm.trans (ha.zero page (List.mem_of_getElem? hpage)))
    rw [Page.word]
    split <;> rfl

/-! ### Stored blobs -/

/-- A blob in a heap. -/
structure Stored (h : Heap W) (b : BlobStaticPaged) : Prop where
  nodup : b.pages.Nodup
  mapped : ∀ page ∈ b.pages, ∃ data, h page = some data
  header : b.headerBytes = headerBytes W b.sizeBytes
  aligned : b.headerBytes % 8 = 0
  length : b.pages.length = b.headerBytes / 8 + 1
  entry : ∀ k page next, b.pages[k / W]? = some page → b.pages[k + 1]? = some next → h.Entry page (k % W) next
  small : b.sizeBytes + b.headerBytes < 2 ^ 64
  fits : b.sizeBytes + b.headerBytes ≤ b.pages.length * pageSize W

theorem Filled.stored (hW : 1 < W) {size : Nat} (hsize : size < 2 ^ 64) (hlarge : ¬ size ≤ pageSize W)
    (hexact : HeaderExact W size) (hnodup : pages.Nodup) (hlength : pages.length = headerBytes W size / 8 + 1)
    (hf : Filled h pages (headerBytes W size / 8)) : Stored h ⟨size, headerBytes W size, pages⟩ := by
  obtain ⟨hsmall, hfits⟩ := hexact.fits hW hsize hlarge
  refine ⟨hnodup, hf.mapped, rfl, headerBytes_mod hW size, hlength, fun k page next hpage hnext => ?_, hsmall, ?_⟩
  · have hlt : k + 1 < pages.length := (List.getElem?_eq_some_iff.mp hnext).1
    exact hf.entry k (by omega) page next hpage hnext
  · change size + headerBytes W size ≤ pages.length * pageSize W
    rw [hlength]
    exact hfits

variable {b : BlobStaticPaged}

/-- A page of the header holds the entries that follow. -/
theorem Stored.entries_eq (hb : Stored h b) {j page n : Nat} {data : Page W} (hpage : b.pages[j]? = some page)
    (hdata : h page = some data) (hn : n ≤ W) (hlen : 1 + j * W + n ≤ b.pages.length) :
    entries data n = (b.pages.drop (1 + j * W)).take n := by
  refine List.ext_getElem? fun e => ?_
  rw [entries, List.getElem?_map, List.getElem?_take]
  split
  · rename_i he
    have hi : 1 + j * W + e = e + W * j + 1 := by
      rw [Nat.mul_comm]
      omega
    rw [List.getElem?_range he, Option.map_some, List.getElem?_drop, hi]
    have hget := List.getElem?_eq_getElem (l := b.pages) (i := e + W * j + 1) (by omega)
    obtain ⟨data', hdata', hvalue⟩ := hb.entry (e + W * j) page _
      (by rwa [Nat.add_mul_div_left _ _ (by omega), Nat.div_eq_of_lt (by omega), Nat.zero_add]) hget
    rw [Nat.add_mul_mod_self_left, Nat.mod_eq_of_lt (by omega)] at hvalue
    obtain rfl := Option.some.inj (hdata.symm.trans hdata')
    rw [hvalue, hget]
  · rename_i he
    rw [List.getElem?_eq_none (by rw [List.length_range]; omega)]
    rfl

theorem does_loadHeader (hW : 0 < W) (hs : Views s live h) (hb : Stored h b) {n j page : Nat}
    (hn : b.headerBytes / pageSize W + 1 ≤ n + j) (hj : j * pageSize W ≤ b.headerBytes)
    (hsmall : b.headerBytes + pageSize W < 2 ^ 64) (hpage : b.pages[j]? = some page) :
    Does (loadHeader b.headerBytes n (j * pageSize W) (j + 1) page (b.pages.take (1 + j * W)))
      (fun s' r => r = b.pages ∧ Views s' live h) s := by
  have hpos : 0 < pageSize W := by rw [pageSize]; omega
  have haligned := hb.aligned
  have hlength := hb.length
  induction n generalizing s j page with
  | zero =>
      have := (Nat.le_div_iff_mul_le hpos).mpr hj
      omega
  | succ n ih =>
      have hwords : j * pageSize W = 8 * (j * W) := by rw [pageSize]; ring
      have hnext : (j + 1) * pageSize W = j * pageSize W + pageSize W := Nat.succ_mul _ _
      have hnext' : (j + 1) * W = j * W + W := Nat.succ_mul _ _
      have hle : j ≤ j * W := Nat.le_mul_of_pos_right j hW
      have hp : pageSize W = 8 * W := rfl
      obtain ⟨data, hdata⟩ := hb.mapped page (List.mem_of_getElem? hpage)
      rw [loadHeader]
      refine PageProgram.ensures_bind.mpr (hs.rpage hdata fun s₁ hs₁ => ?_)
      rw [u64_of_lt (by omega)]
      split
      · rename_i hmore
        have hget := List.getElem?_eq_getElem (l := b.pages) (i := j + 1) (by omega)
        dsimp only
        rw [hb.entries_eq hpage hdata le_rfl (by omega), ← List.take_add, show 1 + j * W + W = 1 + (j + 1) * W by omega,
          List.getElem?_take_of_lt (by omega), hget, ← hnext]
        exact PageProgram.ensures_bind.mpr (PageProgram.ensures_ofOption rfl
          (ih hs₁ (by omega) (by omega) hget))
      · rename_i hlast
        rw [hb.entries_eq hpage hdata (by omega) (by omega), ← List.take_add, List.take_of_length_le (by omega)]
        exact ⟨rfl, hs₁⟩

/-- `load` rebuilds the list of pages. -/
theorem does_load (hW : 1 < W) (hs : Views s live h) (hb : Stored h b) {root : Nat}
    (hroot : b.pages[0]? = some root) :
    Does (load root b.sizeBytes) (fun s' b' => b' = b ∧ Views s' live h) s := by
  have hlength := hb.length
  have hheader := hb.header
  rw [load]
  split
  · rename_i hsmall
    rw [headerBytes, if_pos hsmall] at hheader
    rw [hheader] at hlength
    obtain ⟨page, hpages⟩ := List.length_eq_one_iff.mp hlength
    rw [hpages] at hroot
    obtain rfl := Option.some.inj hroot
    obtain ⟨size, hb₀, pages⟩ := b
    obtain rfl : hb₀ = 0 := hheader
    obtain rfl : pages = [page] := hpages
    exact ⟨rfl, hs⟩
  · rename_i hlarge
    rw [headerBytes, if_neg hlarge] at hheader
    have hsmall := hb.small
    refine PageProgram.ensures_bind.mpr (PageProgram.ensures_assert.mpr ⟨hheader ▸ hb.aligned, ?_⟩)
    have htake : b.pages.take (1 + 0 * W) = [root] := by
      obtain ⟨first, rest, hpages⟩ := List.exists_cons_of_length_pos (l := b.pages) (by omega)
      rw [hpages] at hroot ⊢
      obtain rfl := Option.some.inj hroot
      rw [Nat.zero_mul]
      rfl
    have hloop := does_loadHeader (by omega) hs hb (n := b.headerBytes / pageSize W + 1) (j := 0) le_rfl
      (by omega) (by omega) hroot
    rw [htake, Nat.zero_mul, Nat.zero_add, hheader] at hloop
    refine hloop.bind ?_
    rintro s' - ⟨rfl, hs'⟩
    refine ⟨?_, hs'⟩
    rw [← hheader]

end Plexdb.Blob.Static
