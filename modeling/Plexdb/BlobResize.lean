import Plexdb.BlobChain

/-! What `resize_impl` does to a stored blob: it keeps a prefix of the page lists, allocates exactly
the pages that are missing and frees exactly the pages that are left over. -/

namespace Plexdb.Blob

open Pager (Sys)

variable {W : Nat}

/-! ### Page counts -/

@[simp] theorem entryCountPerPage_eq : entryCountPerPage W = W - 1 := by
  rw [entryCountPerPage, pageSize, Nat.mul_div_cancel_left _ (by decide)]

@[simp] theorem nextPageEntryIdx_eq : nextPageEntryIdx W = W - 1 := by
  rw [nextPageEntryIdx, pageSize, Nat.mul_div_cancel_left _ (by decide)]

/-- The data pages of a blob of `n` bytes: they hold two more words. -/
def dataCount (W n : Nat) : Nat := (n + 15) / (8 * W) + 1

/-- The header pages for `d` data pages; the first needs no entry. -/
def headerCount (W d : Nat) : Nat := (d - 1 + (W - 2)) / (W - 1)

/-- No computation on a blob of `n` bytes leaves 64 bits. -/
def Fits (W n : Nat) : Prop := n + 16 + 8 * W ≤ 2 ^ 64

instance (n : Nat) : Decidable (Fits W n) := inferInstanceAs (Decidable (_ ≤ _))

theorem u64_of_lt {n : Nat} (h : n < 2 ^ 64) : u64 n = n := Nat.mod_eq_of_lt h

theorem u64Sub_of_le {a b : Nat} (hb : b ≤ a) (ha : a < 2 ^ 64) : u64Sub a b = a - b := by
  rw [u64Sub, u64, show a + 2 ^ 64 - b = a - b + 2 ^ 64 by omega, Nat.add_mod_right]
  exact Nat.mod_eq_of_lt (by omega)

theorem dataPageCount_eq (hW : 2 < W) {n : Nat} (h : Fits W n) : dataPageCount W n = dataCount W n := by
  rw [Fits] at h
  have hsize : u64 (n + 16) = n + 16 := u64_of_lt (by omega)
  rw [dataPageCount, ceilDiv, pageSize, hsize, u64_of_lt (by omega), dataCount,
    ← Nat.add_div_right _ (by omega)]
  congr 1
  omega

theorem dataCount_mul_lt {n : Nat} (h : Fits W n) : dataCount W n * (8 * W) < 2 ^ 64 := by
  rw [Fits] at h
  have := Nat.div_mul_le_self (n + 15) (8 * W)
  rw [dataCount, Nat.add_mul, Nat.one_mul]
  omega

theorem dataCount_pos (W n : Nat) : 0 < dataCount W n := Nat.succ_pos _

theorem dataCount_le_div (hW : 2 < W) {d : Nat} (h : d * (8 * W) < 2 ^ 64) : d * 24 < 2 ^ 64 :=
  Nat.lt_of_le_of_lt (Nat.mul_le_mul_left d (by omega)) h

theorem headerCount_le (hW : 2 < W) {d : Nat} : d ≤ 1 + headerCount W d * (W - 1) := by
  have := Nat.lt_div_mul_add (a := d - 1 + (W - 2)) (b := W - 1) (by omega)
  rw [headerCount]
  omega

theorem lt_of_headerCount (hW : 2 < W) {d : Nat} (h : 0 < headerCount W d) :
    1 + (headerCount W d - 1) * (W - 1) < d := by
  have := Nat.div_mul_le_self (d - 1 + (W - 2)) (W - 1)
  rw [headerCount] at h ⊢
  rw [Nat.sub_mul]
  have hle : 1 * (W - 1) ≤ (d - 1 + (W - 2)) / (W - 1) * (W - 1) := Nat.mul_le_mul_right _ h
  omega

theorem headerCount_mono (W : Nat) {c d : Nat} (h : c ≤ d) : headerCount W c ≤ headerCount W d :=
  Nat.div_le_div_right (by omega)

theorem headerCount_one (hW : 2 < W) : headerCount W 1 = 0 := by
  rw [headerCount]
  exact Nat.div_eq_of_lt (by omega)

theorem headerCount_eq_zero (hW : 2 < W) {d : Nat} (hd : 0 < d) : headerCount W d = 0 ↔ d = 1 := by
  constructor
  · intro h
    have := headerCount_le hW (d := d)
    rw [h] at this
    omega
  · rintro rfl
    exact headerCount_one hW

theorem headerCount_lt (hW : 2 < W) {d : Nat} (hd : 0 < d) : headerCount W d < d := by
  rw [headerCount, Nat.div_lt_iff_lt_mul (by omega)]
  have : d * 2 ≤ d * (W - 1) := Nat.mul_le_mul_left d (by omega)
  have : 1 * (W - 1) ≤ d * (W - 1) := Nat.mul_le_mul_right _ hd
  have : (d - 1) * (W - 1) = d * (W - 1) - (W - 1) := by rw [Nat.sub_mul, Nat.one_mul]
  have : (d - 1) * 1 ≤ (d - 1) * (W - 1) := Nat.mul_le_mul_left _ (by omega)
  omega

theorem headerPageCount_eq (hW : 2 < W) {d : Nat} (hd : 0 < d) (h : d * (8 * W) < 2 ^ 64) :
    headerPageCount W d = headerCount W d := by
  have hsmall := dataCount_le_div hW h
  have hle : 1 * (8 * W) ≤ d * (8 * W) := Nat.mul_le_mul_right _ hd
  rw [headerPageCount, ceilDiv, entryCountPerPage_eq, u64Sub_of_le (by omega) (by omega),
    u64_of_lt (by omega), headerCount]
  rfl

theorem lastEntryCount_eq (hW : 2 < W) {d k : Nat} (hk : 0 < k) (hlt : 1 + (k - 1) * (W - 1) < d)
    (hd : d < 2 ^ 64) : lastEntryCount W d k = d - (1 + (k - 1) * (W - 1)) := by
  have hmul : (k - 1) * 2 ≤ (k - 1) * (W - 1) := Nat.mul_le_mul_left _ (by omega)
  have hsub : u64Sub k 1 = k - 1 := u64Sub_of_le hk (by omega)
  rw [lastEntryCount, entryCountPerPage_eq, hsub, u64_of_lt (by omega), u64Sub_of_le (by omega) hd]

/-! ### Rules for the program steps -/

variable {s : Sys W} {live : Finset Nat} {h : Heap W} {headerPages dataPages : List Nat}

theorem Views.writeEntry (hs : Views s live h) {page : Nat} (hpage : ∃ data, h page = some data)
    (e value : Nat) {Q : Sys W → Unit → Prop}
    (hQ : ∀ s', Views s' live (h.setEntry page e value) → Q s' ()) :
    Does (writeEntry page e value) Q s := by
  obtain ⟨data, hdata⟩ := hpage
  refine hs.rwpage hdata _ fun s' hs' => hQ s' ?_
  rwa [Heap.setEntry, hdata]

/-- A page written back as it was. -/
theorem Views.touch (hs : Views s live h) {page : Nat} (hpage : ∃ data, h page = some data)
    {Q : Sys W → Unit → Prop} (hQ : ∀ s', Views s' live h → Q s' ()) :
    Does (Blob.rwpage page id) Q s := by
  obtain ⟨data, hdata⟩ := hpage
  refine hs.rwpage hdata id fun s' hs' => hQ s' ?_
  rwa [id, ← hdata, Function.update_eq_self] at hs'

theorem Views.readEntry (hs : Views s live h) {page e value : Nat} (hentry : h.Entry page e value)
    {Q : Sys W → Nat → Prop} (hQ : ∀ s', Views s' live h → Q s' value) :
    Does (readEntry page e) Q s := by
  obtain ⟨data, hdata, rfl⟩ := hentry
  exact PageProgram.ensures_bind.mpr (hs.rpage hdata fun s' hs' => hQ s' hs')

theorem Views.mem_live (hs : Views s live h) (hc : Chain h headerPages dataPages) {i : Nat}
    (hi : i ∈ dataPages ++ headerPages) : i ∈ live := by
  obtain ⟨-, data, hdata⟩ := hc.stored i hi
  exact (hs.page i data hdata).1

/-- The counts of a blob with `n` bytes. -/
def PageCounts.Of (W : Nat) (counts : PageCounts) : Prop :=
  0 < counts.data ∧ counts.data * (8 * W) < 2 ^ 64 ∧ counts.header = headerCount W counts.data

theorem does_usedEntries (hW : 2 < W) {counts : PageCounts} (hcounts : counts.Of W)
    {idx otherwise : Nat} (hidx : 0 < idx) {Q : Sys W → Nat → Prop}
    (hQ : Q s (if idx = counts.header then counts.data - (1 + (idx - 1) * (W - 1)) else otherwise)) :
    Does (usedEntries W counts idx otherwise) Q s := by
  obtain ⟨hpos, hfits, hheader⟩ := hcounts
  rw [usedEntries]
  split
  · rename_i heq
    rw [if_pos heq] at hQ
    have hlt := lt_of_headerCount hW (d := counts.data) (by omega)
    rw [← hheader, ← heq] at hlt
    have hlast := lastEntryCount_eq hW hidx hlt (by have := dataCount_le_div hW hfits; omega)
    rw [heq] at hlast hlt hQ
    refine PageProgram.ensures_bind.mpr (PageProgram.ensures_assert.mpr ⟨?_, ?_⟩)
    · rw [hlast]
      omega
    · rw [hlast]
      exact hQ
  · rename_i hne
    rwa [if_neg hne] at hQ

/-! ### Growing -/

/-- From `live` and `h`, the pages of `new` were allocated, and of the pages there were only `page` is
written. -/
structure Grown (live : Finset Nat) (h : Heap W) (page : Nat) (new : List Nat) (s' : Sys W)
    (live' : Finset Nat) (h' : Heap W) : Prop where
  views : Views s' live' h'
  live_eq : live' = live ∪ new.toFinset
  fresh : ∀ i ∈ new, i ∉ live
  frame : ∀ i ∈ live, i ≠ page → h' i = h i

theorem Grown.refl (hs : Views s live h) (page : Nat) : Grown live h page [] s live h :=
  ⟨hs, by simp, nofun, fun _ _ _ => rfl⟩

/-- One more page, allocated and linked from `page`, before the rest. -/
theorem Grown.cons {live' : Finset Nat} {h' : Heap W} {page page' dp e : Nat} {new : List Nat}
    (hfresh : dp ∉ live) (hpage : page' = page ∨ page' = dp)
    (hg : Grown (insert dp live) ((h.alloc dp).setEntry page e dp) page' new s live' h') :
    Grown live h page (dp :: new) s live' h' where
  views := hg.views
  live_eq := by
    rw [hg.live_eq]
    ext i
    simp only [Finset.mem_union, Finset.mem_insert, List.mem_toFinset, List.mem_cons]
    tauto
  fresh i hi := by
    rcases List.mem_cons.mp hi with rfl | hi
    · exact hfresh
    · exact fun hlive => hg.fresh i hi (Finset.mem_insert_of_mem hlive)
  frame i hi hne := by
    have hdp : i ≠ dp := ne_of_mem_of_not_mem hi hfresh
    rw [hg.frame i (Finset.mem_insert_of_mem hi) (by rcases hpage with rfl | rfl <;> assumption),
      Heap.setEntry_of_ne hne, Heap.alloc_of_ne hdp]

theorem does_addDataPages (hW : 2 < W) {n k j hp : Nat} (hs : Views s live h)
    (hc : Chain h headerPages dataPages) (hhp : headerPages[k]? = some hp)
    (hlen : dataPages.length = 1 + k * (W - 1) + j) (hj : j + n ≤ W - 1) :
    Does (addDataPages hp n j dataPages) (fun s' dataPages' => ∃ live' h' new,
      dataPages' = dataPages ++ new ∧ new.length = n ∧ Grown live h hp new s' live' h' ∧
        Chain h' headerPages dataPages') s := by
  induction n generalizing s live h dataPages j with
  | zero => exact ⟨live, h, [], by simp, rfl, .refl hs hp, hc⟩
  | succ n ih =>
      refine PageProgram.ensures_bind.mpr (hs.newPage (by omega) fun s₁ dp hfresh hsmall _ hs₁ => ?_)
      have hmem : dp ∉ dataPages ++ headerPages := fun hi => hfresh (hs.mem_live hc hi)
      have hc₁ := hc.addData hhp hlen (by omega) hmem hsmall
      have hdata : ∃ data, (h.alloc dp) hp = some data := by
        obtain ⟨-, data, hdata⟩ := hc.stored hp (List.mem_append_right _ (List.mem_of_getElem? hhp))
        refine ⟨data, (Heap.alloc_of_ne fun heq => hmem ?_).trans hdata⟩
        exact heq ▸ List.mem_append_right _ (List.mem_of_getElem? hhp)
      refine PageProgram.ensures_bind.mpr (hs₁.writeEntry hdata j dp fun s₂ hs₂ => ?_)
      refine (ih hs₂ hc₁ (by simp; omega) (by omega)).mono ?_
      rintro s' dataPages' ⟨live', h', new, rfl, rfl, hgrown, hc'⟩
      exact ⟨live', h', dp :: new, by simp, rfl, .cons hfresh (.inl rfl) hgrown, hc'⟩

theorem Grown.trans {s₁ s₂ : Sys W} {live₁ live₂ : Finset Nat} {h₁ h₂ : Heap W} {page : Nat}
    {new₁ new₂ : List Nat} (hg₁ : Grown live h page new₁ s₁ live₁ h₁)
    (hg₂ : Grown live₁ h₁ page new₂ s₂ live₂ h₂) : Grown live h page (new₁ ++ new₂) s₂ live₂ h₂ where
  views := hg₂.views
  live_eq := by rw [hg₂.live_eq, hg₁.live_eq, List.toFinset_append, Finset.union_assoc]
  fresh i hi := by
    rcases List.mem_append.mp hi with hi | hi
    · exact hg₁.fresh i hi
    · intro hlive
      refine hg₂.fresh i hi ?_
      rw [hg₁.live_eq]
      exact Finset.mem_union_left _ hlive
  frame i hi hne := by
    refine (hg₂.frame i ?_ hne).trans (hg₁.frame i hi hne)
    rw [hg₁.live_eq]
    exact Finset.mem_union_left _ hi

theorem Grown.congr {s' : Sys W} {live' : Finset Nat} {h' : Heap W} {page : Nat} {new new' : List Nat}
    (hg : Grown live h page new s' live' h') (hiff : ∀ i, i ∈ new' ↔ i ∈ new) :
    Grown live h page new' s' live' h' where
  views := hg.views
  live_eq := by
    rw [hg.live_eq]
    ext i
    simp [hiff]
  fresh i hi := hg.fresh i ((hiff i).mp hi)
  frame := hg.frame

/-- One round of the growing loop, up to the next header page: the last header page is filled, to the
end or to the new data page count. -/
theorem does_fillHeader {α : Type} (hW : 2 < W) {old new : PageCounts} (hold : old.Of W)
    (hnew : new.Of W) (hlt : old.data < new.data) {hp : Nat} (hs : Views s live h)
    (hc : Chain h headerPages dataPages) (hlast : headerPages.getLast? = some hp)
    (hle : headerPages.length ≤ new.header)
    (hlen : dataPages.length =
      if headerPages.length = old.header then old.data else 1 + (headerPages.length - 1) * (W - 1))
    {next : List Nat → BlobProgram W α} {Q : Sys W → α → Prop}
    (hnext : ∀ s' live' h' added, (dataPages ++ added).length =
        (if headerPages.length = new.header then new.data else 1 + headerPages.length * (W - 1)) →
      Grown live h hp added s' live' h' → Chain h' headerPages (dataPages ++ added) →
      Does (next (dataPages ++ added)) Q s') :
    Does (do
      rwpage hp id
      let firstEntryIdx ← usedEntries W old headerPages.length 0
      let lastEntryCount ← usedEntries W new headerPages.length (entryCountPerPage W)
      PageProgram.assert (firstEntryIdx ≤ lastEntryCount)
      let dataPages ← addDataPages hp (lastEntryCount - firstEntryIdx) firstEntryIdx dataPages
      next dataPages) Q s := by
  rw [List.getLast?_eq_getElem?] at hlast
  obtain ⟨k, hk⟩ : ∃ k, headerPages.length = k + 1 :=
    Nat.exists_eq_succ_of_ne_zero fun hzero => by
      rw [List.length_eq_zero_iff.mp hzero] at hlast
      simp at hlast
  rw [hk, Nat.add_sub_cancel] at hlast hlen
  have hmul : (k + 1) * (W - 1) = k * (W - 1) + (W - 1) := Nat.succ_mul _ _
  -- the entries in use, before and after
  have hold_range : old.header = k + 1 → 1 + k * (W - 1) < old.data ∧ old.data ≤ 1 + (k + 1) * (W - 1) := by
    intro heq
    have hlo := lt_of_headerCount hW (d := old.data) (by rw [← hold.2.2]; omega)
    have hhi := headerCount_le hW (d := old.data)
    rw [← hold.2.2, heq] at hlo hhi
    exact ⟨hlo, hhi⟩
  have hnew_range : 1 + k * (W - 1) < new.data ∧
      (k + 1 = new.header → new.data ≤ 1 + (k + 1) * (W - 1)) := by
    have hlo := lt_of_headerCount hW (d := new.data) (by rw [← hnew.2.2]; omega)
    have hhi := headerCount_le hW (d := new.data)
    rw [← hnew.2.2] at hlo hhi
    have : k * (W - 1) ≤ (new.header - 1) * (W - 1) := Nat.mul_le_mul_right _ (by omega)
    exact ⟨by omega, fun heq => heq ▸ hhi⟩
  have hdata : ∃ data, h hp = some data :=
    (hc.stored hp (List.mem_append_right _ (List.mem_of_getElem? hlast))).2
  refine PageProgram.ensures_bind.mpr (hs.touch hdata fun s₁ hs₁ => ?_)
  refine PageProgram.ensures_bind.mpr (does_usedEntries hW hold (by omega) ?_)
  refine PageProgram.ensures_bind.mpr (does_usedEntries hW hnew (by omega) ?_)
  rw [hk, Nat.add_sub_cancel, entryCountPerPage_eq]
  generalize hfirst : (if k + 1 = old.header then old.data - (1 + k * (W - 1)) else 0) = first
  generalize hcount : (if k + 1 = new.header then new.data - (1 + k * (W - 1)) else W - 1) = last
  have hfirst_len : dataPages.length = 1 + k * (W - 1) + first := by
    rw [hlen, ← hfirst]
    split
    · rename_i heq
      have := hold_range heq.symm
      omega
    · omega
  have hlast_le : first ≤ last ∧ last ≤ W - 1 := by
    rw [← hfirst, ← hcount]
    split <;> split <;> rename_i h₁ h₂
    · have := hnew_range.2 h₂
      omega
    · have := hold_range h₁.symm
      omega
    · have := hnew_range.2 h₂
      omega
    · omega
  refine PageProgram.ensures_bind.mpr (PageProgram.ensures_assert.mpr ⟨hlast_le.1, ?_⟩)
  refine (does_addDataPages hW hs₁ hc hlast hfirst_len (by omega)).bind ?_
  rintro s₂ - ⟨live', h', added, rfl, hadded, hgrown, hc'⟩
  refine hnext s₂ live' h' added ?_ hgrown hc'
  rw [List.length_append, hadded, hfirst_len, hk]
  split
  · rename_i heq
    rw [if_pos heq] at hcount
    have := hnew_range.1
    omega
  · rename_i hne
    rw [if_neg hne] at hcount
    omega

theorem does_growHeaders (hW : 2 < W) {old new : PageCounts} (hold : old.Of W) (hnew : new.Of W)
    (hlt : old.data < new.data) {n hp : Nat} (hs : Views s live h)
    (hc : Chain h headerPages dataPages) (hlast : headerPages.getLast? = some hp)
    (hn : headerPages.length + n = new.header) (hle : old.header ≤ headerPages.length)
    (hlen : dataPages.length =
      if headerPages.length = old.header then old.data else 1 + (headerPages.length - 1) * (W - 1)) :
    Does (growHeaders old new n hp headerPages dataPages) (fun s' r => ∃ live' h' dNew hNew,
      r = (headerPages ++ hNew, dataPages ++ dNew) ∧ r.1.length = new.header ∧
        r.2.length = new.data ∧ Grown live h hp (dNew ++ hNew) s' live' h' ∧ Chain h' r.1 r.2) s := by
  induction n generalizing s live h headerPages dataPages hp with
  | zero =>
      rw [growHeaders]
      refine does_fillHeader hW hold hnew hlt hs hc hlast (by omega) hlen ?_
      intro s' live' h' added hadded hgrown hc'
      rw [if_pos (by omega)] at hadded
      exact ⟨live', h', added, [], by simp, by simpa using hn, hadded, by simpa using hgrown, hc'⟩
  | succ n ih =>
      rw [growHeaders]
      refine does_fillHeader hW hold hnew hlt hs hc hlast (by omega) hlen ?_
      intro s₁ live₁ h₁ added hadded hgrown hc₁
      rw [if_neg (by omega)] at hadded
      refine PageProgram.ensures_bind.mpr
        (hgrown.views.newPage (by omega) fun s₂ next hfresh hsmall _ hs₂ => ?_)
      have hmem : next ∉ dataPages ++ added ++ headerPages := fun hi =>
        hfresh (hgrown.views.mem_live hc₁ hi)
      have hhp : hp ∈ dataPages ++ added ++ headerPages :=
        List.mem_append_right _ (List.mem_of_getLast? hlast)
      have hdata : ∃ data, (h₁.alloc next) hp = some data := by
        obtain ⟨-, data, hdata⟩ := hc₁.stored hp hhp
        exact ⟨data, (Heap.alloc_of_ne (ne_of_mem_of_not_mem hhp hmem)).trans hdata⟩
      refine PageProgram.ensures_bind.mpr (hs₂.writeEntry hdata _ next fun s₃ hs₃ => ?_)
      rw [nextPageEntryIdx_eq] at hs₃
      have hc₂ := hc₁.addHeader hW hlast (by omega) hmem hsmall
      have hne : (headerPages ++ [next]).length ≠ old.header := by
        rw [List.length_append, List.length_singleton]
        omega
      refine (ih hs₃ hc₂ (by simp) (by simp; omega) (by simp; omega) ?_).mono ?_
      · rw [if_neg hne, hadded, List.length_append, List.length_singleton, Nat.add_sub_cancel]
      · rintro s' - ⟨live', h', dNew, hNew, rfl, hheader, hdata, hgrown', hc'⟩
        refine ⟨live', h', added ++ dNew, next :: hNew, by simp, hheader, hdata, ?_, hc'⟩
        refine (hgrown.trans (.cons hfresh (.inr rfl) hgrown')).congr fun i => ?_
        simp only [List.mem_append, List.mem_cons]
        tauto

/-! ### Shrinking -/

theorem Heap.without_update (h : Heap W) (page : Nat) (pages : List Nat) :
    Heap.without (Function.update h page none) pages = h.without (page :: pages) := by
  funext i
  by_cases hi : i ∈ pages
  · simp [Heap.without, hi]
  · by_cases hne : i = page
    · simp [Heap.without, hne]
    · simp [Heap.without, hi, hne]

theorem Heap.without_of_not_mem {pages : List Nat} {i : Nat} (hi : i ∉ pages) :
    h.without pages i = h i := if_neg hi

@[simp] theorem Heap.without_nil (h : Heap W) : h.without [] = h :=
  funext fun _ => Heap.without_of_not_mem List.not_mem_nil

theorem erase_sdiff_toFinset (live : Finset Nat) (page : Nat) (pages : List Nat) :
    live.erase page \ pages.toFinset = live \ (page :: pages).toFinset := by
  ext i
  simp only [Finset.mem_sdiff, Finset.mem_erase, List.mem_toFinset, List.mem_cons]
  tauto

theorem does_deleteEntries {n e hp : Nat} {pages : List Nat} (hs : Views s live h)
    (hlen : pages.length = n) (hentry : ∀ t p, pages[t]? = some p → h.Entry hp (e + t) p)
    (hmem : ∀ p ∈ pages, p ∈ live) (hnodup : pages.Nodup) (hne : hp ∉ pages) :
    Does (deleteEntries hp n e) (fun s' _ => Views s' (live \ pages.toFinset) (h.without pages)) s := by
  induction pages generalizing s live h e n with
  | nil =>
      subst hlen
      simpa [deleteEntries] using hs
  | cons page pages ih =>
      subst hlen
      obtain ⟨hpage, hnodup⟩ := List.nodup_cons.mp hnodup
      have hne' := List.ne_and_not_mem_of_not_mem_cons hne
      rw [List.length_cons, deleteEntries]
      refine PageProgram.ensures_bind.mpr (hs.readEntry (hentry 0 page rfl) fun s₁ hs₁ => ?_)
      refine PageProgram.ensures_bind.mpr
        (hs₁.deletePage (hmem page (List.mem_cons_self)) fun s₂ hs₂ => ?_)
      refine (ih hs₂ rfl (fun t p hp => ?_) (fun p hp => ?_) hnodup hne'.2).mono ?_
      · rw [Nat.add_assoc, Nat.add_comm 1 t]
        exact (hentry (t + 1) p hp).congr (Function.update_of_ne hne'.1 _ _)
      · exact Finset.mem_erase.mpr
          ⟨ne_of_mem_of_not_mem hp hpage, hmem p (List.mem_cons_of_mem _ hp)⟩
      · rintro s' - hs'
        rwa [Heap.without_update, erase_sdiff_toFinset] at hs'

/-- The pages the shrinking loop frees from header page `idx` on. -/
def leftOver (W : Nat) (new : PageCounts) (headerPages dataPages : List Nat) (idx : Nat) : List Nat :=
  dataPages.drop (max new.data (1 + idx * (W - 1))) ++ headerPages.drop (max new.header idx)

theorem Heap.without_without {a b c : List Nat} (hiff : ∀ i, i ∈ c ↔ i ∈ a ∨ i ∈ b) :
    (h.without a).without b = h.without c := by
  funext i
  simp only [Heap.without, hiff]
  by_cases ha : i ∈ a <;> by_cases hb : i ∈ b <;> simp [ha, hb]

theorem sdiff_sdiff_toFinset {a b c : List Nat} (hiff : ∀ i, i ∈ c ↔ i ∈ a ∨ i ∈ b) :
    (live \ a.toFinset) \ b.toFinset = live \ c.toFinset := by
  ext i
  simp only [Finset.mem_sdiff, List.mem_toFinset, hiff]
  tauto

/-- What one round of the shrinking loop frees at header page `idx`: the entries from `a` on, `n` of
them, and the page itself unless it is kept. -/
def freedAt (new : PageCounts) (headerPages dataPages : List Nat) (idx a n : Nat) : List Nat :=
  (dataPages.drop a).take n ++ if new.header < idx + 1 then headerPages[idx]?.toList else []

theorem drop_header {idx hp : Nat} (hhp : headerPages[idx]? = some hp) :
    headerPages.drop idx = hp :: headerPages.drop (idx + 1) := by
  obtain ⟨hlt, rfl⟩ := List.getElem?_eq_some_iff.mp hhp
  exact List.drop_eq_getElem_cons hlt

theorem mem_leftOver_succ {new : PageCounts} {idx hp a n : Nat} (hhp : headerPages[idx]? = some hp)
    (ha : a = max new.data (1 + idx * (W - 1)))
    (hrest : dataPages.drop (a + n) = dataPages.drop (max new.data (1 + (idx + 1) * (W - 1))))
    (i : Nat) : i ∈ leftOver W new headerPages dataPages idx ↔
      i ∈ freedAt new headerPages dataPages idx a n ∨
        i ∈ leftOver W new headerPages dataPages (idx + 1) := by
  have hdata : i ∈ dataPages.drop a ↔ i ∈ (dataPages.drop a).take n ∨ i ∈ dataPages.drop (a + n) := by
    rw [← List.mem_append, ← List.drop_drop, List.take_append_drop]
  have hheader : i ∈ headerPages.drop (max new.header idx) ↔
      (i ∈ if new.header < idx + 1 then headerPages[idx]?.toList else []) ∨
        i ∈ headerPages.drop (max new.header (idx + 1)) := by
    split
    · rw [max_eq_right (by omega), max_eq_right (by omega), drop_header hhp, hhp, List.mem_cons]
      simp
    · rw [show max new.header idx = max new.header (idx + 1) by omega]
      simp
  rw [leftOver, ← ha, List.mem_append, hdata, hheader, hrest, freedAt, List.mem_append, leftOver,
    List.mem_append]
  tauto

theorem not_mem_of_freedAt {h₀ : Heap W} (hc : Chain h₀ headerPages dataPages) {new : PageCounts}
    {idx hp a n : Nat} (hhp : headerPages[idx]? = some hp)
    (hrest : dataPages.drop (a + n) = dataPages.drop (max new.data (1 + (idx + 1) * (W - 1))))
    {i : Nat} (hi : i ∈ freedAt new headerPages dataPages idx a n) :
    i ∉ headerPages.drop (idx + 1) ∧ i ∉ leftOver W new headerPages dataPages (idx + 1) := by
  obtain ⟨hdata, hheader, -⟩ := List.nodup_append.mp hc.nodup
  have hhp_mem : hp ∈ headerPages := List.mem_of_getElem? hhp
  have hdrop : (headerPages.drop idx).Nodup := hheader.sublist (List.drop_sublist _ _)
  rw [drop_header hhp, List.nodup_cons] at hdrop
  rcases List.mem_append.mp hi with hi | hi
  · have hmem : i ∈ dataPages := List.mem_of_mem_drop (List.mem_of_mem_take hi)
    have hnot : ∀ k, i ∉ headerPages.drop k := fun k hk =>
      hc.data_ne_header hmem (List.mem_of_mem_drop hk) rfl
    refine ⟨hnot _, fun hleft => ?_⟩
    rcases List.mem_append.mp hleft with hleft | hleft
    · rw [← hrest, ← List.drop_drop] at hleft
      have hsplit : ((dataPages.drop a).take n ++ (dataPages.drop a).drop n).Nodup := by
        rw [List.take_append_drop]
        exact hdata.sublist (List.drop_sublist _ _)
      exact (List.nodup_append.mp hsplit).2.2 i hi i hleft rfl
    · exact hnot _ hleft
  · split at hi
    · rw [hhp] at hi
      obtain rfl := List.mem_singleton.mp hi
      refine ⟨hdrop.1, fun hleft => ?_⟩
      rcases List.mem_append.mp hleft with hleft | hleft
      · exact hc.data_ne_header (List.mem_of_mem_drop hleft) hhp_mem rfl
      · rw [max_eq_right (by omega)] at hleft
        exact hdrop.1 hleft
    · cases hi

/-- The entries of header page `idx` in use after and before: the data pages from the new count on. -/
theorem shrink_range (hW : 2 < W) {old new : PageCounts} (hold : old.Of W) (hnew : new.Of W)
    (hlt : new.data < old.data) {idx : Nat} (hidx_lt : idx < old.header)
    (hidx : max new.header 1 ≤ idx + 1) :
    let first := if idx + 1 = new.header then new.data - (1 + idx * (W - 1)) else 0
    let last := if idx + 1 = old.header then old.data - (1 + idx * (W - 1)) else W - 1
    1 + idx * (W - 1) + first = max new.data (1 + idx * (W - 1)) ∧
      1 + idx * (W - 1) + last = min old.data (1 + (idx + 1) * (W - 1)) ∧
      first ≤ last ∧ last ≤ W - 1 := by
  have hmul : (idx + 1) * (W - 1) = idx * (W - 1) + (W - 1) := Nat.succ_mul _ _
  have hnew_range : new.data ≤ 1 + (idx + 1) * (W - 1) ∧
      (idx + 1 = new.header → 1 + idx * (W - 1) < new.data) ∧
      (idx + 1 ≠ new.header → new.data ≤ 1 + idx * (W - 1)) := by
    have hhi := headerCount_le hW (d := new.data)
    rw [← hnew.2.2] at hhi
    have hle : new.header * (W - 1) ≤ (idx + 1) * (W - 1) := Nat.mul_le_mul_right _ (by omega)
    refine ⟨by omega, fun heq => ?_, fun hne => ?_⟩
    · have hlo := lt_of_headerCount hW (d := new.data) (by rw [← hnew.2.2]; omega)
      rwa [← hnew.2.2, ← heq, Nat.add_sub_cancel] at hlo
    · have : new.header * (W - 1) ≤ idx * (W - 1) := Nat.mul_le_mul_right _ (by omega)
      omega
  have hold_range : 1 + idx * (W - 1) < old.data ∧
      (idx + 1 = old.header → old.data ≤ 1 + (idx + 1) * (W - 1)) ∧
      (idx + 1 ≠ old.header → 1 + (idx + 1) * (W - 1) < old.data) := by
    have hlo := lt_of_headerCount hW (d := old.data) (by rw [← hold.2.2]; omega)
    rw [← hold.2.2] at hlo
    have hle : idx * (W - 1) ≤ (old.header - 1) * (W - 1) := Nat.mul_le_mul_right _ (by omega)
    refine ⟨by omega, fun heq => ?_, fun hne => ?_⟩
    · have hhi := headerCount_le hW (d := old.data)
      rwa [← hold.2.2, ← heq] at hhi
    · have : (idx + 1) * (W - 1) ≤ (old.header - 1) * (W - 1) := Nat.mul_le_mul_right _ (by omega)
      omega
  have hfirst : 1 + idx * (W - 1) + (if idx + 1 = new.header then new.data - (1 + idx * (W - 1)) else 0)
      = max new.data (1 + idx * (W - 1)) := by
    split
    · rename_i heq
      have := hnew_range.2.1 heq
      omega
    · rename_i hne
      have := hnew_range.2.2 hne
      omega
  have hlast : 1 + idx * (W - 1) +
      (if idx + 1 = old.header then old.data - (1 + idx * (W - 1)) else W - 1) =
      min old.data (1 + (idx + 1) * (W - 1)) := by
    split
    · rename_i heq
      have := hold_range.2.1 heq
      omega
    · rename_i hne
      have := hold_range.2.2 hne
      omega
  exact ⟨hfirst, hlast, by omega, by omega⟩

theorem does_shrinkHeaders (hW : 2 < W) {old new : PageCounts} (hold : old.Of W) (hnew : new.Of W)
    (hlt : new.data < old.data) {h₀ : Heap W} (hc : Chain h₀ headerPages dataPages)
    (hheader : headerPages.length = old.header) (hdata : dataPages.length = old.data) {n idx : Nat}
    (hs : Views s live h) (hn : idx + n = old.header) (hidx : max new.header 1 ≤ idx + 1)
    (hsame : ∀ i, i ∈ headerPages.drop idx ∨ i ∈ leftOver W new headerPages dataPages idx →
      h i = h₀ i) :
    Does (shrinkHeaders old new headerPages n idx) (fun s' _ =>
      Views s' (live \ (leftOver W new headerPages dataPages idx).toFinset)
        (h.without (leftOver W new headerPages dataPages idx))) s := by
  induction n generalizing s live h idx with
  | zero =>
      have hhi := headerCount_le hW (d := old.data)
      rw [← hold.2.2] at hhi
      have : leftOver W new headerPages dataPages idx = [] := by
        rw [leftOver, List.drop_eq_nil_of_le, List.drop_eq_nil_of_le] <;> [rfl; skip; skip]
        · omega
        · have : idx = old.header := by omega
          subst this
          omega
      rw [this]
      simpa [shrinkHeaders] using hs
  | succ n ih =>
      obtain ⟨hp, hhp⟩ : ∃ hp, headerPages[idx]? = some hp :=
        ⟨headerPages[idx], List.getElem?_eq_getElem (by omega)⟩
      have hhp_drop : hp ∈ headerPages.drop idx := by
        rw [drop_header hhp]
        exact List.mem_cons_self
      obtain ⟨ha, hlast, hle, hlast_le⟩ := shrink_range hW hold hnew hlt (by omega) hidx
      rw [shrinkHeaders]
      refine PageProgram.ensures_bind.mpr (PageProgram.ensures_ofOption hhp ?_)
      have hhp_data : ∃ data, h hp = some data := by
        rw [hsame hp (.inl hhp_drop)]
        exact (hc.stored hp (List.mem_append_right _ (List.mem_of_getElem? hhp))).2
      refine PageProgram.ensures_bind.mpr (hs.touch hhp_data fun s₁ hs₁ => ?_)
      refine PageProgram.ensures_bind.mpr (does_usedEntries hW hnew (by omega) ?_)
      refine PageProgram.ensures_bind.mpr (does_usedEntries hW hold (by omega) ?_)
      rw [Nat.add_sub_cancel, entryCountPerPage_eq]
      generalize (if idx + 1 = new.header then new.data - (1 + idx * (W - 1)) else 0) = first at *
      generalize (if idx + 1 = old.header then old.data - (1 + idx * (W - 1)) else W - 1) = last at *
      refine PageProgram.ensures_bind.mpr (PageProgram.ensures_assert.mpr ⟨hle, ?_⟩)
      generalize hstart : 1 + idx * (W - 1) + first = a at ha
      have hrest : dataPages.drop (a + (last - first)) =
          dataPages.drop (max new.data (1 + (idx + 1) * (W - 1))) := by
        by_cases hfull : 1 + (idx + 1) * (W - 1) ≤ old.data
        · congr 1
          omega
        · rw [List.drop_eq_nil_of_le (by omega), List.drop_eq_nil_of_le (by omega)]
      have hleft := mem_leftOver_succ (W := W) hhp ha hrest
      have hslice : ∀ t p, ((dataPages.drop a).take (last - first))[t]? = some p →
          t < last - first ∧ dataPages[a + t]? = some p := by
        intro t p hp
        rw [List.getElem?_take] at hp
        split at hp
        · rw [List.getElem?_drop] at hp
          exact ⟨‹_›, hp⟩
        · cases hp
      have hslice_mem : ∀ p ∈ (dataPages.drop a).take (last - first), p ∈ live ∧ p ∈ dataPages := by
        intro p hp
        have hp_data : p ∈ dataPages := List.mem_of_mem_drop (List.mem_of_mem_take hp)
        obtain ⟨-, data, hdata⟩ := hc.stored p (List.mem_append_left _ hp_data)
        rw [← hsame p (.inr ((hleft p).mpr (.inl (List.mem_append_left _ hp))))] at hdata
        exact ⟨(hs.page p data hdata).1, hp_data⟩
      refine (@does_deleteEntries _ _ _ _ _ first hp _ hs₁ ?_ (fun t p hp => ?_)
        (fun p hp => (hslice_mem p hp).1) ?_ fun hmem => ?_).bind ?_
      · rw [List.length_take, List.length_drop]
        omega
      · obtain ⟨ht, hp⟩ := hslice t p hp
        have hlt : first + t < W - 1 := by omega
        have hi : a + t = (first + t + (W - 1) * idx) + 1 := by
          rw [Nat.mul_comm]
          omega
        rw [hi] at hp
        have hentry := hc.entry (first + t + (W - 1) * idx) _ p
          (by rwa [Nat.add_mul_div_left _ _ (by omega), Nat.div_eq_of_lt hlt, Nat.zero_add]) hp
        rw [Nat.add_mul_mod_self_left, Nat.mod_eq_of_lt hlt] at hentry
        exact hentry.congr (hsame _ (.inl hhp_drop))
      · exact (List.nodup_append.mp hc.nodup).1.sublist
          ((List.take_sublist _ _).trans (List.drop_sublist _ _))
      · exact hc.data_ne_header (hslice_mem hp hmem).2 (List.mem_of_getElem? hhp) rfl
      rintro s₂ - hs₂
      have hnext : ∀ s₃, Views s₃ (live \ (freedAt new headerPages dataPages idx a
          (last - first)).toFinset) (h.without (freedAt new headerPages dataPages idx a
          (last - first))) → Does (shrinkHeaders old new headerPages n (idx + 1)) (fun s' _ =>
          Views s' (live \ (leftOver W new headerPages dataPages idx).toFinset)
            (h.without (leftOver W new headerPages dataPages idx))) s₃ := by
        intro s₃ hs₃
        refine (ih hs₃ (by omega) (by omega) fun i hi => ?_).mono fun s' _ hs' => ?_
        · have hnot : i ∉ freedAt new headerPages dataPages idx a (last - first) := by
            intro hfreed
            have := not_mem_of_freedAt (W := W) hc hhp hrest hfreed
            exact hi.elim this.1 this.2
          rw [Heap.without_of_not_mem hnot]
          refine hsame i (hi.imp (fun hdrop => ?_) fun hmem => (hleft i).mpr (.inr hmem))
          rw [drop_header hhp]
          exact List.mem_cons_of_mem _ hdrop
        · rwa [sdiff_sdiff_toFinset hleft, Heap.without_without hleft] at hs'
      rw [freedAt] at hnext
      split
      · rename_i hfree
        rw [if_pos hfree, hhp] at hnext
        have hlive : hp ∈ live \ ((dataPages.drop a).take (last - first)).toFinset := by
          obtain ⟨data, hdata⟩ := hhp_data
          refine Finset.mem_sdiff.mpr ⟨(hs.page hp data hdata).1, fun hmem => ?_⟩
          exact hc.data_ne_header (hslice_mem hp (List.mem_toFinset.mp hmem)).2
            (List.mem_of_getElem? hhp) rfl
        refine PageProgram.ensures_bind.mpr (hs₂.deletePage hlive fun s₃ hs₃ => hnext s₃ ?_)
        have hiff : ∀ i, i ∈ (dataPages.drop a).take (last - first) ++ (some hp).toList ↔
            i ∈ (dataPages.drop a).take (last - first) ∨ i ∈ [hp] := fun i => List.mem_append
        rw [← sdiff_sdiff_toFinset hiff, ← Heap.without_without hiff, ← Heap.without_update,
          ← erase_sdiff_toFinset, Heap.without_nil, List.toFinset_nil, Finset.sdiff_empty]
        exact hs₃
      · rename_i hkeep
        rw [if_neg hkeep, List.append_nil] at hnext
        exact hnext s₂ hs₂

end Plexdb.Blob
