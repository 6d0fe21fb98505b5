import Plexdb.BlobResize

/-! A blob as it is stored: its page lists have the lengths its size asks for, the pages are linked, and
the first data page holds the size. Each operation of a blob in terms of what is stored. -/

namespace Plexdb.Blob

open Pager (Sys)

variable {W : Nat}

def BlobDynamicPaged.pages (b : BlobDynamicPaged) : List Nat := b.dataPages ++ b.headerPages

structure Stored (h : Heap W) (b : BlobDynamicPaged) : Prop where
  fits : Fits W b.sizeBytes
  data : b.dataPages.length = dataCount W b.sizeBytes
  header : b.headerPages.length = headerCount W b.dataPages.length
  chain : Chain h b.headerPages b.dataPages
  size : ∀ dp, b.dataPages.head? = some dp → h.Entry dp sizeEntryIdx b.sizeBytes

variable {s : Sys W} {live : Finset Nat} {h : Heap W} {b : BlobDynamicPaged}

def BlobDynamicPaged.counts (b : BlobDynamicPaged) : PageCounts :=
  ⟨b.dataPages.length, b.headerPages.length⟩

theorem Stored.counts_of (hb : Stored h b) : b.counts.Of W := by
  refine ⟨?_, ?_, hb.header⟩
  · change 0 < b.dataPages.length
    rw [hb.data]
    exact dataCount_pos _ _
  · change b.dataPages.length * (8 * W) < 2 ^ 64
    rw [hb.data]
    exact dataCount_mul_lt hb.fits

theorem of_dataCount {n : Nat} (hn : Fits W n) :
    PageCounts.Of W ⟨dataCount W n, headerCount W (dataCount W n)⟩ :=
  ⟨dataCount_pos W n, dataCount_mul_lt hn, rfl⟩

theorem Stored.exists_first (hb : Stored h b) : ∃ dp rest, b.dataPages = dp :: rest :=
  List.exists_cons_of_length_pos hb.counts_of.1

theorem PageCounts.Of.total_eq (hW : 2 < W) {counts : PageCounts} (hc : counts.Of W) :
    counts.total = counts.data + counts.header := by
  have hlt := headerCount_lt hW hc.1
  have hsmall := dataCount_le_div hW hc.2.1
  rw [← hc.2.2] at hlt
  exact u64_of_lt (by omega)

/-- Fewer data pages need fewer pages in total. -/
theorem PageCounts.Of.total_lt (hW : 2 < W) {c d : PageCounts} (hc : c.Of W) (hd : d.Of W) :
    c.total < d.total ↔ c.data < d.data := by
  rw [hc.total_eq hW, hd.total_eq hW]
  have hmono := @headerCount_mono W
  rw [hc.2.2, hd.2.2]
  constructor
  · intro hlt
    by_contra hge
    have := hmono (Nat.le_of_not_lt hge)
    omega
  · intro hlt
    have := hmono hlt.le
    omega

/-! ### What a resize leaves -/

/-- A data page keeps its bytes; of the first one, all but the size and the first header page. -/
def KeepsBytes (k : Nat) (page page' : Option (Page W)) : Prop :=
  ∀ data, page = some data → ∃ data', page' = some data' ∧
    ∀ j < 8 * W, 0 < k ∨ (8 ≤ j ∧ j < 8 * (W - 1)) → data'.byte j = data.byte j

theorem KeepsBytes.of_eq {k : Nat} {page page' : Option (Page W)} (heq : page' = page) :
    KeepsBytes k page page' :=
  fun data hdata => ⟨data, heq.trans hdata, fun _ _ _ => rfl⟩

theorem KeepsBytes.trans {k : Nat} {page page' page'' : Option (Page W)} (h₁ : KeepsBytes k page page')
    (h₂ : KeepsBytes k page' page'') : KeepsBytes k page page'' := by
  intro data hdata
  obtain ⟨data', hdata', hbytes⟩ := h₁ data hdata
  obtain ⟨data'', hdata'', hbytes'⟩ := h₂ data' hdata'
  exact ⟨data'', hdata'', fun j hj hor => (hbytes' j hj hor).trans (hbytes j hj hor)⟩

theorem keepsBytes_setEntry {k e value dp : Nat} (he : e = 0 ∨ e = W - 1) (hk : k = 0) :
    KeepsBytes k (h dp) (h.setEntry dp e value dp) := by
  intro data hdata
  exact ⟨_, Heap.setEntry_self hdata, fun j hj hor => Page.byte_modifyWord _ _ (by omega)⟩

/-- A resize of `b` to `n` bytes: one pair of page lists is a prefix of the other, what is new was
allocated and what is left over is freed. -/
structure Resized (live : Finset Nat) (h : Heap W) (b : BlobDynamicPaged) (n : Nat) (s' : Sys W)
    (live' : Finset Nat) (h' : Heap W) (b' : BlobDynamicPaged) : Prop where
  views : Views s' live' h'
  stored : Stored h' b'
  size : b'.sizeBytes = n
  lists : (b.dataPages <+: b'.dataPages ∧ b.headerPages <+: b'.headerPages) ∨
    (b'.dataPages <+: b.dataPages ∧ b'.headerPages <+: b.headerPages)
  live_eq : live' = live \ b.pages.toFinset ∪ b'.pages.toFinset
  fresh : ∀ i ∈ b'.pages, i ∉ b.pages → i ∉ live
  bytes : ∀ k dp, b.dataPages[k]? = some dp → b'.dataPages[k]? = some dp →
    KeepsBytes k (h dp) (h' dp)
  frame : ∀ i ∈ live, i ∉ b.pages → h' i = h i

theorem Views.pages_subset (hs : Views s live h) (hb : Stored h b) : b.pages.toFinset ⊆ live :=
  fun _ hi => hs.mem_live hb.chain (List.mem_toFinset.mp hi)

/-- The size is written first. -/
theorem Stored.writeSize (hW : 2 < W) (hb : Stored h b) {dp : Nat} (hdp : b.dataPages.head? = some dp)
    {n : Nat} (hn : Fits W n) :
    Chain (h.setEntry dp sizeEntryIdx n) b.headerPages b.dataPages ∧
      (h.setEntry dp sizeEntryIdx n).Entry dp sizeEntryIdx n ∧
      ∀ k dp', b.dataPages[k]? = some dp' →
        KeepsBytes k (h dp') (h.setEntry dp sizeEntryIdx n dp') := by
  have hmem := mem_of_head? hdp
  refine ⟨hb.chain.setEntry_data hW hmem (by rw [sizeEntryIdx]; omega),
    Heap.entry_setEntry (hb.chain.stored dp (List.mem_append_left _ hmem)).2
      (by rw [sizeEntryIdx]; omega) (by rw [Fits] at hn; omega), fun k dp' hdp' => ?_⟩
  by_cases heq : dp' = dp
  · subst heq
    rw [List.head?_eq_getElem?] at hdp
    exact keepsBytes_setEntry (.inl rfl) (hb.chain.data_inj hdp' hdp)
  · exact .of_eq (Heap.setEntry_of_ne heq)

/-- The resize that stays within the pages. -/
theorem Resized.same_pages (hs : Views s live h) (hb : Stored h b) {n : Nat} {h' : Heap W}
    {s' : Sys W} (hs' : Views s' live h') (hb' : Stored h' { b with sizeBytes := n })
    (hbytes : ∀ k dp, b.dataPages[k]? = some dp → KeepsBytes k (h dp) (h' dp))
    (hframe : ∀ i ∈ live, i ∉ b.pages → h' i = h i) :
    Resized live h b n s' live h' { b with sizeBytes := n } where
  views := hs'
  stored := hb'
  size := rfl
  lists := .inl ⟨List.prefix_rfl, List.prefix_rfl⟩
  live_eq := (Finset.sdiff_union_of_subset (hs.pages_subset hb)).symm
  fresh _ hi hnot := absurd hi hnot
  bytes k dp hdp _ := hbytes k dp hdp
  frame := hframe

/-- What `growRoot` starts the growing loop with. -/
theorem does_growRoot (hW : 2 < W) (hs : Views s live h) (hcounts : b.counts.Of W)
    (hc : Chain h b.headerPages b.dataPages) {dp : Nat} (hdp : b.dataPages.head? = some dp) :
    Does (growRoot b dp) (fun s' r => ∃ live' h' added hp, r = (b.headerPages ++ added, b.dataPages) ∧
      Grown live h dp added s' live' h' ∧ Chain h' r.1 r.2 ∧ r.1.getLast? = some hp ∧
      (h' dp = h dp ∨ ∃ value, h' dp = h.setEntry dp (W - 1) value dp) ∧
      r.1.length = max 1 b.headerPages.length ∧
      b.dataPages.length = if r.1.length = b.headerPages.length then b.dataPages.length
        else 1 + (r.1.length - 1) * (W - 1)) s := by
  have hheader : b.headerPages.length = headerCount W b.dataPages.length := hcounts.2.2
  have hmem : dp ∈ b.dataPages ++ b.headerPages := List.mem_append_left _ (mem_of_head? hdp)
  rw [growRoot]
  split
  · rename_i hone
    rw [hone, headerCount_one hW] at hheader
    have hnil := List.length_eq_zero_iff.mp hheader
    have hdata : b.dataPages = [dp] := by
      obtain ⟨x, hx⟩ := List.length_eq_one_iff.mp hone
      rw [hx] at hdp ⊢
      rw [Option.some.inj hdp]
    refine PageProgram.ensures_bind.mpr
      (hs.newPage (by omega) fun s₁ next hfresh hsmall _ hs₁ => ?_)
    have hne : next ≠ dp := fun heq => hfresh (heq ▸ hs.mem_live hc hmem)
    have hstored : ∃ data, (h.alloc next) dp = some data := by
      obtain ⟨-, data, hd⟩ := hc.stored dp hmem
      exact ⟨data, (Heap.alloc_of_ne hne.symm).trans hd⟩
    refine PageProgram.ensures_bind.mpr (hs₁.writeEntry hstored _ next fun s₂ hs₂ => ?_)
    rw [nextPageEntryIdx_eq] at hs₂
    rw [hdata, hnil] at hc
    refine ⟨insert next live, _, [next], next, by rw [hnil, hdata]; rfl,
      .cons hfresh (.inl rfl) (.refl hs₂ _), hc.root hW hne hsmall, rfl, .inr ⟨next, ?_⟩, ?_, ?_⟩
    · rw [Heap.setEntry, Heap.setEntry, Function.update_self, Function.update_self,
        Function.update_of_ne hne.symm]
    · rw [hnil]
      rfl
    · rw [hnil, if_neg (by simp)]
      simpa using hone
  · rename_i hmany
    have hpos : 0 < b.headerPages.length := by
      rcases Nat.eq_zero_or_pos b.headerPages.length with hzero | hpos
      · exact absurd ((headerCount_eq_zero hW hcounts.1).mp (hheader.symm.trans hzero)) hmany
      · exact hpos
    obtain ⟨hp, hhp⟩ := Option.isSome_iff_exists.mp
      (List.getLast?_isSome.mpr (List.ne_nil_of_length_pos hpos))
    have hnil : b.headerPages ++ [] = b.headerPages := List.append_nil _
    exact ⟨live, h, [], hp, by rw [hnil], .refl hs _, hc, hhp, .inl rfl,
      (max_eq_right hpos).symm, by rw [if_pos rfl]⟩

/-- The growing half of `resize_impl`, once the size is written. -/
theorem does_growPages (hW : 2 < W) (hs : Views s live h) {new : PageCounts} (hcounts : b.counts.Of W)
    (hnew : new.Of W) (hlt : b.dataPages.length < new.data)
    (hc : Chain h b.headerPages b.dataPages) {dp : Nat} (hdp : b.dataPages.head? = some dp) :
    Does (growPages b dp b.counts new) (fun s' r => ∃ live' h' dNew hNew,
        r = (b.headerPages ++ hNew, b.dataPages ++ dNew) ∧ r.1.length = new.header ∧
        r.2.length = new.data ∧ Chain h' r.1 r.2 ∧ Views s' live' h' ∧
        live' = live ∪ (dNew ++ hNew).toFinset ∧ (∀ i ∈ dNew ++ hNew, i ∉ live) ∧
        (∀ n, h.Entry dp sizeEntryIdx n → h'.Entry dp sizeEntryIdx n) ∧
        (∀ k dp', b.dataPages[k]? = some dp' → KeepsBytes k (h dp') (h' dp')) ∧
        ∀ i ∈ live, i ∉ b.pages → h' i = h i) s := by
  rw [growPages]
  refine (does_growRoot hW hs hcounts hc hdp).bind ?_
  rintro s₁ - ⟨live₁, h₁, added, hp, rfl, hgrown, hc₁, hlast, hfirst, hlen, hdata⟩
  dsimp only at hc₁ hlast hlen hdata ⊢
  have hnew_pos : 1 ≤ new.header := by
    rcases Nat.eq_zero_or_pos new.header with hzero | hpos
    · have := (headerCount_eq_zero hW hnew.1).mp (hnew.2.2.symm.trans hzero)
      have := hcounts.1
      have hone : b.counts.data = b.dataPages.length := rfl
      omega
    · exact hpos
  have hmono : b.headerPages.length ≤ new.header := by
    have hheader : b.headerPages.length = headerCount W b.dataPages.length := hcounts.2.2
    have := headerCount_mono W hlt.le
    rwa [← hnew.2.2, ← hheader] at this
  rw [if_pos (by rw [hlen]; exact max_le hnew_pos hmono)]
  refine PageProgram.ensures_bind.mpr (PageProgram.ensures_ofOption hlast ?_)
  refine (does_growHeaders hW hcounts hnew hlt hgrown.views hc₁ hlast ?_ ?_ hdata).mono ?_
  · rw [hlen]
    omega
  · rw [hlen]
    exact le_max_right _ _
  rintro s' - ⟨live', h', dNew, hNew, rfl, hheader', hdata', hgrown', hc'⟩
  have hdp_mem : dp ∈ b.dataPages := mem_of_head? hdp
  have hhp_mem : hp ∈ b.headerPages ++ added := List.mem_of_getLast? hlast
  have hdata_ne : ∀ dp' ∈ b.dataPages, h' dp' = h₁ dp' := fun dp' hmem =>
    hgrown'.frame dp' (hgrown.views.mem_live hc₁ (List.mem_append_left _ hmem))
      (hc₁.data_ne_header hmem hhp_mem)
  refine ⟨live', h', dNew, added ++ hNew, by simp, hheader', hdata', hc', hgrown'.views, ?_,
    fun i hi => ?_, fun n hentry => ?_, fun k dp' hdp' => ?_, fun i hi hnot => ?_⟩
  · rw [hgrown'.live_eq, hgrown.live_eq]
    ext i
    simp only [Finset.mem_union, List.mem_toFinset, List.mem_append]
    tauto
  · have hcases : i ∈ added ∨ i ∈ dNew ++ hNew := by
      simp only [List.mem_append] at hi ⊢
      tauto
    rcases hcases with hi | hi
    · exact hgrown.fresh i hi
    · intro hlive
      refine hgrown'.fresh i hi ?_
      rw [hgrown.live_eq]
      exact Finset.mem_union_left _ hlive
  · have hentry₁ : h₁.Entry dp sizeEntryIdx n := by
      rcases hfirst with heq | ⟨value, heq⟩
      · exact hentry.congr heq
      · have hset := @Heap.Entry.setEntry W h dp sizeEntryIdx n dp (W - 1) value hentry
          (by rw [sizeEntryIdx]; omega) (.inr (by rw [sizeEntryIdx]; omega))
        exact hset.congr heq
    exact hentry₁.congr (hdata_ne dp hdp_mem)
  · have hmem := List.mem_of_getElem? hdp'
    rw [hdata_ne dp' hmem]
    by_cases heq : dp' = dp
    · subst heq
      rcases hfirst with heq | ⟨value, heq⟩
      · exact .of_eq heq
      · rw [heq]
        rw [List.head?_eq_getElem?] at hdp
        exact keepsBytes_setEntry (.inr rfl) (hc.data_inj hdp' hdp)
    · exact .of_eq (hgrown.frame dp' (hs.mem_live hc (List.mem_append_left _ hmem)) heq)
  · have hne : i ≠ dp := fun heq => hnot (heq ▸ List.mem_append_left _ hdp_mem)
    have hne' : i ≠ hp := by
      rintro rfl
      rcases List.mem_append.mp hhp_mem with hmem | hmem
      · exact hnot (List.mem_append_right _ hmem)
      · exact hgrown.fresh i hmem hi
    rw [hgrown'.frame i (by rw [hgrown.live_eq]; exact Finset.mem_union_left _ hi) hne',
      hgrown.frame i hi hne]

/-- The shrinking half of `resize_impl`: exactly the pages past the new counts are freed. -/
theorem does_shrinkPages (hW : 2 < W) (hs : Views s live h) {new : PageCounts}
    (hcounts : b.counts.Of W) (hnew : new.Of W) (hlt : new.data < b.dataPages.length)
    (hc : Chain h b.headerPages b.dataPages) :
    Does (shrinkPages b b.counts new) (fun s' r =>
      r = (b.headerPages.take new.header, b.dataPages.take new.data) ∧
      Views s' (live \ (b.dataPages.drop new.data ++ b.headerPages.drop new.header).toFinset)
        (h.without (b.dataPages.drop new.data ++ b.headerPages.drop new.header))) s := by
  have hpos := hnew.1
  have hmono : new.header ≤ b.headerPages.length := by
    have hheader : b.headerPages.length = headerCount W b.dataPages.length := hcounts.2.2
    have := headerCount_mono W hlt.le
    rwa [← hnew.2.2, ← hheader] at this
  have hheader_pos : 0 < b.headerPages.length := by
    rcases Nat.eq_zero_or_pos b.headerPages.length with hzero | hpos
    · have := (headerCount_eq_zero hW hcounts.1).mp
        ((show b.headerPages.length = _ from hcounts.2.2).symm.trans hzero)
      have : b.counts.data = b.dataPages.length := rfl
      omega
    · exact hpos
  have hleft : leftOver W new b.headerPages b.dataPages (max new.header 1 - 1) =
      b.dataPages.drop new.data ++ b.headerPages.drop new.header := by
    have hdata : max new.data (1 + (max new.header 1 - 1) * (W - 1)) = new.data := by
      rcases Nat.eq_zero_or_pos new.header with hzero | hone
      · rw [hzero, max_eq_right (Nat.zero_le 1), Nat.sub_self, Nat.zero_mul]
        exact max_eq_left hpos
      · have := lt_of_headerCount hW (d := new.data) (by rw [← hnew.2.2]; exact hone)
        rw [← hnew.2.2] at this
        rw [show max new.header 1 = new.header from max_eq_left hone]
        exact max_eq_left this.le
    rw [leftOver, hdata, max_eq_left (by omega)]
  have hsum : max new.header 1 - 1 + (b.headerPages.length - (max new.header 1 - 1)) =
      b.counts.header := by
    change _ = b.headerPages.length
    omega
  have hshrink := does_shrinkHeaders hW hcounts hnew hlt hc rfl rfl hs hsum (by omega) fun _ _ => rfl
  rw [hleft] at hshrink
  exact hshrink.bind fun s' _ hs' => ⟨rfl, hs'⟩

/-- The pages of the kept prefix are not left over. -/
theorem Chain.not_mem_drop {headerPages dataPages : List Nat} (hc : Chain h headerPages dataPages)
    {m n i : Nat} (hi : i ∈ dataPages.take n ++ headerPages.take m) :
    i ∉ dataPages.drop n ++ headerPages.drop m := by
  obtain ⟨hdata, hheader, hdisj⟩ := List.nodup_append.mp hc.nodup
  rw [← List.take_append_drop n dataPages, List.nodup_append] at hdata
  rw [← List.take_append_drop m headerPages, List.nodup_append] at hheader
  intro hmem
  rcases List.mem_append.mp hi with hi | hi <;> rcases List.mem_append.mp hmem with hmem | hmem
  · exact hdata.2.2 i hi i hmem rfl
  · exact hdisj i (List.mem_of_mem_take hi) i (List.mem_of_mem_drop hmem) rfl
  · exact hdisj i (List.mem_of_mem_drop hmem) i (List.mem_of_mem_take hi) rfl
  · exact hheader.2.2 i hi i hmem rfl

theorem mem_pages_iff (b : BlobDynamicPaged) (m n i : Nat) :
    i ∈ b.pages ↔ i ∈ b.dataPages.take n ++ b.headerPages.take m ∨
      i ∈ b.dataPages.drop n ++ b.headerPages.drop m := by
  have hdata : i ∈ b.dataPages ↔ i ∈ b.dataPages.take n ∨ i ∈ b.dataPages.drop n := by
    rw [← List.mem_append, List.take_append_drop]
  have hheader : i ∈ b.headerPages ↔ i ∈ b.headerPages.take m ∨ i ∈ b.headerPages.drop m := by
    rw [← List.mem_append, List.take_append_drop]
  rw [BlobDynamicPaged.pages, List.mem_append, List.mem_append, List.mem_append, hdata, hheader]
  tauto

theorem head?_append {dataPages dNew : List Nat} {dp : Nat} (hdp : dataPages.head? = some dp) :
    (dataPages ++ dNew).head? = some dp := by
  rw [List.head?_append, hdp]
  rfl

theorem Resized.of_grown (hs : Views s live h) (hb : Stored h b) {n dp : Nat}
    (hn : Fits W n) (hdp : b.dataPages.head? = some dp) {s' : Sys W} {live' : Finset Nat}
    {h₁ h' : Heap W} {dNew hNew : List Nat}
    (hheader : (b.headerPages ++ hNew).length = headerCount W (dataCount W n))
    (hdata : (b.dataPages ++ dNew).length = dataCount W n)
    (hc : Chain h' (b.headerPages ++ hNew) (b.dataPages ++ dNew)) (hs' : Views s' live' h')
    (hlive : live' = live ∪ (dNew ++ hNew).toFinset) (hfresh : ∀ i ∈ dNew ++ hNew, i ∉ live)
    (hsize : h'.Entry dp sizeEntryIdx n)
    (hbytes : ∀ k dp', b.dataPages[k]? = some dp' → KeepsBytes k (h dp') (h₁ dp'))
    (hbytes' : ∀ k dp', b.dataPages[k]? = some dp' → KeepsBytes k (h₁ dp') (h' dp'))
    (hframe : ∀ i ∈ live, i ∉ b.pages → h' i = h i) :
    Resized live h b n s' live' h' ⟨n, b.headerPages ++ hNew, b.dataPages ++ dNew⟩ where
  views := hs'
  stored := ⟨hn, hdata, hheader.trans (by rw [hdata]), hc, fun dp' hdp' => by
    rw [head?_append hdp] at hdp'
    rwa [← Option.some.inj hdp']⟩
  size := rfl
  lists := .inl ⟨List.prefix_append _ _, List.prefix_append _ _⟩
  live_eq := by
    have hsub := hs.pages_subset hb
    ext i
    have hmem : i ∈ b.pages → i ∈ live := fun hi => hsub (List.mem_toFinset.mpr hi)
    simp only [BlobDynamicPaged.pages, List.mem_append] at hmem
    simp only [hlive, BlobDynamicPaged.pages, Finset.mem_union, Finset.mem_sdiff, List.mem_toFinset,
      List.mem_append]
    tauto
  fresh i hi hnot := by
    refine hfresh i ?_
    simp only [BlobDynamicPaged.pages, List.mem_append] at hi hnot ⊢
    tauto
  bytes k dp' hdp' _ := (hbytes k dp' hdp').trans (hbytes' k dp' hdp')
  frame := hframe

theorem Resized.of_shrunk (hs : Views s live h) (hb : Stored h b) {n dp : Nat} (hn : Fits W n)
    (hdp : b.dataPages.head? = some dp) {s' : Sys W} {h₁ : Heap W}
    (hdata : dataCount W n ≤ b.dataPages.length)
    (hheader : headerCount W (dataCount W n) ≤ b.headerPages.length)
    (hc : Chain h₁ b.headerPages b.dataPages) (hsize : h₁.Entry dp sizeEntryIdx n)
    (hbytes : ∀ k dp', b.dataPages[k]? = some dp' → KeepsBytes k (h dp') (h₁ dp'))
    (hframe : ∀ i ∈ live, i ∉ b.pages → h₁ i = h i)
    (hs' : Views s' (live \ (b.dataPages.drop (dataCount W n) ++
        b.headerPages.drop (headerCount W (dataCount W n))).toFinset)
      (h₁.without (b.dataPages.drop (dataCount W n) ++
        b.headerPages.drop (headerCount W (dataCount W n))))) :
    Resized live h b n s' (live \ (b.dataPages.drop (dataCount W n) ++
        b.headerPages.drop (headerCount W (dataCount W n))).toFinset)
      (h₁.without (b.dataPages.drop (dataCount W n) ++
        b.headerPages.drop (headerCount W (dataCount W n))))
      ⟨n, b.headerPages.take (headerCount W (dataCount W n)), b.dataPages.take (dataCount W n)⟩ where
  views := hs'
  stored := by
    have hkeep : ∀ i, i ∈ b.dataPages.take (dataCount W n) ++
        b.headerPages.take (headerCount W (dataCount W n)) → _ := fun i hi =>
      Heap.without_of_not_mem (h := h₁) (hc.not_mem_drop hi)
    have hlen : (b.dataPages.take (dataCount W n)).length = dataCount W n := List.length_take_of_le hdata
    refine ⟨hn, hlen, ?_, (hc.take _ _).congr hkeep, fun dp' hdp' => ?_⟩
    · rw [hlen]
      exact List.length_take_of_le hheader
    · have hmem := List.mem_append_left (b.headerPages.take (headerCount W (dataCount W n)))
        (mem_of_head? hdp')
      rw [List.head?_take, if_neg (by have := dataCount_pos W n; omega), hdp] at hdp'
      obtain rfl := Option.some.inj hdp'
      exact hsize.congr (hkeep _ hmem)
  size := rfl
  lists := .inr ⟨List.take_prefix _ _, List.take_prefix _ _⟩
  live_eq := by
    have hsub := hs.pages_subset hb
    ext i
    have hmem : i ∈ b.pages → i ∈ live := fun hi => hsub (List.mem_toFinset.mpr hi)
    have hiff := mem_pages_iff b (headerCount W (dataCount W n)) (dataCount W n) i
    have hnot := @Chain.not_mem_drop W h₁ _ _ hc (headerCount W (dataCount W n)) (dataCount W n) i
    simp only [Finset.mem_union, Finset.mem_sdiff, List.mem_toFinset, hiff]
    rw [hiff] at hmem
    simp only [BlobDynamicPaged.pages]
    tauto
  fresh i hi hnot := absurd ((mem_pages_iff b _ _ i).mpr (.inl hi)) hnot
  bytes k dp' hdp' hdp'' := by
    refine (hbytes k dp' hdp').trans (.of_eq (Heap.without_of_not_mem ?_))
    exact hc.not_mem_drop (List.mem_append_left _ (List.mem_of_getElem? hdp''))
  frame i hi hnot := by
    refine (Heap.without_of_not_mem fun hmem => hnot ?_).trans (hframe i hi hnot)
    exact (mem_pages_iff b _ _ i).mpr (.inr hmem)

theorem does_resizeImpl (hW : 2 < W) (hs : Views s live h) (hb : Stored h b) {n : Nat}
    (hn : Fits W n) : Does (resizeImpl b n)
      (fun s' b' => ∃ live' h', Resized live h b n s' live' h' b') s := by
  obtain ⟨dp, rest, hlist⟩ := hb.exists_first
  have hdp : b.dataPages.head? = some dp := by rw [hlist]; rfl
  have hdp_mem : dp ∈ b.pages := List.mem_append_left _ (mem_of_head? hdp)
  have hold := hb.counts_of
  have hnew := of_dataCount (W := W) hn
  obtain ⟨hc, hentry, hbytes⟩ := hb.writeSize hW hdp hn
  have hframe : ∀ i ∈ live, i ∉ b.pages → h.setEntry dp sizeEntryIdx n i = h i := fun i _ hnot =>
    Heap.setEntry_of_ne fun heq => hnot (heq ▸ hdp_mem)
  rw [resizeImpl]
  refine PageProgram.ensures_bind.mpr (PageProgram.ensures_ofOption hdp ?_)
  split
  · rename_i heq
    subst heq
    exact ⟨live, h, .same_pages hs hb hs hb (fun _ _ _ => .of_eq rfl) fun _ _ _ => rfl⟩
  · refine PageProgram.ensures_bind.mpr (PageProgram.ensures_assert.mpr
      ⟨by rw [nextPageEntryIdx_eq, sizeEntryIdx]; omega, ?_⟩)
    dsimp only
    rw [dataPageCount_eq hW hn, headerPageCount_eq hW (dataCount_pos W n) (dataCount_mul_lt hn)]
    rw [show PageCounts.mk b.dataPages.length b.headerPages.length = b.counts from rfl]
    have hgt_iff := hold.total_lt hW hnew
    have hlt_iff := hnew.total_lt hW hold
    have hdata_eq : b.counts.data = b.dataPages.length := rfl
    refine PageProgram.ensures_bind.mpr
      (hs.writeEntry (hb.chain.stored dp (List.mem_append_left _ (mem_of_head? hdp))).2 _ n
        fun s₁ hs₁ => ?_)
    split
    · rename_i heq
      refine ⟨live, _, .same_pages hs hb hs₁ ⟨hn, ?_, hb.header, hc, ?_⟩ hbytes hframe⟩
      · change b.dataPages.length = dataCount W n
        dsimp only at hgt_iff hlt_iff
        omega
      · intro dp' hdp'
        rwa [← Option.some.inj (hdp.symm.trans hdp')]
    · rename_i hne
      refine PageProgram.ensures_bind.mpr (PageProgram.ensures_assert.mpr
        ⟨by rw [hnew.total_eq hW]; exact Nat.add_pos_left (dataCount_pos W n) _, ?_⟩)
      rw [resizePages]
      split
      · rename_i hlt
        refine (does_growPages hW hs₁ hold hnew (hgt_iff.mp hlt) hc hdp).bind ?_
        rintro s' - ⟨live', h', dNew, hNew, rfl, hheader', hdata', hc', hs', hlive', hfresh, hsize,
          hbytes', hframe'⟩
        refine PageProgram.ensures_bind.mpr (PageProgram.ensures_assert.mpr ⟨hdata', ?_⟩)
        refine PageProgram.ensures_bind.mpr (PageProgram.ensures_assert.mpr ⟨hheader', ?_⟩)
        exact ⟨live', h', .of_grown hs hb hn hdp hheader' hdata' hc' hs' hlive' hfresh (hsize n hentry)
          hbytes hbytes' fun i hi hnot => (hframe' i hi hnot).trans (hframe i hi hnot)⟩
      · have hlt : dataCount W n < b.dataPages.length := by
          dsimp only at hgt_iff hlt_iff
          omega
        have hmono : headerCount W (dataCount W n) ≤ b.headerPages.length := by
          rw [hb.header]
          exact headerCount_mono W hlt.le
        refine (does_shrinkPages hW hs₁ hold hnew hlt hc).bind ?_
        rintro s' - ⟨rfl, hs'⟩
        refine PageProgram.ensures_bind.mpr (PageProgram.ensures_assert.mpr
          ⟨List.length_take_of_le hlt.le, ?_⟩)
        refine PageProgram.ensures_bind.mpr (PageProgram.ensures_assert.mpr
          ⟨List.length_take_of_le hmono, ?_⟩)
        exact ⟨_, _, .of_shrunk hs hb hn hdp hlt.le hmono hc hentry hbytes hframe hs'⟩

end Plexdb.Blob
