import Plexdb.BlobStored

/-! Loading a stored blob, reading and writing its bytes, creating and removing it. -/

namespace Plexdb.Blob

open Pager (Sys)

variable {W : Nat} {s : Sys W} {live : Finset Nat} {h : Heap W} {b : BlobDynamicPaged}

/-! ### `load` -/

theorem entries_eq {headerPages dataPages : List Nat} (hc : Chain h headerPages dataPages)
    {k hp n : Nat} {data : Page W} (hhp : headerPages[k]? = some hp) (hdata : h hp = some data)
    (hn : n ≤ W - 1) (hlen : 1 + k * (W - 1) + n ≤ dataPages.length) :
    entries data n = (dataPages.drop (1 + k * (W - 1))).take n := by
  refine List.ext_getElem? fun j => ?_
  rw [entries, List.getElem?_map, List.getElem?_take]
  split
  · rename_i hj
    have hi : 1 + k * (W - 1) + j = j + (W - 1) * k + 1 := by
      rw [Nat.mul_comm]
      omega
    rw [List.getElem?_range hj, Option.map_some, List.getElem?_drop, hi]
    have hget := List.getElem?_eq_getElem (l := dataPages) (i := j + (W - 1) * k + 1) (by omega)
    have hentry := hc.entry (j + (W - 1) * k) hp _
      (by rwa [Nat.add_mul_div_left _ _ (by omega), Nat.div_eq_of_lt (by omega), Nat.zero_add]) hget
    rw [Nat.add_mul_mod_self_left, Nat.mod_eq_of_lt (by omega)] at hentry
    obtain ⟨data', hdata', hvalue⟩ := hentry
    obtain rfl := Option.some.inj (hdata.symm.trans hdata')
    rw [hvalue, hget]
  · rename_i hj
    rw [List.getElem?_eq_none (by rw [List.length_range]; omega)]
    rfl

theorem does_loadHeaders (hW : 2 < W) (hs : Views s live h) {headerPages dataPages : List Nat}
    (hc : Chain h headerPages dataPages) (hlo : 1 + (headerPages.length - 1) * (W - 1) < dataPages.length)
    (hhi : dataPages.length ≤ 1 + headerPages.length * (W - 1)) (hsmall : dataPages.length < 2 ^ 64)
    {n k hp : Nat} (hhp : headerPages[k]? = some hp) (hn : k + 1 + n = headerPages.length) :
    Does (loadHeaders dataPages.length n hp (headerPages.take (k + 1))
      (dataPages.take (1 + k * (W - 1)))) (fun s' r => r = (headerPages, dataPages) ∧ Views s' live h) s := by
  induction n generalizing s k hp with
  | zero =>
      obtain ⟨-, data, hdata⟩ := hc.stored hp (List.mem_append_right _ (List.mem_of_getElem? hhp))
      have hk : headerPages.length = k + 1 := by omega
      rw [hk, Nat.add_sub_cancel] at hlo
      rw [hk, Nat.succ_mul] at hhi
      have hcount : u64Sub dataPages.length (dataPages.take (1 + k * (W - 1))).length =
          dataPages.length - (1 + k * (W - 1)) := by
        rw [List.length_take_of_le hlo.le, u64Sub_of_le hlo.le hsmall]
      refine PageProgram.ensures_bind.mpr (hs.rpage hdata fun s' hs' => ?_)
      dsimp only
      rw [hcount]
      refine PageProgram.ensures_bind.mpr (PageProgram.ensures_assert.mpr ⟨by omega, ?_, hs'⟩)
      rw [entries_eq hc hhp hdata (by omega) (by omega), List.take_of_length_le (by omega),
        ← List.take_add, List.take_of_length_le (by omega)]
  | succ n ih =>
      obtain ⟨-, data, hdata⟩ := hc.stored hp (List.mem_append_right _ (List.mem_of_getElem? hhp))
      have hnext := List.getElem?_eq_getElem (l := headerPages) (i := k + 1) (by omega)
      obtain ⟨data', hdata', hvalue⟩ := hc.next k hp _ hhp hnext
      obtain rfl := Option.some.inj (hdata.symm.trans hdata')
      have hmul : (k + 1) * (W - 1) = k * (W - 1) + (W - 1) := Nat.succ_mul _ _
      have hfull : 1 + (k + 1) * (W - 1) ≤ dataPages.length := by
        have : (k + 1) * (W - 1) ≤ (headerPages.length - 1) * (W - 1) :=
          Nat.mul_le_mul_right _ (by omega)
        omega
      refine PageProgram.ensures_bind.mpr (hs.rpage hdata fun s' hs' => ?_)
      refine PageProgram.ensures_bind.mpr (PageProgram.ensures_assert.mpr
        ⟨by rw [entryCountPerPage_eq]; omega, ?_⟩)
      dsimp only
      rw [nextPageEntryIdx_eq, hvalue, entryCountPerPage_eq,
        entries_eq hc hhp hdata le_rfl (by omega), ← List.take_add,
        show 1 + k * (W - 1) + (W - 1) = 1 + (k + 1) * (W - 1) by omega]
      have htake : headerPages.take (k + 1) ++ [headerPages[k + 1]] = headerPages.take (k + 1 + 1) :=
        List.take_concat_get' _ _ _
      rw [htake]
      exact ih hs' hnext (by omega)

/-- `load` finds exactly the page lists of the blob. -/
theorem does_load (hW : 2 < W) (hs : Views s live h) (hb : Stored h b) {dp : Nat}
    (hdp : b.dataPages.head? = some dp) :
    Does (load dp) (fun s' b' => b' = b ∧ Views s' live h) s := by
  have hcounts := hb.counts_of
  have hsmall := dataCount_le_div hW hcounts.2.1
  obtain ⟨data, hdata, hsize⟩ := hb.size dp hdp
  rw [load]
  refine PageProgram.ensures_bind.mpr (PageProgram.ensures_assert.mpr
    ⟨by rw [nextPageEntryIdx_eq, sizeEntryIdx]; omega, ?_⟩)
  refine PageProgram.ensures_bind.mpr (hs.rpage hdata fun s₁ hs₁ => ?_)
  dsimp only
  rw [hsize, dataPageCount_eq hW hb.fits, headerPageCount_eq hW (dataCount_pos W _)
    (dataCount_mul_lt hb.fits), ← hb.data, ← hb.header]
  have htotal : u64 (b.dataPages.length + b.headerPages.length) = _ := hcounts.total_eq hW
  have hpos : 0 < b.dataPages.length := hcounts.1
  refine PageProgram.ensures_bind.mpr (PageProgram.ensures_assert.mpr ⟨?_, ?_⟩)
  · rw [htotal]
    exact Nat.add_pos_left hpos _
  obtain ⟨rest, hlist⟩ : ∃ rest, b.dataPages = dp :: rest := by
    obtain ⟨x, rest, hlist⟩ := hb.exists_first
    rw [hlist] at hdp
    exact ⟨rest, by rw [hlist, Option.some.inj hdp]⟩
  split
  · rename_i hzero
    have hone := (headerCount_eq_zero hW hpos).mp (hb.header.symm.trans hzero)
    rw [hlist, List.length_cons] at hone
    have hrest : rest = [] := List.length_eq_zero_iff.mp (by omega)
    rw [hrest] at hlist
    exact ⟨by rw [← hlist, ← List.length_eq_zero_iff.mp hzero], hs₁⟩
  · rename_i hne
    have hlo := lt_of_headerCount hW (d := b.dataPages.length) (by rw [← hb.header]; omega)
    have hhi := headerCount_le hW (d := b.dataPages.length)
    rw [← hb.header] at hlo hhi
    obtain ⟨first, headerRest, hheaders⟩ := List.exists_cons_of_length_pos (Nat.pos_of_ne_zero hne)
    obtain ⟨data', hdata', hfirst⟩ := hb.chain.first dp first hdp (by rw [hheaders]; rfl)
    obtain rfl := Option.some.inj (hdata.symm.trans hdata')
    have hloop := does_loadHeaders hW hs₁ hb.chain hlo hhi
      (by have : b.counts.data = b.dataPages.length := rfl; omega)
      (show b.headerPages[0]? = some first by rw [hheaders]; rfl)
      (show 0 + 1 + (b.headerPages.length - 1) = b.headerPages.length by omega)
    have htake : b.headerPages.take (0 + 1) = [first] := by rw [hheaders]; rfl
    have htake' : b.dataPages.take (1 + 0 * (W - 1)) = [dp] := by
      rw [Nat.zero_mul, hlist]
      rfl
    rw [htake, htake'] at hloop
    rw [nextPageEntryIdx_eq, hfirst]
    refine hloop.bind ?_
    rintro s' - ⟨rfl, hs'⟩
    refine PageProgram.ensures_bind.mpr (PageProgram.ensures_assert.mpr ⟨rfl, ?_⟩)
    exact PageProgram.ensures_bind.mpr (PageProgram.ensures_assert.mpr ⟨rfl, rfl, hs'⟩)

/-! ### Blocks -/

/-- Where the byte at `offset` is, counted over the data pages. -/
def address (W offset : Nat) : Nat := if 8 * W ≤ offset + 16 then offset + 16 else offset + 8

/-- The length of the block that starts at `offset`. -/
def blockLength (W offset : Nat) : Nat :=
  if address W offset / (8 * W) = 0 then 8 * W - address W offset % (8 * W) - 8
  else 8 * W - address W offset % (8 * W)

theorem address_inj {i j : Nat} (h : address W i = address W j) : i = j := by
  simp only [address] at h
  split at h <;> split at h <;> omega

theorem address_first (hW : 2 < W) {offset : Nat} (hzero : address W offset / (8 * W) = 0) :
    address W offset = offset + 8 ∧ offset + 16 < 8 * W ∧
      address W offset % (8 * W) = address W offset := by
  have hlt : address W offset < 8 * W := by
    rcases Nat.div_eq_zero_iff.mp hzero with hW0 | hlt
    · omega
    · exact hlt
  refine ⟨?_, ?_, Nat.mod_eq_of_lt hlt⟩ <;> by_cases hcross : 8 * W ≤ offset + 16
  · rw [address, if_pos hcross] at hlt
    omega
  · exact if_neg hcross
  · rw [address, if_pos hcross] at hlt
    omega
  · omega

theorem does_blockAt (hW : 2 < W) {offset : Nat} (hoff : offset + 16 < 2 ^ 64)
    {Q : Sys W → Nat × Nat × Nat → Prop}
    (hQ : Q s (address W offset / (8 * W), address W offset % (8 * W), blockLength W offset)) :
    Does (blockAt W offset) Q s := by
  have haddress : (if pageSize W ≤ u64 (u64 (offset + 8) + 8) then u64 (u64 (offset + 8) + 8)
      else u64 (offset + 8)) = address W offset := by
    have h₁ : u64 (offset + 8) = offset + 8 := u64_of_lt (by omega)
    have h₂ : u64 (offset + 8 + 8) = offset + 16 := u64_of_lt (by omega)
    rw [h₁, h₂, pageSize, address]
  rw [blockAt]
  dsimp only
  rw [haddress, pageSize]
  refine PageProgram.ensures_bind.mpr (PageProgram.ensures_assert.mpr ⟨Nat.mod_lt _ (by omega), ?_⟩)
  rw [blockLength] at hQ
  split
  · rename_i hzero
    rw [if_pos hzero] at hQ
    have := address_first hW hzero
    exact PageProgram.ensures_bind.mpr (PageProgram.ensures_assert.mpr ⟨by omega, hQ⟩)
  · rename_i hne
    rwa [if_neg hne] at hQ

/-- The bytes of a block are next to each other in one page. -/
theorem address_add (hW : 2 < W) {offset t : Nat} (ht : t < blockLength W offset) :
    address W (offset + t) / (8 * W) = address W offset / (8 * W) ∧
      address W (offset + t) % (8 * W) = address W offset % (8 * W) + t := by
  have hmod := Nat.mod_lt (address W offset) (show 8 * W > 0 by omega)
  have hdiv := Nat.div_add_mod (address W offset) (8 * W)
  have hsame : address W (offset + t) = address W offset + t ∧
      address W offset % (8 * W) + t < 8 * W := by
    rw [blockLength] at ht
    split at ht
    · rename_i hzero
      have := address_first hW hzero
      refine ⟨?_, by omega⟩
      rw [address, if_neg (by omega)]
      omega
    · rename_i hne
      have hge : 8 * W ≤ address W offset := by
        by_contra hlt
        exact hne (Nat.div_eq_of_lt (by omega))
      refine ⟨?_, by omega⟩
      by_cases hcross : 8 * W ≤ offset + 16
      · rw [address, if_pos (by omega), address, if_pos hcross]
        omega
      · rw [address, if_neg hcross] at hge
        omega
  obtain ⟨hadd, hlt⟩ := hsame
  have hsum : address W offset + t =
      address W offset % (8 * W) + t + 8 * W * (address W offset / (8 * W)) := by omega
  rw [hadd, hsum, Nat.add_mul_div_left _ _ (by omega), Nat.div_eq_of_lt hlt, Nat.zero_add,
    Nat.add_mul_mod_self_left, Nat.mod_eq_of_lt hlt]
  exact ⟨rfl, rfl⟩

theorem blockLength_pos (hW : 2 < W) (offset : Nat) : 0 < blockLength W offset := by
  have hmod := Nat.mod_lt (address W offset) (show 8 * W > 0 by omega)
  rw [blockLength]
  split
  · rename_i hzero
    have := address_first hW hzero
    omega
  · omega

theorem blockLength_le (W offset : Nat) : blockLength W offset ≤ 8 * W := by
  rw [blockLength]
  split <;> omega

/-- The block in the first page lies between the size and the first header page. -/
theorem block_first (hW : 2 < W) {offset : Nat} (hzero : address W offset / (8 * W) = 0) :
    8 ≤ address W offset % (8 * W) ∧
      address W offset % (8 * W) + blockLength W offset = 8 * (W - 1) := by
  have := address_first hW hzero
  rw [blockLength, if_pos hzero]
  omega

theorem address_lt {offset n : Nat} (h : offset < n) :
    address W offset / (8 * W) < dataCount W n := by
  have hle : address W offset ≤ n + 15 := by
    rw [address]
    split <;> omega
  exact Nat.lt_succ_of_le (Nat.div_le_div_right hle)

/-! ### Bytes -/

def byteAt (h : Heap W) (b : BlobDynamicPaged) (offset : Nat) : Option UInt8 :=
  (b.dataPages[address W offset / (8 * W)]?.bind h).map (·.byte (address W offset % (8 * W)))

theorem byteAt_eq {offset page : Nat} {data : Page W}
    (hpage : b.dataPages[address W offset / (8 * W)]? = some page) (hdata : h page = some data) :
    byteAt h b offset = some (data.byte (address W offset % (8 * W))) := by
  rw [byteAt, hpage, Option.bind_some, hdata, Option.map_some]

theorem Stored.exists_page (hb : Stored h b) {offset : Nat} (hoff : offset < b.sizeBytes) :
    ∃ page data, b.dataPages[address W offset / (8 * W)]? = some page ∧ h page = some data := by
  have hlt := address_lt (W := W) hoff
  rw [← hb.data] at hlt
  have hpage := List.getElem?_eq_getElem hlt
  obtain ⟨-, data, hdata⟩ := hb.chain.stored _ (List.mem_append_left _ (List.mem_of_getElem? hpage))
  exact ⟨_, data, hpage, hdata⟩

/-- Bytes written to a data page, away from the two words that belong to the blob itself. -/
theorem Stored.setBytes (hb : Stored h b) {k page offset : Nat} {data : Page W}
    {bytes : Bytes} (hpage : b.dataPages[k]? = some page) (hdata : h page = some data)
    (hfirst : k = 0 → 8 ≤ offset ∧ offset + bytes.length ≤ 8 * (W - 1)) :
    Stored (Function.update h page (some (data.setBytes offset bytes))) b := by
  have hmem := List.mem_of_getElem? hpage
  have hentry : ∀ dp e value, b.dataPages.head? = some dp → e = 0 ∨ e = W - 1 → h.Entry dp e value →
      Heap.Entry (Function.update h page (some (data.setBytes offset bytes))) dp e value := by
    intro dp e value hdp he hentry
    by_cases heq : dp = page
    · subst heq
      rw [List.head?_eq_getElem?] at hdp
      obtain ⟨hlo, hhi⟩ := hfirst (hb.chain.data_inj hpage hdp)
      obtain ⟨data', hdata', hvalue⟩ := hentry
      obtain rfl := Option.some.inj (hdata.symm.trans hdata')
      refine ⟨_, Function.update_self _ _ _, ?_⟩
      rw [Page.word_setBytes _ (by omega), hvalue]
    · exact hentry.congr (Function.update_of_ne heq _ _)
  have hheader : ∀ hp ∈ b.headerPages,
      Function.update h page (some (data.setBytes offset bytes)) hp = h hp := fun hp hhp =>
    Function.update_of_ne (hb.chain.data_ne_header hmem hhp).symm _ _
  refine ⟨hb.fits, hb.data, hb.header, ⟨hb.chain.nodup, fun i hi => ⟨(hb.chain.stored i hi).1, ?_⟩,
    fun dp hp hdp hhp => hentry dp _ _ hdp (.inr rfl) (hb.chain.first dp hp hdp hhp),
    fun i hp dp hhp hdp => (hb.chain.entry i hp dp hhp hdp).congr
      (hheader hp (List.mem_of_getElem? hhp)),
    fun k hp hp' hhp hhp' => (hb.chain.next k hp hp' hhp hhp').congr
      (hheader hp (List.mem_of_getElem? hhp))⟩,
    fun dp hdp => hentry dp _ _ hdp (.inl rfl) (hb.size dp hdp)⟩
  by_cases heq : i = page
  · subst heq
    exact ⟨_, Function.update_self _ _ _⟩
  · rw [Function.update_of_ne heq]
    exact (hb.chain.stored i hi).2

/-- The byte at `i` after part of the block at `offset` is written. -/
theorem byteAt_setBytes (hW : 2 < W) (hb : Stored h b) {offset page : Nat} {data : Page W}
    {bytes : Bytes} (hpage : b.dataPages[address W offset / (8 * W)]? = some page)
    (hdata : h page = some data) (hlen : bytes.length ≤ blockLength W offset) {i : Nat}
    (hi : i < b.sizeBytes) :
    byteAt (Function.update h page (some (data.setBytes (address W offset % (8 * W)) bytes))) b i =
      if offset ≤ i ∧ i < offset + bytes.length then some (bytes.getD (i - offset) 0)
      else byteAt h b i := by
  obtain ⟨page', data', hpage', hdata'⟩ := hb.exists_page hi
  have hmod := Nat.mod_lt (address W i) (show 8 * W > 0 by omega)
  split
  · rename_i hrange
    obtain ⟨t, rfl⟩ := Nat.exists_eq_add_of_le hrange.1
    obtain ⟨hdiv, hmod'⟩ := address_add hW (show t < blockLength W offset by omega)
    rw [byteAt_eq (by rw [hdiv]; exact hpage) (Function.update_self _ _ _),
      Page.byte_setBytes _ _ _ hmod, if_pos (by omega), hmod', Nat.add_sub_cancel_left,
      Nat.add_sub_cancel_left]
  · rename_i hrange
    rw [byteAt_eq hpage' hdata']
    by_cases heq : page' = page
    · subst heq
      obtain rfl := Option.some.inj (hdata.symm.trans hdata')
      rw [byteAt_eq hpage' (Function.update_self _ _ _), Page.byte_setBytes _ _ _ hmod, if_neg]
      rintro ⟨hle, hlt⟩
      -- the byte is in the written part of the page, hence in the range
      have hsame := hb.chain.data_inj hpage' hpage
      obtain ⟨t, ht⟩ := Nat.exists_eq_add_of_le hle
      obtain ⟨hdiv, hmod'⟩ := address_add hW (show t < blockLength W offset by omega)
      have haddr : address W i = address W (offset + t) := by
        rw [← Nat.div_add_mod (address W i) (8 * W), ← Nat.div_add_mod (address W (offset + t)) (8 * W),
          hsame, ht, hdiv, hmod']
      have := address_inj haddr
      omega
    · rw [byteAt_eq hpage' ((Function.update_of_ne heq _ _).trans hdata')]

/-- `h'` is `h` with `value` written at `offset` of the blob. -/
structure Written (h : Heap W) (b : BlobDynamicPaged) (offset : Nat) (value : Bytes) (h' : Heap W) :
    Prop where
  stored : Stored h' b
  bytes : ∀ i < b.sizeBytes, byteAt h' b i =
    if offset ≤ i ∧ i < offset + value.length then some (value.getD (i - offset) 0) else byteAt h b i
  frame : ∀ i, i ∉ b.pages → h' i = h i

theorem Written.nil (hb : Stored h b) (offset : Nat) : Written h b offset [] h where
  stored := hb
  bytes i _ := by rw [if_neg (by simp)]
  frame _ _ := rfl

theorem Written.append {offset : Nat} {front back : Bytes} {h₁ h₂ : Heap W}
    (hfront : Written h b offset front h₁) (hback : Written h₁ b (offset + front.length) back h₂) :
    Written h b offset (front ++ back) h₂ where
  stored := hback.stored
  bytes i hi := by
    rw [hback.bytes i hi, hfront.bytes i hi, List.length_append]
    by_cases hin : offset + front.length ≤ i ∧ i < offset + front.length + back.length
    · rw [if_pos hin, if_pos (by omega), List.getD_append_right _ _ _ _ (by omega)]
      congr 2
      omega
    · rw [if_neg hin]
      by_cases hfirst : offset ≤ i ∧ i < offset + front.length
      · rw [if_pos hfirst, if_pos (by omega), List.getD_append _ _ _ _ (by omega)]
      · rw [if_neg hfirst, if_neg (by omega)]
  frame i hi := (hback.frame i hi).trans (hfront.frame i hi)

/-- Bytes within one block. -/
theorem Written.block (hW : 2 < W) (hb : Stored h b) {offset page : Nat} {data : Page W}
    {value : Bytes} (hpage : b.dataPages[address W offset / (8 * W)]? = some page)
    (hdata : h page = some data) (hlen : value.length ≤ blockLength W offset) :
    Written h b offset value
      (Function.update h page (some (data.setBytes (address W offset % (8 * W)) value))) where
  stored := hb.setBytes hpage hdata fun hzero => by
    have := block_first hW hzero
    omega
  bytes _ hi := byteAt_setBytes hW hb hpage hdata hlen hi
  frame i hi := by
    refine Function.update_of_ne (fun heq => hi ?_) _ _
    rw [heq]
    exact List.mem_append_left _ (List.mem_of_getElem? hpage)

theorem does_updateLoop (hW : 2 < W) {n offset : Nat} {value : Bytes} (hs : Views s live h)
    (hb : Stored h b) (hn : value.length ≤ n) (hle : offset + value.length ≤ b.sizeBytes) :
    Does (updateLoop b n offset value)
      (fun s' _ => ∃ h', Views s' live h' ∧ Written h b offset value h') s := by
  induction n generalizing s h offset value with
  | zero =>
      obtain rfl := List.length_eq_zero_iff.mp (Nat.le_zero.mp hn)
      exact ⟨h, hs, .nil hb offset⟩
  | succ n ih =>
      cases value with
      | nil => exact ⟨h, hs, .nil hb offset⟩
      | cons first rest =>
          have hfits := hb.fits
          rw [Fits] at hfits
          rw [List.length_cons] at hn hle
          obtain ⟨page, data, hpage, hdata⟩ := hb.exists_page (show offset < b.sizeBytes by omega)
          have hblock := blockLength_pos hW offset
          have hblock_le := blockLength_le W offset
          rw [updateLoop]
          refine PageProgram.ensures_bind.mpr (does_blockAt hW (by omega) ?_)
          refine PageProgram.ensures_bind.mpr (PageProgram.ensures_ofOption hpage ?_)
          refine PageProgram.ensures_bind.mpr (hs.rwpage hdata _ fun s₁ hs₁ => ?_)
          have hfront := Written.block hW hb hpage hdata
            (List.length_take_le (blockLength W offset) (first :: rest))
          have hsplit := List.take_append_drop (blockLength W offset) (first :: rest)
          rw [u64_of_lt (by omega)]
          by_cases hlast : rest.length + 1 ≤ blockLength W offset
          · have hdrop : (first :: rest).drop (blockLength W offset) = [] :=
              List.drop_eq_nil_of_le hlast
            rw [hdrop, List.append_nil] at hsplit
            rw [hsplit] at hfront hs₁
            rw [hdrop]
            cases n <;> exact ⟨_, hs₁, hfront⟩
          · have hlen : ((first :: rest).take (blockLength W offset)).length = blockLength W offset :=
              List.length_take_of_le (by rw [List.length_cons]; omega)
            have hdrop : ((first :: rest).drop (blockLength W offset)).length =
                rest.length + 1 - blockLength W offset := List.length_drop
            refine (ih hs₁ hfront.stored (by omega) (show offset + blockLength W offset +
              ((first :: rest).drop (blockLength W offset)).length ≤ b.sizeBytes by omega)).mono ?_
            rintro s' - ⟨h', hs', hback⟩
            have hall := @Written.append W h b offset _ _ _ h' hfront (by rw [hlen]; exact hback)
            rw [hsplit] at hall
            exact ⟨h', hs', hall⟩

theorem does_update (hW : 2 < W) {offset : Nat} {value : Bytes} (hs : Views s live h)
    (hb : Stored h b) (hle : offset + value.length ≤ b.sizeBytes) :
    Does (update b value offset)
      (fun s' _ => ∃ h', Views s' live h' ∧ Written h b offset value h') s := by
  have hfits := hb.fits
  rw [Fits] at hfits
  refine PageProgram.ensures_bind.mpr (PageProgram.ensures_assert.mpr
    ⟨by rw [u64_of_lt (by omega)]; exact hle, ?_⟩)
  exact does_updateLoop hW hs hb le_rfl hle

theorem does_getLoop (hW : 2 < W) {n offset size : Nat} (hs : Views s live h) (hb : Stored h b)
    (hn : size ≤ n) (hle : offset + size ≤ b.sizeBytes) :
    Does (getLoop b n offset size) (fun s' out => Views s' live h ∧ out.length = size ∧
      ∀ i < size, byteAt h b (offset + i) = out[i]?) s := by
  induction n generalizing s offset size with
  | zero =>
      obtain rfl := Nat.le_zero.mp hn
      exact ⟨hs, rfl, fun i hi => absurd hi (Nat.not_lt_zero i)⟩
  | succ n ih =>
      cases size with
      | zero => exact ⟨hs, rfl, fun i hi => absurd hi (Nat.not_lt_zero i)⟩
      | succ size =>
          have hfits := hb.fits
          rw [Fits] at hfits
          obtain ⟨page, data, hpage, hdata⟩ := hb.exists_page (show offset < b.sizeBytes by omega)
          have hblock := blockLength_pos hW offset
          have hblock_le := blockLength_le W offset
          have hchunk : ∀ i < min (blockLength W offset) (size + 1), byteAt h b (offset + i) =
              (data.getBytes (address W offset % (8 * W)) (min (blockLength W offset) (size + 1)))[i]? := by
            intro i hi
            obtain ⟨hdiv, hmod⟩ := address_add hW (show i < blockLength W offset by omega)
            rw [byteAt_eq (by rw [hdiv]; exact hpage) hdata, hmod, Page.getBytes, List.getElem?_map,
              List.getElem?_range hi]
            rfl
          have hlen : (data.getBytes (address W offset % (8 * W))
              (min (blockLength W offset) (size + 1))).length =
              min (blockLength W offset) (size + 1) := by
            rw [Page.getBytes, List.length_map, List.length_range]
          rw [getLoop]
          refine PageProgram.ensures_bind.mpr (does_blockAt hW (by omega) ?_)
          refine PageProgram.ensures_bind.mpr (PageProgram.ensures_ofOption hpage ?_)
          refine PageProgram.ensures_bind.mpr (hs.rpage hdata fun s₁ hs₁ => ?_)
          rw [u64_of_lt (by omega)]
          by_cases hlast : size + 1 ≤ blockLength W offset
          · have hzero : size + 1 - blockLength W offset = 0 := by omega
            rw [min_eq_right hlast] at hchunk hlen ⊢
            rw [hzero]
            have hdone : Does (pure (data.getBytes (address W offset % (8 * W)) (size + 1) ++ []))
                (fun s' out => Views s' live h ∧ out.length = size + 1 ∧
                  ∀ i < size + 1, byteAt h b (offset + i) = out[i]?) s₁ := by
              rw [List.append_nil]
              exact ⟨hs₁, hlen, hchunk⟩
            cases n <;> exact hdone
          · refine (ih hs₁ (by omega) (show offset + blockLength W offset +
              (size + 1 - blockLength W offset) ≤ b.sizeBytes by omega)).bind ?_
            rintro s' out ⟨hs', hout, hbytes⟩
            rw [min_eq_left (by omega)] at hchunk hlen ⊢
            refine ⟨hs', by rw [List.length_append, hlen, hout]; omega, fun i hi => ?_⟩
            by_cases hfirst : i < blockLength W offset
            · rw [hchunk i hfirst, List.getElem?_append_left (by omega)]
            · have := hbytes (i - blockLength W offset) (by omega)
              rw [List.getElem?_append_right (by omega), hlen, ← this]
              congr 1
              omega

theorem does_get (hW : 2 < W) {offset size : Nat} (hs : Views s live h) (hb : Stored h b)
    (hle : offset + size ≤ b.sizeBytes) :
    Does (get b size offset) (fun s' out => Views s' live h ∧ out.length = size ∧
      ∀ i < size, byteAt h b (offset + i) = out[i]?) s := by
  have hfits := hb.fits
  rw [Fits] at hfits
  refine PageProgram.ensures_bind.mpr (PageProgram.ensures_assert.mpr
    ⟨by rw [u64_of_lt (by omega)]; exact hle, ?_⟩)
  exact does_getLoop hW hs hb le_rfl hle

/-- A resize keeps the bytes below both sizes. -/
theorem Resized.byteAt_kept (hW : 2 < W) (hb : Stored h b) {n : Nat} {s' : Sys W} {live' : Finset Nat}
    {h' : Heap W} {b' : BlobDynamicPaged} (hr : Resized live h b n s' live' h' b') {i : Nat}
    (hi : i < b.sizeBytes) (hn : i < n) : byteAt h' b' i = byteAt h b i := by
  rw [← hr.size] at hn
  obtain ⟨page, data, hpage, hdata⟩ := hb.exists_page (W := W) hi
  obtain ⟨page', data', hpage', -⟩ := hr.stored.exists_page (W := W) hn
  have hsame : page' = page := by
    rcases hr.lists with ⟨hdata, -⟩ | ⟨hdata, -⟩
    · obtain ⟨rest, heq⟩ := hdata
      rw [← heq, List.getElem?_append_left (List.getElem?_eq_some_iff.mp hpage).1, hpage] at hpage'
      exact (Option.some.inj hpage').symm
    · obtain ⟨rest, heq⟩ := hdata
      rw [← heq, List.getElem?_append_left (List.getElem?_eq_some_iff.mp hpage').1, hpage'] at hpage
      exact Option.some.inj hpage
  subst hsame
  obtain ⟨data'', hdata'', hbytes⟩ := hr.bytes _ page' hpage hpage' data hdata
  rw [byteAt_eq hpage' hdata'', byteAt_eq hpage hdata,
    hbytes _ (Nat.mod_lt _ (by omega)) ?_]
  rcases Nat.eq_zero_or_pos (address W i / (8 * W)) with hzero | hpos
  · have := address_first hW hzero
    exact .inr (by omega)
  · exact .inl hpos

/-! ### Creating and removing -/

theorem does_deletePages {pages : List Nat} (hs : Views s live h) (hnodup : pages.Nodup)
    (hmem : ∀ p ∈ pages, p ∈ live) :
    Does (deletePages pages)
      (fun s' _ => Views s' (live \ pages.toFinset) (h.without pages)) s := by
  induction pages generalizing s live h with
  | nil => simpa [deletePages] using hs
  | cons page pages ih =>
      obtain ⟨hpage, hnodup⟩ := List.nodup_cons.mp hnodup
      refine PageProgram.ensures_bind.mpr (hs.deletePage (hmem page List.mem_cons_self)
        fun s₁ hs₁ => (ih hs₁ hnodup fun p hp => ?_).mono fun s' _ hs' => ?_)
      · exact Finset.mem_erase.mpr
          ⟨ne_of_mem_of_not_mem hp hpage, hmem p (List.mem_cons_of_mem _ hp)⟩
      · rwa [Heap.without_update, erase_sdiff_toFinset] at hs'

theorem does_removeImpl (hs : Views s live h) (hb : Stored h b) :
    Does (removeImpl b)
      (fun s' _ => Views s' (live \ b.pages.toFinset) (h.without b.pages)) s := by
  obtain ⟨hdata, hheader, -⟩ := List.nodup_append.mp hb.chain.nodup
  refine (does_deletePages hs hdata fun p hp =>
    hs.mem_live hb.chain (List.mem_append_left _ hp)).bind fun s₁ _ hs₁ => ?_
  refine (does_deletePages hs₁ hheader fun p hp => Finset.mem_sdiff.mpr
    ⟨hs.mem_live hb.chain (List.mem_append_right _ hp), fun hmem => ?_⟩).mono fun s' _ hs' => ?_
  · exact hb.chain.data_ne_header (List.mem_toFinset.mp hmem) hp rfl
  · have hiff : ∀ i, i ∈ b.pages ↔ i ∈ b.dataPages ∨ i ∈ b.headerPages := fun i => List.mem_append
    rwa [sdiff_sdiff_toFinset hiff, Heap.without_without hiff] at hs'

/-- A blob that was just created: its pages are new and nothing else changed. -/
structure Created (live : Finset Nat) (h : Heap W) (n : Nat) (s' : Sys W) (live' : Finset Nat)
    (h' : Heap W) (b' : BlobDynamicPaged) : Prop where
  views : Views s' live' h'
  stored : Stored h' b'
  size : b'.sizeBytes = n
  live_eq : live' = live ∪ b'.pages.toFinset
  fresh : ∀ i ∈ b'.pages, i ∉ live
  frame : ∀ i ∈ live, h' i = h i

theorem does_createPagedDynamic (hW : 2 < W) (hs : Views s live h) {n : Nat} (hn : Fits W n) :
    Does (createPagedDynamic n) (fun s' page => ∃ live' h' b', b'.dataPages.head? = some page ∧
      Created live h n s' live' h' b') s := by
  have hfits : Fits W 0 := by
    rw [Fits] at hn ⊢
    omega
  rw [createPagedDynamic]
  refine PageProgram.ensures_bind.mpr (PageProgram.ensures_assert.mpr
    ⟨by rw [pageSize]; omega, ?_⟩)
  refine PageProgram.ensures_bind.mpr (hs.newPage (by omega) fun s₁ page hfresh hsmall _ hs₁ => ?_)
  refine PageProgram.ensures_bind.mpr
    (hs₁.writeEntry ⟨Page.zero, Heap.alloc_self⟩ sizeEntryIdx 0 fun s₂ hs₂ => ?_)
  generalize hheap : Heap.setEntry (Function.update h page (some Page.zero)) page sizeEntryIdx 0 = h₂
    at hs₂
  have hzero : Stored h₂ ⟨0, [], [page]⟩ := by
    have hcount : dataCount W 0 = 1 := by
      rw [dataCount, Nat.div_eq_of_lt (by omega)]
    refine ⟨hfits, hcount.symm, (headerCount_one hW).symm, ⟨List.nodup_singleton page,
      fun i hi => ?_, fun dp hp _ hhp => (by cases hhp), fun i _ _ hhp _ => ?_,
      fun k _ _ hhp _ => ?_⟩, fun dp hdp => ?_⟩
    · obtain rfl := List.mem_singleton.mp hi
      refine ⟨hsmall, ?_⟩
      rw [← hheap]
      exact Heap.exists_setEntry ⟨Page.zero, Heap.alloc_self⟩
    · rw [List.getElem?_nil] at hhp
      cases hhp
    · rw [List.getElem?_nil] at hhp
      cases hhp
    · obtain rfl := Option.some.inj hdp
      rw [← hheap]
      exact Heap.entry_setEntry ⟨Page.zero, Heap.alloc_self⟩ (by rw [sizeEntryIdx]; omega)
        (by norm_num)
  have hframe : ∀ i ∈ live, h₂ i = h i := fun i hi => by
    have hne := ne_of_mem_of_not_mem hi hfresh
    rw [← hheap, Heap.setEntry_of_ne hne, Function.update_of_ne hne]
  split
  · refine PageProgram.ensures_bind.mpr ((does_load hW hs₂ hzero rfl).mono ?_)
    rintro s₃ - ⟨rfl, hs₃⟩
    refine (does_resizeImpl hW hs₃ hzero hn).bind ?_
    rintro s' b' ⟨live', h', hr⟩
    have hpages : BlobDynamicPaged.pages ⟨0, [], [page]⟩ = [page] := rfl
    obtain ⟨dp, rest, hlist⟩ := hr.stored.exists_first
    have hdp : dp = page := by
      rcases hr.lists with ⟨⟨tail, heq⟩, -⟩ | ⟨⟨tail, heq⟩, -⟩
      · rw [hlist] at heq
        exact (List.cons.inj heq).1.symm
      · rw [hlist] at heq
        exact (List.cons.inj heq).1
    subst hdp
    have hmem : dp ∈ b'.pages := List.mem_append_left _ (by rw [hlist]; exact List.mem_cons_self)
    refine ⟨live', h', b', by rw [hlist]; rfl, hr.views, hr.stored, hr.size, ?_, fun i hi => ?_,
      fun i hi => ?_⟩
    · rw [hr.live_eq, hpages]
      ext i
      have : i = dp → i ∈ b'.pages := fun heq => heq ▸ hmem
      simp only [Finset.mem_union, Finset.mem_sdiff, Finset.mem_insert, List.mem_toFinset,
        List.mem_singleton]
      tauto
    · by_cases heq : i = dp
      · exact heq ▸ hfresh
      · refine fun hlive => hr.fresh i hi ?_ (Finset.mem_insert_of_mem hlive)
        rw [hpages, List.mem_singleton]
        exact heq
    · have hne := ne_of_mem_of_not_mem hi hfresh
      rw [hr.frame i (Finset.mem_insert_of_mem hi) (by rw [hpages, List.mem_singleton]; exact hne),
        hframe i hi]
  · rename_i hzero_size
    obtain rfl : n = 0 := by tauto
    refine ⟨_, _, ⟨0, [], [page]⟩, rfl, hs₂, hzero, rfl, ?_, fun i hi => ?_, hframe⟩
    · ext i
      simp [BlobDynamicPaged.pages]
    · obtain rfl := List.mem_singleton.mp hi
      exact hfresh

end Plexdb.Blob
