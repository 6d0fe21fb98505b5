import Plexdb.StaticBlobStored

/-! Reading, writing and removing a static blob that is stored in a heap, and what creating one leaves. Bytes are
addressed over the whole run of pages, the header first. -/

namespace Plexdb.Blob.Static

open Pager (Sys)

variable {W : Nat} {s : Sys W} {live : Finset Nat} {h : Heap W} {b : BlobStaticPaged}

/-! ### Addresses -/

/-- The byte at an address of the pages. -/
def byteAt (h : Heap W) (b : BlobStaticPaged) (a : Nat) : Option UInt8 :=
  (b.pages[a / pageSize W]?.bind h).map (·.byte (a % pageSize W))

theorem byteAt_eq {a page : Nat} {data : Page W} (hpage : b.pages[a / pageSize W]? = some page)
    (hdata : h page = some data) : byteAt h b a = some (data.byte (a % pageSize W)) := by
  rw [byteAt, hpage, Option.bind_some, hdata, Option.map_some]

theorem blockAt_eq {offset : Nat} (hfits : offset + b.headerBytes < 2 ^ 64) :
    blockAt W b offset = ((offset + b.headerBytes) / pageSize W, (offset + b.headerBytes) % pageSize W,
      pageSize W - (offset + b.headerBytes) % pageSize W) := by
  rw [blockAt, u64_of_lt hfits]

theorem pageSize_pos (hW : 0 < W) : 0 < pageSize W := by
  rw [pageSize]
  omega

theorem Stored.exists_page (hW : 0 < W) (hb : Stored h b) {a : Nat} (ha : a < b.sizeBytes + b.headerBytes) :
    ∃ page data, b.pages[a / pageSize W]? = some page ∧ h page = some data := by
  have hlt : a / pageSize W < b.pages.length :=
    (Nat.div_lt_iff_lt_mul (pageSize_pos hW)).mpr (ha.trans_le hb.fits)
  have hpage := List.getElem?_eq_getElem hlt
  obtain ⟨data, hdata⟩ := hb.mapped _ (List.mem_of_getElem? hpage)
  exact ⟨_, data, hpage, hdata⟩

/-- The bytes of a block are next to each other in one page. -/
theorem address_add {p a t : Nat} (ht : t < p - a % p) : (a + t) / p = a / p ∧ (a + t) % p = a % p + t := by
  have hdiv := Nat.div_add_mod a p
  have hsum : a + t = a % p + t + p * (a / p) := by omega
  rw [hsum, Nat.add_mul_div_left _ _ (by omega), Nat.div_eq_of_lt (by omega), Nat.zero_add,
    Nat.add_mul_mod_self_left, Nat.mod_eq_of_lt (by omega)]
  exact ⟨rfl, rfl⟩

/-! ### Writing -/

/-- `h'` is `h` with `value` written at the address `a` of the blob. -/
structure Written (h : Heap W) (b : BlobStaticPaged) (a : Nat) (value : Bytes) (h' : Heap W) : Prop where
  stored : Stored h' b
  bytes : ∀ i < b.sizeBytes + b.headerBytes, byteAt h' b i =
    if a ≤ i ∧ i < a + value.length then some (value.getD (i - a) 0) else byteAt h b i

theorem Written.nil (hb : Stored h b) (a : Nat) : Written h b a [] h where
  stored := hb
  bytes i _ := by rw [if_neg (by simp)]

theorem Written.append {a : Nat} {front back : Bytes} {h₁ h₂ : Heap W} (hfront : Written h b a front h₁)
    (hback : Written h₁ b (a + front.length) back h₂) : Written h b a (front ++ back) h₂ where
  stored := hback.stored
  bytes i hi := by
    rw [hback.bytes i hi, hfront.bytes i hi, List.length_append]
    by_cases hin : a + front.length ≤ i ∧ i < a + front.length + back.length
    · rw [if_pos hin, if_pos (by omega), List.getD_append_right _ _ _ _ (by omega)]
      congr 2
      omega
    · rw [if_neg hin]
      by_cases hfirst : a ≤ i ∧ i < a + front.length
      · rw [if_pos hfirst, if_pos (by omega), List.getD_append _ _ _ _ (by omega)]
      · rw [if_neg hfirst, if_neg (by omega)]

/-- Bytes behind the header leave the list of pages as it is. -/
theorem Stored.setBytes (hb : Stored h b) {a page : Nat} {data : Page W} {value : Bytes}
    (ha : b.headerBytes ≤ a) (hpage : b.pages[a / pageSize W]? = some page) (hdata : h page = some data) :
    Stored (Function.update h page (some (data.setBytes (a % pageSize W) value))) b := by
  refine ⟨hb.nodup, fun i hi => ?_, hb.header, hb.aligned, hb.length, fun k page' next hpage' hnext => ?_, hb.small,
    hb.fits⟩
  · by_cases heq : i = page
    · subst heq
      exact ⟨_, Function.update_self _ _ _⟩
    · rw [Function.update_of_ne heq]
      exact hb.mapped i hi
  · have hentry := hb.entry k page' next hpage' hnext
    by_cases heq : page' = page
    · subst heq
      obtain ⟨data', hdata', hvalue⟩ := hentry
      obtain rfl := Option.some.inj (hdata.symm.trans hdata')
      refine ⟨_, Function.update_self _ _ _, ?_⟩
      have hlt := (List.getElem?_eq_some_iff.mp hnext).1
      have hdiv : k / W = a / pageSize W :=
        (List.getElem?_inj (List.getElem?_eq_some_iff.mp hpage').1 hb.nodup).mp (hpage'.trans hpage.symm)
      have hk := Nat.div_add_mod k W
      have hmod := Nat.div_add_mod a (pageSize W)
      have hlength := hb.length
      have hmul : pageSize W * (a / pageSize W) = 8 * (W * (k / W)) := by
        rw [hdiv, pageSize]
        ring
      rw [Page.word_setBytes _ (.inl (by omega)), hvalue]
    · exact hentry.congr (Function.update_of_ne heq _ _)

/-- Bytes within one block. -/
theorem Written.block (hW : 0 < W) (hb : Stored h b) {a page : Nat} {data : Page W} {value : Bytes}
    (ha : b.headerBytes ≤ a) (hpage : b.pages[a / pageSize W]? = some page) (hdata : h page = some data)
    (hlen : value.length ≤ pageSize W - a % pageSize W) :
    Written h b a value (Function.update h page (some (data.setBytes (a % pageSize W) value))) where
  stored := hb.setBytes ha hpage hdata
  bytes i hi := by
    obtain ⟨page', data', hpage', hdata'⟩ := hb.exists_page hW hi
    have hmod : i % pageSize W < 8 * W := Nat.mod_lt i (pageSize_pos hW)
    by_cases heq : page' = page
    · subst heq
      obtain rfl := Option.some.inj (hdata.symm.trans hdata')
      have hdiv : i / pageSize W = a / pageSize W :=
        (List.getElem?_inj (List.getElem?_eq_some_iff.mp hpage').1 hb.nodup).mp (hpage'.trans hpage.symm)
      have hia := Nat.div_add_mod i (pageSize W)
      have haa := Nat.div_add_mod a (pageSize W)
      rw [hdiv] at hia
      rw [byteAt_eq hpage' (Function.update_self _ _ _), byteAt_eq hpage' hdata', Page.byte_setBytes _ _ _ hmod]
      by_cases hin : a ≤ i ∧ i < a + value.length
      · rw [if_pos hin, if_pos (by omega), show i % pageSize W - a % pageSize W = i - a by omega]
      · rw [if_neg hin, if_neg (by omega)]
    · rw [byteAt_eq hpage' ((Function.update_of_ne heq _ _).trans hdata'), byteAt_eq hpage' hdata', if_neg]
      rintro ⟨hle, hlt⟩
      obtain ⟨t, rfl⟩ := Nat.exists_eq_add_of_le hle
      rw [(address_add (show t < pageSize W - a % pageSize W by omega)).1] at hpage'
      exact heq (Option.some.inj (hpage'.symm.trans hpage))

theorem does_updateLoop (hW : 0 < W) {n offset : Nat} {value : Bytes} (hs : Views s live h) (hb : Stored h b)
    (hn : value.length ≤ n) (hle : offset + value.length ≤ b.sizeBytes) :
    Does (updateLoop b n offset value)
      (fun s' _ => ∃ h', Views s' live h' ∧ Written h b (offset + b.headerBytes) value h') s := by
  induction n generalizing s h offset value with
  | zero =>
      obtain rfl := List.length_eq_zero_iff.mp (Nat.le_zero.mp hn)
      exact ⟨h, hs, .nil hb _⟩
  | succ n ih =>
      cases value with
      | nil => exact ⟨h, hs, .nil hb _⟩
      | cons first rest =>
          have hsmall := hb.small
          rw [List.length_cons] at hn hle
          obtain ⟨page, data, hpage, hdata⟩ := hb.exists_page hW (a := offset + b.headerBytes) (by omega)
          have hmod := Nat.mod_lt (offset + b.headerBytes) (pageSize_pos hW)
          rw [updateLoop, blockAt_eq (by omega)]
          dsimp only
          refine PageProgram.ensures_bind.mpr (PageProgram.ensures_ofOption hpage ?_)
          refine PageProgram.ensures_bind.mpr (hs.rwpage hdata _ fun s₁ hs₁ => ?_)
          generalize hblock : pageSize W - (offset + b.headerBytes) % pageSize W = length at *
          have htake : ((first :: rest).take length).length ≤ pageSize W - (offset + b.headerBytes) % pageSize W := by
            rw [hblock]
            exact List.length_take_le length (first :: rest)
          have hfront := Written.block hW hb (Nat.le_add_left _ _) hpage hdata htake
          have hsplit := List.take_append_drop length (first :: rest)
          by_cases hlast : rest.length + 1 ≤ length
          · have hdrop : (first :: rest).drop length = [] := List.drop_eq_nil_of_le hlast
            rw [hdrop, List.append_nil] at hsplit
            rw [hsplit] at hfront hs₁
            rw [hdrop]
            cases n <;> exact ⟨_, hs₁, hfront⟩
          · have hlen : ((first :: rest).take length).length = length :=
              List.length_take_of_le (by rw [List.length_cons]; omega)
            have hdrop : ((first :: rest).drop length).length = rest.length + 1 - length := List.length_drop
            rw [u64_of_lt (by omega)]
            refine (ih hs₁ hfront.stored (by omega) (show offset + length +
              ((first :: rest).drop length).length ≤ b.sizeBytes by omega)).mono ?_
            rintro s' - ⟨h', hs', hback⟩
            have haddr : offset + length + b.headerBytes = offset + b.headerBytes + ((first :: rest).take length).length := by
              rw [hlen]
              omega
            have hall := hfront.append (haddr ▸ hback)
            rw [hsplit] at hall
            exact ⟨h', hs', hall⟩

theorem does_update (hW : 0 < W) {offset : Nat} {value : Bytes} (hs : Views s live h) (hb : Stored h b)
    (hle : offset + value.length ≤ b.sizeBytes) :
    Does (update b value offset)
      (fun s' _ => ∃ h', Views s' live h' ∧ Written h b (offset + b.headerBytes) value h') s := by
  have hsmall := hb.small
  refine PageProgram.ensures_bind.mpr (PageProgram.ensures_assert.mpr ⟨by rw [u64_of_lt (by omega)]; exact hle, ?_⟩)
  exact does_updateLoop hW hs hb le_rfl hle

/-! ### Reading -/

theorem does_getLoop (hW : 0 < W) {n offset size : Nat} (hs : Views s live h) (hb : Stored h b) (hn : size ≤ n)
    (hle : offset + size ≤ b.sizeBytes) :
    Does (getLoop b n offset size) (fun s' out => Views s' live h ∧ out.length = size ∧
      ∀ i < size, byteAt h b (offset + b.headerBytes + i) = out[i]?) s := by
  induction n generalizing s offset size with
  | zero =>
      obtain rfl := Nat.le_zero.mp hn
      exact ⟨hs, rfl, fun i hi => absurd hi (Nat.not_lt_zero i)⟩
  | succ n ih =>
      cases size with
      | zero => exact ⟨hs, rfl, fun i hi => absurd hi (Nat.not_lt_zero i)⟩
      | succ size =>
          have hsmall := hb.small
          obtain ⟨page, data, hpage, hdata⟩ := hb.exists_page hW (a := offset + b.headerBytes) (by omega)
          have hmod := Nat.mod_lt (offset + b.headerBytes) (pageSize_pos hW)
          rw [getLoop, blockAt_eq (by omega)]
          dsimp only
          generalize hblock : pageSize W - (offset + b.headerBytes) % pageSize W = length at *
          have hchunk : ∀ i < min length (size + 1), byteAt h b (offset + b.headerBytes + i) =
              (data.getBytes ((offset + b.headerBytes) % pageSize W) (min length (size + 1)))[i]? := by
            intro i hi
            obtain ⟨hdiv, hmod⟩ := address_add (hblock ▸ show i < length by omega)
            rw [byteAt_eq (by rw [hdiv]; exact hpage) hdata, hmod, Page.getBytes, List.getElem?_map,
              List.getElem?_range hi]
            rfl
          have hlen : (data.getBytes ((offset + b.headerBytes) % pageSize W) (min length (size + 1))).length =
              min length (size + 1) := by
            rw [Page.getBytes, List.length_map, List.length_range]
          refine PageProgram.ensures_bind.mpr (PageProgram.ensures_ofOption hpage ?_)
          refine PageProgram.ensures_bind.mpr (hs.rpage hdata fun s₁ hs₁ => ?_)
          by_cases hlast : size + 1 ≤ length
          · have hzero : size + 1 - length = 0 := by omega
            rw [min_eq_right hlast] at hchunk hlen ⊢
            rw [hzero]
            have hdone : Does (pure (data.getBytes ((offset + b.headerBytes) % pageSize W) (size + 1) ++ []))
                (fun s' out => Views s' live h ∧ out.length = size + 1 ∧
                  ∀ i < size + 1, byteAt h b (offset + b.headerBytes + i) = out[i]?) s₁ := by
              rw [List.append_nil]
              exact ⟨hs₁, hlen, hchunk⟩
            cases n <;> exact hdone
          · rw [u64_of_lt (by omega)]
            refine (ih hs₁ (by omega) (show offset + length + (size + 1 - length) ≤ b.sizeBytes by omega)).bind ?_
            rintro s' out ⟨hs', hout, hbytes⟩
            rw [min_eq_left (by omega)] at hchunk hlen ⊢
            refine ⟨hs', by rw [List.length_append, hlen, hout]; omega, fun i hi => ?_⟩
            by_cases hfirst : i < length
            · rw [hchunk i hfirst, List.getElem?_append_left (by omega)]
            · have := hbytes (i - length) (by omega)
              rw [List.getElem?_append_right (by omega), hlen, ← this]
              congr 1
              omega

theorem does_get (hW : 0 < W) {offset size : Nat} (hs : Views s live h) (hb : Stored h b)
    (hle : offset + size ≤ b.sizeBytes) :
    Does (get b size offset) (fun s' out => Views s' live h ∧ out.length = size ∧
      ∀ i < size, byteAt h b (offset + b.headerBytes + i) = out[i]?) s := by
  have hsmall := hb.small
  refine PageProgram.ensures_bind.mpr (PageProgram.ensures_assert.mpr ⟨by rw [u64_of_lt (by omega)]; exact hle, ?_⟩)
  exact does_getLoop hW hs hb le_rfl hle

end Plexdb.Blob.Static
