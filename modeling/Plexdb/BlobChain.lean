import Plexdb.BlobPager

/-! The pages of a dynamic blob in a heap: how the header pages and the data pages are linked, and
which writes keep the links. -/

namespace Plexdb.Blob

variable {W : Nat}

namespace Heap

/-- Entry `e` of a page holds the number `value`. -/
def Entry (h : Heap W) (page e value : Nat) : Prop :=
  ∃ data, h page = some data ∧ (data.word e).toNat = value

def setEntry (h : Heap W) (page e value : Nat) : Heap W :=
  Function.update h page ((h page).map (·.modifyWord e fun _ => BitVec.ofNat 64 value))

def alloc (h : Heap W) (page : Nat) : Heap W := Function.update h page (some Page.zero)

/-- The heap without some pages. -/
def without (h : Heap W) (pages : List Nat) : Heap W := fun i => if i ∈ pages then none else h i

variable {h : Heap W} {page e value : Nat}

theorem setEntry_of_ne {i : Nat} (hne : i ≠ page) : h.setEntry page e value i = h i :=
  Function.update_of_ne hne _ _

theorem setEntry_self {data : Page W} (hdata : h page = some data) :
    h.setEntry page e value page = some (data.modifyWord e fun _ => BitVec.ofNat 64 value) := by
  rw [setEntry, Function.update_self, hdata, Option.map_some]

theorem alloc_of_ne {i : Nat} (hne : i ≠ page) : h.alloc page i = h i := Function.update_of_ne hne _ _

@[simp] theorem alloc_self : h.alloc page page = some Page.zero := Function.update_self _ _ _

theorem exists_setEntry {i : Nat} (hi : ∃ data, h i = some data) :
    ∃ data, h.setEntry page e value i = some data := by
  obtain ⟨data, hdata⟩ := hi
  by_cases hne : i = page
  · subst hne
    exact ⟨_, setEntry_self hdata⟩
  · exact ⟨data, (setEntry_of_ne hne).trans hdata⟩

theorem Entry.congr {h' : Heap W} (hentry : h.Entry page e value) (heq : h' page = h page) :
    h'.Entry page e value := by
  obtain ⟨data, hdata, hvalue⟩ := hentry
  exact ⟨data, heq.trans hdata, hvalue⟩

theorem entry_setEntry (hpage : ∃ data, h page = some data) (he : e < W) (hvalue : value < 2 ^ 64) :
    (h.setEntry page e value).Entry page e value := by
  obtain ⟨data, hdata⟩ := hpage
  refine ⟨_, setEntry_self hdata, ?_⟩
  rw [Page.word_modifyWord _ _ _ he, if_pos rfl, BitVec.toNat_ofNat, Nat.mod_eq_of_lt hvalue]

theorem Entry.setEntry {page' e' value' : Nat} (hentry : h.Entry page e value) (he : e < W)
    (hne : page ≠ page' ∨ e ≠ e') : (h.setEntry page' e' value').Entry page e value := by
  by_cases hpage : page = page'
  · subst hpage
    obtain ⟨data, hdata, hvalue⟩ := hentry
    refine ⟨_, setEntry_self hdata, ?_⟩
    rw [Page.word_modifyWord _ _ _ he, if_neg (by tauto), hvalue]
  · exact hentry.congr (setEntry_of_ne hpage)

end Heap

/-! ### Chains -/

/-- Header and data pages as the blob links them: the `i`-th data page after the first is entry
`i % (W - 1)` of header page `i / (W - 1)`. -/
structure Chain (h : Heap W) (headerPages dataPages : List Nat) : Prop where
  nodup : (dataPages ++ headerPages).Nodup
  stored : ∀ i ∈ dataPages ++ headerPages, i < 2 ^ 64 ∧ ∃ data, h i = some data
  first : ∀ dp hp, dataPages.head? = some dp → headerPages.head? = some hp → h.Entry dp (W - 1) hp
  entry : ∀ i hp dp, headerPages[i / (W - 1)]? = some hp → dataPages[i + 1]? = some dp →
    h.Entry hp (i % (W - 1)) dp
  next : ∀ k hp hp', headerPages[k]? = some hp → headerPages[k + 1]? = some hp' →
    h.Entry hp (W - 1) hp'

variable {h h' : Heap W} {headerPages dataPages : List Nat} {page : Nat}

theorem mem_of_head? {α : Type*} {l : List α} {a : α} (h : l.head? = some a) : a ∈ l :=
  List.mem_of_getElem? (List.head?_eq_getElem? ▸ h)

theorem Chain.congr (hc : Chain h headerPages dataPages)
    (heq : ∀ i ∈ dataPages ++ headerPages, h' i = h i) : Chain h' headerPages dataPages where
  nodup := hc.nodup
  stored i hi := by
    rw [heq i hi]
    exact hc.stored i hi
  first dp hp hdp hhp := (hc.first dp hp hdp hhp).congr
    (heq dp (List.mem_append_left _ (mem_of_head? hdp)))
  entry i hp dp hhp hdp := (hc.entry i hp dp hhp hdp).congr
    (heq hp (List.mem_append_right _ (List.mem_of_getElem? hhp)))
  next k hp hp' hhp hhp' := (hc.next k hp hp' hhp hhp').congr
    (heq hp (List.mem_append_right _ (List.mem_of_getElem? hhp)))

/-- A write that touches no page of the chain. -/
theorem Chain.update (hc : Chain h headerPages dataPages) (hpage : page ∉ dataPages ++ headerPages)
    (data : Option (Page W)) : Chain (Function.update h page data) headerPages dataPages :=
  hc.congr fun _ hi => Function.update_of_ne (ne_of_mem_of_not_mem hi hpage) _ _

theorem Chain.take (hc : Chain h headerPages dataPages) (m n : Nat) :
    Chain h (headerPages.take m) (dataPages.take n) where
  nodup := hc.nodup.sublist ((List.take_sublist n _).append (List.take_sublist m _))
  stored i hi := by
    refine hc.stored i ?_
    rw [List.mem_append] at hi ⊢
    exact hi.imp List.mem_of_mem_take List.mem_of_mem_take
  first dp hp hdp hhp := by
    rw [List.head?_take] at hdp hhp
    split at hdp
    · cases hdp
    · split at hhp
      · cases hhp
      · exact hc.first dp hp hdp hhp
  entry i hp dp hhp hdp := by
    rw [List.getElem?_take] at hhp hdp
    split at hhp
    · split at hdp
      · exact hc.entry i hp dp hhp hdp
      · cases hdp
    · cases hhp
  next k hp hp' hhp hhp' := by
    rw [List.getElem?_take] at hhp hhp'
    split at hhp
    · split at hhp'
      · exact hc.next k hp hp' hhp hhp'
      · cases hhp'
    · cases hhp

theorem Chain.data_ne_header (hc : Chain h headerPages dataPages) {dp hp : Nat} (hdp : dp ∈ dataPages)
    (hhp : hp ∈ headerPages) : dp ≠ hp :=
  fun heq => (List.nodup_append.mp hc.nodup).2.2 dp hdp hp hhp heq

/-- Header pages at different places differ. -/
theorem Chain.header_inj (hc : Chain h headerPages dataPages) {k l hp : Nat}
    (hk : headerPages[k]? = some hp) (hl : headerPages[l]? = some hp) : k = l := by
  have hnodup := (List.nodup_append.mp hc.nodup).2.1
  obtain ⟨hlt, -⟩ := List.getElem?_eq_some_iff.mp hk
  exact (List.getElem?_inj hlt hnodup).mp (hk.trans hl.symm)

theorem Chain.data_inj (hc : Chain h headerPages dataPages) {k l dp : Nat}
    (hk : dataPages[k]? = some dp) (hl : dataPages[l]? = some dp) : k = l := by
  have hnodup := (List.nodup_append.mp hc.nodup).1
  obtain ⟨hlt, -⟩ := List.getElem?_eq_some_iff.mp hk
  exact (List.getElem?_inj hlt hnodup).mp (hk.trans hl.symm)

/-- A write to an entry that links nothing: word 0 of the first data page, or any word of another
data page. -/
theorem Chain.setEntry_data (hW : 2 < W) (hc : Chain h headerPages dataPages) {dp e value : Nat}
    (hdp : dp ∈ dataPages) (he : e < W - 1) :
    Chain (h.setEntry dp e value) headerPages dataPages where
  nodup := hc.nodup
  stored i hi := ⟨(hc.stored i hi).1, Heap.exists_setEntry (hc.stored i hi).2⟩
  first dp' hp hdp' hhp := (hc.first dp' hp hdp' hhp).setEntry (by omega) (.inr (by omega))
  entry i hp dp' hhp hdp' := (hc.entry i hp dp' hhp hdp').setEntry
    (Nat.lt_of_lt_of_le (Nat.mod_lt _ (by omega)) (Nat.sub_le _ _))
    (.inl (hc.data_ne_header hdp (List.mem_of_getElem? hhp)).symm)
  next k hp hp' hhp hhp' := (hc.next k hp hp' hhp hhp').setEntry (by omega) (.inr (by omega))

/-- The first header page. -/
theorem Chain.root (hW : 2 < W) {dp hp : Nat} (hc : Chain h [] [dp]) (hfresh : hp ≠ dp)
    (hsmall : hp < 2 ^ 64) : Chain ((h.alloc hp).setEntry dp (W - 1) hp) [hp] [dp] := by
  obtain ⟨hdp, data, hdata⟩ := hc.stored dp (List.mem_singleton_self dp)
  have hdata' : (h.alloc hp) dp = some data := (Heap.alloc_of_ne hfresh.symm).trans hdata
  refine ⟨?_, fun i hi => ?_, fun dp' hp' hdp' hhp' => ?_, fun i hp' dp' _ hdp' => ?_,
    fun k hp' hp'' _ hhp'' => ?_⟩
  · simpa using hfresh.symm
  · rcases List.mem_pair.mp hi with rfl | rfl
    · exact ⟨hdp, Heap.exists_setEntry ⟨data, hdata'⟩⟩
    · exact ⟨hsmall, Heap.exists_setEntry ⟨Page.zero, Heap.alloc_self⟩⟩
  · obtain rfl := Option.some.inj hdp'
    obtain rfl := Option.some.inj hhp'
    exact Heap.entry_setEntry ⟨data, hdata'⟩ (by omega) hsmall
  · simp at hdp'
  · simp at hhp''

/-- A new data page, recorded in the next free entry of the last header page. -/
theorem Chain.addData (hc : Chain h headerPages dataPages) {k j hp dp : Nat}
    (hhp : headerPages[k]? = some hp) (hlen : dataPages.length = 1 + k * (W - 1) + j) (hj : j < W - 1)
    (hfresh : dp ∉ dataPages ++ headerPages) (hsmall : dp < 2 ^ 64) :
    Chain ((h.alloc dp).setEntry hp j dp) headerPages (dataPages ++ [dp]) := by
  have hmem : hp ∈ dataPages ++ headerPages := List.mem_append_right _ (List.mem_of_getElem? hhp)
  have hne : hp ≠ dp := ne_of_mem_of_not_mem hmem hfresh
  have hold := hc.update hfresh (some Page.zero)
  change Chain (h.alloc dp) _ _ at hold
  obtain ⟨-, data, hdata⟩ := hold.stored hp hmem
  refine ⟨?_, fun i hi => ?_, fun dp' hp' hdp' hhp' => ?_, fun i hp' dp' hhp' hdp' => ?_,
    fun l hp' hp'' hhp' hhp'' => ?_⟩
  · rw [List.append_assoc, List.singleton_append]
    exact List.nodup_middle.mpr (List.nodup_cons.mpr ⟨hfresh, hc.nodup⟩)
  · rw [List.append_assoc, List.singleton_append, List.mem_append, List.mem_cons] at hi
    rcases hi with hi | rfl | hi
    · obtain ⟨hlt, hdata⟩ := hold.stored i (List.mem_append_left _ hi)
      exact ⟨hlt, Heap.exists_setEntry hdata⟩
    · exact ⟨hsmall, Heap.exists_setEntry ⟨Page.zero, Heap.alloc_self⟩⟩
    · obtain ⟨hlt, hdata⟩ := hold.stored i (List.mem_append_right _ hi)
      exact ⟨hlt, Heap.exists_setEntry hdata⟩
  · have hhead : dataPages.head? = some dp' := by
      rw [List.head?_append_of_ne_nil _ (by rintro rfl; simp at hlen; omega)] at hdp'
      exact hdp'
    exact (hold.first dp' hp' hhead hhp').setEntry (by omega) (.inr (by omega))
  · have hmod : i % (W - 1) < W := Nat.lt_of_lt_of_le (Nat.mod_lt _ (by omega)) (Nat.sub_le _ _)
    rcases Nat.lt_trichotomy (i + 1) dataPages.length with hlt | heq | hgt
    · rw [List.getElem?_append_left hlt] at hdp'
      refine (hold.entry i hp' dp' hhp' hdp').setEntry hmod ?_
      -- an earlier entry of the same header page
      by_contra hsame
      push Not at hsame
      have hk : i / (W - 1) = k := hold.header_inj (hsame.1 ▸ hhp') hhp
      have := Nat.div_add_mod i (W - 1)
      rw [hk, hsame.2, Nat.mul_comm] at this
      omega
    · rw [heq, List.getElem?_concat_length] at hdp'
      obtain rfl := Option.some.inj hdp'
      have hi : i = j + (W - 1) * k := by
        rw [Nat.mul_comm]
        omega
      rw [hi, Nat.add_mul_div_left _ _ (by omega), Nat.div_eq_of_lt hj, Nat.zero_add, hhp] at hhp'
      obtain rfl := Option.some.inj hhp'
      rw [hi, Nat.add_mul_mod_self_left, Nat.mod_eq_of_lt hj]
      exact Heap.entry_setEntry ⟨data, hdata⟩ (by omega) hsmall
    · rw [List.getElem?_eq_none (by simp; omega)] at hdp'
      cases hdp'
  · exact (hold.next l hp' hp'' hhp' hhp'').setEntry (by omega) (.inr (by omega))

/-- A new header page after the last one, which is full or still to be filled. -/
theorem Chain.addHeader (hW : 2 < W) (hc : Chain h headerPages dataPages) {hp new : Nat}
    (hhp : headerPages.getLast? = some hp)
    (hlen : dataPages.length ≤ 1 + headerPages.length * (W - 1))
    (hfresh : new ∉ dataPages ++ headerPages) (hsmall : new < 2 ^ 64) :
    Chain ((h.alloc new).setEntry hp (W - 1) new) (headerPages ++ [new]) dataPages := by
  rw [List.getLast?_eq_getElem?] at hhp
  have hmem : hp ∈ dataPages ++ headerPages := List.mem_append_right _ (List.mem_of_getElem? hhp)
  have hne : hp ≠ new := ne_of_mem_of_not_mem hmem hfresh
  have hold := hc.update hfresh (some Page.zero)
  change Chain (h.alloc new) _ _ at hold
  obtain ⟨-, data, hdata⟩ := hold.stored hp hmem
  have hlast : headerPages.length - 1 < headerPages.length := by
    obtain ⟨hlt, -⟩ := List.getElem?_eq_some_iff.mp hhp
    exact hlt
  refine ⟨?_, fun i hi => ?_, fun dp' hp' hdp' hhp' => ?_, fun i hp' dp' hhp' hdp' => ?_,
    fun l hp' hp'' hhp' hhp'' => ?_⟩
  · rw [← List.append_assoc]
    exact List.nodup_append_comm.mp (List.nodup_cons.mpr ⟨hfresh, hc.nodup⟩)
  · rw [← List.append_assoc, List.mem_append, List.mem_singleton] at hi
    rcases hi with hi | rfl
    · obtain ⟨hlt, hdata⟩ := hold.stored i hi
      exact ⟨hlt, Heap.exists_setEntry hdata⟩
    · exact ⟨hsmall, Heap.exists_setEntry ⟨Page.zero, Heap.alloc_self⟩⟩
  · rw [List.head?_append_of_ne_nil _ (by rintro rfl; simp at hlast)] at hhp'
    exact (hold.first dp' hp' hdp' hhp').setEntry (by omega)
      (.inl (hold.data_ne_header (mem_of_head? hdp') (List.mem_of_getElem? hhp)))
  · have hmod : i % (W - 1) < W - 1 := Nat.mod_lt _ (by omega)
    have hlt : i / (W - 1) < headerPages.length := by
      obtain ⟨hlt, -⟩ := List.getElem?_eq_some_iff.mp hdp'
      rw [Nat.div_lt_iff_lt_mul (by omega)]
      omega
    rw [List.getElem?_append_left hlt] at hhp'
    exact (hold.entry i hp' dp' hhp' hdp').setEntry (by omega) (.inr (by omega))
  · by_cases hl : l + 1 < headerPages.length
    · rw [List.getElem?_append_left (by omega)] at hhp'
      rw [List.getElem?_append_left hl] at hhp''
      refine (hold.next l hp' hp'' hhp' hhp'').setEntry (by omega) (.inl fun heq => ?_)
      have := hold.header_inj (heq ▸ hhp') hhp
      omega
    · have hlt : l + 1 = headerPages.length := by
        obtain ⟨hlt, -⟩ := List.getElem?_eq_some_iff.mp hhp''
        simp at hlt
        omega
      rw [hlt, List.getElem?_concat_length] at hhp''
      obtain rfl := Option.some.inj hhp''
      rw [List.getElem?_append_left (by omega), show l = headerPages.length - 1 by omega, hhp] at hhp'
      obtain rfl := Option.some.inj hhp'
      exact Heap.entry_setEntry ⟨data, hdata⟩ (by omega) hsmall

end Plexdb.Blob
