import Plexdb.ColumnCodec

/-! Null masks and the sets and maps the reader fills: the bit of a field says whether it is null,
and inserting keys that differ from one another keeps their order. -/

namespace Plexdb.Cql

open Wire

/-! ### Null masks -/

theorem maskBit_eq (mask : List (BitVec 64)) (i : Nat) :
    maskBit mask i = (mask.getD (i / 64) 0).getLsbD (i % 64) := by
  cases mask with
  | nil => simp [maskBit]
  | cons w ws =>
      have h : ∀ x : BitVec 64, (x >>> (i % 64) &&& 1#64 != 0) = x.getLsbD (i % 64) := by
        intro x
        rw [BitVec.and_one_eq_setWidth_ofBool_getLsbD, BitVec.getLsbD_ushiftRight, Nat.add_zero]
        cases x.getLsbD (i % 64) <;> rfl
      rw [maskBit, h]
      simp

theorem maskBit_setMaskBit {mask : List (BitVec 64)} {i j : Nat} (hj : j < 64 * mask.length) :
    maskBit (setMaskBit mask j) i = (maskBit mask i || i == j) := by
  have hword : j / 64 < mask.length := by omega
  rw [maskBit_eq, maskBit_eq, setMaskBit, List.getD_eq_getElem?_getD, List.getElem?_modify,
    List.getD_eq_getElem?_getD]
  by_cases hij : j / 64 = i / 64
  · simp only [if_pos hij]
    rw [← hij, List.getElem?_eq_getElem hword]
    simp only [Option.map_eq_map, Option.map_some, Option.getD_some, BitVec.getLsbD_or,
      BitVec.getLsbD_shiftLeft, BitVec.getLsbD_one]
    congr 1
    rw [Bool.eq_iff_iff]
    simp
    omega
  · simp only [if_neg hij]
    have : (i == j) = false := by
      rw [beq_eq_false_iff_ne]
      rintro rfl
      exact hij rfl
    simp [this]

theorem maskBit_zero (n i : Nat) : maskBit (List.replicate n 0) i = false := by
  rw [maskBit_eq, List.getD_eq_getElem?_getD, List.getElem?_replicate]
  split <;> simp

theorem length_maskOf (mask : List (BitVec 64)) (i count : Nat) (vs : List ColumnValue) :
    (maskOf mask i count vs).length = mask.length := by
  induction vs generalizing mask i with
  | nil => rfl
  | cons v vs ih =>
      rw [maskOf]
      split
      · rw [ih]
        split
        · rfl
        · rw [setMaskBit, List.length_modify]
      · rfl

/-- The bit of a field is set exactly when the field is not null. -/
theorem maskBit_maskOf {mask : List (BitVec 64)} {k count : Nat} {vs : List ColumnValue}
    (hcount : count ≤ 64 * mask.length) (hlen : k + vs.length ≤ count) (i : Nat) :
    maskBit (maskOf mask k count vs) i =
      (maskBit mask i || (decide (k ≤ i) && (vs[i - k]?).any (!·.isNull))) := by
  induction vs generalizing mask k with
  | nil => simp [maskOf]
  | cons v vs ih =>
      rw [List.length_cons] at hlen
      rw [maskOf, if_pos (by omega)]
      have hrest : (decide (k ≤ i) && ((v :: vs)[i - k]?).any (!·.isNull)) =
          ((!v.isNull && i == k) || (decide (k + 1 ≤ i) && (vs[i - (k + 1)]?).any (!·.isNull))) := by
        rcases Nat.lt_trichotomy i k with h | rfl | h
        · have : ¬ k ≤ i := by omega
          have : ¬ k + 1 ≤ i := by omega
          have : i ≠ k := by omega
          simp [*]
        · simp
        · obtain ⟨d, rfl⟩ := Nat.exists_eq_add_of_lt h
          simp [show k + d + 1 - k = d + 1 by omega, show k + d + 1 - (k + 1) = d by omega,
            show k ≤ k + d + 1 by omega, show k + d + 1 ≠ k by omega]
      rw [hrest]
      cases hv : v.isNull
      · rw [if_neg Bool.false_ne_true, ih (by rwa [setMaskBit, List.length_modify]) (by omega),
          maskBit_setMaskBit (by omega)]
        simp [Bool.or_assoc]
      · rw [if_pos rfl, ih hcount (by omega)]
        simp

theorem length_nullMask (count : Nat) (vs : List ColumnValue) :
    (nullMask count vs).length = maskWords count := by
  rw [nullMask, length_maskOf, List.length_replicate]

theorem maskBit_nullMask {count : Nat} {vs : List ColumnValue} (h : vs.length = count) (j : Nat) :
    maskBit (nullMask count vs) (0 + j) = (vs[j]?).any (!·.isNull) := by
  rw [nullMask, maskBit_maskOf, maskBit_zero]
  · simp
  · rw [List.length_replicate, maskWords]
    omega
  · omega

theorem readMask_writeMask {count : Nat} {mask : List (BitVec 64)}
    (h : mask.length = maskWords count) (rest : Bytes) :
    readMask count (writeMask mask ++ rest) = some (mask, rest) := by
  have hwrite : ∀ mask : List (BitVec 64),
      writeMany (fun w => some (writeRaw 8 w)) mask = some (writeMask mask) := by
    intro mask
    induction mask with
    | nil => rfl
    | cons w ws ih =>
        rw [writeMany, ih]
        rfl
  obtain ⟨bytes, hbytes, hread⟩ := @readMany_writeMany _ (readRaw 8)
    (fun w => some (writeRaw 8 w)) mask fun w _ => ⟨_, rfl, readRaw_writeRaw 8 w⟩
  rw [hwrite] at hbytes
  cases hbytes
  rw [readMask, ← h]
  exact hread rest

/-! ### Sets and maps -/

theorem foldl_insertKey {keys vs : List ColumnValue}
    (h : (keys ++ vs).Pairwise fun a b => ColumnValue.beq a b = false) :
    vs.foldl insertKey keys = keys ++ vs := by
  induction vs generalizing keys with
  | nil => simp
  | cons v vs ih =>
      have hnew : keys.any (ColumnValue.beq · v) = false := by
        rw [List.any_eq_false]
        intro a ha
        have := (List.pairwise_append.mp h).2.2 a ha v List.mem_cons_self
        simp [this]
      rw [List.foldl_cons, insertKey, if_neg (by simp [hnew]), ih (by simpa using h)]
      simp

theorem insertEntry_of_absent {entries : List (ColumnValue × ColumnValue)} {key value : ColumnValue}
    (h : ∀ e ∈ entries, ColumnValue.beq e.1 key = false) :
    insertEntry entries key value = entries ++ [(key, value)] := by
  induction entries with
  | nil => rfl
  | cons e entries ih =>
      obtain ⟨he, hes⟩ := List.forall_mem_cons.mp h
      rw [insertEntry, if_neg (by simp [he]), ih hes]
      rfl

theorem foldl_insertEntry {entries es : List (ColumnValue × ColumnValue)}
    (h : (entries ++ es).Pairwise fun a b => ColumnValue.beq a.1 b.1 = false) :
    es.foldl (fun m e => insertEntry m e.1 e.2) entries = entries ++ es := by
  induction es generalizing entries with
  | nil => simp
  | cons e es ih =>
      have hnew : ∀ a ∈ entries, ColumnValue.beq a.1 e.1 = false := fun a ha =>
        (List.pairwise_append.mp h).2.2 a ha e List.mem_cons_self
      rw [List.foldl_cons, insertEntry_of_absent hnew, ih (by simpa using h)]
      simp

theorem pairwise_insertKey {keys : List ColumnValue} (h : keys.Pairwise fun a b => ColumnValue.beq a b = false)
    (key : ColumnValue) : (insertKey keys key).Pairwise fun a b => ColumnValue.beq a b = false := by
  rw [insertKey]
  split
  · exact h
  · rename_i hnew
    refine List.pairwise_append.mpr ⟨h, List.pairwise_singleton _ key, fun a ha b hb => ?_⟩
    obtain rfl := List.mem_singleton.mp hb
    rw [← Bool.not_eq_true]
    exact fun hbeq => hnew (List.any_eq_true.mpr ⟨a, ha, hbeq⟩)

theorem pairwise_foldl_insertKey {keys : List ColumnValue} (h : keys.Pairwise fun a b => ColumnValue.beq a b = false)
    (vs : List ColumnValue) : (vs.foldl insertKey keys).Pairwise fun a b => ColumnValue.beq a b = false := by
  induction vs generalizing keys with
  | nil => exact h
  | cons v vs ih => exact ih (pairwise_insertKey h v)

theorem map_fst_insertEntry (entries : List (ColumnValue × ColumnValue)) (key value : ColumnValue) :
    (insertEntry entries key value).map Prod.fst = insertKey (entries.map Prod.fst) key := by
  induction entries with
  | nil => rfl
  | cons e entries ih =>
      rw [insertEntry]
      cases hbeq : ColumnValue.beq e.1 key with
      | true => simp [insertKey, hbeq]
      | false =>
          rw [if_neg Bool.false_ne_true, List.map_cons, ih, List.map_cons, insertKey, insertKey, List.any_cons, hbeq,
            Bool.false_or]
          split <;> rfl

theorem pairwise_foldl_insertEntry {entries : List (ColumnValue × ColumnValue)}
    (h : entries.Pairwise fun a b => ColumnValue.beq a.1 b.1 = false) (es : List (ColumnValue × ColumnValue)) :
    (es.foldl (fun m e => insertEntry m e.1 e.2) entries).Pairwise fun a b => ColumnValue.beq a.1 b.1 = false := by
  induction es generalizing entries with
  | nil => exact h
  | cons e es ih =>
      refine ih ?_
      rw [← List.pairwise_map (f := Prod.fst) (R := fun a b => ColumnValue.beq a b = false)] at h ⊢
      rw [map_fst_insertEntry]
      exact pairwise_insertKey h e.1

theorem forall_mem_foldl_insertKey {P : ColumnValue → Prop} {keys vs : List ColumnValue}
    (hkeys : ∀ v ∈ keys, P v) (hvs : ∀ v ∈ vs, P v) : ∀ v ∈ vs.foldl insertKey keys, P v := by
  induction vs generalizing keys with
  | nil => exact hkeys
  | cons v vs ih =>
      obtain ⟨hv, hvs⟩ := List.forall_mem_cons.mp hvs
      refine ih ?_ hvs
      rw [insertKey]
      split
      · exact hkeys
      · exact List.forall_mem_append.mpr ⟨hkeys, by simpa using hv⟩

theorem forall_mem_insertEntry {P Q : ColumnValue → Prop} {entries : List (ColumnValue × ColumnValue)}
    {key value : ColumnValue} (h : ∀ e ∈ entries, P e.1 ∧ Q e.2) (hkey : P key) (hvalue : Q value) :
    ∀ e ∈ insertEntry entries key value, P e.1 ∧ Q e.2 := by
  induction entries with
  | nil => simpa [insertEntry] using ⟨hkey, hvalue⟩
  | cons e entries ih =>
      obtain ⟨he, hes⟩ := List.forall_mem_cons.mp h
      rw [insertEntry]
      split
      · exact List.forall_mem_cons.mpr ⟨⟨he.1, hvalue⟩, hes⟩
      · exact List.forall_mem_cons.mpr ⟨he, ih hes⟩

theorem forall_mem_foldl_insertEntry {P Q : ColumnValue → Prop}
    {entries es : List (ColumnValue × ColumnValue)} (h : ∀ e ∈ entries, P e.1 ∧ Q e.2)
    (hes : ∀ e ∈ es, P e.1 ∧ Q e.2) :
    ∀ e ∈ es.foldl (fun m e => insertEntry m e.1 e.2) entries, P e.1 ∧ Q e.2 := by
  induction es generalizing entries with
  | nil => exact h
  | cons e es ih =>
      obtain ⟨he, hes⟩ := List.forall_mem_cons.mp hes
      exact ih (forall_mem_insertEntry h he.1 he.2) hes

end Plexdb.Cql
