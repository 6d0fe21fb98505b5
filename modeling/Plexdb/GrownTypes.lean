import Plexdb.ColumnEquality
import Plexdb.ColumnSkip

/-! Values of a type whose user types got fields after the values were written: the reader of the
grown type gives the values back with nulls for the fields that were not there. -/

namespace Plexdb.Cql

open Wire

/-! ### Types with appended fields -/

mutual

/-- The second type is the first with fields appended to the user types in it. -/
def Grown : Ty → Ty → Prop
  | .basic b, .basic b' => b = b'
  | .list e _, .list e' _ => Grown e e'
  | .set k _, .set k' _ => Grown k k'
  | .map k v _, .map k' v' _ => Grown k k' ∧ Grown v v'
  | .vector e count _, .vector e' count' _ => count = count' ∧ Grown e e'
  | .tuple es _, .tuple es' _ => es.length = es'.length ∧ FieldsGrown es es'
  | .udt _ _ _ ts, .udt _ _ _ ts' => FieldsGrown ts ts'
  | _, _ => False

def FieldsGrown : List Ty → List Ty → Prop
  | [], _ => True
  | t :: ts, t' :: ts' => Grown t t' ∧ FieldsGrown ts ts'
  | _ :: _, [] => False

end

mutual

/-- A value under a type that has grown since: the fields it was written without are null. -/
def pad : Ty → ColumnValue → ColumnValue
  | .list e _, .array vs => .array (vs.map (pad e))
  | .set k _, .set vs => .set (vs.map (pad k))
  | .map k v _, .map es => .map (es.map fun e => (pad k e.1, pad v e.2))
  | .vector e _ _, .array vs => .array (vs.map (pad e))
  | .tuple es _, .array vs => .array (padFields es vs)
  | .udt _ _ _ ts, .array vs => .array (padFields ts vs)
  | _, v => v

def padFields : List Ty → List ColumnValue → List ColumnValue
  | t :: ts, v :: vs => pad t v :: padFields ts vs
  | ts, [] => List.replicate ts.length .null
  | [], _ => []

end

@[simp]
theorem pad_null (t : Ty) : pad t .null = .null := by
  cases t <;> simp [pad]

@[simp]
theorem isNull_pad (t : Ty) (v : ColumnValue) : (pad t v).isNull = v.isNull := by
  cases t <;> cases v <;> simp [pad, ColumnValue.isNull]

theorem isNull_of_wellTyped {t : Ty} {v : ColumnValue} (h : WellTyped t v) : v.isNull = false := by
  cases v with
  | null => cases t <;> simp [WellTyped, canWriteTypedBasic] at h
  | _ => rfl

theorem length_le_of_fieldsGrown : ∀ {ts ts' : List Ty}, FieldsGrown ts ts' → ts.length ≤ ts'.length
  | [], _, _ => Nat.zero_le _
  | t :: ts, t' :: ts', h => by
      rw [FieldsGrown] at h
      exact Nat.succ_le_succ (length_le_of_fieldsGrown h.2)
  | _ :: _, [], h => by simp [FieldsGrown] at h

theorem length_padFields : ∀ (ts : List Ty) (vs : List ColumnValue), (padFields ts vs).length = ts.length
  | t :: ts, v :: vs => by rw [padFields, List.length_cons, List.length_cons, length_padFields ts vs]
  | t :: ts, [] => by rw [padFields.eq_def, List.length_replicate]
  | [], [] => by rw [padFields.eq_def, List.length_replicate]
  | [], _ :: _ => by rw [padFields.eq_def]; rfl

/-! ### Equality of values -/

theorem all_congr_mem {α : Type} {l : List α} {p q : α → Bool} (h : ∀ a ∈ l, p a = q a) : l.all p = l.all q := by
  rw [Bool.eq_iff_iff, List.all_eq_true, List.all_eq_true]
  exact forall₂_congr fun a ha => by rw [h a ha]

section

variable {f g : ColumnValue → ColumnValue}

theorem beq_array_map {as bs : List ColumnValue}
    (h : ∀ a ∈ as, ∀ b ∈ bs, ColumnValue.beq (f a) (f b) = ColumnValue.beq a b) :
    ColumnValue.beq (.array (as.map f)) (.array (bs.map f)) = ColumnValue.beq (.array as) (.array bs) := by
  rw [beq_array, beq_array, List.length_map, List.length_map, List.zip_map, List.all_map]
  congr 1
  exact all_congr_mem fun p hp => h p.1 (List.of_mem_zip hp).1 p.2 (List.of_mem_zip hp).2

theorem beq_set_map {as bs : List ColumnValue}
    (h : ∀ b ∈ bs, ∀ a ∈ as, ColumnValue.beq (f b) (f a) = ColumnValue.beq b a) :
    ColumnValue.beq (.set (as.map f)) (.set (bs.map f)) = ColumnValue.beq (.set as) (.set bs) := by
  rw [beq_set, beq_set, List.length_map, List.length_map, List.all_map]
  congr 1
  refine all_congr_mem fun a ha => ?_
  rw [Function.comp_apply, List.any_map]
  rw [List.any_eq_not_all_not, List.any_eq_not_all_not]
  exact congrArg (!·) (all_congr_mem fun b hb => congrArg (!·) (h b hb a ha))

theorem beq_map_map {as bs : List (ColumnValue × ColumnValue)}
    (hkey : ∀ b ∈ bs, ∀ a ∈ as, ColumnValue.beq (f b.1) (f a.1) = ColumnValue.beq b.1 a.1)
    (hvalue : ∀ b ∈ bs, ∀ a ∈ as, ColumnValue.beq (g b.2) (g a.2) = ColumnValue.beq b.2 a.2) :
    ColumnValue.beq (.map (as.map fun e => (f e.1, g e.2))) (.map (bs.map fun e => (f e.1, g e.2))) =
      ColumnValue.beq (.map as) (.map bs) := by
  rw [beq_map, beq_map, List.length_map, List.length_map, List.all_map]
  congr 1
  refine all_congr_mem fun a ha => ?_
  have hfind : (bs.find? fun b => ColumnValue.beq (f b.1) (f a.1)) = bs.find? fun b => ColumnValue.beq b.1 a.1 :=
    List.find?_congr fun b hb => hkey b hb a ha
  simp only [Function.comp_apply, List.find?_map, hfind, Option.any_map]
  cases hb : bs.find? fun b => ColumnValue.beq b.1 a.1 with
  | none => rfl
  | some b => exact hvalue b (List.mem_of_find?_eq_some hb) a ha

end

/-- A null field, or a value of the type of the field. -/
abbrev FieldTyped (t : Ty) (v : ColumnValue) : Prop := v = .null ∨ WellTyped t v

theorem beq_pad_field {t t' : Ty} {a b : ColumnValue}
    (h : WellTyped t a → WellTyped t b → ColumnValue.beq (pad t' a) (pad t' b) = ColumnValue.beq a b)
    (ha : FieldTyped t a) (hb : FieldTyped t b) :
    ColumnValue.beq (pad t' a) (pad t' b) = ColumnValue.beq a b := by
  rcases ha with rfl | ha
  · rw [pad_null, beq_null_left, beq_null_left, isNull_pad]
  · rcases hb with rfl | hb
    · rw [pad_null, beq_null_right, beq_null_right, isNull_pad]
    · exact h ha hb

theorem all_beq_null (n : Nat) :
    ((List.replicate n ColumnValue.null).zip (List.replicate n ColumnValue.null)).all
      (fun p => ColumnValue.beq p.1 p.2) = true := by
  rw [List.zip_replicate', List.all_replicate, beq_null_left]
  simp [ColumnValue.isNull]

mutual

/-- Padding makes no two different keys equal. -/
theorem beq_pad : ∀ (t t' : Ty) {a b : ColumnValue}, Grown t t' → WellTyped t a → WellTyped t b →
    ColumnValue.beq (pad t' a) (pad t' b) = ColumnValue.beq a b
  | .basic _, .basic _, a, b, _, _, _ => by
      cases a <;> cases b <;> simp [pad]
  | .list e _, .list e' _, .array as, .array bs, h, ha, hb => by
      rw [Grown] at h
      rw [WellTyped] at ha hb
      rw [pad, pad]
      exact beq_array_map fun a hamem b hbmem => beq_pad e e' h (ha.2 a hamem) (hb.2 b hbmem)
  | .set k _, .set k' _, .set as, .set bs, h, ha, hb => by
      rw [Grown] at h
      rw [WellTyped] at ha hb
      rw [pad, pad]
      exact beq_set_map fun b hbmem a hamem => beq_pad k k' h (hb.2.1 b hbmem) (ha.2.1 a hamem)
  | .map k v _, .map k' v' _, .map as, .map bs, h, ha, hb => by
      rw [Grown] at h
      rw [WellTyped] at ha hb
      rw [pad, pad]
      exact beq_map_map
        (fun b hbmem a hamem => beq_pad k k' h.1 (hb.2.1 b hbmem).1 (ha.2.1 a hamem).1)
        (fun b hbmem a hamem => beq_pad v v' h.2 (hb.2.1 b hbmem).2 (ha.2.1 a hamem).2)
  | .vector e _ _, .vector e' _ _, .array as, .array bs, h, ha, hb => by
      rw [Grown] at h
      rw [WellTyped] at ha hb
      rw [pad, pad]
      exact beq_array_map fun a hamem b hbmem => beq_pad e e' h.2 (ha.2 a hamem) (hb.2 b hbmem)
  | .tuple es _, .tuple es' _, .array as, .array bs, h, ha, hb => by
      rw [Grown] at h
      rw [WellTyped] at ha hb
      rw [pad, pad, beq_array, beq_array, length_padFields, length_padFields, beq_padFields es es' h.2 ha hb,
        length_of_fieldsTyped es as ha, length_of_fieldsTyped es bs hb, beq_self_eq_true, beq_self_eq_true]
  | .udt _ _ _ ts, .udt _ _ _ ts', .array as, .array bs, h, ha, hb => by
      rw [Grown] at h
      rw [WellTyped] at ha hb
      rw [pad, pad, beq_array, beq_array, length_padFields, length_padFields, beq_padFields ts ts' h ha.2 hb.2,
        length_of_fieldsTyped ts as ha.2, length_of_fieldsTyped ts bs hb.2, beq_self_eq_true, beq_self_eq_true]

theorem beq_padFields : ∀ (ts ts' : List Ty) {as bs : List ColumnValue}, FieldsGrown ts ts' →
    FieldsTyped ts as → FieldsTyped ts bs →
    ((padFields ts' as).zip (padFields ts' bs)).all (fun p => ColumnValue.beq p.1 p.2) =
      (as.zip bs).all fun p => ColumnValue.beq p.1 p.2
  | [], ts', [], [], _, _, _ => by
      have hpad : padFields ts' [] = List.replicate ts'.length .null := by cases ts' <;> rw [padFields.eq_def]
      rw [hpad, all_beq_null]
      rfl
  | t :: ts, t' :: ts', a :: as, b :: bs, h, ha, hb => by
      rw [FieldsGrown] at h
      rw [FieldsTyped] at ha hb
      rw [padFields, padFields, List.zip_cons_cons, List.zip_cons_cons, List.all_cons, List.all_cons,
        beq_padFields ts ts' h.2 ha.2 hb.2]
      exact congrArg (· && _) (beq_pad_field (beq_pad t t' h.1) ha.1 hb.1)

end

/-! ### Reading under the grown type -/

theorem pairwise_map_pad {k k' : Ty} {keys : List ColumnValue} (h : Grown k k') (htyped : ∀ v ∈ keys, WellTyped k v)
    (hkeys : keys.Pairwise fun a b => ColumnValue.beq a b = false) :
    (keys.map (pad k')).Pairwise fun a b => ColumnValue.beq a b = false := by
  rw [List.pairwise_map]
  refine hkeys.imp_of_mem fun ha hb hab => ?_
  rw [beq_pad k k' h (htyped _ ha) (htyped _ hb), hab]

theorem pairwise_map_padEntries {k k' : Ty} (v' : Ty) {es : List (ColumnValue × ColumnValue)} (h : Grown k k')
    (htyped : ∀ e ∈ es, WellTyped k e.1) (hkeys : es.Pairwise fun a b => ColumnValue.beq a.1 b.1 = false) :
    (es.map fun e => (pad k' e.1, pad v' e.2)).Pairwise fun a b => ColumnValue.beq a.1 b.1 = false := by
  rw [List.pairwise_map]
  refine hkeys.imp_of_mem fun ha hb hab => ?_
  rw [beq_pad k k' h (htyped _ ha) (htyped _ hb), hab]

mutual

/-- What was written under a type is read under the grown type as the padded value. -/
theorem read_pad : ∀ (t t' : Ty) (v : ColumnValue), Grown t t' → WellTyped t v → StoredAs t v →
    ∃ bytes, writeColumnValue t v = some bytes ∧
      ∀ rest, readColumnValue t' (bytes ++ rest) = some (pad t' v, rest)
  | .basic dtype, .basic _, v, h, hw, hs => by
      rw [Grown] at h
      subst h
      obtain ⟨bytes, hwrite, hread⟩ := roundTrips_of_storedAs (.basic dtype) v hw hs
      exact ⟨bytes, hwrite, by simpa [pad] using hread⟩
  | .list e _, .list e' _, .array vs, h, hw, hs => by
      rw [Grown] at h
      rw [WellTyped] at hw
      rw [StoredAs] at hs
      obtain ⟨bytes, hwrite, hread⟩ := readMany_writeMany_map fun v hv =>
        read_pad e e' v h (hw.2 v hv) (hs v hv)
      refine ⟨writeCount vs.length ++ bytes, ?_, fun rest => ?_⟩
      · simp [writeColumnValue, canWriteColumnValue, hwrite]
      · rw [readColumnValue, List.append_assoc, readCount_writeCount hw.1]
        simp [hread, pad]
  | .set k _, .set k' _, .set vs, h, hw, hs => by
      rw [Grown] at h
      rw [WellTyped] at hw
      rw [StoredAs] at hs
      obtain ⟨bytes, hwrite, hread⟩ := readMany_writeMany_map fun v hv =>
        read_pad k k' v h (hw.2.1 v hv) (hs v hv)
      have hkeys := @foldl_insertKey [] _ (pairwise_map_pad h hw.2.1 hw.2.2)
      refine ⟨writeCount vs.length ++ bytes, ?_, fun rest => ?_⟩
      · simp [writeColumnValue, canWriteColumnValue, hwrite]
      · rw [readColumnValue, List.append_assoc, readCount_writeCount hw.1]
        simp [hread, hkeys, pad]
  | .map k v _, .map k' v' _, .map es, h, hw, hs => by
      rw [Grown] at h
      rw [WellTyped] at hw
      rw [StoredAs] at hs
      obtain ⟨bytes, hwrite, hread⟩ := readMany_writeMany_map (f := fun e => (pad k' e.1, pad v' e.2)) fun e he =>
        readPair_writePair_map (read_pad k k' e.1 h.1 (hw.2.1 e he).1 (hs e he).1)
          (read_pad v v' e.2 h.2 (hw.2.1 e he).2 (hs e he).2)
      have hkeys := @foldl_insertEntry [] _
        (pairwise_map_padEntries v' h.1 (fun e he => (hw.2.1 e he).1) hw.2.2)
      refine ⟨writeCount es.length ++ bytes, ?_, fun rest => ?_⟩
      · simp [writeColumnValue, canWriteColumnValue, hwrite]
      · rw [readColumnValue, List.append_assoc, readCount_writeCount hw.1]
        simp only [Option.bind_eq_bind, Option.bind_some, hread, hkeys, pad, List.nil_append]
        rfl
  | .vector e count _, .vector e' _ _, .array vs, h, hw, hs => by
      rw [Grown] at h
      rw [WellTyped] at hw
      rw [StoredAs] at hs
      obtain ⟨bytes, hwrite, hread⟩ := readMany_writeMany_map fun v hv =>
        read_pad e e' v h.2 (hw.2 v hv) (hs v hv)
      refine ⟨bytes, ?_, fun rest => ?_⟩
      · simp [writeColumnValue, canWriteColumnValue, hwrite]
      · rw [readColumnValue, ← h.1, ← hw.1]
        simp [hread, pad]
  | .tuple es _, .tuple es' _, .array vs, h, hw, hs => by
      rw [Grown] at h
      rw [WellTyped] at hw
      rw [StoredAs] at hs
      have hlen := length_of_fieldsTyped es vs hw
      obtain ⟨bytes, vs', hwrite, hpad, hread⟩ := readPayloads_pad es es' vs h.2 hw hs
        (nullMask es.length vs) 0 (maskBit_nullMask hlen)
      refine ⟨writeMask (nullMask es.length vs) ++ bytes, ?_, fun rest => ?_⟩
      · simp [writeColumnValue, canWriteColumnValue, hwrite]
      · rw [h.1, Nat.sub_self, List.replicate_zero, List.append_nil] at hpad
        rw [Nat.zero_add] at hread
        rw [readColumnValue, List.append_assoc, ← h.1, readMask_writeMask (length_nullMask _ vs)]
        simp [hread, pad, hpad]
  | .udt _ _ _ ts, .udt _ _ _ ts', .array vs, h, hw, hs => by
      rw [Grown] at h
      rw [WellTyped] at hw
      rw [StoredAs] at hs
      have hlen := length_of_fieldsTyped ts vs hw.2
      obtain ⟨bytes, vs', hwrite, hpad, hread⟩ := readPayloads_pad ts ts' vs h hw.2 hs
        (nullMask ts.length vs) 0 (maskBit_nullMask hlen)
      refine ⟨writeCount ts.length ++ (writeMask (nullMask ts.length vs) ++ bytes), ?_, fun rest => ?_⟩
      · simp [writeColumnValue, canWriteColumnValue, hwrite]
      · rw [Nat.zero_add] at hread
        rw [readColumnValue, List.append_assoc, List.append_assoc, readCount_writeCount hw.1]
        simp [length_le_of_fieldsGrown h, readMask_writeMask (length_nullMask _ vs), hread, pad, hpad]

theorem readPayloads_pad : ∀ (ts ts' : List Ty) (vs : List ColumnValue), FieldsGrown ts ts' → FieldsTyped ts vs →
    FieldsStored ts vs → ∀ (mask : List (BitVec 64)) (i : Nat),
    (∀ j, maskBit mask (i + j) = (vs[j]?).any (!·.isNull)) →
    ∃ bytes vs', writeMaskedPayloads ts vs mask i = some bytes ∧
      padFields ts' vs = vs' ++ List.replicate (ts'.length - ts.length) .null ∧
      ∀ rest, readMaskedPayloads ts' (i + ts.length) mask i (bytes ++ rest) = some (vs', rest)
  | [], ts', [], _, _, _, mask, i, _ => by
      refine ⟨[], [], by rw [writeMaskedPayloads.eq_def], ?_, fun rest => ?_⟩
      · cases ts' <;> rw [padFields.eq_def] <;> rfl
      · cases ts' with
        | nil => rw [readMaskedPayloads]; rfl
        | cons t' ts' => rw [readMaskedPayloads, if_neg (by simp)]; rfl
  | t :: ts, t' :: ts', v :: vs, h, hw, hs, mask, i, hmask => by
      rw [FieldsGrown] at h
      rw [FieldsTyped] at hw
      rw [FieldsStored] at hs
      obtain ⟨back, vs', hback, hpad, hreadBack⟩ := readPayloads_pad ts ts' vs h.2 hw.2 hs.2 mask (i + 1)
        fun j => by
          have := hmask (j + 1)
          rwa [List.getElem?_cons_succ, ← Nat.add_assoc, Nat.add_right_comm] at this
      have hbit : maskBit mask i = !v.isNull := by simpa using hmask 0
      have hcount : i + (t :: ts).length = i + 1 + ts.length := by
        rw [List.length_cons]
        omega
      have hpadded : padFields (t' :: ts') (v :: vs) =
          (pad t' v :: vs') ++ List.replicate ((t' :: ts').length - (t :: ts).length) .null := by
        rw [padFields, hpad, List.length_cons, List.length_cons, Nat.add_sub_add_right]
        rfl
      rw [hcount]
      by_cases hv : v = .null
      · subst hv
        refine ⟨back, pad t' .null :: vs', ?_, hpadded, fun rest => ?_⟩
        · simp [writeMaskedPayloads, hbit, ColumnValue.isNull, hback]
        · rw [readMaskedPayloads, if_pos (by omega), hbit]
          simp [ColumnValue.isNull, hreadBack]
      · obtain ⟨front, hfront, hread⟩ := read_pad t t' v h.1 (hw.1.resolve_left hv) (hs.1.resolve_left hv)
        have hbit : maskBit mask i = true := by
          rw [hbit, isNull_of_wellTyped (hw.1.resolve_left hv)]
          rfl
        refine ⟨front ++ back, pad t' v :: vs', ?_, hpadded, fun rest => ?_⟩
        · simp [writeMaskedPayloads, hbit, hfront, hback]
        · rw [readMaskedPayloads, if_pos (by omega), if_pos hbit, List.append_assoc, hread]
          simp [hreadBack]

end

mutual

/-- Padding leaves the variants of native values alone. -/
theorem storedAs_of_pad : ∀ (t t' : Ty) (v : ColumnValue), Grown t t' → WellTyped t v → StoredAs t' (pad t' v) →
    StoredAs t v
  | .basic _, .basic _, v, h, _, hs => by
      rw [Grown] at h
      subst h
      simpa [pad] using hs
  | .list e _, .list e' _, .array vs, h, hw, hs => by
      rw [Grown] at h
      rw [WellTyped] at hw
      rw [pad, StoredAs, List.forall_mem_map] at hs
      rw [StoredAs]
      exact fun v hv => storedAs_of_pad e e' v h (hw.2 v hv) (hs v hv)
  | .set k _, .set k' _, .set vs, h, hw, hs => by
      rw [Grown] at h
      rw [WellTyped] at hw
      rw [pad, StoredAs, List.forall_mem_map] at hs
      rw [StoredAs]
      exact fun v hv => storedAs_of_pad k k' v h (hw.2.1 v hv) (hs v hv)
  | .map k v _, .map k' v' _, .map es, h, hw, hs => by
      rw [Grown] at h
      rw [WellTyped] at hw
      rw [pad, StoredAs, List.forall_mem_map] at hs
      rw [StoredAs]
      exact fun e he => ⟨storedAs_of_pad k k' e.1 h.1 (hw.2.1 e he).1 (hs e he).1,
        storedAs_of_pad v v' e.2 h.2 (hw.2.1 e he).2 (hs e he).2⟩
  | .vector e _ _, .vector e' _ _, .array vs, h, hw, hs => by
      rw [Grown] at h
      rw [WellTyped] at hw
      rw [pad, StoredAs, List.forall_mem_map] at hs
      rw [StoredAs]
      exact fun v hv => storedAs_of_pad e e' v h.2 (hw.2 v hv) (hs v hv)
  | .tuple es _, .tuple es' _, .array vs, h, hw, hs => by
      rw [Grown] at h
      rw [WellTyped] at hw
      rw [pad, StoredAs] at hs
      rw [StoredAs]
      exact fieldsStored_of_pad es es' vs h.2 hw hs
  | .udt _ _ _ ts, .udt _ _ _ ts', .array vs, h, hw, hs => by
      rw [Grown] at h
      rw [WellTyped] at hw
      rw [pad, StoredAs] at hs
      rw [StoredAs]
      exact fieldsStored_of_pad ts ts' vs h hw.2 hs

theorem fieldsStored_of_pad : ∀ (ts ts' : List Ty) (vs : List ColumnValue), FieldsGrown ts ts' →
    FieldsTyped ts vs → FieldsStored ts' (padFields ts' vs) → FieldsStored ts vs
  | [], _, [], _, _, _ => by rw [FieldsStored]; trivial
  | t :: ts, t' :: ts', v :: vs, h, hw, hs => by
      rw [FieldsGrown] at h
      rw [FieldsTyped] at hw
      rw [padFields, FieldsStored] at hs
      rw [FieldsStored]
      refine ⟨hw.1.imp_right fun hv => ?_, fieldsStored_of_pad ts ts' vs h.2 hw.2 hs.2⟩
      refine storedAs_of_pad t t' v h.1 hv (hs.1.resolve_left fun hnull => ?_)
      have := isNull_of_wellTyped hv
      rw [← isNull_pad t', hnull] at this
      exact absurd this (by decide)

end

end Plexdb.Cql
