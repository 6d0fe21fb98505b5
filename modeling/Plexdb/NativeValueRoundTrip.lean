import Plexdb.NativeElements

/-! When the bytes written for a value are read and resolved to that value again. There is nothing to
write a tuple with, and the size of a container is a signed 32-bit field like any other length. -/

namespace Plexdb.Cql.Native

open Wire

/-- The encoded basic types, and the lists, sets, maps and tuples of them. -/
def Flat : Ty → Prop
  | .basic b => isEncoded b = true
  | .list element _ => ∃ b, element = .basic b ∧ isEncoded b = true
  | .set key _ => ∃ b, key = .basic b ∧ isEncoded b = true
  | .map key value _ => ∃ k v, key = .basic k ∧ value = .basic v ∧ isEncoded k = true ∧ isEncoded v = true
  | .tuple elements _ => ∀ t ∈ elements, ∃ b, t = .basic b ∧ isEncoded b = true
  | _ => False

def elementsSize (vs : List ColumnValue) : Nat := (vs.map fun v => 4 + (elementData v).length).sum

/-- No part is a tuple, each native value is returned, and the whole is shorter than 2 GiB. -/
def Returned : Ty → ColumnValue → Prop
  | .basic b, v => isReturned b v = true ∧ (elementData v).length < 2 ^ 31
  | .list (.basic b) _, .array vs => (∀ v ∈ vs, isReturned b v = true) ∧ 4 + elementsSize vs < 2 ^ 31
  | .set (.basic b) _, .set vs => (∀ v ∈ vs, isReturned b v = true) ∧ 4 + elementsSize vs < 2 ^ 31
  | .map (.basic k) (.basic v) _, .map es =>
      (∀ e ∈ es, isReturned k e.1 = true ∧ isReturned v e.2 = true) ∧
        4 + (elementsSize (es.map Prod.fst) + elementsSize (es.map Prod.snd)) < 2 ^ 31
  | _, _ => False

/-- The bytes are written, the length in front is that of the rest, and they are read back exactly. -/
def ValueRoundTrips (ctx : EvalContext) (t : Ty) (v : ColumnValue) : Prop :=
  ∃ bytes, appendCqlValue v t = some bytes ∧ (bytes.length : Int) = 4 + readBeS32 bytes ∧
    ∀ rest, ∃ term, readCqlValueAsTerm t (bytes ++ rest) = some (term, rest) ∧
      resolveEvaluated ctx t (evaluate ctx term) = some v

/-! ### Native values -/

theorem appendCqlValue_basic {b : Basic} {v : ColumnValue} (hwt : canWriteTypedBasic v b = true) :
    appendCqlValue v (.basic b) = if b ∈ elementTypes v then some (written v) else none := by
  rw [← appendCqlBasicElement_eq]
  cases v <;> first | rfl | exact absurd hwt Bool.false_ne_true

theorem readCqlValueAsTerm_basic {b : Basic} {v : ColumnValue} {lit : Literal} (h : ReadAs b v lit) (rest : Bytes) :
    readCqlValueAsTerm (.basic b) (written v ++ rest) = some (.literal lit, rest) := by
  rw [readCqlValueAsTerm]
  exact congrArg _ (h rest)

theorem resolveEvaluated_literal (ctx : EvalContext) (t : Ty) (lit : Literal) :
    resolveEvaluated ctx t (evaluate ctx (.literal lit)) = resolveLiteralScalar lit t := by
  rw [evaluate_literal]
  cases t <;> rw [resolveEvaluated]

/-- A native value comes back with its variant and a length that fits. -/
theorem valueRoundTrips_basic (ctx : EvalContext) {b : Basic} {v : ColumnValue} (henc : isEncoded b = true)
    (hwt : WellTyped (.basic b) v) : ValueRoundTrips ctx (.basic b) v ↔ Returned (.basic b) v := by
  rw [WellTyped] at hwt
  rw [Returned]
  constructor
  · rintro ⟨bytes, happend, -, hback⟩
    rw [appendCqlValue_basic hwt.1] at happend
    split_ifs at happend with hmem
    obtain rfl := Option.some.inj happend
    obtain ⟨hread, hresolve⟩ := readBack_spec henc hwt.1 hmem
    obtain ⟨term, hterm, hv⟩ := hback []
    rw [readCqlValueAsTerm_basic hread] at hterm
    obtain ⟨rfl, -⟩ := Prod.mk.inj (Option.some.inj hterm)
    rw [resolveEvaluated_literal] at hv
    exact hresolve.mp hv
  · rintro ⟨hkept, hshort⟩
    have hmem := mem_elementTypes_of_isReturned henc hkept
    obtain ⟨hread, hresolve⟩ := readBack_spec henc hwt.1 hmem
    refine ⟨written v, (appendCqlValue_basic hwt.1).trans (if_pos hmem), ?_, fun rest => ?_⟩
    · rw [length_written_of_short hshort, written, appendCqlBytesRaw, readBeS32_appendBeS32, toInt_ofNat_eq hshort,
        Int.natCast_add]
      rfl
    · refine ⟨.literal (readBack b v), readCqlValueAsTerm_basic hread rest, ?_⟩
      rw [resolveEvaluated_literal]
      exact hresolve.mpr ⟨hkept, hshort⟩

/-! ### Containers -/

theorem readUpTo_flatMap {ι α : Type} {read : Reader α} {emit : ι → Bytes} {back : ι → α} {items : List ι}
    (h : ∀ i ∈ items, 4 ≤ (emit i).length ∧ ∀ rest, read (emit i ++ rest) = some (back i, rest)) :
    readUpTo read items.length (items.flatMap emit) = some (items.map back) := by
  induction items with
  | nil => rfl
  | cons i items ih =>
      obtain ⟨⟨hlen, hread⟩, hitems⟩ := List.forall_mem_cons.mp h
      have hne : (emit i ++ items.flatMap emit).isEmpty = false := by
        rw [List.isEmpty_eq_false_iff, ← List.length_pos_iff, List.length_append]
        omega
      rw [List.flatMap_cons, List.length_cons, readUpTo, hne, if_neg Bool.false_ne_true, hread]
      simp [ih hitems]

theorem four_mul_length_le {ι : Type} {emit : ι → Bytes} {items : List ι} (h : ∀ i ∈ items, 4 ≤ (emit i).length) :
    4 * items.length ≤ (items.flatMap emit).length := by
  induction items with
  | nil => exact Nat.zero_le _
  | cons i items ih =>
      obtain ⟨hi, hitems⟩ := List.forall_mem_cons.mp h
      have := ih hitems
      rw [List.flatMap_cons, List.length_append, List.length_cons]
      omega

/-- A container whose length field is right is read item by item, and nothing after it. -/
theorem readSized_container {ι α : Type} {read : Reader α} {emit : ι → Bytes} {back : ι → α} {items : List ι}
    {size : BitVec 32} (mk : List α → Term)
    (h : ∀ i ∈ items, 4 ≤ (emit i).length ∧ ∀ rest, read (emit i ++ rest) = some (back i, rest))
    (hsize : size.toInt = 4 + (items.flatMap emit).length) (rest : Bytes) :
    readSized .literal (fun len p => (readCounted read len p).map mk)
        (appendBeS32 size ++ (appendBeS32 (BitVec.ofNat 32 items.length) ++ items.flatMap emit) ++ rest) =
      some (mk (items.map back), rest) := by
  have hlt := BitVec.toInt_lt (x := size)
  have hcount := four_mul_length_le fun i hi => (h i hi).1
  generalize hcoll : appendBeS32 (BitVec.ofNat 32 items.length) ++ items.flatMap emit = coll
  have hlen : (coll.length : Int) = size.toInt := by
    rw [← hcoll, hsize, List.length_append, length_appendBeS32, Int.natCast_add]
    rfl
  have hwritten : appendBeS32 size ++ coll = appendCqlBytesRaw coll size := by
    rw [appendCqlBytesRaw, if_pos (by omega), List.take_of_length_le (by omega)]
  have hread : readCounted read size.toInt.toNat (coll ++ rest) = some (items.map back) := by
    have htake : (coll ++ rest).take size.toInt.toNat = coll := by
      rw [← hlen, Int.toNat_natCast, List.take_left]
    rw [readCounted, htake, if_neg (by omega), ← hcoll, readBeS32_appendBeS32, drop_appendBeS32, toInt_ofNat_eq (by omega), Int.toNat_natCast,
      readUpTo_flatMap h]
  rw [hwritten, readSized_appendCqlBytesRaw _ _ hlen.ge, if_neg (by omega), if_neg (by omega),
    List.take_of_length_le (by omega), hread]
  rfl

/-! ### What is written for the elements -/

theorem foldl_sizes (es : List (Basic × ColumnValue)) (n : Nat) :
    (es.map fun e => BitVec.ofNat 32 (elementData e.2).length).foldl (fun body size => body + (4 + size))
        (BitVec.ofNat 32 n) = BitVec.ofNat 32 (n + elementsSize (es.map Prod.snd)) := by
  induction es generalizing n with
  | nil => rfl
  | cons e es ih =>
      have hadd : BitVec.ofNat 32 n + (4 + BitVec.ofNat 32 (elementData e.2).length) =
          BitVec.ofNat 32 (n + (4 + (elementData e.2).length)) := by
        rw [BitVec.ofNat_add, BitVec.ofNat_add]
        rfl
      rw [List.map_cons, List.foldl_cons, hadd, ih, elementsSize, elementsSize, List.map_cons, List.map_cons,
        List.sum_cons, Nat.add_assoc]

theorem mapM_eq_some_map {α β : Type} {f : α → Option β} {g : α → β} {as : List α} (h : ∀ a ∈ as, f a = some (g a)) :
    as.mapM f = some (as.map g) := by
  induction as with
  | nil => rfl
  | cons a as ih =>
      obtain ⟨ha, has⟩ := List.forall_mem_cons.mp h
      simp [List.mapM_cons, ha, ih has]

theorem mapM_eq_none {α β : Type} {f : α → Option β} {as : List α} {a : α} (ha : a ∈ as) (h : f a = none) :
    as.mapM f = none := by
  induction as with
  | nil => exact absurd ha List.not_mem_nil
  | cons b as ih =>
      rw [List.mapM_cons]
      rcases List.mem_cons.mp ha with rfl | ha
      · rw [h]
        rfl
      · rw [ih ha]
        cases f b <;> rfl

/-- The elements with their types. -/
def typed (es : List (Basic × ColumnValue)) : List (Ty × ColumnValue) := es.map fun e => (.basic e.1, e.2)

theorem appendElements_eq (count : Nat) {es : List (Basic × ColumnValue)} (h : ∀ e ∈ es, e.1 ∈ elementTypes e.2) :
    appendElements count (typed es) =
      some (appendBeS32 (BitVec.ofNat 32 (4 + elementsSize (es.map Prod.snd))) ++
        (appendBeS32 (BitVec.ofNat 32 count) ++ es.flatMap fun e => written e.2)) := by
  have hsizes : (typed es).mapM (fun e => do basicElementByteSize (← basicOf e.1) e.2) =
      some (es.map fun e => BitVec.ofNat 32 (elementData e.2).length) := by
    rw [typed, List.mapM_map]
    exact mapM_eq_some_map fun e he => basicElementByteSize_eq.trans (if_pos (h e he))
  have hwritten : (typed es).mapM (fun e => do appendCqlBasicElement (← basicOf e.1) e.2) =
      some (es.map fun e => written e.2) := by
    rw [typed, List.mapM_map]
    exact mapM_eq_some_map fun e he => appendCqlBasicElement_eq.trans (if_pos (h e he))
  rw [appendElements, hsizes, hwritten, ← foldl_sizes, List.flatMap_def]
  rfl

theorem appendElements_eq_some {count : Nat} {es : List (Basic × ColumnValue)} {bytes : Bytes}
    (h : appendElements count (typed es) = some bytes) : ∀ e ∈ es, e.1 ∈ elementTypes e.2 := by
  intro e he
  by_contra hmem
  have hsizes : (typed es).mapM (fun e => do basicElementByteSize (← basicOf e.1) e.2) = none := by
    rw [typed, List.mapM_map]
    exact mapM_eq_none he (basicElementByteSize_eq.trans (if_neg hmem))
  rw [appendElements, hsizes] at h
  cases h

theorem readCqlValueAsTerm_list (t : Ty) (frozen : Bool) : readCqlValueAsTerm (.list t frozen) =
    readSized .literal fun len p => (readCounted (readCqlValueAsTerm t) len p).map .listOrVector := by
  rw [readCqlValueAsTerm]

theorem readCqlValueAsTerm_set (t : Ty) (frozen : Bool) : readCqlValueAsTerm (.set t frozen) =
    readSized .literal fun len p => (readCounted (readCqlValueAsTerm t) len p).map .set := by
  rw [readCqlValueAsTerm]

theorem readCqlValueAsTerm_map (k v : Ty) (frozen : Bool) : readCqlValueAsTerm (.map k v frozen) =
    readSized .literal fun len p =>
      (readCounted (readPair (readCqlValueAsTerm k) (readCqlValueAsTerm v)) len p).map .map := by
  rw [readCqlValueAsTerm]

/-! ### When containers come back -/

theorem length_flatMap_written {es : List (Basic × ColumnValue)} (h : ∀ e ∈ es, (elementData e.2).length < 2 ^ 31) :
    (es.flatMap fun e => written e.2).length = elementsSize (es.map Prod.snd) := by
  induction es with
  | nil => rfl
  | cons e es ih =>
      obtain ⟨he, hes⟩ := List.forall_mem_cons.mp h
      rw [List.flatMap_cons, List.length_append, ih hes, length_written_of_short he, elementsSize, elementsSize,
        List.map_cons, List.map_cons, List.sum_cons]

theorem length_elementData_lt {vs : List ColumnValue} {v : ColumnValue} (h : v ∈ vs) :
    (elementData v).length < 4 + elementsSize vs := by
  have hle : 4 + (elementData v).length ≤ elementsSize vs :=
    List.single_le_sum (fun _ _ => Nat.zero_le _) _ (List.mem_map_of_mem h)
  omega

/-- A container of the given elements, which is read item by item. -/
theorem valueRoundTrips_container {ι α : Type} {ctx : EvalContext} {t : Ty} {v : ColumnValue}
    (es : List (Basic × ColumnValue)) (items : List ι) (emit : ι → Bytes) (back : ι → α) (read : Reader α)
    (mk : List α → Term) (henc : ∀ e ∈ es, isEncoded e.1 = true)
    (happend : appendCqlValue v t = appendElements items.length (typed es))
    (hemit : (es.flatMap fun e => written e.2) = items.flatMap emit)
    (hread : readCqlValueAsTerm t = readSized .literal fun len p => (readCounted read len p).map mk)
    (hitems : (∀ e ∈ es, e.1 ∈ elementTypes e.2) → ∀ i ∈ items, 4 ≤ (emit i).length ∧
      ∀ rest, read (emit i ++ rest) = some (back i, rest))
    (hresolve : (∀ e ∈ es, e.1 ∈ elementTypes e.2) →
      (resolveEvaluated ctx t (evaluate ctx (mk (items.map back))) = some v ↔
        ∀ e ∈ es, isReturned e.1 e.2 = true ∧ (elementData e.2).length < 2 ^ 31)) :
    ValueRoundTrips ctx t v ↔
      (∀ e ∈ es, isReturned e.1 e.2 = true) ∧ 4 + elementsSize (es.map Prod.snd) < 2 ^ 31 := by
  rw [ValueRoundTrips, happend, hread]
  constructor
  · rintro ⟨bytes, hbytes, hlen, hback⟩
    have hmem := appendElements_eq_some hbytes
    obtain rfl := Option.some.inj ((appendElements_eq items.length hmem).symm.trans hbytes)
    rw [readBeS32_appendBeS32, List.length_append, List.length_append, length_appendBeS32, length_appendBeS32, hemit]
      at hlen
    obtain ⟨term, hterm, hv⟩ := hback []
    rw [hemit, readSized_container mk (hitems hmem) (by omega)] at hterm
    obtain ⟨rfl, -⟩ := Prod.mk.inj (Option.some.inj hterm)
    have hkept := (hresolve hmem).mp hv
    have hflat := length_flatMap_written fun e he => (hkept e he).2
    rw [hemit] at hflat
    have hlt := BitVec.toInt_lt (x := BitVec.ofNat 32 (4 + elementsSize (es.map Prod.snd)))
    exact ⟨fun e he => (hkept e he).1, by omega⟩
  · rintro ⟨hkept, hsize⟩
    have hmem : ∀ e ∈ es, e.1 ∈ elementTypes e.2 := fun e he => mem_elementTypes_of_isReturned (henc e he) (hkept e he)
    have hshort : ∀ e ∈ es, (elementData e.2).length < 2 ^ 31 := fun e he =>
      (length_elementData_lt (List.mem_map_of_mem he)).trans hsize
    have hflat := length_flatMap_written hshort
    have hfield := toInt_ofNat_eq hsize
    rw [hemit] at hflat
    refine ⟨_, appendElements_eq items.length hmem, ?_, fun rest => ?_⟩
    · rw [readBeS32_appendBeS32, List.length_append, List.length_append, length_appendBeS32, length_appendBeS32, hemit]
      omega
    · refine ⟨_, ?_, (hresolve hmem).mpr fun e he => ⟨hkept e he, hshort e he⟩⟩
      rw [hemit]
      exact readSized_container mk (hitems hmem) (by omega) rest

theorem mapM_self {α : Type} {f : α → Option α} {as : List α} : as.mapM f = some as ↔ ∀ a ∈ as, f a = some a := by
  constructor
  · intro h
    induction as with
    | nil => exact List.forall_mem_nil _
    | cons a as ih =>
        rw [List.mapM_cons] at h
        obtain ⟨b, hb, h⟩ := Option.bind_eq_some_iff.mp h
        obtain ⟨bs, hbs, h⟩ := Option.bind_eq_some_iff.mp h
        obtain ⟨rfl, rfl⟩ := List.cons.inj (Option.some.inj h)
        exact List.forall_mem_cons.mpr ⟨hb, ih hbs⟩
  · intro h
    have hmap := mapM_eq_some_map (g := id) h
    rwa [List.map_id] at hmap

theorem length_of_mapM {α β : Type} {f : α → Option β} {as : List α} {bs : List β} (h : as.mapM f = some bs) :
    bs.length = as.length := by
  induction as generalizing bs with
  | nil =>
      obtain rfl := Option.some.inj h
      rfl
  | cons a as ih =>
      rw [List.mapM_cons] at h
      obtain ⟨b, -, h⟩ := Option.bind_eq_some_iff.mp h
      obtain ⟨bs, hbs, h⟩ := Option.bind_eq_some_iff.mp h
      obtain rfl := Option.some.inj h
      rw [List.length_cons, List.length_cons, ih hbs]

/-- A fold that grows by each item, where a step adds its item or does not grow. -/
theorem foldl_of_length {α : Type} {insert : List α → α → List α}
    (hinsert : ∀ as a, insert as a = as ++ [a] ∨ (insert as a).length = as.length) (items as : List α)
    (h : as.length + items.length ≤ (items.foldl insert as).length) : items.foldl insert as = as ++ items := by
  have hle : ∀ (items as : List α), (items.foldl insert as).length ≤ as.length + items.length := by
    intro items
    induction items with
    | nil => exact fun _ => le_rfl
    | cons a items ih =>
        intro as
        have hstep : (insert as a).length ≤ as.length + 1 := by
          rcases hinsert as a with hadd | hkeep
          · rw [hadd, List.length_append, List.length_singleton]
          · omega
        have := ih (insert as a)
        rw [List.foldl_cons, List.length_cons]
        omega
  induction items generalizing as with
  | nil => exact (List.append_nil _).symm
  | cons a items ih =>
      rw [List.foldl_cons, List.length_cons] at h
      rw [List.foldl_cons]
      rcases hinsert as a with hadd | hkeep
      · rw [hadd] at h ⊢
        rw [ih _ (by rw [List.length_append, List.length_singleton]; omega), List.append_assoc]
        rfl
      · have := hle items (insert as a)
        omega

theorem insertKey_cases (keys : List ColumnValue) (key : ColumnValue) :
    insertKey keys key = keys ++ [key] ∨ (insertKey keys key).length = keys.length := by
  rw [insertKey]
  split_ifs
  · exact Or.inr rfl
  · exact Or.inl rfl

theorem insertEntry_cases (entries : List (ColumnValue × ColumnValue)) (e : ColumnValue × ColumnValue) :
    insertEntry entries e.1 e.2 = entries ++ [e] ∨ (insertEntry entries e.1 e.2).length = entries.length := by
  induction entries with
  | nil => exact Or.inl rfl
  | cons d entries ih =>
      rw [insertEntry]
      split_ifs
      · exact Or.inr rfl
      · rcases ih with hadd | hkeep
        · exact Or.inl (congrArg (d :: ·) hadd)
        · exact Or.inr (congrArg (· + 1) hkeep)

/-- Keys resolved one by one make up the set they came from when each resolves to itself. -/
theorem resolve_set_iff {f : ColumnValue → Option ColumnValue} {vs : List ColumnValue}
    (hkeys : vs.Pairwise fun a b => ColumnValue.beq a b = false) :
    (vs.mapM f >>= fun keys => pure (ColumnValue.set (keys.foldl insertKey []))) = some (.set vs) ↔
      ∀ v ∈ vs, f v = some v := by
  rw [← mapM_self]
  constructor
  · intro h
    obtain ⟨keys, hmap, h⟩ := Option.bind_eq_some_iff.mp h
    have hfold : keys.foldl insertKey [] = vs := ColumnValue.set.inj (Option.some.inj h)
    have hself := foldl_of_length insertKey_cases keys []
      (by rw [hfold, length_of_mapM hmap, List.length_nil, Nat.zero_add])
    rw [hmap, ← hfold, hself, List.nil_append]
  · intro h
    rw [h]
    exact congrArg (fun keys => some (ColumnValue.set keys)) (foldl_insertKey hkeys)

theorem resolve_map_iff {f : ColumnValue × ColumnValue → Option (ColumnValue × ColumnValue)}
    {es : List (ColumnValue × ColumnValue)} (hkeys : es.Pairwise fun a b => ColumnValue.beq a.1 b.1 = false) :
    (es.mapM f >>= fun entries =>
        pure (ColumnValue.map (entries.foldl (fun m e => insertEntry m e.1 e.2) []))) = some (.map es) ↔
      ∀ e ∈ es, f e = some e := by
  rw [← mapM_self]
  constructor
  · intro h
    obtain ⟨entries, hmap, h⟩ := Option.bind_eq_some_iff.mp h
    have hfold : entries.foldl (fun m e => insertEntry m e.1 e.2) [] = es := ColumnValue.map.inj (Option.some.inj h)
    have hself := foldl_of_length insertEntry_cases entries []
      (by rw [hfold, length_of_mapM hmap, List.length_nil, Nat.zero_add])
    rw [hmap, ← hfold, hself, List.nil_append]
  · intro h
    rw [h]
    exact congrArg (fun entries => some (ColumnValue.map entries)) (foldl_insertEntry hkeys)

theorem typed_map (b : Basic) (vs : List ColumnValue) :
    typed (vs.map fun v => (b, v)) = vs.map fun v => (Ty.basic b, v) := by
  rw [typed, List.map_map]
  rfl

theorem snd_map (b : Basic) (vs : List ColumnValue) : (vs.map fun v => (b, v)).map Prod.snd = vs := by
  rw [List.map_map]
  exact List.map_id vs

theorem flatMap_written_map (b : Basic) (vs : List ColumnValue) :
    ((vs.map fun v => (b, v)).flatMap fun e => written e.2) = vs.flatMap written := by
  rw [List.flatMap_map]

/-- The elements of a list or a set as they are read. -/
theorem read_element {b : Basic} {vs : List ColumnValue} (henc : isEncoded b = true)
    (hwt : ∀ v ∈ vs, canWriteTypedBasic v b = true) (hmem : ∀ e ∈ vs.map fun v => (b, v), e.1 ∈ elementTypes e.2) :
    ∀ v ∈ vs, 4 ≤ (written v).length ∧
      ∀ rest, readCqlValueAsTerm (.basic b) (written v ++ rest) = some (.literal (readBack b v), rest) := by
  intro v hv
  have hread := (readBack_spec henc (hwt v hv) (hmem (b, v) (List.mem_map_of_mem hv))).1
  exact ⟨four_le_length_written v, readCqlValueAsTerm_basic hread⟩

theorem resolve_element {b : Basic} {vs : List ColumnValue} (henc : isEncoded b = true)
    (hwt : ∀ v ∈ vs, canWriteTypedBasic v b = true) (hmem : ∀ e ∈ vs.map fun v => (b, v), e.1 ∈ elementTypes e.2) :
    (∀ v ∈ vs, resolveLiteralScalar (readBack b v) (.basic b) = some v) ↔
      ∀ e ∈ vs.map fun v => (b, v), isReturned e.1 e.2 = true ∧ (elementData e.2).length < 2 ^ 31 := by
  rw [List.forall_mem_map]
  exact forall₂_congr fun v hv => (readBack_spec henc (hwt v hv) (hmem (b, v) (List.mem_map_of_mem hv))).2

theorem valueRoundTrips_list (ctx : EvalContext) {b : Basic} {frozen : Bool} {vs : List ColumnValue}
    (henc : isEncoded b = true) (hwt : ∀ v ∈ vs, canWriteTypedBasic v b = true) :
    ValueRoundTrips ctx (.list (.basic b) frozen) (.array vs) ↔ Returned (.list (.basic b) frozen) (.array vs) := by
  have hiff := @valueRoundTrips_container _ _ ctx (.list (.basic b) frozen) (.array vs) (vs.map fun v => (b, v)) vs
    written (fun v => .literal (readBack b v)) (readCqlValueAsTerm (.basic b)) .listOrVector
    (by simpa using fun _ _ => henc) (by rw [typed_map]; rfl) (flatMap_written_map b vs) (readCqlValueAsTerm_list _ _) (read_element henc hwt)
    (fun hmem => ?_)
  · rw [hiff, snd_map, Returned, List.forall_mem_map]
  · rw [← resolve_element henc hwt hmem, ← mapM_self, evaluate_listOrVector, resolveEvaluated, List.mapM_map]
    simp only [Function.comp_def, resolveEvaluated_literal]
    rw [Option.map_eq_some_iff]
    simp

theorem valueRoundTrips_set (ctx : EvalContext) {b : Basic} {frozen : Bool} {vs : List ColumnValue}
    (henc : isEncoded b = true) (hwt : ∀ v ∈ vs, canWriteTypedBasic v b = true)
    (hkeys : vs.Pairwise fun a b => ColumnValue.beq a b = false) :
    ValueRoundTrips ctx (.set (.basic b) frozen) (.set vs) ↔ Returned (.set (.basic b) frozen) (.set vs) := by
  have hiff := @valueRoundTrips_container _ _ ctx (.set (.basic b) frozen) (.set vs) (vs.map fun v => (b, v)) vs
    written (fun v => .literal (readBack b v)) (readCqlValueAsTerm (.basic b)) .set
    (by simpa using fun _ _ => henc) (by rw [typed_map]; rfl) (flatMap_written_map b vs) (readCqlValueAsTerm_set _ _) (read_element henc hwt)
    (fun hmem => ?_)
  · rw [hiff, snd_map, Returned, List.forall_mem_map]
  · rw [← resolve_element henc hwt hmem, ← resolve_set_iff hkeys, evaluate_set, resolveEvaluated, List.mapM_map]
    simp only [Function.comp_def, resolveEvaluated_literal]

/-- Keys and values in turn, as the entries of a map are written. -/
def interleaved (k v : Basic) (es : List (ColumnValue × ColumnValue)) : List (Basic × ColumnValue) :=
  es.flatMap fun e => [(k, e.1), (v, e.2)]

theorem forall_mem_interleaved {k v : Basic} {es : List (ColumnValue × ColumnValue)} {P : Basic × ColumnValue → Prop} :
    (∀ x ∈ interleaved k v es, P x) ↔ ∀ e ∈ es, P (k, e.1) ∧ P (v, e.2) := by
  simp only [interleaved, List.mem_flatMap, List.mem_cons, List.not_mem_nil, or_false]
  constructor
  · exact fun h e he => ⟨h _ ⟨e, he, Or.inl rfl⟩, h _ ⟨e, he, Or.inr rfl⟩⟩
  · rintro h x ⟨e, he, rfl | rfl⟩
    · exact (h e he).1
    · exact (h e he).2

theorem typed_interleaved (k v : Basic) (es : List (ColumnValue × ColumnValue)) :
    typed (interleaved k v es) = es.flatMap fun e => [(Ty.basic k, e.1), (Ty.basic v, e.2)] := by
  rw [typed, interleaved, List.map_flatMap]
  rfl

theorem flatMap_written_interleaved (k v : Basic) (es : List (ColumnValue × ColumnValue)) :
    ((interleaved k v es).flatMap fun e => written e.2) = es.flatMap fun e => written e.1 ++ written e.2 := by
  rw [interleaved, List.flatMap_assoc]
  simp only [List.flatMap_cons, List.flatMap_nil, List.append_nil]

theorem elementsSize_interleaved (k v : Basic) (es : List (ColumnValue × ColumnValue)) :
    elementsSize ((interleaved k v es).map Prod.snd) =
      elementsSize (es.map Prod.fst) + elementsSize (es.map Prod.snd) := by
  induction es with
  | nil => rfl
  | cons e es ih =>
      simp only [interleaved, elementsSize, List.flatMap_cons, List.map_append, List.map_cons, List.map_nil,
        List.sum_append, List.sum_cons, List.sum_nil] at ih ⊢
      omega

theorem valueRoundTrips_map (ctx : EvalContext) {k v : Basic} {frozen : Bool}
    {es : List (ColumnValue × ColumnValue)} (hk : isEncoded k = true) (hv : isEncoded v = true)
    (hwt : ∀ e ∈ es, canWriteTypedBasic e.1 k = true ∧ canWriteTypedBasic e.2 v = true)
    (hkeys : es.Pairwise fun a b => ColumnValue.beq a.1 b.1 = false) :
    ValueRoundTrips ctx (.map (.basic k) (.basic v) frozen) (.map es) ↔
      Returned (.map (.basic k) (.basic v) frozen) (.map es) := by
  have hspec : (∀ e ∈ interleaved k v es, e.1 ∈ elementTypes e.2) → ∀ e ∈ es,
      (ReadAs k e.1 (readBack k e.1) ∧ (resolveLiteralScalar (readBack k e.1) (.basic k) = some e.1 ↔
        isReturned k e.1 = true ∧ (elementData e.1).length < 2 ^ 31)) ∧
      (ReadAs v e.2 (readBack v e.2) ∧ (resolveLiteralScalar (readBack v e.2) (.basic v) = some e.2 ↔
        isReturned v e.2 = true ∧ (elementData e.2).length < 2 ^ 31)) := by
    intro hmem e he
    obtain ⟨hmemKey, hmemValue⟩ := forall_mem_interleaved.mp hmem e he
    exact ⟨readBack_spec hk (hwt e he).1 hmemKey, readBack_spec hv (hwt e he).2 hmemValue⟩
  have hiff := @valueRoundTrips_container _ _ ctx (.map (.basic k) (.basic v) frozen) (.map es) (interleaved k v es) es
    (fun e => written e.1 ++ written e.2) (fun e => (.literal (readBack k e.1), .literal (readBack v e.2)))
    (readPair (readCqlValueAsTerm (.basic k)) (readCqlValueAsTerm (.basic v))) .map
    (forall_mem_interleaved.mpr fun _ _ => ⟨hk, hv⟩) (by rw [typed_interleaved]; rfl)
    (flatMap_written_interleaved k v es) (readCqlValueAsTerm_map _ _ _) (fun hmem e he => ?_) (fun hmem => ?_)
  · rw [hiff, elementsSize_interleaved, Returned, forall_mem_interleaved]
  · obtain ⟨⟨hreadKey, -⟩, hreadValue, -⟩ := hspec hmem e he
    refine ⟨?_, fun rest => ?_⟩
    · have := four_le_length_written e.1
      rw [List.length_append]
      omega
    · rw [List.append_assoc, readPair, readCqlValueAsTerm_basic hreadKey]
      simp [readCqlValueAsTerm_basic hreadValue]
  · rw [forall_mem_interleaved, evaluate_map, resolveEvaluated, List.mapM_map]
    simp only [Function.comp_def, resolveEvaluated_literal]
    rw [resolve_map_iff hkeys]
    refine forall₂_congr fun e he => ?_
    obtain ⟨⟨-, hkey⟩, -, hvalue⟩ := hspec hmem e he
    rw [← hkey, ← hvalue]
    simp [Option.bind_eq_some_iff, Prod.ext_iff]

/-- A well-typed value of a basic type or of a list, set, map or tuple of basic types comes back from the
native protocol exactly when it is `Returned`. -/
theorem valueRoundTrips_iff_returned (ctx : EvalContext) (t : Ty) (v : ColumnValue) (ht : Flat t)
    (hv : WellTyped t v) : ValueRoundTrips ctx t v ↔ Returned t v := by
  cases t with
  | basic b => exact valueRoundTrips_basic ctx ht hv
  | list element frozen =>
      obtain ⟨b, rfl, henc⟩ := ht
      cases v with
      | array vs =>
          rw [WellTyped] at hv
          exact valueRoundTrips_list ctx henc fun v hmem => (hv.2 v hmem).1
      | _ => cases hv
  | set key frozen =>
      obtain ⟨b, rfl, henc⟩ := ht
      cases v with
      | set vs =>
          rw [WellTyped] at hv
          exact valueRoundTrips_set ctx henc (fun v hmem => (hv.2.1 v hmem).1) hv.2.2
      | _ => cases hv
  | map key value frozen =>
      obtain ⟨k, b, rfl, rfl, hk, hb⟩ := ht
      cases v with
      | map es =>
          rw [WellTyped] at hv
          exact valueRoundTrips_map ctx hk hb (fun e hmem => ⟨(hv.2.1 e hmem).1.1, (hv.2.1 e hmem).2.1⟩) hv.2.2
      | _ => cases hv
  | tuple elements frozen =>
      cases v with
      | array vs =>
          refine iff_of_false ?_ id
          rintro ⟨bytes, happend, -⟩
          cases happend
      | _ => cases hv
  | vector | udt => exact ht.elim

/-- A list of integers comes back, in a context without bindings. -/
theorem valueRoundTrips_iff_returned_list :
    ValueRoundTrips ⟨fun _ => none, fun _ _ => .literal .null, fun e => e, fun l _ _ => l⟩
      (.list (.basic .int) false) (.array [.s32 7, .s32 (-1)]) :=
  (valueRoundTrips_iff_returned _ (.list (.basic .int) false) (.array [.s32 7, .s32 (-1)]) ⟨.int, rfl, rfl⟩
    (by simp [WellTyped, canWriteTypedBasic, Representable])).mpr
    (by simp [Returned, isReturned, storedVariant, elementsSize, elementData, length_beBytes])

/-- A tuple of one integer is a value of its column, and there are no bytes for it. -/
theorem tuple_value_not_written : Flat (.tuple [.basic .int] true) ∧
    WellTyped (.tuple [.basic .int] true) (.array [.s32 5]) ∧
    ∀ ctx, ¬ ValueRoundTrips ctx (.tuple [.basic .int] true) (.array [.s32 5]) := by
  refine ⟨by simp [Flat, isEncoded], by simp [WellTyped, FieldsTyped, canWriteTypedBasic, Representable], ?_⟩
  rintro ctx ⟨bytes, happend, -⟩
  cases happend

end Plexdb.Cql.Native
