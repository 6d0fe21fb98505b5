import Plexdb.Schema

/-! What the columns of a table determine: which of them a name finds, and the components of an index
key, which depend on the shapes of the types and on the live key columns only. -/

namespace Plexdb.Cql.Schema

/-! ### Columns by name -/

theorem colsByName_eq (cols : List Column) :
    colsByName cols = NameMap.indexBy (fun col => !col.tombstone) (·.name) cols := by
  rw [colsByName, NameMap.indexBy]
  congr 1
  funext m e
  obtain ⟨col, ci⟩ := e
  cases h : col.tombstone <;> simp [h]

/-- No two live columns have one name. -/
def DistinctNames (cols : List Column) : Prop := NameMap.Unique (fun col => !col.tombstone) (·.name) cols

theorem DistinctNames.indexes {cols : List Column} (h : DistinctNames cols) :
    NameMap.Indexes (colsByName cols) (fun col => !col.tombstone) (·.name) cols := by
  rw [colsByName_eq]
  exact NameMap.indexBy_indexes h

theorem DistinctNames.append {cols : List Column} (h : DistinctNames cols) {col : Column}
    (hfree : findColumn cols col.name = none) : DistinctNames (cols ++ [col]) := by
  cases hdead : col.tombstone with
  | false => exact (h.indexes.push (by rw [hdead]; rfl) hfree).unique
  | true => exact (h.indexes.push_dead (by rw [hdead]; rfl)).unique

def Column.dead (col : Column) : Column := { col with tombstone := true }

theorem DistinctNames.dropColumn {cols : List Column} (h : DistinctNames cols) {name : String8} {ci : Nat}
    (hfind : findColumn cols name = some ci) : DistinctNames (cols.modify ci Column.dead) :=
  (h.indexes.remove hfind fun _ => rfl).unique

/-! ### Shapes of types -/

/-- The type without the pointers to user types. -/
def shape (t : Ty) : Ty := t.rename fun _ => 0

theorem basic?_rename (g : Nat → Nat) (t : Ty) : Ty.basic? (t.rename g) = Ty.basic? t := by
  cases t <;> rfl

theorem indexedValueSpecs_rename (kind : IndexKind) (g : Nat → Nat) (t : Ty) :
    indexedValueSpecs kind (t.rename g) = indexedValueSpecs kind t := by
  cases t <;> simp only [TypeTree.rename, indexedValueSpecs, basic?_rename]

theorem basic?_of_shape {t t' : Ty} (h : shape t = shape t') : Ty.basic? t = Ty.basic? t' := by
  rw [← basic?_rename (fun _ => 0) t, ← basic?_rename (fun _ => 0) t']
  exact congrArg Ty.basic? h

theorem indexedValueSpecs_of_shape {t t' : Ty} (h : shape t = shape t') (kind : IndexKind) :
    indexedValueSpecs kind t = indexedValueSpecs kind t' := by
  rw [← indexedValueSpecs_rename kind (fun _ => 0) t, ← indexedValueSpecs_rename kind (fun _ => 0) t']
  exact congrArg (indexedValueSpecs kind) h

/-! ### Components of index keys -/

/-- The column at the position is live and of the kind. -/
def isLiveColumn (cols : List Column) (kind : KeyKind) (ci : Nat) : Bool :=
  cols[ci]?.any fun col => !col.tombstone && col.keyKind == kind

theorem liveColumns_eq (cols : List Column) (kind : KeyKind) :
    liveColumns cols kind = (List.range cols.length).filter (isLiveColumn cols kind) := by
  refine List.filter_congr fun ci _ => ?_
  rw [isLiveColumn]
  cases cols[ci]? <;> rfl

/-- The type of the key column at the position. -/
def keyTypeAt (cols : List Column) (ci : Nat) : Option Basic := do
  let col ← cols[ci]?
  Ty.basic? col.type

theorem makeIndexKeySpecs_def (cols : List Column) (colIdx : Nat) (kind : IndexKind) :
    makeIndexKeySpecs cols colIdx kind =
      cols[colIdx]?.bind fun col => (indexedValueSpecs kind col.type).bind fun value =>
        ((partitionKeyColIndices cols).mapM (keyTypeAt cols)).bind fun pk =>
          some (value.map ascSpec ++ ascSpec .bigint :: pk.map ascSpec ++ clusteringKeySpecs cols) :=
  rfl

theorem mem_liveColumns {cols : List Column} {kind : KeyKind} {ci : Nat} :
    ci ∈ liveColumns cols kind ↔ ∃ col, cols[ci]? = some col ∧ col.tombstone = false ∧ col.keyKind = kind := by
  rw [liveColumns_eq, List.mem_filter, List.mem_range, isLiveColumn]
  cases hcol : cols[ci]? with
  | none => simp
  | some col =>
      have hlt := (List.getElem?_eq_some_iff.mp hcol).1
      simp [hlt]

theorem mem_sortByKeyPosition {cols : List Column} {cis : List Nat} {ci : Nat} :
    ci ∈ sortByKeyPosition cols cis ↔ ci ∈ cis :=
  List.mem_insertionSort _

theorem mem_partitionKeyColIndices {cols : List Column} {ci : Nat} :
    ci ∈ partitionKeyColIndices cols ↔
      ∃ col, cols[ci]? = some col ∧ col.tombstone = false ∧ col.keyKind = .partitionKey :=
  mem_sortByKeyPosition.trans mem_liveColumns

theorem mem_clusteringKeyColIndices {cols : List Column} {ci : Nat} :
    ci ∈ clusteringKeyColIndices cols ↔
      ∃ col, cols[ci]? = some col ∧ col.tombstone = false ∧ col.keyKind = .clusteringKey :=
  mem_sortByKeyPosition.trans mem_liveColumns

/-- The second list of columns has the live key columns of the first, at the same places, in the same
order, and columns of the same types at all places of the first. -/
structure SameKey (cols cols' : List Column) : Prop where
  position : ∀ ci : Nat,
    (cols'[ci]?.map (·.keyPosition.toNat)).getD 0 = (cols[ci]?.map (·.keyPosition.toNat)).getD 0
  live : ∀ kind : KeyKind, kind ≠ .none → liveColumns cols' kind = liveColumns cols kind
  column : ∀ (ci : Nat) (col : Column), cols[ci]? = some col →
    ∃ col', cols'[ci]? = some col' ∧ shape col'.type = shape col.type ∧
      col'.clusteringOrder = col.clusteringOrder

namespace SameKey

variable {cols cols' : List Column}

theorem sortByKeyPosition_eq (h : SameKey cols cols') : sortByKeyPosition cols' = sortByKeyPosition cols := by
  funext cis
  simp only [sortByKeyPosition, h.position]

theorem partitionKeyColIndices_eq (h : SameKey cols cols') :
    partitionKeyColIndices cols' = partitionKeyColIndices cols := by
  rw [partitionKeyColIndices, partitionKeyColIndices, h.sortByKeyPosition_eq, h.live _ (by decide)]

theorem clusteringKeySpecs_eq (h : SameKey cols cols') : clusteringKeySpecs cols' = clusteringKeySpecs cols := by
  have hindices : clusteringKeyColIndices cols' = clusteringKeyColIndices cols := by
    rw [clusteringKeyColIndices, clusteringKeyColIndices, h.sortByKeyPosition_eq, h.live _ (by decide)]
  rw [clusteringKeySpecs, clusteringKeySpecs, hindices]
  refine List.filterMap_congr fun ci hci => ?_
  obtain ⟨col, hcol, -⟩ := mem_clusteringKeyColIndices.mp hci
  obtain ⟨col', hcol', htype, horder⟩ := h.column ci col hcol
  simp only [hcol, hcol', Option.map_some, basic?_of_shape htype, horder]

theorem makeIndexKeySpecs_eq (h : SameKey cols cols') {colIdx : Nat} {kind : IndexKind}
    {specs : List ColumnSpec} (hspecs : makeIndexKeySpecs cols colIdx kind = some specs) :
    makeIndexKeySpecs cols' colIdx kind = some specs := by
  obtain ⟨col, hcol, -⟩ := Option.bind_eq_some_iff.mp hspecs
  obtain ⟨col', hcol', htype, -⟩ := h.column colIdx col hcol
  have hpk : (partitionKeyColIndices cols').mapM (keyTypeAt cols') =
      (partitionKeyColIndices cols).mapM (keyTypeAt cols) := by
    rw [h.partitionKeyColIndices_eq]
    refine mapM_congr fun ci hci => ?_
    obtain ⟨pk, hpk, -⟩ := mem_partitionKeyColIndices.mp hci
    obtain ⟨pk', hpk', htype, -⟩ := h.column ci pk hpk
    simp [keyTypeAt, hpk, hpk', basic?_of_shape htype]
  rw [← hspecs, makeIndexKeySpecs_def, makeIndexKeySpecs_def, hpk, h.clusteringKeySpecs_eq, hcol, hcol']
  simp only [Option.bind_some, indexedValueSpecs_of_shape htype]

end SameKey

/-- A new column outside the key. -/
theorem SameKey.append {cols : List Column} {col : Column} (hkind : col.keyKind = .none)
    (hposition : col.keyPosition = 0) : SameKey cols (cols ++ [col]) where
  position ci := by
    rw [List.getElem?_append]
    split_ifs with hci
    · rfl
    · rw [List.getElem?_eq_none (by omega : cols.length ≤ ci), List.getElem?_singleton]
      split_ifs
      · simp [hposition]
      · rfl
  live kind hne := by
    rw [liveColumns_eq, liveColumns_eq, List.length_append, List.length_singleton, List.range_succ,
      List.filter_append]
    have hlast : [cols.length].filter (isLiveColumn (cols ++ [col]) kind) = [] := by
      simp [isLiveColumn, hkind, hne.symm]
    rw [hlast, List.append_nil]
    refine List.filter_congr fun ci hci => ?_
    rw [isLiveColumn, isLiveColumn, List.getElem?_append_left (List.mem_range.mp hci)]
  column ci old hold :=
    ⟨old, by rw [List.getElem?_append_left (List.getElem?_eq_some_iff.mp hold).1, hold], rfl, rfl⟩

/-- A column outside the key is dropped. -/
theorem SameKey.dropColumn {cols : List Column} {ci : Nat} {col : Column} (hcol : cols[ci]? = some col)
    (hkind : col.keyKind = .none) : SameKey cols (cols.modify ci Column.dead) where
  position j := by
    rw [List.getElem?_modify]
    cases cols[j]? with
    | none => rfl
    | some old => by_cases hij : ci = j <;> simp [hij, Column.dead]
  live kind hne := by
    rw [liveColumns_eq, liveColumns_eq, List.length_modify]
    refine List.filter_congr fun j _ => ?_
    rw [isLiveColumn, isLiveColumn, List.getElem?_modify]
    by_cases hij : ci = j
    · subst hij
      simp [hcol, Column.dead, hkind, hne.symm]
    · simp [hij]
  column j old hold := by
    rw [List.getElem?_modify, hold]
    by_cases hij : ci = j
    · exact ⟨old.dead, by simp [hij], rfl, rfl⟩
    · exact ⟨old, by simp [hij], rfl, rfl⟩

/-- When the components of an index key can be made. -/
theorem makeIndexKeySpecs_isSome {cols : List Column} {colIdx : Nat} {kind : IndexKind} :
    (makeIndexKeySpecs cols colIdx kind).isSome ↔
      (∃ col, cols[colIdx]? = some col ∧ (indexedValueSpecs kind col.type).isSome) ∧
        ∀ (ci : Nat) (col : Column), cols[ci]? = some col → col.tombstone = false →
          col.keyKind = .partitionKey → (Ty.basic? col.type).isSome := by
  have hpk : ((partitionKeyColIndices cols).mapM (keyTypeAt cols)).isSome ↔
      ∀ (ci : Nat) (col : Column), cols[ci]? = some col → col.tombstone = false →
        col.keyKind = .partitionKey → (Ty.basic? col.type).isSome := by
    rw [mapM_isSome]
    constructor
    · intro h ci col hcol hlive hkind
      have := h ci (mem_partitionKeyColIndices.mpr ⟨col, hcol, hlive, hkind⟩)
      simpa [keyTypeAt, hcol] using this
    · intro h ci hci
      obtain ⟨col, hcol, hlive, hkind⟩ := mem_partitionKeyColIndices.mp hci
      simpa [keyTypeAt, hcol] using h ci col hcol hlive hkind
  rw [← hpk, makeIndexKeySpecs_def]
  cases cols[colIdx]? with
  | none => simp
  | some col =>
      cases hvalue : indexedValueSpecs kind col.type with
      | none => simp [hvalue]
      | some value => cases (partitionKeyColIndices cols).mapM (keyTypeAt cols) <;> simp [hvalue]

/-- An index key can still be made after a column is dropped. -/
theorem makeIndexKeySpecs_dropColumn {cols : List Column} {colIdx : Nat} {kind : IndexKind} (ci : Nat)
    (h : (makeIndexKeySpecs cols colIdx kind).isSome) :
    (makeIndexKeySpecs (cols.modify ci Column.dead) colIdx kind).isSome := by
  obtain ⟨⟨col, hcol, hvalue⟩, hpk⟩ := makeIndexKeySpecs_isSome.mp h
  have hold : ∀ (j : Nat) (col' : Column), (cols.modify ci Column.dead)[j]? = some col' →
      ∃ col, cols[j]? = some col ∧ (col' = col ∨ col' = col.dead) := by
    intro j col' hcol'
    rw [List.getElem?_modify] at hcol'
    obtain ⟨col, hcol, rfl⟩ := Option.map_eq_some_iff.mp hcol'
    refine ⟨col, hcol, ?_⟩
    split_ifs
    · exact Or.inr rfl
    · exact Or.inl rfl
  refine makeIndexKeySpecs_isSome.mpr ⟨?_, fun j col' hcol' hlive hkind => ?_⟩
  · rw [List.getElem?_modify, hcol]
    exact ⟨_, rfl, by split_ifs <;> exact hvalue⟩
  · obtain ⟨old, hcols, rfl | rfl⟩ := hold j col' hcol'
    · exact hpk j col' hcols hlive hkind
    · cases hlive

end Plexdb.Cql.Schema
