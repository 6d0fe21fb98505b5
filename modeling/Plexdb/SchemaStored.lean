import Plexdb.SchemaReload
import Plexdb.SchemaEffects

/-! What the operations on keyspaces, tables, columns and indexes store is what they leave in memory. -/

namespace Plexdb.Cql.Schema

/-- The blobs store the schema, and no table has two live columns of one name. -/
structure Recorded (s : Schema) : Prop where
  persisted : Persisted s.blobs s
  distinct : ∀ tbl ∈ s.tables, DistinctNames tbl.cols

theorem Recorded.bump {s : Schema} (h : Recorded s) : Recorded s.bumpVersion where
  persisted :=
    { keyspaces := ⟨h.persisted.keyspaces.stored, h.persisted.keyspaces.byName⟩
      tables := h.persisted.tables.of_tables rfl rfl
      replayable := h.persisted.replayable
      types := h.persisted.types.congr ⟨rfl, fun _ => rfl, rfl, rfl⟩
      columns := ⟨h.persisted.columns.stored, h.persisted.columns.types⟩
      indexes := ⟨h.persisted.indexes.stored, h.persisted.indexes.byName, h.persisted.indexes.keySpecs⟩ }
  distinct := h.distinct

/-! ### Frames -/

theorem KeyspacesStored.of_keyspaces {records : List KeyspaceRecord} {s s' : Schema} (h : KeyspacesStored records s)
    (hks : s'.keyspaces.map Keyspace.record = s.keyspaces.map Keyspace.record)
    (hnames : s'.keyspacesByName = s.keyspacesByName) : KeyspacesStored records s' :=
  ⟨hks.trans h.stored, hnames ▸ h.byName⟩

theorem ColumnsStored.keep {records : List ColumnRecord} {s s' : Schema} (h : ColumnsStored records s)
    (htables : s'.tables = s.tables) (hkeeps : KeepsTypes s s') : ColumnsStored records s' where
  stored t := by
    rw [← h.stored t, colsAt, colsAt, htables]
    cases htbl : s.tables[t]? with
    | none => rfl
    | some tbl =>
        refine List.map_congr_left fun col hcol => ?_
        rw [Column.record, Column.record,
          hkeeps.writeType_eq (h.types tbl (List.mem_of_getElem? htbl) col hcol)]
  types := by
    rw [htables]
    exact fun tbl htbl col hcol => hkeeps.resolvesIn (h.types tbl htbl col hcol)

theorem IndexesStored.of_tables {log : List (IndexRecord × Nat)} {s s' : Schema} (h : IndexesStored log s)
    (htables : s'.tables = s.tables) : IndexesStored log s' where
  stored t := by rw [← h.stored t, indexesAt, indexesAt, htables]
  byName := htables ▸ h.byName
  keySpecs := htables ▸ h.keySpecs

/-- A table changes, but neither its columns nor its keyspace. -/
theorem ColumnsStored.modify {records : List ColumnRecord} {s : Schema} (h : ColumnsStored records s) (t : Nat)
    {f : Table → Table} (hf : ∀ tbl, (f tbl).cols = tbl.cols ∧ (f tbl).keyspaceIdx = tbl.keyspaceIdx) :
    ColumnsStored records { s with tables := s.tables.modify t f } where
  stored t' := by
    have hcols : Table.cols ∘ f = Table.cols := funext fun tbl => (hf tbl).1
    rw [colsAt_modify, ← h.stored t', hcols]
    split_ifs <;> rfl
  types := forall_mem_modify h.types fun tbl _ hcols => by
    rw [(hf tbl).1, (hf tbl).2]
    exact hcols

/-- A table changes, but neither its columns nor its indexes. -/
theorem IndexesStored.modify {log : List (IndexRecord × Nat)} {s : Schema} (h : IndexesStored log s) (t : Nat)
    {f : Table → Table} (hf : ∀ tbl, (f tbl).cols = tbl.cols ∧ (f tbl).indexes = tbl.indexes ∧
      (f tbl).indexesByName = tbl.indexesByName) :
    IndexesStored log { s with tables := s.tables.modify t f } where
  stored t' := by
    have hindexes : Table.indexes ∘ f = Table.indexes := funext fun tbl => (hf tbl).2.1
    rw [indexesAt_modify, ← h.stored t', hindexes]
    split_ifs <;> rfl
  byName := forall_mem_modify h.byName fun tbl _ hnames => by
    rw [(hf tbl).2.1, (hf tbl).2.2]
    exact hnames
  keySpecs := forall_mem_modify h.keySpecs fun tbl _ hspecs => by
    rw [(hf tbl).1, (hf tbl).2.1]
    exact hspecs

/-! ### Keyspaces -/

/-- The keyspaces change, but not those of the user types. -/
theorem TypesStored.of_keyspaces {log : UdtLog} {s s' : Schema} (h : TypesStored log s) (hudts : s'.udts = s.udts)
    (hstorage : s'.udtStorage = s.udtStorage)
    (hread : ∀ u ∈ s.udtStorage, s'.readKeyspace u.keyspace = s.readKeyspace u.keyspace)
    (hks : ∀ (ks : Nat) (k' : Keyspace), s'.keyspaces[ks]? = some k' → k'.udtsByName = [] ∨
      ∃ k, s.keyspaces[ks]? = some k ∧ k.name = k'.name ∧ k.udtsByName = k'.udtsByName)
    (hkeeps : KeepsTypes s s') : TypesStored log s' where
  decls := by rw [hstorage, h.decls]
  keyspaces u hu := by
    rw [hstorage] at hu
    rw [hread u hu]
    exact h.keyspaces u hu
  fields i u hu := by
    rw [hudts]
    exact h.fields i u (hstorage ▸ hu)
  lengths u hu := h.lengths u (hstorage ▸ hu)
  types u hu hlive ks hks' t ht := by
    rw [hstorage] at hu
    rw [hread u hu] at hks'
    exact hkeeps.resolvesIn (h.types u hu hlive ks hks' t ht)
  bound ks k' name p hk' hp := by
    rcases hks ks k' hk' with hnil | ⟨k, hk, hname, hnames⟩
    · rw [hnil] at hp
      cases hp
    · obtain ⟨hlive, u, hu, hbound⟩ := h.bound ks k name p hk (hnames ▸ hp)
      rw [hstorage, hudts, ← hname]
      refine ⟨?_, u, hu, hbound⟩
      rw [← hbound.2.1, hread u hu, hbound.2.1]
      exact hlive
  found u hu hlive := by
    rw [hstorage] at hu
    obtain ⟨ks, p, hks', hp, hudt⟩ := h.found u hu hlive
    exact ⟨ks, p, (hread u hu).trans hks', hkeeps.readUdt ks _ p hp, hudts ▸ hudt⟩

theorem Recorded.createKeyspace {s s' : Schema} {create : CreateKeyspace} {r : Result Nat} (h : Recorded s)
    (hcreate : s.createKeyspace create = some (r, s')) : Recorded s' := by
  rw [Schema.createKeyspace] at hcreate
  dsimp only at hcreate
  split_ifs at hcreate with hlive
  have hfree : s.readKeyspace create.name = none := Option.not_isSome_iff_eq_none.mp hlive
  cases hopts : create.options with
  | error e =>
      rw [hopts] at hcreate
      obtain ⟨-, rfl⟩ := Prod.mk.inj (Option.some.inj hcreate)
      exact h.bump
  | ok popts =>
      rw [hopts] at hcreate
      obtain ⟨-, rfl⟩ := Prod.mk.inj (Option.some.inj hcreate)
      obtain ⟨⟨hks, htables, hreplay, htypes, hcols, hindexes⟩, hdistinct⟩ := h
      -- the names that were found are found as before
      have hread : ∀ name ks, s.readKeyspace name = some ks →
          (s.keyspacesByName.insert create.name s.keyspaces.length).find name = some ks := by
        intro name ks hname
        rw [NameMap.find_insert, if_neg, ← readKeyspace, hname]
        rintro rfl
        rw [hfree] at hname
        cases hname
      have hget : ∀ (ks : Nat) (k : Keyspace), s.keyspaces[ks]? = some k →
          (s.keyspaces ++ [⟨false, create.name, popts, [], []⟩])[ks]? = some k := by
        intro ks k hk
        rw [List.getElem?_append_left (List.getElem?_eq_some_iff.mp hk).1, hk]
      have hold : ∀ (ks : Nat) (k : Keyspace),
          (s.keyspaces ++ [⟨false, create.name, popts, [], []⟩])[ks]? = some k →
          s.keyspaces[ks]? = some k ∨ (ks = s.keyspaces.length ∧ k = ⟨false, create.name, popts, [], []⟩) := by
        intro ks k hk
        rw [List.getElem?_append] at hk
        split_ifs at hk with hlt
        · exact Or.inl hk
        · rw [List.getElem?_singleton] at hk
          split_ifs at hk
          exact Or.inr ⟨by omega, (Option.some.inj hk).symm⟩
      have hkeeps : KeepsTypes s { s.bumpVersion with
          blobs := { s.blobs with keyspaces := s.blobs.keyspaces ++ [⟨false, popts, create.name⟩] }
          keyspaces := s.keyspaces ++ [⟨false, create.name, popts, [], []⟩]
          keyspacesByName := s.keyspacesByName.insert create.name s.keyspaces.length } := by
        refine ⟨fun ks name p hp => ?_, fun _ _ _ _ => rfl⟩
        obtain ⟨k, hk, hfind⟩ := readUdt_eq_some.mp hp
        exact readUdt_eq_some.mpr ⟨k, hget ks k hk, hfind⟩
      refine ⟨⟨?_, ?_, hreplay, ?_, hcols.keep rfl hkeeps, hindexes.of_tables rfl⟩, hdistinct⟩
      · refine ⟨?_, ?_⟩
        · show (s.keyspaces ++ [_]).map Keyspace.record = s.blobs.keyspaces ++ [_]
          rw [List.map_append, hks.stored]
          rfl
        · have hpush := hks.byName.push (b := ⟨false, popts, create.name⟩) rfl hfree
          rw [← hks.length_eq] at hpush
          exact hpush
      · refine ⟨htables.stored, fun r hr => ?_, fun ks k hk => ?_⟩
        · rw [List.length_append]
          exact Nat.lt_add_right _ (htables.below r hr)
        · rcases hold ks k hk with hk | ⟨rfl, rfl⟩
          · exact htables.byName ks k hk
          · refine .of_dead fun r hr => ?_
            have := htables.below r hr
            rw [TableRecord.liveIn, beq_eq_false_iff_ne.mpr (by omega), Bool.false_and]
      · refine htypes.of_keyspaces rfl rfl (fun u hu => ?_) (fun ks k hk => ?_) hkeeps
        · obtain ⟨ks, hks⟩ := Option.isSome_iff_exists.mp (htypes.keyspaces u hu)
          rw [hks]
          exact hread _ _ hks
        · rcases hold ks k hk with hk | ⟨-, rfl⟩
          · exact Or.inr ⟨k, hk, rfl, rfl⟩
          · exact Or.inl rfl

theorem Recorded.deleteKeyspace {s : Schema} {name : String8} (h : Recorded s)
    (hunused : ∀ u ∈ s.udtStorage, u.keyspace ≠ name) : Recorded (s.deleteKeyspace name).2 := by
  rw [Schema.deleteKeyspace]
  dsimp only
  cases hread : s.bumpVersion.readKeyspace name with
  | none => exact h.bump
  | some ks =>
      obtain ⟨⟨hks, htables, hreplay, htypes, hcols, hindexes⟩, hdistinct⟩ := h
      have hfind : ∀ keyspace, keyspace ≠ name →
          (s.keyspacesByName.remove name).find keyspace = s.readKeyspace keyspace := by
        intro keyspace hne
        rw [NameMap.find_remove, if_neg hne, readKeyspace]
      have hget : ∀ (ks' : Nat) (k : Keyspace), s.keyspaces[ks']? = some k →
          ∃ k', (s.keyspaces.modify ks fun k => { k with tombstone := true })[ks']? = some k' ∧
            k'.udtsByName = k.udtsByName := by
        intro ks' k hk
        rw [List.getElem?_modify, hk]
        exact ⟨_, rfl, by split_ifs <;> rfl⟩
      have hold : ∀ (ks' : Nat) (k' : Keyspace),
          (s.keyspaces.modify ks fun k => { k with tombstone := true })[ks']? = some k' →
          ∃ k, s.keyspaces[ks']? = some k ∧ k.name = k'.name ∧ k.udtsByName = k'.udtsByName ∧
            k.tblsByName = k'.tblsByName := by
        intro ks' k' hk'
        rw [List.getElem?_modify] at hk'
        obtain ⟨k, hk, rfl⟩ := Option.map_eq_some_iff.mp hk'
        exact ⟨k, hk, by split_ifs <;> exact ⟨rfl, rfl, rfl⟩⟩
      have hkeeps : KeepsTypes s { s.bumpVersion with
          keyspaces := s.keyspaces.modify ks fun k => { k with tombstone := true }
          keyspacesByName := s.keyspacesByName.remove name
          blobs := { s.blobs with
            keyspaces := s.blobs.keyspaces.modify ks fun r => { r with tombstone := true } } } := by
        refine ⟨fun ks' name' p hp => ?_, fun _ _ _ _ => rfl⟩
        obtain ⟨k, hk, hp⟩ := readUdt_eq_some.mp hp
        obtain ⟨k', hk', hnames⟩ := hget ks' k hk
        exact readUdt_eq_some.mpr ⟨k', hk', hnames ▸ hp⟩
      refine ⟨⟨?_, ?_, hreplay, ?_, hcols.keep rfl hkeeps, hindexes.of_tables rfl⟩, hdistinct⟩
      · refine ⟨?_, hks.byName.remove hread fun _ => rfl⟩
        show (s.keyspaces.modify ks _).map Keyspace.record = s.blobs.keyspaces.modify ks _
        rw [← hks.stored]
        exact map_modify fun _ => rfl
      · refine ⟨htables.stored, fun r hr => ?_, fun ks' k' hk' => ?_⟩
        · rw [List.length_modify]
          exact htables.below r hr
        · obtain ⟨k, hk, -, -, hnames⟩ := hold ks' k' hk'
          exact hnames ▸ htables.byName ks' k hk
      · refine htypes.of_keyspaces rfl rfl (fun u hu => hfind _ (hunused u hu)) (fun ks' k' hk' => ?_) hkeeps
        obtain ⟨k, hk, hname, hnames, -⟩ := hold ks' k' hk'
        exact Or.inr ⟨k, hk, hname, hnames⟩

/-! ### Tables -/

theorem Recorded.deleteTable {s : Schema} (h : Recorded s) (ks : Nat) (name : String8) :
    Recorded (s.deleteTable ks name).2 := by
  rw [Schema.deleteTable]
  dsimp only
  cases hread : s.bumpVersion.readTable ks name with
  | none => exact h.bump
  | some t =>
      obtain ⟨⟨hks, htables, hreplay, htypes, hcols, hindexes⟩, hdistinct⟩ := h
      obtain ⟨k, hk, hfind⟩ := Option.bind_eq_some_iff.mp hread
      dsimp only
      refine ⟨⟨?_, ?_, hreplay, ?_, ?_, ?_⟩, forall_mem_modify hdistinct fun _ _ hcols => hcols⟩
      · exact hks.of_keyspaces (map_modify_of_eq fun _ => rfl) rfl
      · refine ⟨?_, fun r hr => ?_, fun ks' k' hk' => ?_⟩
        · show (s.tables.modify t _).map Table.record = s.blobs.tables.modify t _
          rw [← htables.stored]
          exact map_modify fun _ => rfl
        · rw [List.length_modify]
          rcases mem_modify hr with hr | ⟨old, hold, rfl⟩
          · exact htables.below _ hr
          · exact htables.below old (List.mem_of_getElem? hold)
        · rw [List.getElem?_modify] at hk'
          obtain ⟨k₀, hk₀, rfl⟩ := Option.map_eq_some_iff.mp hk'
          by_cases hsame : ks = ks'
          · subst hsame
            obtain rfl := Option.some.inj (hk.symm.trans hk₀)
            rw [if_pos rfl]
            exact (htables.byName ks k hk).remove hfind fun r => by simp [TableRecord.liveIn]
          · rw [if_neg hsame]
            -- the table is no table of the other keyspaces
            obtain ⟨r, hr, hlive, -⟩ := (htables.byName ks k hk name t).mp hfind
            refine (htables.byName ks' k₀ hk₀).modify fun r' hr' => ⟨?_, rfl⟩
            obtain rfl := Option.some.inj (hr.symm.trans hr')
            have hidx : r.keyspaceIdx = ks := by
              simp only [TableRecord.liveIn, Bool.and_eq_true, beq_iff_eq] at hlive
              exact hlive.1
            simp [TableRecord.liveIn, hidx, hsame]
      · refine htypes.congr ⟨?_, fun _ => rfl, rfl, rfl⟩
        exact map_modify_of_eq fun _ => rfl
      · refine (hcols.modify t (f := fun tbl => { tbl with tombstone := true }) fun _ => ⟨rfl, rfl⟩).keep rfl ?_
        exact SameTypeState.keeps ⟨map_modify_of_eq fun _ => rfl, fun _ => rfl, rfl, rfl⟩
      · exact (hindexes.modify t (f := fun tbl => { tbl with tombstone := true }) fun _ => ⟨rfl, rfl, rfl⟩).of_tables rfl

theorem Recorded.setTableOptions {s : Schema} (h : Recorded s) (t : Nat) (options : TableOptions) :
    Recorded (s.setTableOptions t options) := by
  obtain ⟨⟨hks, htables, hreplay, htypes, hcols, hindexes⟩, hdistinct⟩ := h
  refine ⟨⟨⟨hks.stored, hks.byName⟩, ⟨?_, fun r hr => ?_, fun ks k hk => ?_⟩, hreplay,
    htypes.congr ⟨rfl, fun _ => rfl, rfl, rfl⟩, ?_, ?_⟩, forall_mem_modify hdistinct fun _ _ hcols => hcols⟩
  · show (s.tables.modify t _).map Table.record = s.blobs.tables.modify t _
    rw [← htables.stored]
    exact map_modify fun _ => rfl
  · rcases mem_modify hr with hr | ⟨old, hold, rfl⟩
    · exact htables.below _ hr
    · exact htables.below old (List.mem_of_getElem? hold)
  · exact (htables.byName ks k hk).modify fun _ _ => ⟨rfl, rfl⟩
  · exact (hcols.modify t (f := fun tbl => { tbl with options := options }) fun _ => ⟨rfl, rfl⟩).keep rfl
      (SameTypeState.keeps ⟨rfl, fun _ => rfl, rfl, rfl⟩)
  · exact (hindexes.modify t (f := fun tbl => { tbl with options := options }) fun _ => ⟨rfl, rfl, rfl⟩).of_tables rfl

/-- The blobs hold nothing of a table that is not there. -/
theorem ColumnsStored.filter_length {records : List ColumnRecord} {s : Schema} (h : ColumnsStored records s) :
    records.filter (·.tableIdx == s.tables.length) = [] := by
  rw [← h.stored, colsAt, List.getElem?_eq_none le_rfl]
  rfl

theorem IndexesStored.filter_length {log : List (IndexRecord × Nat)} {s : Schema} (h : IndexesStored log s) :
    log.filter (·.1.tableIdx == s.tables.length) = [] := by
  rw [← h.stored, indexesAt, List.getElem?_eq_none le_rfl]
  rfl

theorem Recorded.pushTable {s : Schema} (h : Recorded s) {ks : Nat} {k : Keyspace} (hk : s.keyspaces[ks]? = some k)
    {name : String8} (hfree : s.readTable ks name = none) (options : TableOptions) (page : UInt64) :
    Recorded (s.pushTable ks name options page) := by
  obtain ⟨⟨hks, htables, hreplay, htypes, hcols, hindexes⟩, hdistinct⟩ := h
  have hfind : k.tblsByName.find name = none := by rwa [readTable, hk] at hfree
  have hlength : s.tables.length = s.blobs.tables.length := by rw [← htables.stored, List.length_map]
  have hget : ∀ t, t ≠ s.tables.length → (s.pushTable ks name options page).tables[t]? = s.tables[t]? := by
    intro t ht
    rw [Schema.pushTable, List.getElem?_append]
    split_ifs with hlt
    · rfl
    · rw [List.getElem?_eq_none (by omega : s.tables.length ≤ t), List.getElem?_eq_none (by simp; omega)]
  have hnew : (s.pushTable ks name options page).tables[s.tables.length]? =
      some ⟨ks, false, name, [], [], [], page, options⟩ := List.getElem?_concat_length
  have htypeState : SameTypeState s (s.pushTable ks name options page) :=
    ⟨map_modify_of_eq fun _ => rfl, fun _ => rfl, rfl, rfl⟩
  refine ⟨⟨?_, ?_, hreplay, htypes.congr htypeState, ?_, ?_⟩, ?_⟩
  · exact hks.of_keyspaces (map_modify_of_eq fun _ => rfl) rfl
  · refine ⟨?_, ?_, fun ks' k' hk' => ?_⟩
    · show (s.tables ++ [_]).map Table.record = s.blobs.tables ++ [_]
      rw [List.map_append, htables.stored]
      rfl
    · have hlt := (List.getElem?_eq_some_iff.mp hk).1
      rw [Schema.pushTable, List.length_modify]
      exact forall_mem_append_singleton htables.below hlt
    · rw [Schema.pushTable, List.getElem?_modify] at hk'
      obtain ⟨k₀, hk₀, rfl⟩ := Option.map_eq_some_iff.mp hk'
      by_cases hsame : ks = ks'
      · subst hsame
        obtain rfl := Option.some.inj (hk.symm.trans hk₀)
        rw [if_pos rfl, hlength]
        exact (htables.byName ks k hk).push (b := ⟨false, ks, page, options, name⟩) (by simp [TableRecord.liveIn]) hfind
      · rw [if_neg hsame]
        exact (htables.byName ks' k₀ hk₀).push_dead (by simp [TableRecord.liveIn, hsame])
  · refine ⟨fun t => ?_, ?_⟩
    · show List.map _ _ = s.blobs.columns.filter (·.tableIdx == t)
      rw [colsAt]
      by_cases ht : t = s.tables.length
      · rw [ht, hnew, hcols.filter_length]
        rfl
      · rw [hget t ht]
        exact hcols.stored t
    · exact forall_mem_append_singleton
        (fun tbl htbl col hcol => htypeState.keeps.resolvesIn (hcols.types tbl htbl col hcol)) (List.forall_mem_nil _)
  · refine ⟨fun t => ?_, ?_, ?_⟩
    · show List.map _ _ = s.blobs.indexes.zipIdx.filter (·.1.tableIdx == t)
      rw [indexesAt]
      by_cases ht : t = s.tables.length
      · rw [ht, hnew, hindexes.filter_length]
        rfl
      · rw [hget t ht]
        exact hindexes.stored t
    · exact forall_mem_append_singleton hindexes.byName .nil
    · exact forall_mem_append_singleton hindexes.keySpecs (List.forall_mem_nil _)
  · exact forall_mem_append_singleton hdistinct NameMap.Indexes.nil.unique

/-! ### Columns -/

/-- The columns of a table change. -/
theorem IndexesStored.of_cols {log : List (IndexRecord × Nat)} {s : Schema} (h : IndexesStored log s) {t : Nat}
    {tbl : Table} (htbl : s.tables[t]? = some tbl) {g : List Column → List Column}
    (hspecs : ∀ index ∈ tbl.indexes, ∀ specs, makeIndexKeySpecs tbl.cols index.colIdx index.kind = some specs →
      ∃ specs', makeIndexKeySpecs (g tbl.cols) index.colIdx index.kind = some specs' ∧
        (index.tombstone = false → specs' = specs)) :
    IndexesStored log { s with tables := s.tables.modify t fun tbl => { tbl with cols := g tbl.cols } } where
  stored t' := by
    rw [indexesAt_modify, ← h.stored t']
    split_ifs <;> rfl
  byName := forall_mem_modify h.byName fun _ _ hnames => hnames
  keySpecs := by
    intro tbl' htbl'
    obtain ⟨t', ht'⟩ := List.mem_iff_getElem?.mp htbl'
    rw [List.getElem?_modify] at ht'
    obtain ⟨old, hold, rfl⟩ := Option.map_eq_some_iff.mp ht'
    have hkeys := h.keySpecs old (List.mem_of_getElem? hold)
    by_cases hsame : t = t'
    · subst hsame
      obtain rfl := Option.some.inj (htbl.symm.trans hold)
      rw [if_pos rfl]
      intro index hindex
      obtain ⟨specs, hmake, hlive⟩ := hkeys index hindex
      obtain ⟨specs', hmake', hsame⟩ := hspecs index hindex specs hmake
      exact ⟨specs', hmake', fun halive => (hlive halive).trans (hsame halive).symm⟩
    · rw [if_neg hsame]
      exact hkeys

theorem Recorded.createColumn {s s' : Schema} {t : Nat} {tbl : Table} {c : ColumnSpecification} (h : Recorded s)
    (htbl : s.tables[t]? = some tbl) (htype : s.ResolvesIn tbl.keyspaceIdx c.type)
    (hkey : tbl.indexes = [] ∨ (c.keyKind = .none ∧ c.keyPosition = 0))
    (hcreate : s.createColumn t c = some s') : Recorded s' := by
  obtain ⟨tbl', htbl', hcreate⟩ := Option.bind_eq_some_iff.mp hcreate
  obtain rfl := Option.some.inj (htbl.symm.trans htbl')
  split_ifs at hcreate with hfree
  obtain rfl := Option.some.inj hcreate
  obtain ⟨⟨hks, htables, hreplay, htypes, hcols, hindexes⟩, hdistinct⟩ := h
  have htypeState : SameTypeState
      { s with tables := s.tables.modify t fun tbl => { tbl with cols := tbl.cols ++ [c.column] } }
      { s.bumpVersion with
        blobs := { s.blobs with columns := s.blobs.columns ++ [c.record s.udts t] }
        tables := s.tables.modify t fun tbl => { tbl with cols := tbl.cols ++ [c.column] } } :=
    ⟨rfl, fun _ => rfl, rfl, rfl⟩
  refine ⟨⟨⟨hks.stored, hks.byName⟩, htables.of_tables (map_modify_of_eq fun _ => rfl) rfl, hreplay,
    htypes.congr ⟨rfl, fun _ => rfl, rfl, rfl⟩, (hcols.push htbl c.column htype).keep rfl htypeState.keeps, ?_⟩, ?_⟩
  · refine (hindexes.of_cols htbl (g := fun cols => cols ++ [c.column]) fun index hindex specs hspecs => ?_).of_tables rfl
    rcases hkey with hnone | ⟨hkind, hposition⟩
    · rw [hnone] at hindex
      cases hindex
    · exact ⟨specs, (SameKey.append hkind hposition).makeIndexKeySpecs_eq hspecs, fun _ => rfl⟩
  · intro tbl' htbl'
    obtain ⟨t', ht'⟩ := List.mem_iff_getElem?.mp htbl'
    rw [List.getElem?_modify] at ht'
    obtain ⟨old, hold, rfl⟩ := Option.map_eq_some_iff.mp ht'
    have hold' := hdistinct old (List.mem_of_getElem? hold)
    by_cases hsame : t = t'
    · subst hsame
      obtain rfl := Option.some.inj (htbl.symm.trans hold)
      rw [if_pos rfl]
      exact hold'.append (Option.not_isSome_iff_eq_none.mp hfree)
    · rw [if_neg hsame]
      exact hold'

/-- A live column of the name is dropped, in memory and in the blob. -/
theorem ColumnsStored.dropColumn {records : List ColumnRecord} {s : Schema} (h : ColumnsStored records s) {t : Nat}
    {tbl : Table} (htbl : s.tables[t]? = some tbl) (hdistinct : DistinctNames tbl.cols) {name : String8} {ci : Nat}
    (hfind : findColumn tbl.cols name = some ci) :
    ColumnsStored
      (modifyFirst (fun r => !r.tombstone && r.tableIdx == t && r.name == name)
        (fun r => { r with tombstone := true }) records)
      { s with tables := s.tables.modify t fun tbl => { tbl with cols := tbl.cols.modify ci Column.dead } } where
  stored t' := by
    rw [colsAt_modify]
    by_cases hsame : t = t'
    · subst hsame
      obtain ⟨col, hcol, hlive, hname⟩ := (hdistinct.indexes name ci).mp hfind
      have hrecord : (tbl.cols.map (Column.record s.udts t))[ci]? = some (col.record s.udts t) := by
        rw [List.getElem?_map, hcol, Option.map_some]
      rw [if_pos rfl, htbl, filter_modifyFirst, ← h.stored_at htbl, modifyFirst_eq_modify hrecord]
      · exact map_modify fun _ => rfl
      · simpa [Column.record, hname] using hlive
      · intro j r hr hp
        rw [List.getElem?_map] at hr
        obtain ⟨other, hother, rfl⟩ := Option.map_eq_some_iff.mp hr
        simp only [Column.record, Bool.and_eq_true, beq_iff_eq] at hp
        exact hdistinct j ci other col hother hcol hp.1.1 hlive (hp.2.trans hname.symm)
      · intro r hr
        simp only [Bool.and_eq_true] at hr
        exact hr.1.2
      · exact fun _ => rfl
    · rw [if_neg hsame, h.stored t', filter_modifyFirst_of_not]
      · intro r hr
        simp only [Bool.and_eq_true, beq_iff_eq] at hr
        simp [hr.1.2, hsame]
      · exact fun _ => rfl
  types := forall_mem_modify h.types fun tbl _ hcols =>
    forall_mem_modify hcols fun _ _ htype => htype

theorem Recorded.deleteColumn {s s' : Schema} {t : Nat} {tbl : Table} {name : String8} {r : Result Unit}
    (h : Recorded s) (htbl : s.tables[t]? = some tbl)
    (hkey : (∀ index ∈ tbl.indexes, index.tombstone = true) ∨
      ∀ ci col, findColumn tbl.cols name = some ci → tbl.cols[ci]? = some col → col.keyKind = .none)
    (hdelete : s.deleteColumn t name = some (r, s')) : Recorded s' := by
  obtain ⟨tbl', htbl', hdelete⟩ := Option.bind_eq_some_iff.mp hdelete
  obtain rfl := Option.some.inj (htbl.symm.trans htbl')
  cases hfind : findColumn tbl.cols name with
  | none =>
      rw [hfind] at hdelete
      obtain ⟨-, rfl⟩ := Prod.mk.inj (Option.some.inj hdelete)
      exact h.bump
  | some ci =>
      rw [hfind] at hdelete
      obtain ⟨-, rfl⟩ := Prod.mk.inj (Option.some.inj hdelete)
      obtain ⟨⟨hks, htables, hreplay, htypes, hcols, hindexes⟩, hdistinct⟩ := h
      have hnames := hdistinct tbl (List.mem_of_getElem? htbl)
      obtain ⟨col, hcol, -, -⟩ := (hnames.indexes name ci).mp hfind
      refine ⟨⟨⟨hks.stored, hks.byName⟩, htables.of_tables (map_modify_of_eq fun _ => rfl) rfl, hreplay,
        htypes.congr ⟨rfl, fun _ => rfl, rfl, rfl⟩, ?_, ?_⟩, ?_⟩
      · exact (hcols.dropColumn htbl hnames hfind).keep rfl (SameTypeState.keeps ⟨rfl, fun _ => rfl, rfl, rfl⟩)
      · refine (hindexes.of_cols htbl (g := fun cols => cols.modify ci Column.dead)
          fun index hindex specs hspecs => ?_).of_tables rfl
        rcases hkey with hdead | hkind
        · have hsome := makeIndexKeySpecs_dropColumn ci (Option.isSome_iff_exists.mpr ⟨specs, hspecs⟩)
          obtain ⟨specs', hspecs'⟩ := Option.isSome_iff_exists.mp hsome
          refine ⟨specs', hspecs', fun hlive => ?_⟩
          rw [hdead index hindex] at hlive
          cases hlive
        · exact ⟨specs, (SameKey.dropColumn hcol (hkind ci col hfind hcol)).makeIndexKeySpecs_eq hspecs,
            fun _ => rfl⟩
      · intro tbl' htbl'
        obtain ⟨t', ht'⟩ := List.mem_iff_getElem?.mp htbl'
        rw [List.getElem?_modify] at ht'
        obtain ⟨old, hold, rfl⟩ := Option.map_eq_some_iff.mp ht'
        by_cases hsame : t = t'
        · subst hsame
          obtain rfl := Option.some.inj (htbl.symm.trans hold)
          rw [if_pos rfl]
          exact hnames.dropColumn hfind
        · rw [if_neg hsame]
          exact hdistinct old (List.mem_of_getElem? hold)

/-! ### Indexes -/

theorem Recorded.createIndex {s s' : Schema} {t colIdx : Nat} {tbl : Table} {name : String8} {kind : IndexKind}
    {page : UInt64} (h : Recorded s) (htbl : s.tables[t]? = some tbl) (hfree : readIndex tbl name = none)
    (hcreate : s.createIndex t colIdx name kind page = some s') : Recorded s' := by
  obtain ⟨tbl', htbl', hcreate⟩ := Option.bind_eq_some_iff.mp hcreate
  obtain rfl := Option.some.inj (htbl.symm.trans htbl')
  obtain ⟨specs, hspecs, hcreate⟩ := Option.bind_eq_some_iff.mp hcreate
  obtain rfl := Option.some.inj hcreate
  obtain ⟨⟨hks, htables, hreplay, htypes, hcols, hindexes⟩, hdistinct⟩ := h
  refine ⟨⟨⟨hks.stored, hks.byName⟩, htables.of_tables (map_modify_of_eq fun _ => rfl) rfl, hreplay,
    htypes.congr ⟨rfl, fun _ => rfl, rfl, rfl⟩, ?_, ?_⟩, forall_mem_modify hdistinct fun _ _ hcols => hcols⟩
  · refine (hcols.modify t (f := fun tbl => tbl.pushIndex
      ⟨s.blobs.indexes.length, false, name, colIdx, kind, page, specs⟩) fun _ => ⟨rfl, rfl⟩).keep rfl ?_
    exact SameTypeState.keeps ⟨rfl, fun _ => rfl, rfl, rfl⟩
  · have hpush := hindexes.push htbl ⟨s.blobs.indexes.length, false, name, colIdx, kind, page, specs⟩ hspecs
      fun _ => hfree
    rw [show s.bumpVersion.blobs.indexes = s.blobs.indexes from rfl, List.zipIdx_append]
    simp only [Nat.zero_add]
    exact hpush.of_tables rfl

/-- A live index of the name is dropped, in memory and in the blob. -/
theorem IndexesStored.dropIndex {records : List IndexRecord} {s : Schema} (h : IndexesStored records.zipIdx s)
    {t : Nat} {tbl : Table} (htbl : s.tables[t]? = some tbl) {name : String8} {i : Nat} {index : Index}
    (hfind : readIndex tbl name = some i) (hindex : tbl.indexes[i]? = some index) :
    IndexesStored (records.modify index.idx fun r => { r with tombstone := true }).zipIdx
      { s with tables := s.tables.modify t fun tbl =>
        { tbl with
          indexes := tbl.indexes.modify i fun index => { index with tombstone := true }
          indexesByName := tbl.indexesByName.remove name } } := by
  have hget : ∀ (j : Nat) (other : Index), tbl.indexes[j]? = some other →
      (records.zipIdx.filter (·.1.tableIdx == t))[j]? = some (other.record t, other.idx) := by
    intro j other hother
    rw [← h.stored_at htbl, List.getElem?_map, hother, Option.map_some]
  have hrecord := List.mem_zipIdx_iff_getElem?.mp (List.mem_of_mem_filter (List.mem_of_getElem? (hget i index hindex)))
  -- an entry of the log changes where it stands at the position of the index
  have hlog : ∀ t', (records.modify index.idx fun r => { r with tombstone := true }).zipIdx.filter
        (·.1.tableIdx == t') =
      (records.zipIdx.filter (·.1.tableIdx == t')).map fun e =>
        if e.2 = index.idx then ({ e.1 with tombstone := true }, e.2) else e := by
    intro t'
    rw [zipIdx_modify, List.filter_map]
    congr 1
    refine List.filter_congr fun e _ => ?_
    rw [Function.comp_apply]
    split_ifs <;> rfl
  refine ⟨fun t' => ?_, fun tbl' htbl' => ?_, fun tbl' htbl' => ?_⟩
  · rw [hlog, indexesAt_modify]
    by_cases hsame : t = t'
    · subst hsame
      rw [if_pos rfl, htbl, ← h.stored_at htbl, List.map_map]
      refine List.ext_getElem? fun j => ?_
      rw [List.getElem?_map, List.getElem?_map, Option.map_some, Option.getD_some, Function.comp_apply,
        List.getElem?_modify]
      cases hother : tbl.indexes[j]? with
      | none => rfl
      | some other =>
          have hpos : other.idx = index.idx ↔ i = j := by
            constructor
            · exact fun heq => filter_zipIdx_inj (hget i index hindex) (hget j other hother) heq.symm
            · rintro rfl
              rw [Option.some.inj (hother.symm.trans hindex)]
          by_cases hij : i = j
          · simp [hij, hpos.mpr hij, Index.record]
          · simp [hij, mt hpos.mp hij, Index.record]
    · rw [if_neg hsame, h.stored t']
      refine (List.map_id _).symm.trans (List.map_congr_left fun e he => ?_)
      rw [if_neg, id]
      intro heq
      obtain ⟨hmem, hidx⟩ := List.mem_filter.mp he
      have hsame' := List.mem_zipIdx_iff_getElem?.mp hmem
      rw [heq, hrecord] at hsame'
      rw [← Option.some.inj hsame'] at hidx
      exact hsame (beq_iff_eq.mp hidx)
  · obtain ⟨t', ht'⟩ := List.mem_iff_getElem?.mp htbl'
    rw [List.getElem?_modify] at ht'
    obtain ⟨old, hold, rfl⟩ := Option.map_eq_some_iff.mp ht'
    by_cases hsame : t = t'
    · subst hsame
      obtain rfl := Option.some.inj (htbl.symm.trans hold)
      rw [if_pos rfl]
      exact (h.byName tbl (List.mem_of_getElem? htbl)).remove hfind fun _ => rfl
    · rw [if_neg hsame]
      exact h.byName old (List.mem_of_getElem? hold)
  · obtain ⟨t', ht'⟩ := List.mem_iff_getElem?.mp htbl'
    rw [List.getElem?_modify] at ht'
    obtain ⟨old, hold, rfl⟩ := Option.map_eq_some_iff.mp ht'
    have hkeys := h.keySpecs old (List.mem_of_getElem? hold)
    by_cases hsame : t = t'
    · rw [if_pos hsame]
      refine forall_mem_modify hkeys ?_
      rintro index' - ⟨specs, hspecs, -⟩
      exact ⟨specs, hspecs, fun hdead => by cases hdead⟩
    · rw [if_neg hsame]
      exact hkeys

theorem Recorded.deleteIndex {s s' : Schema} {t : Nat} {name : String8} {r : Result Unit} (h : Recorded s)
    (hdelete : s.deleteIndex t name = some (r, s')) : Recorded s' := by
  obtain ⟨tbl, htbl, hdelete⟩ := Option.bind_eq_some_iff.mp hdelete
  cases hread : readIndex tbl name with
  | none =>
      rw [hread] at hdelete
      obtain ⟨-, rfl⟩ := Prod.mk.inj (Option.some.inj hdelete)
      exact h.bump
  | some i =>
      rw [hread] at hdelete
      obtain ⟨index, hindex, hdelete⟩ := Option.bind_eq_some_iff.mp hdelete
      obtain ⟨-, rfl⟩ := Prod.mk.inj (Option.some.inj hdelete)
      obtain ⟨⟨hks, htables, hreplay, htypes, hcols, hindexes⟩, hdistinct⟩ := h
      refine ⟨⟨⟨hks.stored, hks.byName⟩, htables.of_tables (map_modify_of_eq fun _ => rfl) rfl, hreplay,
        htypes.congr ⟨rfl, fun _ => rfl, rfl, rfl⟩, ?_, (hindexes.dropIndex htbl hread hindex).of_tables rfl⟩,
        forall_mem_modify hdistinct fun _ _ hcols => hcols⟩
      refine (hcols.modify t (f := fun tbl =>
        { tbl with
          indexes := tbl.indexes.modify i fun index => { index with tombstone := true }
          indexesByName := tbl.indexesByName.remove name }) fun _ => ⟨rfl, rfl⟩).keep rfl ?_
      exact SameTypeState.keeps ⟨rfl, fun _ => rfl, rfl, rfl⟩

end Plexdb.Cql.Schema
