import Plexdb.SchemaTypeLog

/-! `load` succeeds on the blobs of a schema and rebuilds it: each pass extends the relation between
blobs and memory by one record. -/

namespace Plexdb.Cql.Schema

/-! ### Keyspaces and tables -/

theorem KeyspacesStored.getElem? {records : List KeyspaceRecord} {s : Schema} (h : KeyspacesStored records s)
    {keyspace : String8} {ks : Nat} (hks : s.readKeyspace keyspace = some ks) :
    ∃ k, s.keyspaces[ks]? = some k ∧ k.tombstone = false ∧ k.name = keyspace := by
  obtain ⟨r, hr, hlive, hname⟩ := (h.byName keyspace ks).mp hks
  rw [← h.stored, List.getElem?_map] at hr
  obtain ⟨k, hk, rfl⟩ := Option.map_eq_some_iff.mp hr
  exact ⟨k, hk, by simpa [Keyspace.record] using hlive, hname⟩

theorem KeyspacesStored.keyspaceName {records : List KeyspaceRecord} {s : Schema} (h : KeyspacesStored records s)
    {keyspace : String8} {ks : Nat} (hks : s.readKeyspace keyspace = some ks) :
    s.keyspaceName ks = some keyspace := by
  obtain ⟨k, hk, -, hname⟩ := h.getElem? hks
  rw [Schema.keyspaceName, hk, Option.map_some, hname]

/-- No table has columns or indexes yet. -/
def Bare (s : Schema) : Prop := ∀ tbl ∈ s.tables, tbl.cols = [] ∧ tbl.indexes = [] ∧ tbl.indexesByName = []

theorem loadTables_stored {blobs : Blobs} {s : Schema} (hks : KeyspacesStored blobs.keyspaces s)
    (ht : TablesStored blobs.tables s) :
    ∃ s₀, loadTables blobs = some s₀ ∧ KeyspacesStored blobs.keyspaces s₀ ∧ TablesStored blobs.tables s₀ ∧
      TypesStored [] s₀ ∧ Bare s₀ := by
  have hall : (blobs.tables.all fun r => r.keyspaceIdx < blobs.keyspaces.length) = true := by
    refine List.all_eq_true.mpr fun r hr => decide_eq_true ?_
    have := ht.below r hr
    rwa [hks.length_eq] at this
  refine ⟨_, by rw [loadTables, if_pos hall], ?_, ?_, ?_, ?_⟩
  · refine ⟨?_, NameMap.indexBy_indexes hks.byName.unique⟩
    refine List.ext_getElem? fun ks => ?_
    rw [List.getElem?_map, List.getElem?_mapIdx]
    cases blobs.keyspaces[ks]? <;> rfl
  · refine ⟨?_, fun r hr => ?_, fun ks k hk => ?_⟩
    · rw [List.map_map]
      exact List.map_id _
    · rw [List.length_mapIdx, ← hks.length_eq]
      exact ht.below r hr
    · rw [List.getElem?_mapIdx] at hk
      obtain ⟨r, hr, rfl⟩ := Option.map_eq_some_iff.mp hk
      have hlt : ks < s.keyspaces.length := by
        rw [hks.length_eq]
        exact (List.getElem?_eq_some_iff.mp hr).1
      exact NameMap.indexBy_indexes (ht.byName ks _ (List.getElem?_eq_getElem hlt)).unique
  · refine ⟨rfl, List.forall_mem_nil _, fun i u hu => (by cases hu), List.forall_mem_nil _, List.forall_mem_nil _,
      fun ks k name p hk hp => ?_, List.forall_mem_nil _⟩
    rw [List.getElem?_mapIdx] at hk
    obtain ⟨r, hr, rfl⟩ := Option.map_eq_some_iff.mp hk
    cases hp
  · exact List.forall_mem_map.mpr fun r _ => ⟨rfl, rfl, rfl⟩

/-! ### User types -/

/-- Keyspaces and tables are the same but for the user types of the keyspaces. -/
structure SameObjects (s s' : Schema) : Prop where
  keyspaces : s'.keyspaces.map (fun k => { k with udtsByName := [] }) =
    s.keyspaces.map fun k => { k with udtsByName := [] }
  keyspacesByName : s'.keyspacesByName = s.keyspacesByName
  tables : s'.tables = s.tables

theorem SameObjects.refl (s : Schema) : SameObjects s s := ⟨rfl, rfl, rfl⟩

theorem SameObjects.getElem? {s s' : Schema} (h : SameObjects s s') {ks : Nat} {k' : Keyspace}
    (hk' : s'.keyspaces[ks]? = some k') :
    ∃ k, s.keyspaces[ks]? = some k ∧ k.record = k'.record ∧ k.tblsByName = k'.tblsByName := by
  have hview : (s.keyspaces.map fun k => { k with udtsByName := [] })[ks]? =
      some { k' with udtsByName := [] } := by
    rw [← h.keyspaces, List.getElem?_map, hk', Option.map_some]
  rw [List.getElem?_map] at hview
  obtain ⟨k, hk, heq⟩ := Option.map_eq_some_iff.mp hview
  have hname := congrArg Keyspace.name heq
  have htombstone := congrArg Keyspace.tombstone heq
  have hoptions := congrArg Keyspace.options heq
  have htables := congrArg Keyspace.tblsByName heq
  dsimp only at hname htombstone hoptions htables
  exact ⟨k, hk, by rw [Keyspace.record, Keyspace.record, hname, htombstone, hoptions], htables⟩

theorem SameObjects.keyspacesStored {s s' : Schema} (h : SameObjects s s') {records : List KeyspaceRecord}
    (hks : KeyspacesStored records s) : KeyspacesStored records s' where
  stored := by
    have hrecord (s : Schema) : s.keyspaces.map Keyspace.record =
        (s.keyspaces.map fun k => { k with udtsByName := [] }).map Keyspace.record := by
      rw [List.map_map]
      rfl
    rw [hrecord s', h.keyspaces, ← hrecord s, hks.stored]
  byName := h.keyspacesByName ▸ hks.byName

theorem SameObjects.tablesStored {s s' : Schema} (h : SameObjects s s') {records : List TableRecord}
    (ht : TablesStored records s) : TablesStored records s' where
  stored := by rw [h.tables, ht.stored]
  below := by
    have hlength : s'.keyspaces.length = s.keyspaces.length := by simpa using congrArg List.length h.keyspaces
    rw [hlength]
    exact ht.below
  byName ks k' hk' := by
    obtain ⟨k, hk, -, htables⟩ := h.getElem? hk'
    rw [← htables]
    exact ht.byName ks k hk

theorem sameObjects_declare (s : Schema) (ks offset : Nat) (keyspace name : String8) :
    SameObjects s (s.declare ks offset keyspace name) :=
  ⟨map_modify_of_eq fun _ => rfl, rfl, rfl⟩

/-- A declaration is replayed. -/
theorem loadUdtRecord_decl {keyspaces : List KeyspaceRecord} {log rest : UdtLog} {s : Schema} {tombstone : Bool}
    {keyspace name : String8} {offset : Nat} (hks : KeyspacesStored keyspaces s) (h : TypesStored log s)
    (hlog : UdtLog.Replayable (log ++ (.decl tombstone keyspace name, offset) :: rest))
    (hsorted : UdtLog.Sorted (log ++ (.decl tombstone keyspace name, offset) :: rest))
    (hlive : (s.readKeyspace keyspace).isSome) :
    ∃ s', loadUdtRecord s (.decl tombstone keyspace name, offset) = some s' ∧ SameObjects s s' ∧
      TypesStored (log ++ [(.decl tombstone keyspace name, offset)]) s' := by
  cases tombstone with
  | true => exact ⟨_, rfl, ⟨rfl, rfl, rfl⟩, h.declareDead hlive name offset⟩
  | false =>
      obtain ⟨ks, hread⟩ := Option.isSome_iff_exists.mp hlive
      have hbefore : ∀ e ∈ log, e.2 < offset := fun e he =>
        (List.pairwise_append.mp hsorted).2.2 e he _ List.mem_cons_self
      have hafter : ∀ e ∈ (UdtRecord.decl false keyspace name, offset) :: rest, offset ≤ e.2 := by
        refine List.forall_mem_cons.mpr ⟨le_rfl, fun e he => ?_⟩
        exact (List.rel_of_pairwise_cons (List.pairwise_append.mp hsorted).2.1 he).le
      -- no live type of the keyspace has the name yet
      have hfree : s.readUdt ks name = none := by
        rw [Option.eq_none_iff_forall_ne_some]
        intro p hp
        obtain ⟨u, hu, hulive, hukeyspace, huname, -⟩ := h.bound_of_readUdt hread (hks.keyspaceName hread) hp
        have hdecl : u.decl ∈ log.decls := by
          rw [← h.decls]
          exact List.mem_map_of_mem hu
        have hoffset := hlog.unique u.decl (by rw [UdtLog.decls_append]; exact List.mem_append_left _ hdecl)
          ⟨offset, false, keyspace, name⟩ (UdtLog.mem_decls.mpr (List.mem_append_right _ List.mem_cons_self))
          hulive rfl hukeyspace huname
        have := hbefore _ (UdtLog.mem_decls.mp hdecl)
        dsimp only at this hoffset
        omega
      -- and no field belongs to it
      have hfields : log.liveFields s.udtStorage.length = [] := by
        refine List.eq_nil_iff_forall_not_mem.mpr fun f hf => ?_
        obtain ⟨o, n, b⟩ := f
        have he := UdtLog.offset_of_mem_liveFields hf
        obtain ⟨d, hd, hlt, -⟩ := hlog.fields _ _ _ _ _ (List.mem_append_left _ he)
        have ho : o < offset := hbefore _ he
        have hd' := UdtLog.getElem?_decls_of_append (fun e he => ho.le.trans (hafter e he)) hd hlt
        have := (List.getElem?_eq_some_iff.mp hd').1
        rw [h.length_decls] at this
        omega
      refine ⟨s.declare ks offset keyspace name, ?_, sameObjects_declare s ks offset keyspace name,
        h.declare hread (hks.keyspaceName hread) hfree hfields offset⟩
      simp [loadUdtRecord, hread, Schema.declare]

/-- The type of a field is read. -/
theorem readStoredType_of_readable {log rest : UdtLog} {s : Schema} {k : Keyspace} {i ks offset : Nat}
    {typeBytes : Bytes} {u : UdtStorage} (h : TypesStored log s) (hrest : ∀ e ∈ rest, offset ≤ e.2)
    (hread : UdtLog.Readable (log ++ rest) i typeBytes offset) (hu : s.udtStorage[i]? = some u)
    (hks : s.readKeyspace u.keyspace = some ks) (hk : s.keyspaces[ks]? = some k) :
    ∃ type, readStoredType k.udtsByName.find typeBytes = some type ∧ s.ResolvesIn ks type ∧
      writeType (udtName s.udts) type = typeBytes := by
  obtain ⟨d, hd, hlt, t, hsized, rfl, hrefs⟩ := hread
  have hdecl := UdtLog.getElem?_decls_of_append hrest hd hlt
  rw [← h.decls, List.getElem?_map, hu] at hdecl
  obtain rfl := Option.some.inj hdecl
  have hfind : ∀ name ∈ t.refs, ∃ p, k.udtsByName.find name = some p ∧ udtName s.udts p = name := by
    intro name hname
    obtain ⟨d', hd', hlive, hkeyspace, hname', hlt'⟩ := hrefs name hname
    have hd'' := UdtLog.mem_decls_of_append hrest hd' hlt'
    rw [← h.decls] at hd''
    obtain ⟨v, hv, rfl⟩ := List.mem_map.mp hd''
    obtain ⟨ks', p, hks', hp, hudt⟩ := h.found v hv hlive
    have hsame : s.readKeyspace v.keyspace = some ks := (congrArg s.readKeyspace hkeyspace).trans hks
    obtain rfl := Option.some.inj (hks'.symm.trans hsame)
    obtain ⟨k', hk', hp⟩ := readUdt_eq_some.mp hp
    obtain rfl := Option.some.inj (hk.symm.trans hk')
    refine ⟨p, hname' ▸ hp, ?_⟩
    rw [udtName, hudt]
    exact hname'
  choose! g hg using hfind
  refine ⟨t.rename g, readStoredType_writeType hsized fun name hname => (hg name hname).1, ?_, ?_⟩
  · refine ⟨(TypeTree.sized_rename g t).mpr hsized, fun p hp => ?_⟩
    rw [TypeTree.refs_rename] at hp
    obtain ⟨name, hname, rfl⟩ := List.mem_map.mp hp
    rw [(hg name hname).2]
    exact readUdt_eq_some.mpr ⟨k, hk, (hg name hname).1⟩
  · rw [writeType_rename]
    exact writeType_congr fun name hname => (hg name hname).2

/-- A field is replayed. -/
theorem loadUdtRecord_field {keyspaces : List KeyspaceRecord} {log rest : UdtLog} {s : Schema} {tombstone : Bool}
    {i offset : Nat} {name : String8} {typeBytes : Bytes} (hks : KeyspacesStored keyspaces s)
    (h : TypesStored log s) (hlog : UdtLog.Replayable (log ++ (.field tombstone i name typeBytes, offset) :: rest))
    (hsorted : UdtLog.Sorted (log ++ (.field tombstone i name typeBytes, offset) :: rest)) :
    ∃ s', loadUdtRecord s (.field tombstone i name typeBytes, offset) = some s' ∧ SameObjects s s' ∧
      TypesStored (log ++ [(.field tombstone i name typeBytes, offset)]) s' := by
  have hafter : ∀ e ∈ (UdtRecord.field tombstone i name typeBytes, offset) :: rest, offset ≤ e.2 := by
    refine List.forall_mem_cons.mpr ⟨le_rfl, fun e he => ?_⟩
    exact (List.rel_of_pairwise_cons (List.pairwise_append.mp hsorted).2.1 he).le
  have hread := hlog.fields _ _ _ _ _ (List.mem_append_right _ List.mem_cons_self)
  obtain ⟨d, hd, hlt, -⟩ := hread
  have hdecl := UdtLog.getElem?_decls_of_append hafter hd hlt
  rw [← h.decls, List.getElem?_map] at hdecl
  obtain ⟨u, hu, -⟩ := Option.map_eq_some_iff.mp hdecl
  obtain ⟨ks, hks'⟩ := Option.isSome_iff_exists.mp (h.keyspaces u (List.mem_of_getElem? hu))
  obtain ⟨k, hk, -, -⟩ := hks.getElem? hks'
  obtain ⟨type, htype, hresolves, hwrite⟩ := readStoredType_of_readable h hafter
    (hlog.fields _ _ _ _ _ (List.mem_append_right _ List.mem_cons_self)) hu hks' hk
  by_cases hdead : (tombstone || u.tombstone) = true
  · refine ⟨s, ?_, .refl s, h.pushDeadField hu hdead name typeBytes offset⟩
    simp only [loadUdtRecord, hu, hks', hk, htype, Option.bind_eq_bind, Option.bind_some, if_pos hdead]
  · have hulive : u.tombstone = false := by
      rw [Bool.or_eq_true, not_or] at hdead
      exact Bool.eq_false_iff.mpr hdead.2
    have htombstone : tombstone = false := by
      rw [Bool.or_eq_true, not_or] at hdead
      exact Bool.eq_false_iff.mpr hdead.1
    subst htombstone
    obtain ⟨ks', p, hks'', hp, -⟩ := h.found u (List.mem_of_getElem? hu) hulive
    obtain rfl := Option.some.inj (hks''.symm.trans hks')
    have hunique := h.uniqueStorage hlog.unique.of_append hsorted.of_append
    refine ⟨s.pushField i p u offset name type, ?_, ⟨rfl, rfl, rfl⟩, ?_⟩
    · obtain ⟨k', hk', hfind⟩ := readUdt_eq_some.mp hp
      obtain rfl := Option.some.inj (hk.symm.trans hk')
      simp only [loadUdtRecord, hu, hks', hk, htype, hfind, Option.bind_eq_bind, Option.bind_some, if_neg hdead]
      rfl
    · rw [← hwrite]
      exact h.pushField hunique hu hulive hks' hp hresolves offset name

/-- The user types are rebuilt. -/
theorem loadUdts_stored {keyspaces : List KeyspaceRecord} {log : UdtLog} {s : Schema}
    (hks : KeyspacesStored keyspaces s) (h : TypesStored [] s) (hlog : log.Replayable) (hsorted : log.Sorted)
    (hlive : ∀ d ∈ log.decls, (s.readKeyspace d.keyspace).isSome) :
    ∃ s', log.foldlM loadUdtRecord s = some s' ∧ SameObjects s s' ∧ TypesStored log s' := by
  have hfold := foldlM_prefix (f := loadUdtRecord) (l := log) (s := s)
    (P := fun seen s' => SameObjects s s' ∧ TypesStored seen s') ?_ ⟨.refl s, h⟩
  · exact hfold
  rintro seen ⟨r, offset⟩ rest s₁ rfl ⟨hsame, htypes⟩
  have hks₁ := hsame.keyspacesStored hks
  have hstep : ∃ s', loadUdtRecord s₁ (r, offset) = some s' ∧ SameObjects s₁ s' ∧
      TypesStored (seen ++ [(r, offset)]) s' := by
    cases r with
    | decl tombstone keyspace name =>
        refine loadUdtRecord_decl hks₁ htypes hlog hsorted ?_
        have hread : s₁.readKeyspace keyspace = s.readKeyspace keyspace := hks.readKeyspace_eq hks₁ keyspace
        rw [hread]
        exact hlive ⟨offset, tombstone, keyspace, name⟩
          (UdtLog.mem_decls.mpr (List.mem_append_right _ List.mem_cons_self))
    | field tombstone i name typeBytes => exact loadUdtRecord_field hks₁ htypes hlog hsorted
  obtain ⟨s₂, hs₂, hsame₂, htypes₂⟩ := hstep
  exact ⟨s₂, hs₂, ⟨hsame₂.keyspaces.trans hsame.keyspaces, hsame₂.keyspacesByName.trans hsame.keyspacesByName,
    hsame₂.tables.trans hsame.tables⟩, htypes₂⟩

/-! ### Columns -/

/-- A stored type that resolves in one schema is read back in another that the same blobs store. -/
theorem readStoredType_of_resolvesIn {keyspaces : List KeyspaceRecord} {log : UdtLog} {s s' : Schema}
    (hks : KeyspacesStored keyspaces s) (hks' : KeyspacesStored keyspaces s') (h : TypesStored log s)
    (h' : TypesStored log s') {ks : Nat} {t : Ty} (ht : s.ResolvesIn ks t) {k : Keyspace}
    (hk : s'.keyspaces[ks]? = some k) :
    ∃ type, readStoredType k.udtsByName.find (writeType (udtName s.udts) t) = some type ∧ s'.ResolvesIn ks type ∧
      writeType (udtName s'.udts) type = writeType (udtName s.udts) t := by
  have hfind : ∀ p ∈ t.refs, ∃ p', k.udtsByName.find (udtName s.udts p) = some p' ∧
      udtName s'.udts p' = udtName s.udts p := by
    intro p hp
    obtain ⟨p', hp', -⟩ := TypesStored.readUdt_eq_some hks hks' h h' (ht.2 p hp)
    obtain ⟨k', hk', hfind⟩ := readUdt_eq_some.mp hp'
    obtain rfl := Option.some.inj (hk.symm.trans hk')
    obtain ⟨-, u, -, -, -, hname, hudt⟩ := h'.bound ks k _ p' hk hfind
    refine ⟨p', hfind, ?_⟩
    rw [udtName, hudt]
    exact hname
  choose! g hg using hfind
  refine ⟨t.rename g, readStoredType_writeType ht.1 fun p hp => (hg p hp).1, ?_, ?_⟩
  · refine ⟨(TypeTree.sized_rename g t).mpr ht.1, fun p' hp' => ?_⟩
    rw [TypeTree.refs_rename] at hp'
    obtain ⟨p, hp, rfl⟩ := List.mem_map.mp hp'
    rw [(hg p hp).2]
    exact readUdt_eq_some.mpr ⟨k, hk, (hg p hp).1⟩
  · rw [writeType_rename]
    exact writeType_congr fun p hp => (hg p hp).2

theorem TablesStored.getElem?_eq {records : List TableRecord} {s s' : Schema} (h : TablesStored records s)
    (h' : TablesStored records s') {t : Nat} {tbl : Table} (htbl : s.tables[t]? = some tbl) :
    ∃ tbl', s'.tables[t]? = some tbl' ∧ tbl'.record = tbl.record := by
  have hrecord : (s'.tables.map Table.record)[t]? = some tbl.record := by
    rw [h'.stored, ← h.stored, List.getElem?_map, htbl, Option.map_some]
  rw [List.getElem?_map] at hrecord
  exact Option.map_eq_some_iff.mp hrecord

theorem TablesStored.of_tables {records : List TableRecord} {s s' : Schema} (h : TablesStored records s)
    (htables : s'.tables.map Table.record = s.tables.map Table.record) (hks : s'.keyspaces = s.keyspaces) :
    TablesStored records s' where
  stored := htables.trans h.stored
  below := hks ▸ h.below
  byName ks k hk := h.byName ks k (hks ▸ hk)

/-- The columns and the indexes of the other tables stay. -/
theorem colsAt_modify (s : Schema) (t : Nat) (f : Table → Table) (t' : Nat) :
    colsAt { s with tables := s.tables.modify t f } t' =
      if t = t' then (s.tables[t']?.map (Table.cols ∘ f)).getD [] else s.colsAt t' := by
  rw [colsAt, getElem?_modify_map]
  split_ifs <;> rfl

theorem indexesAt_modify (s : Schema) (t : Nat) (f : Table → Table) (t' : Nat) :
    indexesAt { s with tables := s.tables.modify t f } t' =
      if t = t' then (s.tables[t']?.map (Table.indexes ∘ f)).getD [] else s.indexesAt t' := by
  rw [indexesAt, getElem?_modify_map]
  split_ifs <;> rfl

theorem ColumnsStored.stored_at {records : List ColumnRecord} {s : Schema} (h : ColumnsStored records s) {t : Nat}
    {tbl : Table} (htbl : s.tables[t]? = some tbl) :
    tbl.cols.map (Column.record s.udts t) = records.filter (·.tableIdx == t) := by
  rw [← h.stored t, colsAt, htbl]
  rfl

/-- The table of a stored column. -/
theorem ColumnsStored.exists_table {records : List ColumnRecord} {s : Schema} (h : ColumnsStored records s)
    {r : ColumnRecord} (hr : r ∈ records) :
    ∃ tbl, s.tables[r.tableIdx]? = some tbl ∧ ∃ col ∈ tbl.cols, col.record s.udts r.tableIdx = r := by
  have hmem : r ∈ records.filter (·.tableIdx == r.tableIdx) := List.mem_filter.mpr ⟨hr, by simp⟩
  rw [← h.stored] at hmem
  obtain ⟨col, hcol, heq⟩ := List.mem_map.mp hmem
  rw [colsAt] at hcol
  cases htbl : s.tables[r.tableIdx]? with
  | none => rw [htbl] at hcol; cases hcol
  | some tbl =>
      rw [htbl] at hcol
      exact ⟨tbl, rfl, col, hcol, heq⟩

/-- One more column of the table at `t`. -/
theorem ColumnsStored.push {records : List ColumnRecord} {s : Schema} (h : ColumnsStored records s) {t : Nat}
    {tbl : Table} (htbl : s.tables[t]? = some tbl) (col : Column) (hcol : s.ResolvesIn tbl.keyspaceIdx col.type) :
    ColumnsStored (records ++ [col.record s.udts t])
      { s with tables := s.tables.modify t fun tbl => { tbl with cols := tbl.cols ++ [col] } } where
  stored t' := by
    rw [colsAt_modify, List.filter_append]
    by_cases hsame : t = t'
    · subst hsame
      rw [if_pos rfl, htbl, List.filter_cons_of_pos (by simp [Column.record]), ← h.stored_at htbl]
      simp
    · have hnew : [col.record s.udts t].filter (·.tableIdx == t') = [] := by simp [Column.record, hsame]
      rw [if_neg hsame, hnew, List.append_nil, ← h.stored t']
  types := by
    intro tbl' htbl'
    obtain ⟨t', ht'⟩ := List.mem_iff_getElem?.mp htbl'
    rw [List.getElem?_modify] at ht'
    obtain ⟨old, hold, rfl⟩ := Option.map_eq_some_iff.mp ht'
    have hcols := h.types old (List.mem_of_getElem? hold)
    by_cases hsame : t = t'
    · subst hsame
      rw [htbl] at hold
      obtain rfl := Option.some.inj hold
      rw [if_pos rfl]
      exact forall_mem_append_singleton hcols hcol
    · rw [if_neg hsame]
      exact hcols

theorem loadColumns_stored {blobs : Blobs} {s s₁ : Schema} (h : Persisted blobs s)
    (hks : KeyspacesStored blobs.keyspaces s₁) (ht : TablesStored blobs.tables s₁)
    (htypes : TypesStored blobs.udts.zipIdx s₁) (hbare : Bare s₁) :
    ∃ s', blobs.columns.foldlM loadColumn s₁ = some s' ∧ KeyspacesStored blobs.keyspaces s' ∧
      TablesStored blobs.tables s' ∧ TypesStored blobs.udts.zipIdx s' ∧ ColumnsStored blobs.columns s' ∧
      ∀ tbl ∈ s'.tables, tbl.indexes = [] ∧ tbl.indexesByName = [] := by
  have hcols : ColumnsStored [] s₁ := by
    refine ⟨fun t => ?_, fun tbl htbl col hcol => ?_⟩
    · rw [colsAt]
      cases htbl : s₁.tables[t]? with
      | none => rfl
      | some tbl =>
          rw [Option.map_some, (hbare tbl (List.mem_of_getElem? htbl)).1]
          rfl
    · rw [(hbare tbl htbl).1] at hcol
      cases hcol
  refine foldlM_prefix (f := loadColumn) (l := blobs.columns) (s := s₁)
    (P := fun seen s' => KeyspacesStored blobs.keyspaces s' ∧ TablesStored blobs.tables s' ∧
      TypesStored blobs.udts.zipIdx s' ∧ ColumnsStored seen s' ∧
      ∀ tbl ∈ s'.tables, tbl.indexes = [] ∧ tbl.indexesByName = []) ?_
    ⟨hks, ht, htypes, hcols, fun tbl htbl => (hbare tbl htbl).2⟩
  rintro seen r rest s₂ hsplit ⟨hks₂, ht₂, htypes₂, hcols₂, hindexes₂⟩
  have hr : r ∈ blobs.columns := hsplit ▸ List.mem_append_right _ List.mem_cons_self
  obtain ⟨tbl, htbl, col, hcol, hrecord⟩ := h.columns.exists_table hr
  obtain ⟨tbl₂, htbl₂, hsame⟩ := h.tables.getElem?_eq ht₂ htbl
  have hidx : tbl₂.keyspaceIdx = tbl.keyspaceIdx := congrArg TableRecord.keyspaceIdx hsame
  obtain ⟨k, hk⟩ : ∃ k, s₂.keyspaces[tbl₂.keyspaceIdx]? = some k := by
    have hbelow := ht₂.below tbl₂.record
      (ht₂.stored ▸ List.mem_map_of_mem (List.mem_of_getElem? htbl₂))
    exact ⟨_, List.getElem?_eq_getElem hbelow⟩
  have hresolves := h.columns.types tbl (List.mem_of_getElem? htbl) col hcol
  rw [← hidx] at hresolves
  obtain ⟨type, htype, hresolves₂, hwrite⟩ :=
    readStoredType_of_resolvesIn h.keyspaces hks₂ h.types htypes₂ hresolves hk
  have hbytes : r.typeBytes = writeType (udtName s.udts) col.type := by rw [← hrecord]; rfl
  have hback : (r.column type).record s₂.udts r.tableIdx = r := by
    rw [Column.record, ColumnRecord.column, hwrite, ← hbytes]
  have hload : loadColumn s₂ r = some { s₂ with
      tables := s₂.tables.modify r.tableIdx fun tbl => { tbl with cols := tbl.cols ++ [r.column type] } } := by
    simp only [loadColumn, htbl₂, hk, hbytes, htype, Option.bind_eq_bind, Option.bind_some]
  refine ⟨_, hload, ⟨hks₂.stored, hks₂.byName⟩,     ht₂.of_tables (map_modify_of_eq fun _ => rfl) rfl, htypes₂.congr ⟨rfl, fun _ => rfl, rfl, rfl⟩, ?_,
    forall_mem_modify hindexes₂ fun _ _ hindexes => hindexes⟩
  have hpush := hcols₂.push htbl₂ (r.column type) hresolves₂
  rw [hback] at hpush
  exact hpush

/-! ### Indexes -/

theorem IndexesStored.stored_at {log : List (IndexRecord × Nat)} {s : Schema} (h : IndexesStored log s) {t : Nat}
    {tbl : Table} (htbl : s.tables[t]? = some tbl) :
    tbl.indexes.map (fun index => (index.record t, index.idx)) = log.filter (·.1.tableIdx == t) := by
  rw [← h.stored t, indexesAt, htbl]
  rfl

/-- The table of a stored index. -/
theorem IndexesStored.exists_table {log : List (IndexRecord × Nat)} {s : Schema} (h : IndexesStored log s)
    {e : IndexRecord × Nat} (he : e ∈ log) :
    ∃ tbl, s.tables[e.1.tableIdx]? = some tbl ∧
      ∃ index ∈ tbl.indexes, (index.record e.1.tableIdx, index.idx) = e := by
  have hmem : e ∈ log.filter (·.1.tableIdx == e.1.tableIdx) := List.mem_filter.mpr ⟨he, by simp⟩
  rw [← h.stored] at hmem
  obtain ⟨index, hindex, heq⟩ := List.mem_map.mp hmem
  rw [indexesAt] at hindex
  cases htbl : s.tables[e.1.tableIdx]? with
  | none => rw [htbl] at hindex; cases hindex
  | some tbl =>
      rw [htbl] at hindex
      exact ⟨tbl, rfl, index, hindex, heq⟩

/-- The names of a table's indexes, by their records. -/
theorem IndexesStored.byRecord {log : List (IndexRecord × Nat)} {s : Schema} (h : IndexesStored log s) {t : Nat}
    {tbl : Table} (htbl : s.tables[t]? = some tbl) :
    NameMap.Indexes tbl.indexesByName (fun e => !e.1.tombstone) (·.1.name)
      (log.filter (·.1.tableIdx == t)) := by
  rw [← h.stored_at htbl]
  exact NameMap.Indexes.map.mpr (h.byName tbl (List.mem_of_getElem? htbl))

/-- One more index of the table at `t`. -/
theorem IndexesStored.push {log : List (IndexRecord × Nat)} {s : Schema} (h : IndexesStored log s) {t : Nat}
    {tbl : Table} (htbl : s.tables[t]? = some tbl) (index : Index)
    (hspecs : makeIndexKeySpecs tbl.cols index.colIdx index.kind = some index.keySpecs)
    (hfree : index.tombstone = false → tbl.indexesByName.find index.name = none) :
    IndexesStored (log ++ [(index.record t, index.idx)])
      { s with tables := s.tables.modify t (·.pushIndex index) } where
  stored t' := by
    rw [indexesAt_modify, List.filter_append]
    by_cases hsame : t = t'
    · subst hsame
      rw [if_pos rfl, htbl, List.filter_cons_of_pos (by simp [Index.record]), ← h.stored_at htbl]
      simp [Table.pushIndex]
    · have hnew : [(index.record t, index.idx)].filter (·.1.tableIdx == t') = [] := by
        simp [Index.record, hsame]
      rw [if_neg hsame, hnew, List.append_nil, ← h.stored t']
  byName := by
    intro tbl' htbl'
    obtain ⟨t', ht'⟩ := List.mem_iff_getElem?.mp htbl'
    rw [List.getElem?_modify] at ht'
    obtain ⟨old, hold, rfl⟩ := Option.map_eq_some_iff.mp ht'
    have hnames := h.byName old (List.mem_of_getElem? hold)
    by_cases hsame : t = t'
    · subst hsame
      rw [htbl] at hold
      obtain rfl := Option.some.inj hold
      rw [if_pos rfl, Table.pushIndex]
      cases hdead : index.tombstone with
      | true => exact hnames.push_dead (by rw [hdead]; rfl)
      | false => exact hnames.push (by rw [hdead]; rfl) (hfree hdead)
    · rw [if_neg hsame]
      exact hnames
  keySpecs := by
    intro tbl' htbl'
    obtain ⟨t', ht'⟩ := List.mem_iff_getElem?.mp htbl'
    rw [List.getElem?_modify] at ht'
    obtain ⟨old, hold, rfl⟩ := Option.map_eq_some_iff.mp ht'
    have hkeys := h.keySpecs old (List.mem_of_getElem? hold)
    by_cases hsame : t = t'
    · subst hsame
      rw [htbl] at hold
      obtain rfl := Option.some.inj hold
      rw [if_pos rfl]
      exact forall_mem_append_singleton hkeys ⟨index.keySpecs, hspecs, fun _ => rfl⟩
    · rw [if_neg hsame]
      exact hkeys

theorem loadIndexes_stored {blobs : Blobs} {s s₁ : Schema} (h : Persisted blobs s)
    (hks : KeyspacesStored blobs.keyspaces s₁) (ht : TablesStored blobs.tables s₁)
    (htypes : TypesStored blobs.udts.zipIdx s₁) (hcols : ColumnsStored blobs.columns s₁)
    (hbare : ∀ tbl ∈ s₁.tables, tbl.indexes = [] ∧ tbl.indexesByName = []) :
    ∃ s', blobs.indexes.zipIdx.foldlM loadIndex s₁ = some s' ∧ Persisted blobs s' := by
  have hindexes : IndexesStored [] s₁ := by
    refine ⟨fun t => ?_, fun tbl htbl => ?_, fun tbl htbl index hindex => ?_⟩
    · rw [indexesAt]
      cases htbl : s₁.tables[t]? with
      | none => rfl
      | some tbl =>
          rw [Option.map_some, (hbare tbl (List.mem_of_getElem? htbl)).1]
          rfl
    · rw [(hbare tbl htbl).1, (hbare tbl htbl).2]
      exact .nil
    · rw [(hbare tbl htbl).1] at hindex
      cases hindex
  have hfold := foldlM_prefix (f := loadIndex) (l := blobs.indexes.zipIdx) (s := s₁)
    (P := fun seen s' => KeyspacesStored blobs.keyspaces s' ∧ TablesStored blobs.tables s' ∧
      TypesStored blobs.udts.zipIdx s' ∧ ColumnsStored blobs.columns s' ∧ IndexesStored seen s') ?_
    ⟨hks, ht, htypes, hcols, hindexes⟩
  · obtain ⟨s', hs', hks', ht', htypes', hcols', hindexes'⟩ := hfold
    exact ⟨s', hs', hks', ht', h.replayable, htypes', hcols', hindexes'⟩
  rintro seen e rest s₂ hsplit ⟨hks₂, ht₂, htypes₂, hcols₂, hindexes₂⟩
  have he : e ∈ blobs.indexes.zipIdx := hsplit ▸ List.mem_append_right _ List.mem_cons_self
  obtain ⟨tbl, htbl, index, hindex, heq⟩ := h.indexes.exists_table he
  obtain ⟨tbl₂, htbl₂, hsame⟩ := h.tables.getElem?_eq ht₂ htbl
  have hidx : tbl₂.keyspaceIdx = tbl.keyspaceIdx := congrArg TableRecord.keyspaceIdx hsame
  obtain ⟨k, hk⟩ : ∃ k, s₂.keyspaces[tbl₂.keyspaceIdx]? = some k := by
    have hbelow := ht₂.below tbl₂.record
      (ht₂.stored ▸ List.mem_map_of_mem (List.mem_of_getElem? htbl₂))
    exact ⟨_, List.getElem?_eq_getElem hbelow⟩
  -- the columns are the same, so the key is
  have hcolumns := h.columns.same h.keyspaces hks₂ h.types htypes₂ hcols₂ htbl htbl₂ hidx
  obtain ⟨specs, hspecs, -⟩ := h.indexes.keySpecs tbl (List.mem_of_getElem? htbl) index hindex
  have hcolIdx : index.colIdx = e.1.colIdx := by rw [← heq]; rfl
  have hkind : index.kind = e.1.kind := by rw [← heq]; rfl
  rw [hcolIdx, hkind] at hspecs
  have hspecs₂ := (sameKey_of_sameColumns hcolumns).makeIndexKeySpecs_eq hspecs
  have hload : loadIndex s₂ e = some { s₂ with
      tables := s₂.tables.modify e.1.tableIdx (·.pushIndex (e.1.index e.2 specs)) } := by
    simp only [loadIndex, htbl₂, hk, hspecs₂, Option.bind_eq_bind, Option.bind_some]
  have hback : ((e.1.index e.2 specs).record e.1.tableIdx, (e.1.index e.2 specs).idx) = e := rfl
  have hpush := hindexes₂.push htbl₂ (e.1.index e.2 specs) hspecs₂ ?_
  · refine ⟨_, hload, ⟨hks₂.stored, hks₂.byName⟩, ht₂.of_tables (map_modify_of_eq fun _ => rfl) rfl,
      htypes₂.congr ⟨rfl, fun _ => rfl, rfl, rfl⟩, ?_, hback ▸ hpush⟩
    refine ⟨fun t => ?_, ?_⟩
    · rw [colsAt_modify, ← hcols₂.stored t]
      split_ifs <;> rfl
    · exact forall_mem_modify hcols₂.types fun _ _ hcols => hcols
  · -- an earlier live index of the name would stand at two places of the table's list
    intro hlive
    rw [Option.eq_none_iff_forall_ne_some]
    intro j hj
    obtain ⟨e', he', hlive', hname'⟩ := (hindexes₂.byRecord htbl₂ _ j).mp hj
    have hlist : blobs.indexes.zipIdx.filter (·.1.tableIdx == e.1.tableIdx) =
        seen.filter (·.1.tableIdx == e.1.tableIdx) ++ e :: rest.filter (·.1.tableIdx == e.1.tableIdx) := by
      rw [hsplit, List.filter_append, List.filter_cons_of_pos (by simp)]
    have hunique := (h.indexes.byRecord htbl).unique
    rw [hlist] at hunique
    have hlt := (List.getElem?_eq_some_iff.mp he').1
    have := hunique j _ e' e (by rw [List.getElem?_append_left hlt, he'])
      (by rw [List.getElem?_append_right le_rfl, Nat.sub_self]; rfl) hlive'
      (congrArg Bool.not hlive) hname'
    omega

/-- `load` succeeds on what is stored, and rebuilds the schema. -/
theorem Persisted.load {blobs : Blobs} {s : Schema} (h : Persisted blobs s) :
    ∃ s', load blobs = some s' ∧ Persisted blobs s' := by
  obtain ⟨s₀, hs₀, hks₀, ht₀, htypes₀, hbare₀⟩ := loadTables_stored h.keyspaces h.tables
  obtain ⟨s₁, hs₁, hsame, htypes₁⟩ := loadUdts_stored hks₀ htypes₀ h.replayable (UdtLog.sorted_zipIdx _) (by
    intro d hd
    rw [← h.types.decls] at hd
    obtain ⟨u, hu, rfl⟩ := List.mem_map.mp hd
    rw [h.keyspaces.readKeyspace_eq hks₀]
    exact h.types.keyspaces u hu)
  have hbare₁ : Bare s₁ := by
    rw [Bare, hsame.tables]
    exact hbare₀
  obtain ⟨s₂, hs₂, hks₂, ht₂, htypes₂, hcols₂, hbare₂⟩ :=
    loadColumns_stored h (hsame.keyspacesStored hks₀) (hsame.tablesStored ht₀) htypes₁ hbare₁
  obtain ⟨s₃, hs₃, hpersisted⟩ := loadIndexes_stored h hks₂ ht₂ htypes₂ hcols₂ hbare₂
  refine ⟨s₃, ?_, hpersisted⟩
  simp only [Schema.load, hs₀, hs₁, hs₂, hs₃, Option.bind_eq_bind, Option.bind_some]

end Plexdb.Cql.Schema
