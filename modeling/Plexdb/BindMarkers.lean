import Plexdb.BindReports
import Plexdb.NativeValues

/-! Binding a statement puts each value at the marker that was reported in its place and leaves no
marker exactly when both traversals visit every marker and the integers are integers. -/

namespace Plexdb.Cql

open Holes

/-- The marker of `PER PARTITION LIMIT`, which is reported and stays. -/
def perPartitionMarkers : DmlStatement → List Nat
  | .select s => markersOf (collectBindInLimit s.perPartitionLimit)
  | _ => []

/-- What makes the report complete. -/
def StatementReported (schema : Schema) (currentKeyspace : String8) : DmlStatement → Prop
  | .insert s => ModificationReported schema currentKeyspace (.insert s)
  | .update s => ModificationReported schema currentKeyspace (.update s)
  | .delete s => ModificationReported schema currentKeyspace (.delete s)
  | .batch s => ∀ m ∈ s.statements, ModificationReported schema currentKeyspace m
  | .select s => TableFound schema currentKeyspace s.from_ (selectSlots.sites s) ∧ ∀ w ∈ s.where_, WhereReported w

/-- What is reported of the markers to replace, and then of `PER PARTITION LIMIT`. -/
def StatementReports (schema : Schema) (currentKeyspace : String8) (s : DmlStatement) : Prop :=
  (∀ specs, collectBindVariables schema currentKeyspace s = some specs → ∃ front back, specs = front ++ back ∧
    List.Sublist (markersOf back) (perPartitionMarkers s) ∧
    Reports (markersOf front) (positionsOf (statementSlots.sites s)) (StatementReported schema currentKeyspace s)) ∧
  (StatementReported schema currentKeyspace s → (collectBindVariables schema currentKeyspace s).isSome = true)

theorem StatementReports.of_reportsAs {schema : Schema} {currentKeyspace : String8} {s : DmlStatement}
    (h : ReportsAs (collectBindVariables schema currentKeyspace s) (positionsOf (statementSlots.sites s))
      (StatementReported schema currentKeyspace s)) : StatementReports schema currentKeyspace s :=
  ⟨fun specs hspecs => ⟨specs, [], (List.append_nil _).symm, List.nil_sublist _, h.1 specs hspecs⟩, h.2⟩

theorem reports_batch (schema : Schema) (currentKeyspace : String8) (s : Batch) (hreach : batchSlots.reach s) :
    ReportsAs (collectBindVariables schema currentKeyspace (.batch s)) (positionsOf (batchSlots.sites s))
      (∀ m ∈ s.statements, ModificationReported schema currentKeyspace m) := by
  have hchildren := ReportsAs.flatten fun m hm => reports_modification schema currentKeyspace m (hreach.2 m hm)
  have husing : ReportsAs (some (collectBindInUsingParams s.usingParameters))
      (positionsOf (usingSlots.sites s.usingParameters)) True :=
    ReportsAs.of_some (Reports.all (markersOf_collectBindInUsingParams _) trivial)
  have hboth := husing.append hchildren
  rw [true_and, ← positionsOf_flatMap, ← positionsOf_append] at hboth
  have heq : collectBindVariables schema currentKeyspace (.batch s) =
      (some (collectBindInUsingParams s.usingParameters)).bind fun front =>
        ((s.statements.mapM (collectBindVariablesModification schema currentKeyspace)).map List.flatten).map
          fun back => front ++ back := by
    rw [collectBindVariables, Option.bind_some]
    cases s.statements.mapM (collectBindVariablesModification schema currentKeyspace) <;> rfl
  rw [heq]
  exact hboth

theorem reports_select (schema : Schema) (currentKeyspace : String8) (s : Select) (hreach : selectSlots.reach s) :
    StatementReports schema currentKeyspace (.select s) := by
  have hlimit := Reports.all (markersOf_collectBindInLimit s.limit) trivial
  have hwhere : ∀ tbl, Reports (markersOf ((s.where_.map (collectBindInWhere tbl)).getD []))
      (positionsOf (whereSlots.option.sites s.where_)) (∀ w ∈ s.where_, WhereReported w) := by
    intro tbl
    have hwhereReach : ∀ w ∈ s.where_, whereSlots.reach w := hreach.1
    cases hw : s.where_ with
    | none => exact Reports.all rfl (by simp)
    | some w =>
        have hreports := reports_where tbl w (hwhereReach w hw)
        refine ⟨hreports.1, hreports.2.trans ?_⟩
        exact ⟨fun h w' hw' => Option.some.inj hw' ▸ h, fun h => h w rfl⟩
  have hsites : statementSlots.sites (.select s) = whereSlots.option.sites s.where_ ++ limitSlots.sites s.limit := rfl
  have hempty : statementSlots.sites (.select s) = [] → ∀ w ∈ s.where_, WhereReported w := by
    intro h w hw
    refine whereReported_of_no_sites ?_
    have hnil := (List.append_eq_nil_iff.mp (hsites ▸ h)).1
    rw [hw] at hnil
    exact hnil
  rw [StatementReports, collectBindVariables, collectInTable]
  simp only [StatementReported, TableFound]
  change (∀ specs, _ → ∃ front back, _ ∧ _ ∧ Reports _ _ ((_ ∨ statementSlots.sites (.select s) = []) ∧ _)) ∧ _
  cases tableNamed schema currentKeyspace s.from_ with
  | none =>
      simp only [Option.isSome_none, Bool.false_eq_true, false_or]
      refine ⟨fun specs hspecs => ?_, fun _ => rfl⟩
      obtain rfl := Option.some.inj hspecs
      refine ⟨[], [], rfl, List.nil_sublist _, List.nil_sublist _, fun hnil => ?_, fun h => ?_⟩
      · have hnone : statementSlots.sites (.select s) = [] := List.map_eq_nil_iff.mp hnil.symm
        exact ⟨hnone, hempty hnone⟩
      · rw [h.1]
        rfl
  | some tbl =>
      simp only [Option.isSome_some, true_or, true_and]
      refine ⟨fun specs hspecs => ?_, fun _ => trivial⟩
      obtain rfl := Option.some.inj hspecs
      refine ⟨_, _, (List.append_assoc _ _ _).symm, List.Sublist.refl _, ?_⟩
      have hboth := (hwhere tbl).append hlimit
      rw [and_true, ← markersOf_append, ← positionsOf_append] at hboth
      exact hboth

theorem reports_statement (schema : Schema) (currentKeyspace : String8) (s : DmlStatement)
    (hreach : statementSlots.reach s) : StatementReports schema currentKeyspace s := by
  cases s with
  | insert s =>
      have hinsert : insertSlots.reach s := by
        cases hclause : s.insertClause with
        | json string default =>
            simp only [statementSlots, hclause] at hreach
            exact ((lawful_insert s).fill_self hreach).1
        | namesValues names values =>
            simp only [statementSlots, hclause] at hreach
            exact hreach
      exact StatementReports.of_reportsAs (reports_modification schema currentKeyspace (.insert s) hinsert)
  | update s => exact StatementReports.of_reportsAs (reports_modification schema currentKeyspace (.update s) hreach)
  | delete s => exact StatementReports.of_reportsAs (reports_modification schema currentKeyspace (.delete s) hreach)
  | batch s => exact StatementReports.of_reportsAs (reports_batch schema currentKeyspace s hreach)
  | select s => exact reports_select schema currentKeyspace s hreach

/-! ### Binding -/

/-- The value that is bound to the marker at a position. -/
def boundAt (specs : List BindVariableSpec) (values : List Term) (s : Site) : Option Term :=
  ((markersOf specs).zip values).lookup s.marker.position

/-- Each value stands at the marker that was reported in its place, nothing else has changed, and no
marker is left. -/
def BindsAll (schema : Schema) (currentKeyspace : String8) (s : DmlStatement) (values : List Term) : Prop :=
  ∃ specs, collectBindVariables schema currentKeyspace s = some specs ∧
    bindValuesToStatement s values = statementSlots.fill (boundAt specs values) s ∧
    statementSlots.sites (bindValuesToStatement s values) = []

/-- Every marker is visited by both traversals, and an integer is bound where one is needed. -/
def Bindable (schema : Schema) (currentKeyspace : String8) (s : DmlStatement) (values : List Term) : Prop :=
  statementSlots.reach s ∧ StatementReported schema currentKeyspace s ∧
    ∀ e ∈ (statementSlots.sites s).zip values, accepts e.1 e.2

section

variable {schema : Schema} {currentKeyspace : String8} {s : DmlStatement} {values : List Term}

theorem bindValuesToStatement_of_fits {f : Site → Option Term} (hreach : statementSlots.reach s)
    (hfits : Fits accepts (statementSlots.sites s) values) (hagrees : Agrees f (statementSlots.sites s) values) :
    bindValuesToStatement s values = statementSlots.fill f s := by
  by_cases hnil : values = []
  · have hnone : statementSlots.sites s = [] := by
      refine List.length_eq_zero_iff.mp (Nat.le_zero.mp ?_)
      rw [← List.length_eq_zero_iff.mpr hnil]
      exact hfits.length_le
    rw [((lawful_statement s).fill_self hnone).2 f, hnil]
    rfl
  · rw [bindValuesToStatement_eq s hnil, (lawful_statement s).bind_eq hreach hfits hagrees]

/-- No marker is left when all were reached and accepted their values. -/
theorem reached_of_bound (hempty : statementSlots.sites (bindValuesToStatement s values) = []) :
    statementSlots.reach s ∧ Fits accepts (statementSlots.sites s) values := by
  by_cases hnil : values = []
  · rw [hnil] at hempty
    have hnone : statementSlots.sites s = [] := hempty
    rw [hnone]
    exact ⟨((lawful_statement s).fill_self hnone).1, trivial⟩
  · rw [bindValuesToStatement_eq s hnil] at hempty
    obtain ⟨hreach, hfits, -⟩ := (lawful_statement s).of_bind hempty
    exact ⟨hreach, hfits⟩

theorem mem_markersOf_of_boundAt {specs : List BindVariableSpec} {site : Site}
    (h : (boundAt specs values site).isSome = true) : site.marker.position ∈ markersOf specs := by
  obtain ⟨v, hv⟩ := Option.isSome_iff_exists.mp h
  obtain ⟨front, back, heq, -⟩ := List.lookup_eq_some_iff.mp hv
  have hmem : (site.marker.position, v) ∈ (markersOf specs).zip values := by
    rw [heq]
    exact List.mem_append_right _ List.mem_cons_self
  exact (List.of_mem_zip hmem).1

end

/-! ### The values that come with a request hold no markers -/

theorem exists_of_readSized {α : Type} {absent : Literal → α} {body : Nat → Bytes → Option α} {p rest : Bytes} {a : α}
    (h : Native.readSized absent body p = some (a, rest)) : (∃ l, a = absent l) ∨ ∃ len p, body len p = some a := by
  unfold Native.readSized at h
  simp only at h
  split_ifs at h
  · exact Or.inl ⟨.unset, (congrArg Prod.fst (Option.some.inj h)).symm⟩
  · exact Or.inl ⟨.null, (congrArg Prod.fst (Option.some.inj h)).symm⟩
  · obtain ⟨value, hvalue, heq⟩ := Option.bind_eq_some_iff.mp h
    obtain ⟨rfl, -⟩ := Prod.mk.inj (Option.some.inj heq)
    exact Or.inr ⟨_, _, hvalue⟩

theorem forall_of_readUpTo {α : Type} {read : Wire.Reader α} {P : α → Prop}
    (hread : ∀ p a rest, read p = some (a, rest) → P a) {n : Nat} {p : Bytes} {as : List α}
    (h : Native.readUpTo read n p = some as) : ∀ a ∈ as, P a := by
  induction n generalizing p as with
  | zero =>
      obtain rfl := Option.some.inj h
      exact List.forall_mem_nil _
  | succ n ih =>
      rw [Native.readUpTo] at h
      split_ifs at h with hend
      · obtain rfl := Option.some.inj h
        exact List.forall_mem_nil _
      · obtain ⟨⟨a, rest⟩, ha, h⟩ := Option.bind_eq_some_iff.mp h
        obtain ⟨as', has, heq⟩ := Option.bind_eq_some_iff.mp h
        obtain rfl := Option.some.inj heq
        exact List.forall_mem_cons.mpr ⟨hread p a rest ha, ih has⟩

theorem forall_of_readCounted {α : Type} {read : Wire.Reader α} {P : α → Prop}
    (hread : ∀ p a rest, read p = some (a, rest) → P a) {len : Nat} {p : Bytes} {as : List α}
    (h : Native.readCounted read len p = some as) : ∀ a ∈ as, P a := by
  unfold Native.readCounted at h
  simp only at h
  split_ifs at h
  exact forall_of_readUpTo hread h

/-- A container of values that were read one by one. -/
theorem clean_of_readSized {α : Type} {T : Slots α} {read : Wire.Reader α} {mk : List α → Term} {p rest : Bytes}
    {v : Term} (hmk : ∀ as, termSites (mk as) = T.list.sites as)
    (hread : ∀ p a rest, read p = some (a, rest) → T.sites a = [])
    (h : Native.readSized .literal (fun len p => (Native.readCounted read len p).map mk) p = some (v, rest)) :
    Clean v := by
  rcases exists_of_readSized h with ⟨l, rfl⟩ | ⟨len, p, hbody⟩
  · rfl
  · obtain ⟨as, has, rfl⟩ := Option.map_eq_some_iff.mp hbody
    exact (hmk as).trans (List.flatMap_eq_nil_iff.mpr (forall_of_readCounted hread has))

theorem clean_of_readTupleFields {ts : List Ty} {p : Bytes} {es : List Term}
    (hts : ∀ t ∈ ts, ∀ p v rest, Native.readCqlValueAsTerm t p = some (v, rest) → Clean v)
    (h : Native.readTupleFields ts p = some es) : ∀ e ∈ es, Clean e := by
  induction ts generalizing p es with
  | nil =>
      rw [Native.readTupleFields] at h
      obtain rfl := Option.some.inj h
      exact List.forall_mem_nil _
  | cons t ts ih =>
      obtain ⟨ht, hts⟩ := List.forall_mem_cons.mp hts
      rw [Native.readTupleFields] at h
      split_ifs at h with hend
      · obtain rfl := Option.some.inj h
        exact List.forall_mem_nil _
      · obtain ⟨⟨e, rest⟩, he, h⟩ := Option.bind_eq_some_iff.mp h
        obtain ⟨es', hes, heq⟩ := Option.bind_eq_some_iff.mp h
        obtain rfl := Option.some.inj heq
        exact List.forall_mem_cons.mpr ⟨ht p e rest he, ih hts hes⟩

theorem clean_of_readCqlValueAsTerm {t : Ty} {p rest : Bytes} {v : Term}
    (h : Native.readCqlValueAsTerm t p = some (v, rest)) : Clean v := by
  induction t generalizing p v rest with
  | basic b =>
      rw [Native.readCqlValueAsTerm] at h
      obtain ⟨r, -, heq⟩ := Option.map_eq_some_iff.mp h
      obtain ⟨rfl, -⟩ := Prod.mk.inj heq
      rfl
  | list element frozen ih =>
      rw [Native.readCqlValueAsTerm] at h
      exact clean_of_readSized termsSites_eq (fun _ _ _ => ih) h
  | set key frozen ih =>
      rw [Native.readCqlValueAsTerm] at h
      exact clean_of_readSized termsSites_eq (fun _ _ _ => ih) h
  | map key value frozen ihk ihv =>
      rw [Native.readCqlValueAsTerm] at h
      refine clean_of_readSized pairsSites_eq (fun p a rest ha => ?_) h
      obtain ⟨⟨k, p'⟩, hk, ha⟩ := Option.bind_eq_some_iff.mp ha
      obtain ⟨⟨v, p''⟩, hv, heq⟩ := Option.bind_eq_some_iff.mp ha
      obtain ⟨rfl, -⟩ := Prod.mk.inj (Option.some.inj heq)
      exact List.append_eq_nil_iff.mpr ⟨ihk hk, ihv hv⟩
  | tuple elements frozen ih =>
      rw [Native.readCqlValueAsTerm] at h
      rcases exists_of_readSized h with ⟨l, rfl⟩ | ⟨len, p', hbody⟩
      · rfl
      · obtain ⟨es, hes, rfl⟩ := Option.map_eq_some_iff.mp hbody
        have hclean := clean_of_readTupleFields (fun t ht p v rest => ih t ht) hes
        exact (termsSites_eq es).trans (List.flatMap_eq_nil_iff.mpr hclean)
  | vector element count frozen ih =>
      rw [Native.readCqlValueAsTerm] at h
      cases h
  | udt keyspace name names ts ih =>
      rw [Native.readCqlValueAsTerm] at h
      cases h

/-- A statement is parsed with its markers at different positions, there are as many values as were
asked for, and the values hold no markers. -/
theorem bindsAll_iff_bindable (schema : Schema) (currentKeyspace : String8) (s : DmlStatement) (values : List Term)
    (hpositions : (positionsOf (statementSlots.sites s) ++ perPartitionMarkers s).Nodup)
    (hlength : ∀ specs, collectBindVariables schema currentKeyspace s = some specs → values.length = specs.length)
    (hvalues : ∀ v ∈ values, Clean v) :
    BindsAll schema currentKeyspace s values ↔ Bindable schema currentKeyspace s values := by
  obtain ⟨hnodup, -, hdisjoint⟩ := List.nodup_append'.mp hpositions
  constructor
  · rintro ⟨specs, hspecs, hfill, hempty⟩
    obtain ⟨hreach, hfits⟩ := reached_of_bound hempty
    refine ⟨hreach, ?_, (fits_iff_zip hfits.length_le).mp hfits⟩
    obtain ⟨front, back, rfl, hback, hfront⟩ := (reports_statement schema currentKeyspace s hreach).1 specs hspecs
    -- a marker is filled by what was reported of it, and it is not that of `PER PARTITION LIMIT`
    have hsubset : positionsOf (statementSlots.sites s) ⊆ markersOf front := by
      intro position hposition
      obtain ⟨site, hsite, rfl⟩ := List.mem_map.mp hposition
      have hbound := (lawful_statement s).of_fill (hfill ▸ hempty) site hsite
      have hmem := mem_markersOf_of_boundAt hbound
      rw [markersOf_append] at hmem
      refine (List.mem_append.mp hmem).resolve_right fun hback' => ?_
      exact hdisjoint hposition (hback.subset hback')
    have hle := (List.subperm_of_subset hnodup hsubset).length_le
    exact hfront.2.mp (hfront.1.eq_of_length (Nat.le_antisymm hfront.1.length_le hle))
  · rintro ⟨hreach, hreported, haccepts⟩
    have hreports := reports_statement schema currentKeyspace s hreach
    obtain ⟨specs, hspecs⟩ := Option.isSome_iff_exists.mp (hreports.2 hreported)
    obtain ⟨front, back, rfl, -, hfront⟩ := hreports.1 specs hspecs
    have hmarkers : markersOf front = positionsOf (statementSlots.sites s) := hfront.2.mpr hreported
    have hle : (statementSlots.sites s).length ≤ values.length := by
      have hfrontLength := congrArg List.length hmarkers
      rw [markersOf, positionsOf, List.length_map, List.length_map] at hfrontLength
      rw [hlength _ hspecs, List.length_append, hfrontLength]
      exact Nat.le_add_right _ _
    have hfits := (fits_iff_zip hle).mpr haccepts
    have hagrees : Agrees (boundAt (front ++ back) values) (statementSlots.sites s) values := by
      have hlookup := @agrees_lookup _ _ _ _ _ (fun site : Site => site.marker.position) _ (markersOf back) values hnodup
      change Agrees (fun site => ((positionsOf (statementSlots.sites s) ++ markersOf back).zip values).lookup _) _ _
        at hlookup
      rw [← hmarkers, ← markersOf_append] at hlookup
      exact hlookup
    have hfill := bindValuesToStatement_of_fits hreach hfits hagrees
    refine ⟨front ++ back, hspecs, hfill, ?_⟩
    rw [hfill]
    refine (lawful_statement s).fill_clean fun site hsite => ?_
    obtain ⟨v, hv, hbound, haccept⟩ := hfits.exists_value hagrees site hsite
    exact ⟨v, hbound, haccept, hvalues v hv⟩

/-! ### One table -/

def tableT : String8 := ⟨ascii "t", by decide⟩

def columnPk : String8 := ⟨ascii "pk", by decide⟩

/-- A keyspace with a table `t` of one integer column `pk`, its key. -/
def schemaOfT : Schema where
  keyspaces := [⟨false, columnPk, {}, [(tableT, 0)], []⟩]
  keyspacesByName := [(columnPk, 0)]
  tables := [⟨0, false, tableT, [⟨false, false, columnPk, .basic .int, .partitionKey, 0, .asc⟩], [], [], 1, {}⟩]

/-- `SELECT ... FROM t WHERE pk = value`. -/
def selectWherePk (value : Term) : DmlStatement :=
  .select ⟨⟨none, tableT⟩, some [.columnExpression columnPk .eq value], none, none⟩

/-- `WHERE pk = ?` is bound to 5. -/
theorem bindsAll_iff_bindable_eq :
    BindsAll schemaOfT columnPk (selectWherePk (.bindMarker ⟨[], 0⟩)) [.literal (.s64 5)] := by
  refine (bindsAll_iff_bindable schemaOfT columnPk (selectWherePk (.bindMarker ⟨[], 0⟩)) [.literal (.s64 5)]
    (by decide) (fun specs hspecs => ?_) (by simp [Clean, termSites])).mpr ⟨?_, ⟨Or.inl (by decide), ?_⟩, ?_⟩
  · obtain rfl := Option.some.inj hspecs
    rfl
  · refine ⟨fun w hw => ?_, fun i hi => (by cases hi)⟩
    obtain rfl := Option.some.inj hw
    exact List.forall_mem_singleton.mpr trivial
  · intro w hw
    obtain rfl := Option.some.inj hw
    exact List.forall_mem_singleton.mpr trivial
  · exact List.forall_mem_singleton.mpr trivial

/-- The marker in `WHERE pk = -?` is neither reported nor replaced. -/
theorem marker_after_minus_stays :
    collectBindVariables schemaOfT columnPk (selectWherePk (.unaryMinus (.bindMarker ⟨[], 0⟩))) = some [] ∧
      ¬ BindsAll schemaOfT columnPk (selectWherePk (.unaryMinus (.bindMarker ⟨[], 0⟩))) [] := by
  refine ⟨by rfl, ?_⟩
  rintro ⟨specs, -, -, hempty⟩
  cases hempty

end Plexdb.Cql
