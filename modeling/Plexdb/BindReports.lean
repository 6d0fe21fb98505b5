import Plexdb.BindPlacement

/-! Which markers `collect_bind_variables` reports: of a statement whose markers the binding reaches, a
part of them in the order of the binding, and all of them when no tuple after `IN` is longer than its
columns, each value of an `INSERT` has a name, and the tables exist. -/

namespace Plexdb.Cql

open Holes
open Schema (Table TableName)

def markersOf (specs : List BindVariableSpec) : List Nat := specs.map (·.marker)

def positionsOf (sites : List Site) : List Nat := sites.map (·.marker.position)

/-- What is reported is a part of the positions, and all of them under the condition. -/
def Reports (reported all : List Nat) (P : Prop) : Prop := List.Sublist reported all ∧ (reported = all ↔ P)

theorem Reports.all {reported all : List Nat} {P : Prop} (h : reported = all) (hP : P) : Reports reported all P :=
  ⟨h ▸ List.Sublist.refl _, iff_of_true h hP⟩

theorem Reports.append {a a' b b' : List Nat} {P Q : Prop} (h : Reports a a' P) (h' : Reports b b' Q) :
    Reports (a ++ b) (a' ++ b') (P ∧ Q) := by
  refine ⟨h.1.append h'.1, ?_⟩
  rw [← h.2, ← h'.2]
  constructor
  · intro heq
    have hlen := congrArg List.length heq
    rw [List.length_append, List.length_append] at hlen
    have hfront := h.1.length_le
    have hback := h'.1.length_le
    exact ⟨h.1.eq_of_length (by omega), h'.1.eq_of_length (by omega)⟩
  · rintro ⟨rfl, rfl⟩
    rfl

theorem Reports.flatMap {α : Type} {as : List α} {reported all : α → List Nat} {P : α → Prop}
    (h : ∀ a ∈ as, Reports (reported a) (all a) (P a)) :
    Reports (as.flatMap reported) (as.flatMap all) (∀ a ∈ as, P a) := by
  induction as with
  | nil => exact Reports.all rfl (List.forall_mem_nil _)
  | cons a as ih =>
      obtain ⟨ha, has⟩ := List.forall_mem_cons.mp h
      rw [List.flatMap_cons, List.flatMap_cons, List.forall_mem_cons]
      exact ha.append (ih has)

/-! ### Terms -/

theorem collectBindInTerms_eq (hint : Schema.Ty) (es : List Term) :
    collectBindInTerms hint es = es.flatMap (collectBindInTerm hint) := by
  induction es with
  | nil => rfl
  | cons e es ih => rw [collectBindInTerms, ih, List.flatMap_cons]

theorem collectBindInPairs_eq (hint : Schema.Ty) (es : List (Term × Term)) :
    collectBindInPairs hint es = es.flatMap fun e => collectBindInTerm hint e.1 ++ collectBindInTerm hint e.2 := by
  induction es with
  | nil => rfl
  | cons e es ih => rw [collectBindInPairs, ih, List.flatMap_cons, List.append_assoc]

theorem markersOf_append (a b : List BindVariableSpec) : markersOf (a ++ b) = markersOf a ++ markersOf b :=
  List.map_append

theorem positionsOf_append (a b : List Site) : positionsOf (a ++ b) = positionsOf a ++ positionsOf b :=
  List.map_append

theorem markersOf_flatMap {α : Type} (f : α → List BindVariableSpec) (as : List α) :
    markersOf (as.flatMap f) = as.flatMap fun a => markersOf (f a) := List.map_flatMap

theorem positionsOf_flatMap {α : Type} (f : α → List Site) (as : List α) :
    positionsOf (as.flatMap f) = as.flatMap fun a => positionsOf (f a) := List.map_flatMap

theorem markersOf_collectBindInTerms {hint : Schema.Ty} {es : List Term}
    (h : ∀ e ∈ es, Reached e → markersOf (collectBindInTerm hint e) = positionsOf (termSites e))
    (hreach : TermsReached es) : markersOf (collectBindInTerms hint es) = positionsOf (termsSites es) := by
  rw [collectBindInTerms_eq, termsSites_eq, markersOf_flatMap]
  refine Eq.trans ?_ (positionsOf_flatMap termSites es).symm
  exact List.flatMap_congr fun e he => h e he ((termsReached_iff es).mp hreach e he)

theorem markersOf_collectBindInTerm (hint : Schema.Ty) (t : Term) (hreach : Reached t) :
    markersOf (collectBindInTerm hint t) = positionsOf (termSites t) := by
  induction t with
  | literal value => simp [collectBindInTerm, termSites, markersOf, positionsOf]
  | columnValue value => simp [collectBindInTerm, termSites, markersOf, positionsOf]
  | bindMarker marker => rfl
  | map es ih =>
      rw [collectBindInTerm, termSites, collectBindInPairs_eq, pairsSites_eq, markersOf_flatMap]
      refine Eq.trans ?_ (positionsOf_flatMap (fun e => termSites e.1 ++ termSites e.2) es).symm
      refine List.flatMap_congr fun e he => ?_
      obtain ⟨hkey, hvalue⟩ := (pairsReached_iff es).mp hreach e he
      rw [markersOf_append, positionsOf_append, (ih e he).1 hkey, (ih e he).2 hvalue]
  | set es ih => exact markersOf_collectBindInTerms ih hreach
  | listOrVector es ih => exact markersOf_collectBindInTerms ih hreach
  | tuple es ih => exact markersOf_collectBindInTerms ih hreach
  | functionCall identifier es ih => exact markersOf_collectBindInTerms ih hreach
  | udt es ih =>
      rw [Reached] at hreach
      rw [termSites, hreach]
      simp [collectBindInTerm, markersOf, positionsOf]
  | unaryMinus operand ih =>
      rw [Reached] at hreach
      rw [termSites, hreach]
      simp [collectBindInTerm, markersOf, positionsOf]
  | binaryArithmetic lhs op rhs ihl ihr =>
      rw [Reached] at hreach
      rw [termSites, hreach]
      simp [collectBindInTerm, markersOf, positionsOf]
  | typeHint type operand ih =>
      rw [Reached] at hreach
      rw [termSites, hreach]
      simp [collectBindInTerm, markersOf, positionsOf]

theorem markersOf_collectBindInTwi (hint : Schema.Ty) (t : TermWithIdentifiers) (hreach : TwiReached t) :
    markersOf (collectBindInTwi hint t) = positionsOf (twiSites t) := by
  induction t with
  | term term => exact markersOf_collectBindInTerm hint term hreach
  | unaryMinus operand ih => exact ih hreach
  | binaryArithmetic lhs op rhs ihl ihr =>
      rw [collectBindInTwi, twiSites, markersOf_append, positionsOf_append, ihl hreach.1, ihr hreach.2]
  | identifier name => rfl

theorem markersOf_collectBindInInteger (t : Basic) (place : Place) (i : IntegerTerm) :
    markersOf (collectBindInInteger t i) = positionsOf (integerSites place i) := by
  cases i <;> rfl

theorem markersOf_collectBindInUsingParams (params : List UpdateParameter) :
    markersOf (collectBindInUsingParams params) = positionsOf (usingSlots.sites params) := by
  rw [collectBindInUsingParams, markersOf_flatMap]
  refine Eq.trans ?_ (positionsOf_flatMap (fun p => integerSites .usingParameter p.value) params).symm
  exact List.flatMap_congr fun p _ => markersOf_collectBindInInteger _ _ _

theorem markersOf_collectBindInLimit (limit : Option IntegerTerm) :
    markersOf (collectBindInLimit limit) = positionsOf (limitSlots.sites limit) := by
  cases limit with
  | none => rfl
  | some t => exact markersOf_collectBindInInteger .int .limit t

/-! ### Clauses -/

/-- A tuple after `IN` has no marker beyond the columns it is compared to. -/
def RelationReported : Relation → Prop
  | .tupleExpression columns op values => op = .in_ → ∀ v ∈ values, ∀ es, v = .tuple es →
      termsSites (es.drop columns.length) = []
  | _ => True

theorem reports_collectBindInTupleElements (tbl : Table) (columns : List String8) {es : List Term}
    (hreach : TermsReached es) :
    Reports (markersOf (collectBindInTupleElements tbl columns es)) (positionsOf (termsSites es))
      (termsSites (es.drop columns.length) = []) := by
  induction es generalizing columns with
  | nil =>
      cases columns with
      | nil => exact Reports.all rfl rfl
      | cons column columns => exact Reports.all rfl rfl
  | cons e es ih =>
      cases columns with
      | nil =>
          refine ⟨List.nil_sublist _, ?_⟩
          exact ⟨fun h => List.map_eq_nil_iff.mp h.symm, fun h => (congrArg positionsOf h).symm⟩
      | cons column columns =>
          have hfront := Reports.all (markersOf_collectBindInTerm (colTypeInTable tbl column) e hreach.1) trivial
          have hboth := hfront.append (ih columns hreach.2)
          rw [← markersOf_append, ← positionsOf_append, true_and] at hboth
          exact hboth

theorem reports_collectBindInTupleValue (tbl : Table) (columns : List String8) (v : Term) (hreach : Reached v) :
    Reports (markersOf (collectBindInTupleValue tbl columns v)) (positionsOf (termSites v))
      (∀ es, v = .tuple es → termsSites (es.drop columns.length) = []) := by
  by_cases htuple : ∃ es, v = .tuple es
  · obtain ⟨es, rfl⟩ := htuple
    have hes := reports_collectBindInTupleElements tbl columns hreach
    refine ⟨hes.1, hes.2.trans ⟨?_, fun h => h es rfl⟩⟩
    rintro h es' heq
    obtain rfl := Term.tuple.inj heq
    exact h
  · refine Reports.all ?_ fun es heq => absurd ⟨es, heq⟩ htuple
    have heq : collectBindInTupleValue tbl columns v = collectBindInTerm (firstColumnType tbl columns) v := by
      cases v with
      | tuple es => exact absurd ⟨es, rfl⟩ htuple
      | _ => rfl
    rw [heq, markersOf_collectBindInTerm _ v hreach]

theorem markersOf_collectBindInTupleValues (tbl : Table) (columns : List String8) {vs : List Term}
    (hreach : ∀ v ∈ vs, Reached v) :
    markersOf (collectBindInTupleValues tbl columns vs) = positionsOf (termSlots.list.sites vs) := by
  induction vs generalizing columns with
  | nil => rfl
  | cons v vs ih =>
      obtain ⟨hv, hvs⟩ := List.forall_mem_cons.mp hreach
      rw [collectBindInTupleValues, Traversal.sites_cons, markersOf_append, positionsOf_append, ih columns.tail hvs,
        markersOf_collectBindInTerm _ v hv]
      rfl

theorem reports_relation (tbl : Table) (r : Relation) (hreach : relationSlots.reach r) :
    Reports (markersOf (collectBindInRelation tbl r)) (positionsOf (relationSlots.sites r)) (RelationReported r) := by
  cases r with
  | columnExpression column op value => exact Reports.all (markersOf_collectBindInTerm _ value hreach) trivial
  | token columns op value => exact Reports.all (markersOf_collectBindInTerm _ value hreach) trivial
  | subscripted column subscript op value =>
      refine Reports.all ?_ trivial
      rw [collectBindInRelation, markersOf_append, markersOf_collectBindInTerm _ subscript hreach.1,
        markersOf_collectBindInTerm _ value hreach.2]
      exact (positionsOf_append _ _).symm
  | tupleExpression columns op values =>
      change ∀ v ∈ values, Reached v at hreach
      change Reports _ (positionsOf (termSlots.list.sites values)) (op = .in_ → _)
      by_cases hin : op = .in_
      · rw [collectBindInRelation, if_pos hin, markersOf_flatMap]
        have hvalues := Reports.flatMap fun v hv => reports_collectBindInTupleValue tbl columns v (hreach v hv)
        rw [← positionsOf_flatMap] at hvalues
        exact ⟨hvalues.1, hvalues.2.trans ⟨fun h _ => h, fun h => h hin⟩⟩
      · refine Reports.all ?_ fun h => absurd h hin
        rw [collectBindInRelation, if_neg hin]
        split_ifs with hsingle
        · rw [markersOf_flatMap]
          refine Eq.trans ?_ (positionsOf_flatMap termSites values).symm
          exact List.flatMap_congr fun v hv => markersOf_collectBindInTerm _ v (hreach v hv)
        · exact markersOf_collectBindInTupleValues tbl columns hreach

def WhereReported (where_ : WhereClause) : Prop := ∀ r ∈ where_, RelationReported r

theorem reports_where (tbl : Table) (where_ : WhereClause) (hreach : whereSlots.reach where_) :
    Reports (markersOf (collectBindInWhere tbl where_)) (positionsOf (whereSlots.sites where_))
      (WhereReported where_) := by
  rw [collectBindInWhere, markersOf_flatMap]
  have hall := Reports.flatMap fun r hr => reports_relation tbl r (hreach r hr)
  rw [← positionsOf_flatMap] at hall
  exact hall

theorem markersOf_collectBindInSelection (tbl : Table) (sel : SimpleSelection) (hreach : selectionSlots.reach sel) :
    markersOf (collectBindInSelection tbl sel) = positionsOf (selectionSlots.sites sel) := by
  obtain ⟨column, access⟩ := sel
  cases access with
  | none => rfl
  | some access =>
      cases access with
      | fieldAccess field => rfl
      | subscript index => exact markersOf_collectBindInTerm _ index (hreach index rfl)

theorem markersOf_collectBindInAssignment (tbl : Table) (asgn : Assignment) (hreach : assignmentSlots.reach asgn) :
    markersOf (collectBindInAssignment tbl asgn) = positionsOf (assignmentSlots.sites asgn) := by
  have htarget := markersOf_collectBindInSelection tbl asgn.target hreach.1
  change _ = positionsOf (selectionSlots.sites asgn.target ++ twiSites asgn.value)
  rw [positionsOf_append, ← htarget, collectBindInAssignment, collectBindInSelection]
  cases asgn.target.subscript? with
  | none => exact markersOf_collectBindInTwi _ _ hreach.2
  | some sub =>
      rw [markersOf_append]
      exact congrArg _ (markersOf_collectBindInTwi _ _ hreach.2)

/-! ### Statements -/

/-- No value of an `INSERT` beyond its names is a marker. -/
def InsertNamed : InsertClause → Prop
  | .namesValues names values => ∀ v ∈ values.drop names.length, v.isBindMarker = false
  | .json .. => True

/-- The same of what is reported unless a bounds check fails, which it does not under the condition. -/
def ReportsAs (specs : Option (List BindVariableSpec)) (all : List Nat) (P : Prop) : Prop :=
  (∀ s, specs = some s → Reports (markersOf s) all P) ∧ (P → specs.isSome = true)

theorem ReportsAs.of_some {specs : List BindVariableSpec} {all : List Nat} {P : Prop}
    (h : Reports (markersOf specs) all P) : ReportsAs (some specs) all P :=
  ⟨fun _ hs => Option.some.inj hs ▸ h, fun _ => rfl⟩

theorem ReportsAs.append {a b : Option (List BindVariableSpec)} {all all' : List Nat} {P Q : Prop}
    (h : ReportsAs a all P) (h' : ReportsAs b all' Q) :
    ReportsAs (a.bind fun front => b.map fun back => front ++ back) (all ++ all') (P ∧ Q) := by
  refine ⟨fun s hs => ?_, ?_⟩
  · obtain ⟨front, hfront, hs⟩ := Option.bind_eq_some_iff.mp hs
    obtain ⟨back, hback, rfl⟩ := Option.map_eq_some_iff.mp hs
    rw [markersOf_append]
    exact (h.1 front hfront).append (h'.1 back hback)
  · rintro ⟨hP, hQ⟩
    obtain ⟨front, rfl⟩ := Option.isSome_iff_exists.mp (h.2 hP)
    obtain ⟨back, rfl⟩ := Option.isSome_iff_exists.mp (h'.2 hQ)
    rfl

theorem ReportsAs.flatten {α : Type} {as : List α} {collect : α → Option (List BindVariableSpec)}
    {all : α → List Nat} {P : α → Prop} (h : ∀ a ∈ as, ReportsAs (collect a) (all a) (P a)) :
    ReportsAs ((as.mapM collect).map List.flatten) (as.flatMap all) (∀ a ∈ as, P a) := by
  induction as with
  | nil => exact ReportsAs.of_some (Reports.all rfl (List.forall_mem_nil _))
  | cons a as ih =>
      obtain ⟨ha, has⟩ := List.forall_mem_cons.mp h
      have hboth := ha.append (ih has)
      have heq : ((a :: as).mapM collect).map List.flatten =
          (collect a).bind fun front => ((as.mapM collect).map List.flatten).map fun back => front ++ back := by
        rw [List.mapM_cons]
        cases collect a with
        | none => rfl
        | some front => cases as.mapM collect <;> rfl
      rw [heq, List.flatMap_cons, List.forall_mem_cons]
      exact hboth

theorem collectBindInInsertValues_of_not_marker (tbl : Table) (names : List String8) {value : Term} (values : List Term)
    (h : value.isBindMarker = false) :
    collectBindInInsertValues tbl names (value :: values) = collectBindInInsertValues tbl names.tail values := by
  cases value with
  | bindMarker marker => cases h
  | _ => cases names <;> rfl

theorem insertNamed_cons_iff (names : List String8) {value : Term} (values : List Term)
    (h : value.isBindMarker = false) :
    InsertNamed (.namesValues names (value :: values)) ↔ InsertNamed (.namesValues names.tail values) := by
  cases names with
  | nil => exact List.forall_mem_cons.trans (and_iff_right h)
  | cons name names => exact Iff.rfl

theorem reports_insertValues (tbl : Table) (names : List String8) (values : List Term)
    (hreach : insertValueSlots.list.reach values) :
    ReportsAs (collectBindInInsertValues tbl names values) (positionsOf (insertValueSlots.list.sites values))
      (InsertNamed (.namesValues names values)) := by
  induction values generalizing names with
  | nil =>
      rw [collectBindInInsertValues]
      exact ReportsAs.of_some (Reports.all rfl (by simp [InsertNamed]))
  | cons value values ih =>
      obtain ⟨hvalue, hvalues⟩ := (insertValueSlots.reach_cons value values).mp hreach
      rw [Traversal.sites_cons, positionsOf_append]
      cases hmarker : value.isBindMarker with
      | true =>
          cases value with
          | bindMarker marker =>
              cases names with
              | nil =>
                  refine ⟨fun s hs => (by cases hs), fun hnamed => ?_⟩
                  exact absurd (hnamed _ List.mem_cons_self) (by simp [Term.isBindMarker])
              | cons name names =>
                  have hfront : ReportsAs (some [⟨name.val, colTypeInTable tbl name, marker.position⟩])
                      (positionsOf [⟨marker, .term⟩]) True := ReportsAs.of_some (Reports.all rfl trivial)
                  have hboth := hfront.append (ih names hvalues)
                  rw [true_and] at hboth
                  have heq : collectBindInInsertValues tbl (name :: names) (.bindMarker marker :: values) =
                      (collectBindInInsertValues tbl names values).map fun back =>
                        [⟨name.val, colTypeInTable tbl name, marker.position⟩] ++ back := by
                    rw [collectBindInInsertValues, Option.map_eq_bind]
                    rfl
                  rw [heq]
                  exact hboth
          | _ => cases hmarker
      | false =>
          have hsites : insertValueSlots.sites value = [] := hvalue.resolve_left (by simp [hmarker])
          rw [hsites, collectBindInInsertValues_of_not_marker tbl names values hmarker,
            insertNamed_cons_iff names values hmarker]
          exact ih names.tail hvalues

theorem insertNamed_of_no_sites {clause : InsertClause} (h : insertClauseSlots.sites clause = []) :
    InsertNamed clause := by
  cases clause with
  | json string default => trivial
  | namesValues names values =>
      intro v hv
      have hsites : termSites v = [] := List.flatMap_eq_nil_iff.mp h v (List.mem_of_mem_drop hv)
      cases v with
      | bindMarker marker => cases hsites
      | _ => rfl

theorem reports_insert (tbl : Table) (s : Insert) (hreach : insertSlots.reach s) :
    ReportsAs (collectBindVariablesInsert tbl s) (positionsOf (insertSlots.sites s)) (InsertNamed s.insertClause) := by
  have husing : ReportsAs (some (collectBindInUsingParams s.usingParameters))
      (positionsOf (usingSlots.sites s.usingParameters)) True :=
    ReportsAs.of_some (Reports.all (markersOf_collectBindInUsingParams _) trivial)
  change ReportsAs _ (positionsOf (insertClauseSlots.sites s.insertClause ++ usingSlots.sites s.usingParameters)) _
  rw [positionsOf_append, collectBindVariablesInsert]
  cases hclause : s.insertClause with
  | json string default =>
      have hnone : ReportsAs (some []) (positionsOf []) True := ReportsAs.of_some (Reports.all rfl trivial)
      have hboth := hnone.append husing
      rw [and_true] at hboth
      exact hboth
  | namesValues names values =>
      have hvalues : insertClauseSlots.reach s.insertClause := hreach.1
      rw [hclause] at hvalues
      have hboth := (reports_insertValues tbl names values hvalues).append husing
      rw [and_true] at hboth
      exact hboth

theorem whereReported_of_no_sites {where_ : WhereClause} (h : whereSlots.sites where_ = []) : WhereReported where_ := by
  intro r hr
  have hsites : relationSlots.sites r = [] := List.flatMap_eq_nil_iff.mp h r hr
  cases r with
  | tupleExpression columns op values =>
      rintro - v hv es rfl
      have htuple : termSites (.tuple es) = [] := List.flatMap_eq_nil_iff.mp hsites _ hv
      rw [termSites, termsSites_eq] at htuple
      rw [termsSites_eq]
      exact List.flatMap_eq_nil_iff.mpr fun e he => List.flatMap_eq_nil_iff.mp htuple e (List.mem_of_mem_drop he)
  | _ => trivial

theorem reports_update (tbl : Table) (s : Update) (hreach : updateSlots.reach s) :
    Reports (markersOf (collectBindVariablesUpdate tbl s)) (positionsOf (updateSlots.sites s))
      (WhereReported s.where_) := by
  obtain ⟨-, hassignments, hwhere, hif⟩ := hreach
  have hset : markersOf (s.assignments.flatMap (collectBindInAssignment tbl)) =
      positionsOf (assignmentSlots.list.sites s.assignments) := by
    rw [markersOf_flatMap]
    refine Eq.trans ?_ (positionsOf_flatMap assignmentSlots.sites _).symm
    exact List.flatMap_congr fun a ha => markersOf_collectBindInAssignment tbl a (hassignments a ha)
  have hsites : updateSlots.sites s = usingSlots.sites s.usingParameters ++
      (assignmentSlots.list.sites s.assignments ++ (whereSlots.sites s.where_ ++ ifSlots.sites s.if_)) := rfl
  have hif : ifSlots.sites s.if_ = [] := hif
  rw [hsites, hif, List.append_nil, collectBindVariablesUpdate, markersOf_append, markersOf_append, positionsOf_append,
    positionsOf_append]
  have hall := (Reports.all (markersOf_collectBindInUsingParams s.usingParameters) trivial).append
    ((Reports.all hset trivial).append (reports_where tbl s.where_ hwhere))
  rwa [true_and, true_and] at hall

theorem reports_delete (tbl : Table) (s : Delete) (hreach : deleteSlots.reach s) :
    Reports (markersOf (collectBindVariablesDelete tbl s)) (positionsOf (deleteSlots.sites s))
      (WhereReported s.where_) := by
  obtain ⟨-, hselections, hwhere, hif⟩ := hreach
  have hset : markersOf (s.selections.flatMap (collectBindInSelection tbl)) =
      positionsOf (selectionSlots.list.sites s.selections) := by
    rw [markersOf_flatMap]
    refine Eq.trans ?_ (positionsOf_flatMap selectionSlots.sites _).symm
    exact List.flatMap_congr fun a ha => markersOf_collectBindInSelection tbl a (hselections a ha)
  have hsites : deleteSlots.sites s = usingSlots.sites s.usingParameters ++
      (selectionSlots.list.sites s.selections ++ (whereSlots.sites s.where_ ++ ifSlots.sites s.if_)) := rfl
  have hif : ifSlots.sites s.if_ = [] := hif
  rw [hsites, hif, List.append_nil, collectBindVariablesDelete, markersOf_append, markersOf_append, positionsOf_append,
    positionsOf_append]
  have hall := (Reports.all (markersOf_collectBindInUsingParams s.usingParameters) trivial).append
    ((Reports.all hset trivial).append (reports_where tbl s.where_ hwhere))
  rwa [true_and, true_and] at hall

/-- The table of a statement exists, unless the statement has no markers. -/
def TableFound (schema : Schema) (currentKeyspace : String8) (name : TableName) (sites : List Site) : Prop :=
  (tableNamed schema currentKeyspace name).isSome = true ∨ sites = []

theorem reports_inTable {schema : Schema} {currentKeyspace : String8} {name : TableName} {sites : List Site} {P : Prop}
    {collect : Table → Option (List BindVariableSpec)} (h : ∀ tbl, ReportsAs (collect tbl) (positionsOf sites) P)
    (hP : sites = [] → P) :
    ReportsAs (collectInTable schema currentKeyspace name collect) (positionsOf sites)
      (TableFound schema currentKeyspace name sites ∧ P) := by
  rw [collectInTable, TableFound]
  cases tableNamed schema currentKeyspace name with
  | none =>
      refine ReportsAs.of_some ⟨List.nil_sublist _, ?_⟩
      simp only [Option.isSome_none, Bool.false_eq_true, false_or]
      constructor
      · intro hnil
        have hsites : sites = [] := List.map_eq_nil_iff.mp hnil.symm
        exact ⟨hsites, hP hsites⟩
      · rintro ⟨rfl, -⟩
        rfl
  | some tbl =>
      simp only [Option.isSome_some, true_or, true_and]
      exact h tbl

/-- What makes the report complete. -/
def ModificationReported (schema : Schema) (currentKeyspace : String8) : ModificationStatement → Prop
  | .insert s => TableFound schema currentKeyspace s.table (insertSlots.sites s) ∧ InsertNamed s.insertClause
  | .update s => TableFound schema currentKeyspace s.table (updateSlots.sites s) ∧ WhereReported s.where_
  | .delete s => TableFound schema currentKeyspace s.table (deleteSlots.sites s) ∧ WhereReported s.where_

theorem reports_modification (schema : Schema) (currentKeyspace : String8) (m : ModificationStatement)
    (hreach : modificationSlots.reach m) :
    ReportsAs (collectBindVariablesModification schema currentKeyspace m) (positionsOf (modificationSlots.sites m))
      (ModificationReported schema currentKeyspace m) := by
  cases m with
  | insert s =>
      refine reports_inTable (fun tbl => reports_insert tbl s hreach) fun h => ?_
      exact insertNamed_of_no_sites (List.append_eq_nil_iff.mp h).1
  | update s =>
      refine reports_inTable (fun tbl => ReportsAs.of_some (reports_update tbl s hreach)) fun h => ?_
      have hrest := (List.append_eq_nil_iff.mp (List.append_eq_nil_iff.mp h).2).2
      exact whereReported_of_no_sites (List.append_eq_nil_iff.mp hrest).1
  | delete s =>
      refine reports_inTable (fun tbl => ReportsAs.of_some (reports_delete tbl s hreach)) fun h => ?_
      have hrest := (List.append_eq_nil_iff.mp (List.append_eq_nil_iff.mp h).2).2
      exact whereReported_of_no_sites (List.append_eq_nil_iff.mp hrest).1

end Plexdb.Cql
