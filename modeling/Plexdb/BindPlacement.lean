import Plexdb.BindVariables

/-! What it means to put values at the markers of a statement: every marker is replaced by its value,
wherever it stands, and nothing else changes. `bind_values_to_statement` does so for the statements
whose markers it reaches. -/

namespace Plexdb.Cql

open Holes

/-- What may stand for a marker: a term, or an integer; `USING` also takes a null or unset value for no
value. -/
inductive Place where
  | term | usingParameter | limit
  deriving DecidableEq

structure Site where
  marker : BindMarker
  place : Place
  deriving DecidableEq

def accepts (s : Site) (v : Term) : Prop :=
  match s.place, v with
  | .term, _ => True
  | .usingParameter, .literal (.s64 _) => True
  | .usingParameter, .literal .null => True
  | .usingParameter, .literal .unset => True
  | .limit, .literal (.s64 _) => True
  | _, _ => False

/-! ### Terms -/

mutual

/-- All markers of a term, also those that no traversal of the source visits. -/
def termSites : Term → List Site
  | .literal _ => []
  | .bindMarker marker => [⟨marker, .term⟩]
  | .map keyValues => pairsSites keyValues
  | .set keys => termsSites keys
  | .listOrVector elements => termsSites elements
  | .udt identifierValues => fieldsSites identifierValues
  | .tuple elements => termsSites elements
  | .functionCall _ arguments => termsSites arguments
  | .unaryMinus operand => termSites operand
  | .binaryArithmetic lhs _ rhs => termSites lhs ++ termSites rhs
  | .typeHint _ operand => termSites operand
  | .columnValue _ => []

def termsSites : List Term → List Site
  | [] => []
  | e :: es => termSites e ++ termsSites es

def pairsSites : List (Term × Term) → List Site
  | [] => []
  | (key, value) :: es => termSites key ++ termSites value ++ pairsSites es

def fieldsSites : List (Bytes × Term) → List Site
  | [] => []
  | (_, value) :: es => termSites value ++ fieldsSites es

end

mutual

def fillTerm (f : Site → Option Term) : Term → Term
  | .literal value => .literal value
  | .bindMarker marker => (f ⟨marker, .term⟩).getD (.bindMarker marker)
  | .map keyValues => .map (fillPairs f keyValues)
  | .set keys => .set (fillTerms f keys)
  | .listOrVector elements => .listOrVector (fillTerms f elements)
  | .udt identifierValues => .udt (fillFields f identifierValues)
  | .tuple elements => .tuple (fillTerms f elements)
  | .functionCall identifier arguments => .functionCall identifier (fillTerms f arguments)
  | .unaryMinus operand => .unaryMinus (fillTerm f operand)
  | .binaryArithmetic lhs op rhs => .binaryArithmetic (fillTerm f lhs) op (fillTerm f rhs)
  | .typeHint type operand => .typeHint type (fillTerm f operand)
  | .columnValue value => .columnValue value

def fillTerms (f : Site → Option Term) : List Term → List Term
  | [] => []
  | e :: es => fillTerm f e :: fillTerms f es

def fillPairs (f : Site → Option Term) : List (Term × Term) → List (Term × Term)
  | [] => []
  | (key, value) :: es => (fillTerm f key, fillTerm f value) :: fillPairs f es

def fillFields (f : Site → Option Term) : List (Bytes × Term) → List (Bytes × Term)
  | [] => []
  | (name, value) :: es => (name, fillTerm f value) :: fillFields f es

end

mutual

/-- No marker stands in a UDT literal, an operand or behind a type hint. -/
def Reached : Term → Prop
  | .map keyValues => PairsReached keyValues
  | .set keys => TermsReached keys
  | .listOrVector elements => TermsReached elements
  | .udt identifierValues => fieldsSites identifierValues = []
  | .tuple elements => TermsReached elements
  | .functionCall _ arguments => TermsReached arguments
  | .unaryMinus operand => termSites operand = []
  | .binaryArithmetic lhs _ rhs => termSites lhs ++ termSites rhs = []
  | .typeHint _ operand => termSites operand = []
  | _ => True

def TermsReached : List Term → Prop
  | [] => True
  | e :: es => Reached e ∧ TermsReached es

def PairsReached : List (Term × Term) → Prop
  | [] => True
  | (key, value) :: es => (Reached key ∧ Reached value) ∧ PairsReached es

end

/-- A value without markers. -/
def Clean (v : Term) : Prop := termSites v = []

abbrev Slots (α : Type) := Traversal Site Term α

abbrev Lawful {α : Type} (T : Slots α) (a : α) : Prop := LawfulAt accepts Clean T a

def termSlots : Slots Term := ⟨termSites, fillTerm, bindInTerm, Reached⟩

def fieldSlots : Slots (Bytes × Term) := termSlots.within Prod.snd fun e value => (e.1, value)

theorem termsSites_eq (es : List Term) : termsSites es = termSlots.list.sites es := by
  induction es with
  | nil => rfl
  | cons e es ih =>
      rw [termsSites, ih]
      exact (termSlots.sites_cons e es).symm

theorem fillTerms_eq (f : Site → Option Term) (es : List Term) : fillTerms f es = termSlots.list.fill f es := by
  induction es with
  | nil => rfl
  | cons e es ih =>
      rw [fillTerms, ih]
      rfl

theorem bindInTerms_eq (es bv : List Term) : bindInTerms es bv = termSlots.list.bind es bv := by
  induction es generalizing bv with
  | nil => rfl
  | cons e es ih =>
      rw [bindInTerms]
      simp only [ih]
      rfl

theorem termsReached_iff (es : List Term) : TermsReached es ↔ termSlots.list.reach es := by
  induction es with
  | nil => exact iff_of_true trivial (List.forall_mem_nil _)
  | cons e es ih =>
      rw [TermsReached, ih]
      exact (termSlots.reach_cons e es).symm

theorem pairsSites_eq (es : List (Term × Term)) : pairsSites es = (termSlots.prod termSlots).list.sites es := by
  induction es with
  | nil => rfl
  | cons e es ih =>
      rw [pairsSites, ih]
      exact ((termSlots.prod termSlots).sites_cons e es).symm

theorem fillPairs_eq (f : Site → Option Term) (es : List (Term × Term)) :
    fillPairs f es = (termSlots.prod termSlots).list.fill f es := by
  induction es with
  | nil => rfl
  | cons e es ih =>
      rw [fillPairs, ih]
      rfl

theorem bindInPairs_eq (es : List (Term × Term)) (bv : List Term) :
    bindInPairs es bv = (termSlots.prod termSlots).list.bind es bv := by
  induction es generalizing bv with
  | nil => rfl
  | cons e es ih =>
      rw [bindInPairs]
      simp only [ih]
      rfl

theorem pairsReached_iff (es : List (Term × Term)) :
    PairsReached es ↔ (termSlots.prod termSlots).list.reach es := by
  induction es with
  | nil => exact iff_of_true trivial (List.forall_mem_nil _)
  | cons e es ih =>
      rw [PairsReached, ih]
      exact ((termSlots.prod termSlots).reach_cons e es).symm

theorem fieldsSites_eq (es : List (Bytes × Term)) : fieldsSites es = fieldSlots.list.sites es := by
  induction es with
  | nil => rfl
  | cons e es ih =>
      rw [fieldsSites, ih]
      exact (fieldSlots.sites_cons e es).symm

theorem fillFields_eq (f : Site → Option Term) (es : List (Bytes × Term)) :
    fillFields f es = fieldSlots.list.fill f es := by
  induction es with
  | nil => rfl
  | cons e es ih =>
      rw [fillFields, ih]
      rfl

/-- A marker takes the next value. -/
theorem lawful_bindMarker (marker : BindMarker) : Lawful termSlots (.bindMarker marker) where
  bind_eq {f vs} _ hfits hagrees := by
    cases vs with
    | nil => exact hfits.elim
    | cons v vs =>
        have hv : f ⟨marker, .term⟩ = some v := hagrees.1
        change bindInTerm (.bindMarker marker) (v :: vs) = (fillTerm f (.bindMarker marker), vs)
        rw [bindInTerm, fillTerm, hv, Option.getD_some]
  of_bind {vs} hempty := by
    cases vs with
    | nil => cases hempty
    | cons v vs => exact ⟨trivial, ⟨trivial, trivial⟩, rfl⟩
  of_fill {f} hempty s hs := by
    obtain rfl := List.mem_singleton.mp hs
    change termSites (fillTerm f (.bindMarker marker)) = [] at hempty
    cases hf : f ⟨marker, .term⟩ with
    | none =>
        rw [fillTerm, hf] at hempty
        cases hempty
    | some v => rfl
  fill_clean {f} hclean := by
    obtain ⟨v, hv, -, hvclean⟩ := hclean ⟨marker, .term⟩ (List.mem_singleton.mpr rfl)
    change termSites (fillTerm f (.bindMarker marker)) = []
    rw [fillTerm, hv]
    exact hvclean
  fill_self hempty := by cases hempty

/-- What the source does not enter. -/
theorem lawful_unvisited {α : Type} {T : Slots α} {a : α} (mk : α → Term) (h : Lawful T a)
    (hsites : ∀ a, termSites (mk a) = T.sites a) (hfill : ∀ f, fillTerm f (mk a) = mk (T.fill f a))
    (hbind : ∀ bv, bindInTerm (mk a) bv = (mk a, bv)) (hreach : Reached (mk a) ↔ T.sites a = []) :
    Lawful termSlots (mk a) :=
  h.hidden.wrap mk hsites hfill hbind hreach

theorem lawful_terms {es : List Term} (mk : List Term → Term) (h : ∀ e ∈ es, Lawful termSlots e)
    (hsites : ∀ es, termSites (mk es) = termsSites es) (hfill : ∀ f, fillTerm f (mk es) = mk (fillTerms f es))
    (hbind : ∀ bv, bindInTerm (mk es) bv = (mk (bindInTerms es bv).1, (bindInTerms es bv).2))
    (hreach : Reached (mk es) ↔ TermsReached es) : Lawful termSlots (mk es) := by
  refine (LawfulAt.list h).wrap mk (fun es => ?_) (fun f => ?_) (fun bv => ?_) ?_
  · exact (hsites es).trans (termsSites_eq es)
  · exact (hfill f).trans (congrArg mk (fillTerms_eq f es))
  · exact (hbind bv).trans (by rw [bindInTerms_eq])
  · exact hreach.trans (termsReached_iff es)

theorem lawful_term (t : Term) : Lawful termSlots t := by
  induction t with
  | literal value => exact LawfulAt.of_none rfl (fun _ => rfl) (fun _ => by simp [termSlots, bindInTerm]) trivial
  | columnValue value => exact LawfulAt.of_none rfl (fun _ => rfl) (fun _ => by simp [termSlots, bindInTerm]) trivial
  | bindMarker marker => exact lawful_bindMarker marker
  | map es ih =>
      have hlist := LawfulAt.list (T := termSlots.prod termSlots) fun e he => LawfulAt.prod (ih e he).1 (ih e he).2
      refine hlist.wrap Term.map pairsSites_eq (fun f => ?_) (fun bv => ?_) (pairsReached_iff es)
      · exact congrArg Term.map (fillPairs_eq f es)
      · simp only [termSlots, bindInTerm, bindInPairs_eq]
  | set es ih => exact lawful_terms .set ih (fun _ => rfl) (fun _ => rfl) (fun _ => by rw [bindInTerm]) Iff.rfl
  | listOrVector es ih =>
      exact lawful_terms .listOrVector ih (fun _ => rfl) (fun _ => rfl) (fun _ => by rw [bindInTerm]) Iff.rfl
  | tuple es ih => exact lawful_terms .tuple ih (fun _ => rfl) (fun _ => rfl) (fun _ => by rw [bindInTerm]) Iff.rfl
  | functionCall identifier es ih =>
      exact lawful_terms (.functionCall identifier) ih (fun _ => rfl) (fun _ => rfl) (fun _ => by rw [bindInTerm]) Iff.rfl
  | udt es ih =>
      have hlist : Lawful fieldSlots.list es :=
        LawfulAt.list fun e he => LawfulAt.within (fun _ _ => rfl) (fun _ => rfl) (ih e he)
      refine lawful_unvisited .udt hlist fieldsSites_eq (fun f => ?_) (fun _ => by simp [bindInTerm]) ?_
      · exact congrArg Term.udt (fillFields_eq f es)
      · exact (fieldsSites_eq es).congr_left
  | unaryMinus operand ih =>
      exact lawful_unvisited .unaryMinus ih (fun _ => rfl) (fun _ => rfl) (fun _ => by simp [bindInTerm]) Iff.rfl
  | binaryArithmetic lhs op rhs ihl ihr =>
      exact lawful_unvisited (a := (lhs, rhs)) (fun e => .binaryArithmetic e.1 op e.2) (LawfulAt.prod ihl ihr)
        (fun _ => rfl) (fun _ => rfl) (fun _ => by simp [bindInTerm]) Iff.rfl
  | typeHint type operand ih =>
      exact lawful_unvisited (.typeHint type) ih (fun _ => rfl) (fun _ => rfl) (fun _ => by simp [bindInTerm]) Iff.rfl

def twiSites : TermWithIdentifiers → List Site
  | .term term => termSites term
  | .unaryMinus operand => twiSites operand
  | .binaryArithmetic lhs _ rhs => twiSites lhs ++ twiSites rhs
  | .identifier _ => []

def fillTwi (f : Site → Option Term) : TermWithIdentifiers → TermWithIdentifiers
  | .term term => .term (fillTerm f term)
  | .unaryMinus operand => .unaryMinus (fillTwi f operand)
  | .binaryArithmetic lhs op rhs => .binaryArithmetic (fillTwi f lhs) op (fillTwi f rhs)
  | .identifier name => .identifier name

/-- The operations on columns are entered, unlike those inside a term. -/
def TwiReached : TermWithIdentifiers → Prop
  | .term term => Reached term
  | .unaryMinus operand => TwiReached operand
  | .binaryArithmetic lhs _ rhs => TwiReached lhs ∧ TwiReached rhs
  | .identifier _ => True

def twiSlots : Slots TermWithIdentifiers := ⟨twiSites, fillTwi, bindInTwi, TwiReached⟩

theorem lawful_twi (t : TermWithIdentifiers) : Lawful twiSlots t := by
  induction t with
  | term term => exact (lawful_term term).wrap TermWithIdentifiers.term (fun _ => rfl) (fun _ => rfl) (fun _ => rfl) Iff.rfl
  | unaryMinus operand ih => exact ih.wrap TermWithIdentifiers.unaryMinus (fun _ => rfl) (fun _ => rfl) (fun _ => rfl) Iff.rfl
  | binaryArithmetic lhs op rhs ihl ihr =>
      exact (LawfulAt.prod (x := (lhs, rhs)) ihl ihr).wrap (fun e => TermWithIdentifiers.binaryArithmetic e.1 op e.2)
        (fun _ => rfl) (fun _ => rfl) (fun _ => rfl) Iff.rfl
  | identifier name => exact LawfulAt.of_none rfl (fun _ => rfl) (fun _ => rfl) trivial

/-! ### Integers -/

/-- The integer that a value is taken as. -/
def integerOf : Place → Term → Option (BitVec 64)
  | .term, _ => none
  | _, .literal (.s64 n) => some n
  | .usingParameter, .literal .null => some 0
  | .usingParameter, .literal .unset => some 0
  | _, _ => none

def integerSites (place : Place) : IntegerTerm → List Site
  | .s64 _ => []
  | .bindMarker marker => [⟨marker, place⟩]

def fillInteger (place : Place) (f : Site → Option Term) : IntegerTerm → IntegerTerm
  | .s64 value => .s64 value
  | .bindMarker marker =>
      match (f ⟨marker, place⟩).bind (integerOf place) with
      | some n => .s64 n
      | none => .bindMarker marker

/-- A value that is no integer is used up, and the marker stays. -/
def bindInInteger (place : Place) : IntegerTerm → List Term → IntegerTerm × List Term
  | .bindMarker marker, v :: bv =>
      match integerOf place v with
      | some n => (.s64 n, bv)
      | none => (.bindMarker marker, bv)
  | t, bv => (t, bv)

def integerSlots (place : Place) : Slots IntegerTerm :=
  ⟨integerSites place, fillInteger place, bindInInteger place, fun _ => True⟩

theorem integerOf_isSome_iff {marker : BindMarker} {place : Place} (hplace : place ≠ .term) {v : Term} :
    (integerOf place v).isSome = true ↔ accepts ⟨marker, place⟩ v := by
  cases place with
  | term => exact absurd rfl hplace
  | usingParameter =>
      cases v with
      | literal value => cases value <;> simp [integerOf, accepts]
      | _ => simp [integerOf, accepts]
  | limit =>
      cases v with
      | literal value => cases value <;> simp [integerOf, accepts]
      | _ => simp [integerOf, accepts]

theorem lawful_integer {place : Place} (hplace : place ≠ .term) (t : IntegerTerm) : Lawful (integerSlots place) t := by
  cases t with
  | s64 value => exact LawfulAt.of_none rfl (fun _ => rfl) (fun _ => rfl) trivial
  | bindMarker marker =>
      have haccepts : ∀ v, (integerOf place v).isSome = true ↔ accepts ⟨marker, place⟩ v := fun v =>
        integerOf_isSome_iff hplace
      constructor
      case bind_eq =>
        intro f vs _ hfits hagrees
        cases vs with
        | nil => exact hfits.elim
        | cons v vs =>
            obtain ⟨n, hn⟩ := Option.isSome_iff_exists.mp ((haccepts v).mpr hfits.1)
            have hv : f ⟨marker, place⟩ = some v := hagrees.1
            simp only [integerSlots, bindInInteger, fillInteger, hv, hn, Option.bind_some]
            rfl
      case of_bind =>
        intro vs hempty
        cases vs with
        | nil => cases hempty
        | cons v vs =>
            cases hn : integerOf place v with
            | none =>
                simp only [integerSlots, bindInInteger, hn] at hempty
                cases hempty
            | some n =>
                refine ⟨trivial, ⟨(haccepts v).mp (by rw [hn]; rfl), trivial⟩, ?_⟩
                simp only [integerSlots, bindInInteger, hn]
                rfl
      case of_fill =>
        intro f hempty s hs
        obtain rfl := List.mem_singleton.mp hs
        cases hf : f ⟨marker, place⟩ with
        | none =>
            simp only [integerSlots, fillInteger, hf, Option.bind_none] at hempty
            cases hempty
        | some v => rfl
      case fill_clean =>
        intro f hclean
        obtain ⟨v, hv, hvaccepts, -⟩ := hclean ⟨marker, place⟩ (List.mem_singleton.mpr rfl)
        obtain ⟨n, hn⟩ := Option.isSome_iff_exists.mp ((haccepts v).mpr hvaccepts)
        simp only [integerSlots, fillInteger, hv, hn, Option.bind_some]
        rfl
      case fill_self =>
        intro hempty
        cases hempty

def usingSlots : Slots (List UpdateParameter) :=
  ((integerSlots .usingParameter).within UpdateParameter.value fun param value => { param with value := value }).list

theorem lawful_using (params : List UpdateParameter) : Lawful usingSlots params :=
  LawfulAt.list fun _ _ => LawfulAt.within (fun _ _ => rfl) (fun _ => rfl) (lawful_integer (by decide) _)

theorem bindInUsingParams_eq : bindInUsingParams = usingSlots.bind := by
  have hparam : bindInUsingParam = ((integerSlots .usingParameter).within UpdateParameter.value
      fun param value => { param with value := value }).bind := by
    funext param bv
    obtain ⟨kind, value⟩ := param
    cases value with
    | s64 n => cases bv <;> rfl
    | bindMarker marker =>
        cases bv with
        | nil => rfl
        | cons v bv =>
            cases v with
            | literal value => cases value <;> rfl
            | _ => rfl
  rw [bindInUsingParams, hparam]
  rfl

def limitSlots : Slots (Option IntegerTerm) := (integerSlots .limit).option

theorem lawful_limit (limit : Option IntegerTerm) : Lawful limitSlots limit :=
  LawfulAt.option fun _ _ => lawful_integer (by decide) _

theorem bindInLimit_eq : bindInLimit = limitSlots.bind := by
  funext limit bv
  cases limit with
  | none => rfl
  | some t =>
      cases t with
      | s64 n => cases bv <;> rfl
      | bindMarker marker =>
          cases bv with
          | nil => rfl
          | cons v bv =>
              cases v with
              | literal value => cases value <;> rfl
              | _ => rfl

/-! ### Clauses -/

def relationSlots : Slots Relation where
  sites
    | .columnExpression _ _ value => termSites value
    | .tupleExpression _ _ values => termSlots.list.sites values
    | .token _ _ value => termSites value
    | .subscripted _ subscript _ value => termSites subscript ++ termSites value
  fill f
    | .columnExpression column op value => .columnExpression column op (fillTerm f value)
    | .tupleExpression columns op values => .tupleExpression columns op (termSlots.list.fill f values)
    | .token columns op value => .token columns op (fillTerm f value)
    | .subscripted column subscript op value => .subscripted column (fillTerm f subscript) op (fillTerm f value)
  bind := bindInRelation
  reach
    | .columnExpression _ _ value => Reached value
    | .tupleExpression _ _ values => ∀ v ∈ values, Reached v
    | .token _ _ value => Reached value
    | .subscripted _ subscript _ value => Reached subscript ∧ Reached value

theorem lawful_relation (r : Relation) : Lawful relationSlots r := by
  cases r with
  | columnExpression column op value =>
      exact (lawful_term value).wrap (Relation.columnExpression column op) (fun _ => rfl) (fun _ => rfl) (fun _ => rfl)
        Iff.rfl
  | tupleExpression columns op values =>
      exact (LawfulAt.list fun v _ => lawful_term v).wrap (Relation.tupleExpression columns op) (fun _ => rfl)
        (fun _ => rfl) (fun _ => rfl) Iff.rfl
  | token columns op value =>
      exact (lawful_term value).wrap (Relation.token columns op) (fun _ => rfl) (fun _ => rfl) (fun _ => rfl) Iff.rfl
  | subscripted column subscript op value =>
      exact (LawfulAt.prod (x := (subscript, value)) (lawful_term _) (lawful_term _)).wrap
        (fun e => Relation.subscripted column e.1 op e.2) (fun _ => rfl) (fun _ => rfl) (fun _ => rfl) Iff.rfl

def whereSlots : Slots WhereClause := relationSlots.list

theorem lawful_where (where_ : WhereClause) : Lawful whereSlots where_ := LawfulAt.list fun r _ => lawful_relation r

def selectionSlots : Slots SimpleSelection where
  sites sel :=
    match sel.access with
    | some (.subscript index) => termSites index
    | _ => []
  fill f sel :=
    match sel.access with
    | some (.subscript index) => { sel with access := some (.subscript (fillTerm f index)) }
    | _ => sel
  bind := bindInSelection
  reach sel := ∀ index ∈ sel.subscript?, Reached index

theorem lawful_selection (sel : SimpleSelection) : Lawful selectionSlots sel := by
  obtain ⟨column, access⟩ := sel
  cases access with
  | none => exact LawfulAt.of_none rfl (fun _ => rfl) (fun _ => rfl) (by simp [selectionSlots, SimpleSelection.subscript?])
  | some access =>
      cases access with
      | fieldAccess field =>
          exact LawfulAt.of_none rfl (fun _ => rfl) (fun _ => rfl) (by simp [selectionSlots, SimpleSelection.subscript?])
      | subscript index =>
          refine (lawful_term index).wrap (fun index => SimpleSelection.mk column (some (.subscript index)))
            (fun _ => rfl) (fun _ => rfl) (fun _ => rfl) ?_
          simp [selectionSlots, termSlots, SimpleSelection.subscript?]

def assignmentSlots : Slots Assignment :=
  (selectionSlots.prod twiSlots).within (fun asgn => (asgn.target, asgn.value)) fun _ y => ⟨y.1, y.2⟩

theorem lawful_assignment (asgn : Assignment) : Lawful assignmentSlots asgn :=
  LawfulAt.within (fun _ _ => rfl) (fun _ => rfl) (LawfulAt.prod (lawful_selection _) (lawful_twi _))

def conditionSlots : Slots Condition :=
  (selectionSlots.prod termSlots).within (fun c => (c.selection, c.value)) fun c y => ⟨y.1, c.op, y.2⟩

theorem lawful_condition (c : Condition) : Lawful conditionSlots c :=
  LawfulAt.within (fun _ _ => rfl) (fun _ => rfl) (LawfulAt.prod (lawful_selection _) (lawful_term _))

/-- The conditions of an `IF` clause, which no traversal of the source visits. -/
def ifSlots : Slots (Option IfClause) :=
  (Traversal.option {
    sites
      | .exists_ => []
      | .conditions conditions => conditionSlots.list.sites conditions
    fill f
      | .exists_ => .exists_
      | .conditions conditions => .conditions (conditionSlots.list.fill f conditions)
    bind
      | .exists_, bv => (.exists_, bv)
      | .conditions conditions, bv =>
          (.conditions (conditionSlots.list.bind conditions bv).1, (conditionSlots.list.bind conditions bv).2)
    reach
      | .exists_ => True
      | .conditions conditions => conditionSlots.list.reach conditions }).hidden

theorem lawful_if (if_ : Option IfClause) : Lawful ifSlots if_ := by
  refine LawfulAt.hidden (LawfulAt.option fun clause _ => ?_)
  cases clause with
  | exists_ => exact LawfulAt.of_none rfl (fun _ => rfl) (fun _ => rfl) trivial
  | conditions conditions =>
      exact (LawfulAt.list fun c _ => lawful_condition c).wrap IfClause.conditions (fun _ => rfl) (fun _ => rfl)
        (fun _ => rfl) Iff.rfl

/-! ### Statements -/

/-- A value of an `INSERT`, which is not entered. -/
def insertValueSlots : Slots Term where
  sites := termSites
  fill := fillTerm
  bind
    | .bindMarker _, v :: bv => (v, bv)
    | value, bv => (value, bv)
  reach value := value.isBindMarker = true ∨ termSites value = []

theorem lawful_insertValue (value : Term) : Lawful insertValueSlots value := by
  by_cases hmarker : value.isBindMarker = true
  · cases value with
    | bindMarker marker =>
        refine (lawful_bindMarker marker).wrap id (fun _ => rfl) (fun _ => rfl) (fun bv => ?_) ?_
        · cases bv <;> rfl
        · exact iff_of_true (Or.inl rfl) trivial
    | _ => cases hmarker
  · refine (lawful_term value).hidden.wrap id (fun _ => rfl) (fun _ => rfl) (fun bv => ?_) (or_iff_right hmarker)
    cases value with
    | bindMarker marker => exact absurd rfl hmarker
    | _ => rfl

theorem bindInInsertValues_eq (values bv : List Term) :
    bindInInsertValues values bv = insertValueSlots.list.bind values bv := by
  induction values generalizing bv with
  | nil => cases bv <;> rfl
  | cons value values ih =>
      have hnil : ∀ value, insertValueSlots.bind value [] = (value, []) := fun value => by cases value <;> rfl
      cases bv with
      | nil =>
          change _ = bindEach insertValueSlots.bind (value :: values) []
          have hrest := ih []
          rw [bindInInsertValues] at hrest ⊢
          rw [bindEach, hnil]
          change _ = (value :: (bindEach insertValueSlots.bind values []).1, _)
          rw [show bindEach insertValueSlots.bind values [] = (values, []) from hrest.symm]
      | cons v bv =>
          change _ = bindEach insertValueSlots.bind (value :: values) (v :: bv)
          cases value with
          | bindMarker marker =>
              rw [bindInInsertValues, ih]
              rfl
          | _ =>
              rw [bindInInsertValues, ih]
              · rfl
              all_goals simp

def insertClauseSlots : Slots InsertClause where
  sites
    | .namesValues _ values => insertValueSlots.list.sites values
    | .json .. => []
  fill f
    | .namesValues names values => .namesValues names (insertValueSlots.list.fill f values)
    | .json string default => .json string default
  bind := bindInInsertClause
  reach
    | .namesValues _ values => insertValueSlots.list.reach values
    | .json .. => True

theorem lawful_insertClause (clause : InsertClause) : Lawful insertClauseSlots clause := by
  cases clause with
  | namesValues names values =>
      refine (LawfulAt.list fun v _ => lawful_insertValue v).wrap (InsertClause.namesValues names) (fun _ => rfl)
        (fun _ => rfl) (fun bv => ?_) Iff.rfl
      simp only [insertClauseSlots, bindInInsertClause, bindInInsertValues_eq]
  | json string default => exact LawfulAt.of_none rfl (fun _ => rfl) (fun _ => rfl) trivial

def insertSlots : Slots Insert :=
  (insertClauseSlots.prod usingSlots).within (fun s => (s.insertClause, s.usingParameters))
    fun s y => { s with insertClause := y.1, usingParameters := y.2 }

theorem lawful_insert (s : Insert) : Lawful insertSlots s :=
  LawfulAt.within (fun _ _ => rfl) (fun _ => rfl) (LawfulAt.prod (lawful_insertClause _) (lawful_using _))

theorem bindInInsert_eq : bindInInsert = insertSlots.bind := by
  funext s bv
  simp only [bindInInsert, bindInUsingParams_eq]
  rfl

def updateSlots : Slots Update :=
  (usingSlots.prod (assignmentSlots.list.prod (whereSlots.prod ifSlots))).within
    (fun s => (s.usingParameters, s.assignments, s.where_, s.if_))
    fun s y => { s with usingParameters := y.1, assignments := y.2.1, where_ := y.2.2.1, if_ := y.2.2.2 }

theorem lawful_update (s : Update) : Lawful updateSlots s :=
  LawfulAt.within (fun _ _ => rfl) (fun _ => rfl) (LawfulAt.prod (lawful_using _)
    (LawfulAt.prod (LawfulAt.list fun a _ => lawful_assignment a) (LawfulAt.prod (lawful_where _) (lawful_if _))))

theorem bindInUpdate_eq : bindInUpdate = updateSlots.bind := by
  funext s bv
  simp only [bindInUpdate, bindInUsingParams_eq]
  rfl

def deleteSlots : Slots Delete :=
  (usingSlots.prod (selectionSlots.list.prod (whereSlots.prod ifSlots))).within
    (fun s => (s.usingParameters, s.selections, s.where_, s.if_))
    fun s y => { s with usingParameters := y.1, selections := y.2.1, where_ := y.2.2.1, if_ := y.2.2.2 }

theorem lawful_delete (s : Delete) : Lawful deleteSlots s :=
  LawfulAt.within (fun _ _ => rfl) (fun _ => rfl) (LawfulAt.prod (lawful_using _)
    (LawfulAt.prod (LawfulAt.list fun a _ => lawful_selection a) (LawfulAt.prod (lawful_where _) (lawful_if _))))

theorem bindInDelete_eq : bindInDelete = deleteSlots.bind := by
  funext s bv
  simp only [bindInDelete, bindInUsingParams_eq]
  rfl

def modificationSlots : Slots ModificationStatement where
  sites
    | .insert s => insertSlots.sites s
    | .update s => updateSlots.sites s
    | .delete s => deleteSlots.sites s
  fill f
    | .insert s => .insert (insertSlots.fill f s)
    | .update s => .update (updateSlots.fill f s)
    | .delete s => .delete (deleteSlots.fill f s)
  bind := bindInModification
  reach
    | .insert s => insertSlots.reach s
    | .update s => updateSlots.reach s
    | .delete s => deleteSlots.reach s

theorem lawful_modification (m : ModificationStatement) : Lawful modificationSlots m := by
  cases m with
  | insert s =>
      refine (lawful_insert s).wrap ModificationStatement.insert (fun _ => rfl) (fun _ => rfl) (fun bv => ?_) Iff.rfl
      simp only [modificationSlots, bindInModification, bindInInsert_eq]
  | update s =>
      refine (lawful_update s).wrap ModificationStatement.update (fun _ => rfl) (fun _ => rfl) (fun bv => ?_) Iff.rfl
      simp only [modificationSlots, bindInModification, bindInUpdate_eq]
  | delete s =>
      refine (lawful_delete s).wrap ModificationStatement.delete (fun _ => rfl) (fun _ => rfl) (fun bv => ?_) Iff.rfl
      simp only [modificationSlots, bindInModification, bindInDelete_eq]

def batchSlots : Slots Batch :=
  (usingSlots.prod modificationSlots.list).within (fun s => (s.usingParameters, s.statements))
    fun s y => { s with usingParameters := y.1, statements := y.2 }

theorem lawful_batch (s : Batch) : Lawful batchSlots s :=
  LawfulAt.within (fun _ _ => rfl) (fun _ => rfl)
    (LawfulAt.prod (lawful_using _) (LawfulAt.list fun m _ => lawful_modification m))

theorem bindInBatch_eq : bindInBatch = batchSlots.bind := by
  funext s bv
  simp only [bindInBatch, bindInUsingParams_eq]
  rfl

/-- Without `PER PARTITION LIMIT`, whose marker is not to be replaced. -/
def selectSlots : Slots Select :=
  (whereSlots.option.prod limitSlots).within (fun s => (s.where_, s.limit))
    fun s y => { s with where_ := y.1, limit := y.2 }

theorem lawful_select (s : Select) : Lawful selectSlots s :=
  LawfulAt.within (fun _ _ => rfl) (fun _ => rfl)
    (LawfulAt.prod (LawfulAt.option fun w _ => lawful_where w) (lawful_limit _))

theorem bindInSelect_eq : bindInSelect = selectSlots.bind := by
  funext s bv
  obtain ⟨table, where_, perPartitionLimit, limit⟩ := s
  cases where_ with
  | none =>
      simp only [bindInSelect, bindInLimit_eq]
      rfl
  | some where_ =>
      simp only [bindInSelect, bindInLimit_eq]
      rfl

/-- The statements, with `bind_values_to_statement` where there are values. -/
def statementSlots : Slots DmlStatement where
  sites
    | .insert s => insertSlots.sites s
    | .update s => updateSlots.sites s
    | .delete s => deleteSlots.sites s
    | .batch s => batchSlots.sites s
    | .select s => selectSlots.sites s
  fill f
    | .insert s => .insert (insertSlots.fill f s)
    | .update s => .update (updateSlots.fill f s)
    | .delete s => .delete (deleteSlots.fill f s)
    | .batch s => .batch (batchSlots.fill f s)
    | .select s => .select (selectSlots.fill f s)
  bind
    | .insert s, bv =>
        match s.insertClause with
        | .json .. => (.insert s, bv)
        | .namesValues .. => (.insert (bindInInsert s bv).1, (bindInInsert s bv).2)
    | .update s, bv => (.update (bindInUpdate s bv).1, (bindInUpdate s bv).2)
    | .delete s, bv => (.delete (bindInDelete s bv).1, (bindInDelete s bv).2)
    | .batch s, bv => (.batch (bindInBatch s bv).1, (bindInBatch s bv).2)
    | .select s, bv => (.select (bindInSelect s bv).1, (bindInSelect s bv).2)
  reach
    | .insert s =>
        match s.insertClause with
        | .json .. => insertSlots.sites s = []
        | .namesValues .. => insertSlots.reach s
    | .update s => updateSlots.reach s
    | .delete s => deleteSlots.reach s
    | .batch s => batchSlots.reach s
    | .select s => selectSlots.reach s

theorem lawful_statement (s : DmlStatement) : Lawful statementSlots s := by
  cases s with
  | insert s =>
      cases hclause : s.insertClause with
      | json string default =>
          refine (lawful_insert s).hidden.wrap DmlStatement.insert (fun _ => rfl) (fun _ => rfl) (fun bv => ?_) ?_
          · simp only [statementSlots, hclause]
            rfl
          · simp only [statementSlots, hclause]
            rfl
      | namesValues names values =>
          refine (lawful_insert s).wrap DmlStatement.insert (fun _ => rfl) (fun _ => rfl) (fun bv => ?_) ?_
          · simp only [statementSlots, hclause, bindInInsert_eq]
          · simp only [statementSlots, hclause]
  | update s =>
      refine (lawful_update s).wrap DmlStatement.update (fun _ => rfl) (fun _ => rfl) (fun bv => ?_) Iff.rfl
      simp only [statementSlots, bindInUpdate_eq]
  | delete s =>
      refine (lawful_delete s).wrap DmlStatement.delete (fun _ => rfl) (fun _ => rfl) (fun bv => ?_) Iff.rfl
      simp only [statementSlots, bindInDelete_eq]
  | batch s =>
      refine (lawful_batch s).wrap DmlStatement.batch (fun _ => rfl) (fun _ => rfl) (fun bv => ?_) Iff.rfl
      simp only [statementSlots, bindInBatch_eq]
  | select s =>
      refine (lawful_select s).wrap DmlStatement.select (fun _ => rfl) (fun _ => rfl) (fun bv => ?_) Iff.rfl
      simp only [statementSlots, bindInSelect_eq]

theorem bindValuesToStatement_eq (s : DmlStatement) {bv : List Term} (h : bv ≠ []) :
    bindValuesToStatement s bv = (statementSlots.bind s bv).1 := by
  unfold bindValuesToStatement
  rw [if_neg (by simpa using h)]
  cases s with
  | insert s =>
      cases hclause : s.insertClause with
      | json => simp only [statementSlots, hclause]
      | namesValues => simp only [statementSlots, hclause]
  | _ => rfl

end Plexdb.Cql
