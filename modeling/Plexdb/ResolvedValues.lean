import Plexdb.ColumnEquality
import Plexdb.ListUpdates
import Plexdb.Terms

/-! Which terms are resolved to what they write (`resolve_evaluated`). An integer is cut to the width of its type, and
nothing looks for nulls in collections, at the count of a vector, at the surplus elements of a tuple or at the fields
that a user type does not have; a value that is already evaluated is taken as it is. -/

namespace Plexdb.Cql.Resolve

/-- The integer in a native value; that of a `tinyint` is a signed byte. -/
def integerOf : ColumnValue → Option Int
  | .s64 bits => some bits.toInt
  | .s32 bits => some bits.toInt
  | .s16 bits => some bits.toInt
  | .u8 bits => some bits.toInt
  | _ => none

/-- A value says what a literal says. -/
def Says : Literal → ColumnValue → Prop
  | .null, v => v = .null
  | .s64 i, v => integerOf v = some i.toInt
  | .bool b, v => v = .u8 (if b then 1 else 0)
  | .f64 x, v => v = .f64 x ∨ v = .f32 (Float.toF32 x)
  | .text s, v => v = .text s
  | .uuid u, v => v = .uuid u
  | .hex bytes, v => v = .blob bytes
  | .blob bytes, v => v = .blob bytes
  | .duration d, v => v = .duration d
  | .unset, _ => False

mutual

/-- `v` is what the term writes: each element of the term has its value in it, and it holds nothing else. A set or a
map is what its elements give one after the other, so an equal key stands once, with the last value. -/
def Denotes (ctx : EvalContext) : Ty → Evaluated → ColumnValue → Prop
  | _, .columnValue w, v => v = w
  | _, .literal lit, v => Says lit v
  | .list element _, .listOrVector es, .array vs =>
      List.Forall₂ (fun e v => Denotes ctx element (evaluate ctx e) v) es vs
  | .vector element _ _, .listOrVector es, .array vs =>
      List.Forall₂ (fun e v => Denotes ctx element (evaluate ctx e) v) es vs
  | .set key _, .set keys, .set vs =>
      ∃ ws, List.Forall₂ (fun k w => OfType key w ∧ Denotes ctx key (evaluate ctx k) w) keys ws ∧
        vs = ws.foldl insertKey []
  | .map key value _, .map entries, .map es =>
      ∃ ws, List.Forall₂ (fun (e : Term × Term) (w : ColumnValue × ColumnValue) =>
          (OfType key w.1 ∧ Denotes ctx key (evaluate ctx e.1) w.1) ∧
            OfType value w.2 ∧ Denotes ctx value (evaluate ctx e.2) w.2) entries ws ∧
        es = ws.foldl (fun m e => insertEntry m e.1 e.2) []
  | .tuple elements _, .tuple es, .array vs => FieldsDenote ctx elements es vs
  | .udt _ _ names types, .udt fields, .array vs =>
      (fields.map Prod.fst).Nodup ∧ (∀ f ∈ fields, f.1 ∈ names.take types.length) ∧
        UdtFieldsDenote ctx types names fields vs
  | _, _, _ => False

/-- A tuple literal may leave out its last elements, and has none too many. -/
def FieldsDenote (ctx : EvalContext) : List Ty → List Term → List ColumnValue → Prop
  | [], [], [] => True
  | _ :: ts, [], v :: vs => v = .null ∧ FieldsDenote ctx ts [] vs
  | t :: ts, e :: es, v :: vs => Denotes ctx t (evaluate ctx e) v ∧ FieldsDenote ctx ts es vs
  | _, _, _ => False

def UdtFieldsDenote (ctx : EvalContext) : List Ty → List Bytes → List (Bytes × Term) → List ColumnValue → Prop
  | [], _, _, [] => True
  | t :: ts, name :: names, fields, v :: vs =>
      (∀ f, fields.find? (fun f => f.1 == name) = some f → Denotes ctx t (evaluate ctx f.2) v) ∧
        (fields.find? (fun f => f.1 == name) = none → v = .null) ∧ UdtFieldsDenote ctx ts names fields vs
  | _, _, _, _ => False

end

/-! ### Which terms are accepted, and which of them are sound -/

mutual

/-- Each literal is of a kind its native type admits, and each other term of the kind of its type. -/
def Accepts (ctx : EvalContext) : Ty → Evaluated → Prop
  | _, .columnValue _ => True
  | .basic b, .literal lit => canWriteLiteral lit b = true
  | .list element _, .listOrVector es => ∀ e ∈ es, Accepts ctx element (evaluate ctx e)
  | .vector element _ _, .listOrVector es => ∀ e ∈ es, Accepts ctx element (evaluate ctx e)
  | .set key _, .set keys => ∀ k ∈ keys, Accepts ctx key (evaluate ctx k)
  | .map key value _, .map entries =>
      ∀ e ∈ entries, Accepts ctx key (evaluate ctx e.1) ∧ Accepts ctx value (evaluate ctx e.2)
  | .tuple elements _, .tuple es => FieldsAccept ctx elements es
  | .udt _ _ names types, .udt fields => UdtFieldsAccept ctx types names fields
  | _, _ => False

def FieldsAccept (ctx : EvalContext) : List Ty → List Term → Prop
  | [], _ => True
  | _ :: _, [] => True
  | t :: ts, e :: es => Accepts ctx t (evaluate ctx e) ∧ FieldsAccept ctx ts es

def UdtFieldsAccept (ctx : EvalContext) : List Ty → List Bytes → List (Bytes × Term) → Prop
  | [], _, _ => True
  | _ :: _, [], _ => False
  | t :: ts, name :: names, fields =>
      (∀ f, fields.find? (fun f => f.1 == name) = some f → Accepts ctx t (evaluate ctx f.2)) ∧
        UdtFieldsAccept ctx ts names fields

end

/-- `eval_is_null` of `cql/engine/engine.cpp`. -/
def evalIsNull : Evaluated → Bool
  | .literal .null => true
  | .columnValue .null => true
  | _ => false

def integerWidth : Basic → Nat
  | .tinyint => 8
  | .smallint => 16
  | .int | .date => 32
  | _ => 64

/-- An integer that the signed integers of a native type have. -/
def Fits (b : Basic) (i : BitVec 64) : Prop :=
  -(2 ^ (integerWidth b - 1) : Int) ≤ i.toInt ∧ i.toInt < 2 ^ (integerWidth b - 1)

instance (b : Basic) (i : BitVec 64) : Decidable (Fits b i) := inferInstanceAs (Decidable (_ ∧ _))

mutual

/-- The integers fit their types, collections hold no null, a vector has its count, a tuple literal is not longer than
its type, a user type literal names each of its fields once and no other field, and a value that is already evaluated
is null or of its type. -/
def Sound (ctx : EvalContext) : Ty → Evaluated → Prop
  | t, .columnValue w => w = .null ∨ OfType t w
  | .basic b, .literal (.s64 i) => Fits b i
  | .list element _, .listOrVector es => ∀ e ∈ es, evalIsNull (evaluate ctx e) = false ∧ Sound ctx element (evaluate ctx e)
  | .vector element count _, .listOrVector es =>
      es.length = count.toNat ∧ ∀ e ∈ es, evalIsNull (evaluate ctx e) = false ∧ Sound ctx element (evaluate ctx e)
  | .set key _, .set keys => ∀ k ∈ keys, evalIsNull (evaluate ctx k) = false ∧ Sound ctx key (evaluate ctx k)
  | .map key value _, .map entries =>
      ∀ e ∈ entries, (evalIsNull (evaluate ctx e.1) = false ∧ Sound ctx key (evaluate ctx e.1)) ∧
        evalIsNull (evaluate ctx e.2) = false ∧ Sound ctx value (evaluate ctx e.2)
  | .tuple elements _, .tuple es => FieldsSound ctx elements es
  | .udt _ _ names types, .udt fields =>
      (fields.map Prod.fst).Nodup ∧ (∀ f ∈ fields, f.1 ∈ names.take types.length) ∧
        UdtFieldsSound ctx types names fields
  | _, _ => True

def FieldsSound (ctx : EvalContext) : List Ty → List Term → Prop
  | [], es => es = []
  | _ :: _, [] => True
  | t :: ts, e :: es => Sound ctx t (evaluate ctx e) ∧ FieldsSound ctx ts es

def UdtFieldsSound (ctx : EvalContext) : List Ty → List Bytes → List (Bytes × Term) → Prop
  | [], _, _ => True
  | _ :: _, [], _ => True
  | t :: ts, name :: names, fields =>
      (∀ f, fields.find? (fun f => f.1 == name) = some f → Sound ctx t (evaluate ctx f.2)) ∧
        UdtFieldsSound ctx ts names fields

end

/-! ### Literals -/

theorem toInt_setWidth_of_fits {w : Nat} {i : BitVec 64} (hpos : 0 < w) (hle : w ≤ 64)
    (hlow : -(2 ^ (w - 1) : Int) ≤ i.toInt) (hhigh : i.toInt < 2 ^ (w - 1)) : (i.setWidth w).toInt = i.toInt := by
  obtain ⟨n, rfl⟩ := Nat.exists_eq_add_of_lt hpos
  rw [← BitVec.signExtend_eq_setWidth_of_le i hle, BitVec.toInt_signExtend_eq_toInt_bmod_of_le i hle]
  rw [Nat.zero_add, Nat.add_sub_cancel] at hlow hhigh
  have hpow : (2 ^ (0 + n + 1) : Nat) = 2 ^ n * 2 := by rw [Nat.zero_add, Nat.pow_succ]
  rw [hpow]
  refine Int.bmod_eq_of_le ?_ ?_
  · push_cast
    omega
  · push_cast
    omega

theorem integerOf_narrowS64Literal {b : Basic} {i : BitVec 64} (hfits : Fits b i) :
    integerOf (narrowS64Literal i b) = some i.toInt := by
  obtain ⟨hlow, hhigh⟩ := hfits
  cases b with
  | tinyint => exact congrArg some (toInt_setWidth_of_fits (by decide) (by decide) hlow hhigh)
  | smallint => exact congrArg some (toInt_setWidth_of_fits (by decide) (by decide) hlow hhigh)
  | int => exact congrArg some (toInt_setWidth_of_fits (by decide) (by decide) hlow hhigh)
  | date => exact congrArg some (toInt_setWidth_of_fits (by decide) (by decide) hlow hhigh)
  | _ => rfl

/-- The integer of a value of a native type is one that the type has. -/
theorem fits_of_integerOf {b : Basic} {i : BitVec 64} {v : ColumnValue} (hv : storedVariant b v = true)
    (hi : integerOf v = some i.toInt) : Fits b i := by
  have hbounds : ∀ {w : Nat} (x : BitVec w), -(2 ^ (w - 1) : Int) ≤ x.toInt ∧ x.toInt < 2 ^ (w - 1) := fun x =>
    ⟨BitVec.le_toInt x, BitVec.toInt_lt⟩
  rw [Fits]
  cases b with
  | tinyint =>
      cases v with
      | u8 x => exact Option.some.inj hi ▸ hbounds x
      | _ => cases hv
  | smallint =>
      cases v with
      | s16 x => exact Option.some.inj hi ▸ hbounds x
      | _ => cases hv
  | int =>
      cases v with
      | s32 x => exact Option.some.inj hi ▸ hbounds x
      | _ => cases hv
  | date =>
      cases v with
      | s32 x => exact Option.some.inj hi ▸ hbounds x
      | _ => cases hv
  | _ => exact hbounds i

theorem sound_literal {ctx : EvalContext} {b : Basic} {lit : Literal} :
    Sound ctx (.basic b) (.literal lit) ↔ ∀ i, lit = .s64 i → Fits b i := by
  cases lit with
  | s64 i =>
      rw [Sound]
      exact ⟨fun h j hj => Literal.s64.inj hj ▸ h, fun h => h i rfl⟩
  | _ => simp [Sound]

theorem storedVariant_narrowS64Literal {b : Basic} (i : BitVec 64) (h : isLiteralIntegerFamily b = true) :
    storedVariant b (narrowS64Literal i b) = true := by
  cases b <;> first | rfl | cases h

theorem resolveLiteralScalar_isSome {b : Basic} {lit : Literal} :
    (resolveLiteralScalar lit (.basic b)).isSome ↔ canWriteLiteral lit b = true := by
  change (if !canWriteLiteral lit b then none else _ : Option ColumnValue).isSome ↔ _
  cases hcan : canWriteLiteral lit b with
  | false => exact iff_of_false Bool.false_ne_true Bool.false_ne_true
  | true =>
      rw [Bool.not_true, if_neg Bool.false_ne_true]
      cases lit with
      | unset => cases hcan
      | _ => exact iff_of_true rfl rfl

/-- What a literal is resolved to: null, or a value of its type. -/
theorem resolve_literal_spec {b : Basic} {lit : Literal} {v : ColumnValue}
    (h : resolveLiteralScalar lit (.basic b) = some v) :
    (evalIsNull (.literal lit) = true ∧ v = .null ∨ evalIsNull (.literal lit) = false ∧ storedVariant b v = true) ∧
      ((∀ i, lit = .s64 i → Fits b i) → Says lit v) := by
  have hcan : canWriteLiteral lit b = true := resolveLiteralScalar_isSome.mp (h ▸ rfl)
  change (if !canWriteLiteral lit b then none else _ : Option ColumnValue) = some v at h
  rw [hcan, Bool.not_true, if_neg Bool.false_ne_true] at h
  cases lit with
  | null =>
      obtain rfl := Option.some.inj h
      exact ⟨Or.inl ⟨rfl, rfl⟩, fun _ => rfl⟩
  | s64 i =>
      obtain rfl := Option.some.inj h
      exact ⟨Or.inr ⟨rfl, storedVariant_narrowS64Literal i hcan⟩, fun hfits => integerOf_narrowS64Literal (hfits i rfl)⟩
  | f64 x =>
      obtain rfl := Option.some.inj h
      refine ⟨Or.inr ⟨rfl, by cases b <;> first | rfl | cases hcan⟩, fun _ => ?_⟩
      cases b <;> first | exact Or.inl rfl | exact Or.inr rfl
  | bool v =>
      obtain rfl := Option.some.inj h
      exact ⟨Or.inr ⟨rfl, by cases b <;> first | rfl | cases hcan⟩, fun _ => rfl⟩
  | text v =>
      obtain rfl := Option.some.inj h
      exact ⟨Or.inr ⟨rfl, by cases b <;> first | rfl | cases hcan⟩, fun _ => rfl⟩
  | uuid v =>
      obtain rfl := Option.some.inj h
      exact ⟨Or.inr ⟨rfl, by cases b <;> first | rfl | cases hcan⟩, fun _ => rfl⟩
  | hex v =>
      obtain rfl := Option.some.inj h
      exact ⟨Or.inr ⟨rfl, by cases b <;> first | rfl | cases hcan⟩, fun _ => rfl⟩
  | blob v =>
      obtain rfl := Option.some.inj h
      exact ⟨Or.inr ⟨rfl, by cases b <;> first | rfl | cases hcan⟩, fun _ => rfl⟩
  | duration v =>
      obtain rfl := Option.some.inj h
      exact ⟨Or.inr ⟨rfl, by cases b <;> first | rfl | cases hcan⟩, fun _ => rfl⟩
  | unset => cases hcan

/-! ### Terms -/

variable {ctx : EvalContext}

theorem resolveEvaluated_columnValue (t : Ty) (w : ColumnValue) :
    resolveEvaluated ctx t (.columnValue w) = some w := by
  cases t <;> rw [resolveEvaluated]

theorem accepts_columnValue (t : Ty) (w : ColumnValue) : Accepts ctx t (.columnValue w) := by
  cases t <;> trivial

theorem sound_columnValue {t : Ty} {w : ColumnValue} : Sound ctx t (.columnValue w) ↔ w = .null ∨ OfType t w := by
  cases t <;> rw [Sound]

theorem denotes_columnValue {t : Ty} {w v : ColumnValue} : Denotes ctx t (.columnValue w) v ↔ v = w := by
  cases t <;> cases v <;> rw [Denotes]

theorem denotes_literal {t : Ty} {lit : Literal} {v : ColumnValue} : Denotes ctx t (.literal lit) v ↔ Says lit v := by
  cases t <;> cases v <;> rw [Denotes]

theorem resolveEvaluated_literal {t : Ty} {lit : Literal} :
    resolveEvaluated ctx t (.literal lit) = resolveLiteralScalar lit t := by
  cases t <;> rw [resolveEvaluated]

theorem resolveFields_isSome {ts : List Ty} {es : List Term}
    (ih : ∀ t ∈ ts, ∀ e, (resolveEvaluated ctx t e).isSome ↔ Accepts ctx t e) :
    (resolveFields ctx ts es).isSome ↔ FieldsAccept ctx ts es := by
  induction ts generalizing es with
  | nil => exact iff_of_true (by rw [resolveFields]; rfl) (by rw [FieldsAccept]; trivial)
  | cons t ts ihts =>
      obtain ⟨iht, ihrest⟩ := List.forall_mem_cons.mp ih
      cases es with
      | nil =>
          have hrest : (resolveFields ctx ts []).isSome := (ihts ihrest).mpr (by cases ts <;> trivial)
          obtain ⟨vs, hvs⟩ := Option.isSome_iff_exists.mp hrest
          simp [resolveFields, FieldsAccept, hvs]
      | cons e es =>
          rw [FieldsAccept, ← iht, ← ihts ihrest, resolveFields]
          cases resolveEvaluated ctx t (evaluate ctx e) <;> cases resolveFields ctx ts es <;> simp

theorem resolveUdtFields_isSome {ts : List Ty} {names : List Bytes} {fields : List (Bytes × Term)}
    (ih : ∀ t ∈ ts, ∀ e, (resolveEvaluated ctx t e).isSome ↔ Accepts ctx t e) :
    (resolveUdtFields ctx ts names fields).isSome ↔ UdtFieldsAccept ctx ts names fields := by
  induction ts generalizing names with
  | nil => exact iff_of_true (by rw [resolveUdtFields]; rfl) (by rw [UdtFieldsAccept]; trivial)
  | cons t ts ihts =>
      obtain ⟨iht, ihrest⟩ := List.forall_mem_cons.mp ih
      cases names with
      | nil => simp [resolveUdtFields, UdtFieldsAccept]
      | cons name names =>
          rw [UdtFieldsAccept, ← ihts ihrest, resolveUdtFields]
          cases hfind : fields.find? fun f => f.1 == name with
          | none => cases resolveUdtFields ctx ts names fields <;> simp
          | some f =>
              simp only [Option.some.injEq, forall_eq', ← iht]
              cases resolveEvaluated ctx t (evaluate ctx f.2) <;> cases resolveUdtFields ctx ts names fields <;> simp

theorem isSome_bind_pure {α β : Type} {a : Option α} {f : α → β} :
    (do let x ← a; pure (f x)).isSome ↔ a.isSome := by
  cases a <;> rfl

theorem pair_isSome {α β : Type} {a : Option α} {b : Option β} :
    (do let x ← a; let y ← b; pure (x, y)).isSome ↔ a.isSome ∧ b.isSome := by
  cases a <;> cases b <;> simp

theorem resolveEvaluated_isSome {t : Ty} {e : Evaluated} : (resolveEvaluated ctx t e).isSome ↔ Accepts ctx t e := by
  induction t generalizing e with
  | basic b =>
      cases e with
      | literal lit =>
          rw [resolveEvaluated_literal, Accepts]
          exact resolveLiteralScalar_isSome
      | _ => simp [resolveEvaluated, Accepts]
  | list element frozen ih =>
      cases e with
      | listOrVector es =>
          rw [resolveEvaluated, Option.isSome_map, mapM_isSome, Accepts]
          exact forall₂_congr fun e _ => ih
      | _ => simp [resolveEvaluated, Accepts, resolveLiteralScalar]
  | vector element count frozen ih =>
      cases e with
      | listOrVector es =>
          rw [resolveEvaluated, Option.isSome_map, mapM_isSome, Accepts]
          exact forall₂_congr fun e _ => ih
      | _ => simp [resolveEvaluated, Accepts, resolveLiteralScalar]
  | set key frozen ih =>
      cases e with
      | set keys =>
          rw [Accepts, resolveEvaluated]
          exact isSome_bind_pure.trans (mapM_isSome.trans (forall₂_congr fun e _ => ih))
      | _ => simp [resolveEvaluated, Accepts, resolveLiteralScalar]
  | map key value frozen ihk ihv =>
      cases e with
      | map entries =>
          rw [Accepts, resolveEvaluated]
          refine isSome_bind_pure.trans (mapM_isSome.trans (forall₂_congr fun e _ => ?_))
          exact pair_isSome.trans (and_congr ihk ihv)
      | _ => simp [resolveEvaluated, Accepts, resolveLiteralScalar]
  | tuple elements frozen ih =>
      cases e with
      | tuple es =>
          rw [resolveEvaluated, Option.isSome_map, Accepts]
          exact resolveFields_isSome ih
      | _ => simp [resolveEvaluated, Accepts, resolveLiteralScalar]
  | udt keyspace name names types ih =>
      cases e with
      | udt fields =>
          rw [resolveEvaluated, Option.isSome_map, Accepts]
          exact resolveUdtFields_isSome ih
      | _ => simp [resolveEvaluated, Accepts, resolveLiteralScalar]

/-! ### Sound terms -/

/-- What a term is resolved to when it is sound. -/
def Resolved (ctx : EvalContext) (t : Ty) (e : Evaluated) (v : ColumnValue) : Prop :=
  (evalIsNull e = true ∧ v = .null ∨ evalIsNull e = false ∧ OfType t v) ∧ Denotes ctx t e v

theorem Resolved.of_nonnull {t : Ty} {e : Evaluated} {v : ColumnValue} (h : Resolved ctx t e v)
    (hnull : evalIsNull e = false) : OfType t v ∧ Denotes ctx t e v := by
  refine ⟨?_, h.2⟩
  rcases h.1 with ⟨htrue, -⟩ | ⟨-, htype⟩
  · rw [hnull] at htrue
    cases htrue
  · exact htype

theorem Resolved.null_or (h : Resolved ctx t e v) : v = .null ∨ OfType t v :=
  h.1.imp And.right And.right

theorem resolved_columnValue {t : Ty} {w v : ColumnValue} (h : resolveEvaluated ctx t (.columnValue w) = some v)
    (hsound : Sound ctx t (.columnValue w)) : Resolved ctx t (.columnValue w) v := by
  rw [resolveEvaluated_columnValue] at h
  obtain rfl := Option.some.inj h
  refine ⟨?_, denotes_columnValue.mpr rfl⟩
  by_cases hnull : w = .null
  · exact Or.inl ⟨hnull ▸ rfl, hnull⟩
  · refine Or.inr ⟨?_, (sound_columnValue.mp hsound).resolve_left hnull⟩
    cases w <;> first | rfl | exact absurd rfl hnull

theorem elements_resolved {t : Ty} {es : List Term} {vs : List ColumnValue}
    (ih : ∀ {e v}, resolveEvaluated ctx t e = some v → Sound ctx t e → Resolved ctx t e v)
    (h : es.mapM (fun e => resolveEvaluated ctx t (evaluate ctx e)) = some vs)
    (hsound : ∀ e ∈ es, evalIsNull (evaluate ctx e) = false ∧ Sound ctx t (evaluate ctx e)) :
    List.Forall₂ (fun e v => OfType t v ∧ Denotes ctx t (evaluate ctx e) v) es vs :=
  forall₂_of_mapM h fun e he _ hev => (ih hev (hsound e he).2).of_nonnull (hsound e he).1

theorem entries_resolved {kt vt : Ty} {entries : List (Term × Term)} {ws : List (ColumnValue × ColumnValue)}
    (ihk : ∀ {e v}, resolveEvaluated ctx kt e = some v → Sound ctx kt e → Resolved ctx kt e v)
    (ihv : ∀ {e v}, resolveEvaluated ctx vt e = some v → Sound ctx vt e → Resolved ctx vt e v)
    (h : (entries.mapM fun e => do
      let k ← resolveEvaluated ctx kt (evaluate ctx e.1)
      let v ← resolveEvaluated ctx vt (evaluate ctx e.2)
      pure (k, v)) = some ws)
    (hsound : ∀ e ∈ entries, (evalIsNull (evaluate ctx e.1) = false ∧ Sound ctx kt (evaluate ctx e.1)) ∧
      evalIsNull (evaluate ctx e.2) = false ∧ Sound ctx vt (evaluate ctx e.2)) :
    List.Forall₂ (fun (e : Term × Term) (w : ColumnValue × ColumnValue) =>
      (OfType kt w.1 ∧ Denotes ctx kt (evaluate ctx e.1) w.1) ∧
        OfType vt w.2 ∧ Denotes ctx vt (evaluate ctx e.2) w.2) entries ws := by
  refine forall₂_of_mapM h fun e he w hew => ?_
  obtain ⟨k, hk, hew⟩ := Option.bind_eq_some_iff.mp hew
  obtain ⟨v, hv, hew⟩ := Option.bind_eq_some_iff.mp hew
  obtain rfl := Option.some.inj hew
  obtain ⟨hkey, hvalue⟩ := hsound e he
  exact ⟨(ihk hk hkey.2).of_nonnull hkey.1, (ihv hv hvalue.2).of_nonnull hvalue.1⟩

theorem fields_resolved {ts : List Ty} {es : List Term} {vs : List ColumnValue}
    (ih : ∀ t ∈ ts, ∀ e v, resolveEvaluated ctx t e = some v → Sound ctx t e → Resolved ctx t e v)
    (h : resolveFields ctx ts es = some vs) (hsound : FieldsSound ctx ts es) :
    FieldsOfType ts vs ∧ FieldsDenote ctx ts es vs := by
  induction ts generalizing es vs with
  | nil =>
      rw [FieldsSound] at hsound
      rw [resolveFields] at h
      obtain rfl := hsound
      obtain rfl := Option.some.inj h
      simp [FieldsOfType, FieldsDenote]
  | cons t ts ihts =>
      obtain ⟨iht, ihrest⟩ := List.forall_mem_cons.mp ih
      cases es with
      | nil =>
          rw [resolveFields] at h
          obtain ⟨rest, hrest, h⟩ := Option.bind_eq_some_iff.mp h
          obtain rfl := Option.some.inj h
          obtain ⟨htypes, hdenote⟩ := ihts ihrest hrest (by cases ts <;> simp [FieldsSound])
          rw [FieldsOfType, FieldsDenote]
          exact ⟨⟨Or.inl rfl, htypes⟩, rfl, hdenote⟩
      | cons e es =>
          rw [resolveFields] at h
          obtain ⟨v, hv, h⟩ := Option.bind_eq_some_iff.mp h
          obtain ⟨rest, hrest, h⟩ := Option.bind_eq_some_iff.mp h
          obtain rfl := Option.some.inj h
          rw [FieldsSound] at hsound
          have hfirst := iht _ _ hv hsound.1
          obtain ⟨htypes, hdenote⟩ := ihts ihrest hrest hsound.2
          rw [FieldsOfType, FieldsDenote]
          exact ⟨⟨hfirst.null_or, htypes⟩, hfirst.2, hdenote⟩

theorem udtFields_resolved {ts : List Ty} {names : List Bytes} {fields : List (Bytes × Term)} {vs : List ColumnValue}
    (ih : ∀ t ∈ ts, ∀ e v, resolveEvaluated ctx t e = some v → Sound ctx t e → Resolved ctx t e v)
    (h : resolveUdtFields ctx ts names fields = some vs) (hsound : UdtFieldsSound ctx ts names fields) :
    FieldsOfType ts vs ∧ UdtFieldsDenote ctx ts names fields vs := by
  induction ts generalizing names vs with
  | nil =>
      rw [resolveUdtFields] at h
      obtain rfl := Option.some.inj h
      simp [FieldsOfType, UdtFieldsDenote]
  | cons t ts ihts =>
      obtain ⟨iht, ihrest⟩ := List.forall_mem_cons.mp ih
      cases names with
      | nil => cases h
      | cons name names =>
          rw [UdtFieldsSound] at hsound
          rw [resolveUdtFields] at h
          cases hfind : fields.find? fun f => f.1 == name with
          | none =>
              simp only [hfind, Option.bind_eq_bind, Option.bind_some] at h
              obtain ⟨rest, hrest, h⟩ := Option.bind_eq_some_iff.mp h
              obtain rfl := Option.some.inj h
              obtain ⟨htypes, hdenote⟩ := ihts ihrest hrest hsound.2
              rw [FieldsOfType, UdtFieldsDenote, hfind]
              exact ⟨⟨Or.inl rfl, htypes⟩, fun f hf => absurd hf.symm (Option.some_ne_none f), fun _ => rfl, hdenote⟩
          | some f =>
              simp only [hfind] at h
              obtain ⟨v, hv, h⟩ := Option.bind_eq_some_iff.mp h
              obtain ⟨rest, hrest, h⟩ := Option.bind_eq_some_iff.mp h
              obtain rfl := Option.some.inj h
              obtain ⟨htypes, hdenote⟩ := ihts ihrest hrest hsound.2
              have hfirst := iht _ _ hv (hsound.1 f hfind)
              rw [FieldsOfType, UdtFieldsDenote, hfind]
              refine ⟨⟨hfirst.null_or, htypes⟩, fun g hg => ?_, fun hnone => ?_, hdenote⟩
              · obtain rfl := Option.some.inj hg
                exact hfirst.2
              · exact absurd hnone (Option.some_ne_none f)

theorem resolved_of_sound {t : Ty} {e : Evaluated} {v : ColumnValue} (h : resolveEvaluated ctx t e = some v)
    (hsound : Sound ctx t e) : Resolved ctx t e v := by
  induction t generalizing e v with
  | basic b =>
      cases e with
      | columnValue w => exact resolved_columnValue h hsound
      | literal lit =>
          rw [resolveEvaluated_literal] at h
          obtain ⟨hnull, hsays⟩ := resolve_literal_spec h
          rw [Resolved, OfType, denotes_literal]
          exact ⟨hnull, hsays (sound_literal.mp hsound)⟩
      | _ => simp [resolveEvaluated] at h
  | list element frozen ih =>
      cases e with
      | columnValue w => exact resolved_columnValue h hsound
      | listOrVector es =>
          rw [resolveEvaluated] at h
          rw [Sound] at hsound
          obtain ⟨vs, hvs, rfl⟩ := Option.map_eq_some_iff.mp h
          have helements := elements_resolved ih hvs hsound
          rw [Resolved, OfType, Denotes]
          exact ⟨Or.inr ⟨rfl, forall_mem_of_forall₂ helements fun _ _ => And.left⟩, helements.imp fun _ _ => And.right⟩
      | _ => simp [resolveEvaluated, resolveLiteralScalar] at h
  | vector element count frozen ih =>
      cases e with
      | columnValue w => exact resolved_columnValue h hsound
      | listOrVector es =>
          rw [resolveEvaluated] at h
          rw [Sound] at hsound
          obtain ⟨vs, hvs, rfl⟩ := Option.map_eq_some_iff.mp h
          have helements := elements_resolved ih hvs hsound.2
          rw [Resolved, OfType, Denotes]
          exact ⟨Or.inr ⟨rfl, helements.length_eq ▸ hsound.1, forall_mem_of_forall₂ helements fun _ _ => And.left⟩,
            helements.imp fun _ _ => And.right⟩
      | _ => simp [resolveEvaluated, resolveLiteralScalar] at h
  | set key frozen ih =>
      cases e with
      | columnValue w => exact resolved_columnValue h hsound
      | set keys =>
          rw [resolveEvaluated] at h
          rw [Sound] at hsound
          obtain ⟨ws, hws, h⟩ := Option.bind_eq_some_iff.mp h
          obtain rfl := Option.some.inj h
          have helements := elements_resolved ih hws hsound
          rw [Resolved, OfType, Denotes]
          refine ⟨Or.inr ⟨rfl, forall_mem_foldl_insertKey (List.forall_mem_nil _) ?_,
            pairwise_foldl_insertKey List.Pairwise.nil ws⟩, ws, helements, rfl⟩
          exact forall_mem_of_forall₂ helements fun _ _ => And.left
      | _ => simp [resolveEvaluated, resolveLiteralScalar] at h
  | map key value frozen ihk ihv =>
      cases e with
      | columnValue w => exact resolved_columnValue h hsound
      | map entries =>
          rw [resolveEvaluated] at h
          rw [Sound] at hsound
          obtain ⟨ws, hws, h⟩ := Option.bind_eq_some_iff.mp h
          obtain rfl := Option.some.inj h
          have helements := entries_resolved ihk ihv hws hsound
          rw [Resolved, OfType, Denotes]
          refine ⟨Or.inr ⟨rfl, forall_mem_foldl_insertEntry (List.forall_mem_nil _) ?_,
            pairwise_foldl_insertEntry List.Pairwise.nil ws⟩, ws, helements, rfl⟩
          exact forall_mem_of_forall₂ helements fun _ _ hew => ⟨hew.1.1, hew.2.1⟩
      | _ => simp [resolveEvaluated, resolveLiteralScalar] at h
  | tuple elements frozen ih =>
      cases e with
      | columnValue w => exact resolved_columnValue h hsound
      | tuple es =>
          rw [resolveEvaluated] at h
          rw [Sound] at hsound
          obtain ⟨vs, hvs, rfl⟩ := Option.map_eq_some_iff.mp h
          obtain ⟨htypes, hdenote⟩ := fields_resolved (fun t ht e v => ih t ht) hvs hsound
          rw [Resolved, OfType, Denotes]
          exact ⟨Or.inr ⟨rfl, htypes⟩, hdenote⟩
      | _ => simp [resolveEvaluated, resolveLiteralScalar] at h
  | udt keyspace name names types ih =>
      cases e with
      | columnValue w => exact resolved_columnValue h hsound
      | udt fields =>
          rw [resolveEvaluated] at h
          rw [Sound] at hsound
          obtain ⟨vs, hvs, rfl⟩ := Option.map_eq_some_iff.mp h
          obtain ⟨htypes, hdenote⟩ := udtFields_resolved (fun t ht e v => ih t ht) hvs hsound.2.2
          rw [Resolved, OfType, Denotes]
          exact ⟨Or.inr ⟨rfl, htypes⟩, hsound.1, hsound.2.1, hdenote⟩
      | _ => simp [resolveEvaluated, resolveLiteralScalar] at h

/-! ### Terms that denote a value -/

theorem evalIsNull_of_denotes {t : Ty} {e : Evaluated} {v : ColumnValue} (h : Denotes ctx t e v) (hv : OfType t v) :
    evalIsNull e = false := by
  rw [← Bool.not_eq_true]
  intro hnull
  refine ne_null_of_ofType hv ?_
  cases e with
  | literal lit =>
      cases lit with
      | null => exact denotes_literal.mp h
      | _ => cases hnull
  | columnValue w =>
      cases w with
      | null => exact denotes_columnValue.mp h
      | _ => cases hnull
  | _ => cases hnull

theorem elements_sound {t : Ty} {es : List Term} {vs : List ColumnValue}
    (ih : ∀ {e v}, Denotes ctx t e v → (v = .null ∨ OfType t v) → Sound ctx t e)
    (h : List.Forall₂ (fun e v => Denotes ctx t (evaluate ctx e) v) es vs) (htypes : ∀ v ∈ vs, OfType t v) :
    ∀ e ∈ es, evalIsNull (evaluate ctx e) = false ∧ Sound ctx t (evaluate ctx e) := by
  intro e he
  obtain ⟨v, hv, hdenotes⟩ := exists_of_forall₂ h he
  exact ⟨evalIsNull_of_denotes hdenotes (htypes v hv), ih hdenotes (Or.inr (htypes v hv))⟩

theorem fields_sound {ts : List Ty} {es : List Term} {vs : List ColumnValue}
    (ih : ∀ t ∈ ts, ∀ e v, Denotes ctx t e v → (v = .null ∨ OfType t v) → Sound ctx t e)
    (h : FieldsDenote ctx ts es vs) (htypes : FieldsOfType ts vs) : FieldsSound ctx ts es := by
  induction ts generalizing es vs with
  | nil =>
      cases es with
      | nil => rw [FieldsSound]
      | cons e es => cases vs <;> simp [FieldsDenote] at h
  | cons t ts ihts =>
      obtain ⟨iht, ihrest⟩ := List.forall_mem_cons.mp ih
      cases es with
      | nil => simp [FieldsSound]
      | cons e es =>
          cases vs with
          | nil => simp [FieldsDenote] at h
          | cons v vs =>
              rw [FieldsDenote] at h
              rw [FieldsOfType] at htypes
              rw [FieldsSound]
              exact ⟨iht _ _ h.1 htypes.1, ihts ihrest h.2 htypes.2⟩

theorem udtFields_sound {ts : List Ty} {names : List Bytes} {fields : List (Bytes × Term)} {vs : List ColumnValue}
    (ih : ∀ t ∈ ts, ∀ e v, Denotes ctx t e v → (v = .null ∨ OfType t v) → Sound ctx t e)
    (h : UdtFieldsDenote ctx ts names fields vs) (htypes : FieldsOfType ts vs) : UdtFieldsSound ctx ts names fields := by
  induction ts generalizing names vs with
  | nil => simp [UdtFieldsSound]
  | cons t ts ihts =>
      obtain ⟨iht, ihrest⟩ := List.forall_mem_cons.mp ih
      cases names with
      | nil => simp [UdtFieldsSound]
      | cons name names =>
          cases vs with
          | nil => simp [UdtFieldsDenote] at h
          | cons v vs =>
              rw [UdtFieldsDenote] at h
              rw [FieldsOfType] at htypes
              rw [UdtFieldsSound]
              exact ⟨fun f hf => iht _ _ (h.1 f hf) htypes.1, ihts ihrest h.2.2 htypes.2⟩

theorem sound_of_denotes {t : Ty} {e : Evaluated} {v : ColumnValue} (h : Denotes ctx t e v)
    (htype : v = .null ∨ OfType t v) : Sound ctx t e := by
  induction t generalizing e v with
  | basic b =>
      cases e with
      | columnValue w => exact sound_columnValue.mpr (denotes_columnValue.mp h ▸ htype)
      | literal lit =>
          rw [sound_literal]
          rintro i rfl
          have hi : integerOf v = some i.toInt := denotes_literal.mp h
          rcases htype with rfl | htype
          · cases hi
          · rw [OfType] at htype
            exact fits_of_integerOf htype hi
      | _ => simp [Sound]
  | list element frozen ih =>
      cases e with
      | columnValue w => exact sound_columnValue.mpr (denotes_columnValue.mp h ▸ htype)
      | listOrVector es =>
          cases v with
          | array vs =>
              have htypes := htype.resolve_left ColumnValue.noConfusion
              rw [Denotes] at h
              rw [OfType] at htypes
              rw [Sound]
              exact elements_sound ih h htypes
          | _ => simp [Denotes] at h
      | _ => simp [Sound]
  | vector element count frozen ih =>
      cases e with
      | columnValue w => exact sound_columnValue.mpr (denotes_columnValue.mp h ▸ htype)
      | listOrVector es =>
          cases v with
          | array vs =>
              have htypes := htype.resolve_left ColumnValue.noConfusion
              rw [Denotes] at h
              rw [OfType] at htypes
              rw [Sound]
              exact ⟨h.length_eq ▸ htypes.1, elements_sound ih h htypes.2⟩
          | _ => simp [Denotes] at h
      | _ => simp [Sound]
  | set key frozen ih =>
      cases e with
      | columnValue w => exact sound_columnValue.mpr (denotes_columnValue.mp h ▸ htype)
      | set keys =>
          cases v with
          | set vs =>
              rw [Denotes] at h
              rw [Sound]
              obtain ⟨ws, hws, -⟩ := h
              exact elements_sound ih (hws.imp fun _ _ => And.right) (forall_mem_of_forall₂ hws fun _ _ => And.left)
          | _ => simp [Denotes] at h
      | _ => simp [Sound]
  | map key value frozen ihk ihv =>
      cases e with
      | columnValue w => exact sound_columnValue.mpr (denotes_columnValue.mp h ▸ htype)
      | map entries =>
          cases v with
          | map es =>
              rw [Denotes] at h
              rw [Sound]
              obtain ⟨ws, hws, -⟩ := h
              intro e he
              obtain ⟨w, -, hkey, hvalue⟩ := exists_of_forall₂ hws he
              exact ⟨⟨evalIsNull_of_denotes hkey.2 hkey.1, ihk hkey.2 (Or.inr hkey.1)⟩,
                evalIsNull_of_denotes hvalue.2 hvalue.1, ihv hvalue.2 (Or.inr hvalue.1)⟩
          | _ => simp [Denotes] at h
      | _ => simp [Sound]
  | tuple elements frozen ih =>
      cases e with
      | columnValue w => exact sound_columnValue.mpr (denotes_columnValue.mp h ▸ htype)
      | tuple es =>
          cases v with
          | array vs =>
              have htypes := htype.resolve_left ColumnValue.noConfusion
              rw [Denotes] at h
              rw [OfType] at htypes
              rw [Sound]
              exact fields_sound (fun t ht e v => ih t ht) h htypes
          | _ => simp [Denotes] at h
      | _ => simp [Sound]
  | udt keyspace name names types ih =>
      cases e with
      | columnValue w => exact sound_columnValue.mpr (denotes_columnValue.mp h ▸ htype)
      | udt fields =>
          cases v with
          | array vs =>
              have htypes := htype.resolve_left ColumnValue.noConfusion
              rw [Denotes] at h
              rw [OfType] at htypes
              rw [Sound]
              exact ⟨h.1, h.2.1, udtFields_sound (fun t ht e v => ih t ht) h.2.2 htypes⟩
          | _ => simp [Denotes] at h
      | _ => simp [Sound]

/-- Whenever a value is resolved, it is null or of its type and what the term writes, exactly when an accepted term is
sound. -/
theorem resolved_value_iff (ctx : EvalContext) (t : Ty) (e : Evaluated) :
    (∀ v, resolveEvaluated ctx t e = some v → (v = .null ∨ OfType t v) ∧ Denotes ctx t e v) ↔
      (Accepts ctx t e → Sound ctx t e) := by
  constructor
  · intro h haccepts
    obtain ⟨v, hv⟩ := Option.isSome_iff_exists.mp (resolveEvaluated_isSome.mpr haccepts)
    obtain ⟨htype, hdenotes⟩ := h v hv
    exact sound_of_denotes hdenotes htype
  · intro h v hv
    have hresolved := resolved_of_sound hv (h (resolveEvaluated_isSome.mp (hv ▸ rfl)))
    exact ⟨hresolved.null_or, hresolved.2⟩

/-- No bindings and no functions. -/
def emptyContext : EvalContext where
  binding _ := none
  call _ _ := .literal .null
  unaryMinus _ := .literal .null
  binaryArithmetic _ _ _ := .literal .null

/-- 44 is resolved for 300 in a `tinyint`, and a list that holds a null for one that has a null written in it. -/
theorem integer_cut_and_null_kept :
    (¬ ∀ v, resolveEvaluated emptyContext (.basic .tinyint) (.literal (.s64 300)) = some v →
        (v = .null ∨ OfType (.basic .tinyint) v) ∧ Denotes emptyContext (.basic .tinyint) (.literal (.s64 300)) v) ∧
      ¬ ∀ v, resolveEvaluated emptyContext (.list (.basic .int) false) (.listOrVector [.literal .null]) = some v →
        (v = .null ∨ OfType (.list (.basic .int) false) v) ∧
          Denotes emptyContext (.list (.basic .int) false) (.listOrVector [.literal .null]) v := by
  refine ⟨fun h => ?_, fun h => ?_⟩
  · obtain ⟨-, hsays⟩ := h (.u8 44) (by rw [resolveEvaluated]; rfl)
    rw [denotes_literal] at hsays
    exact absurd (Option.some.inj hsays) (by decide)
  · obtain ⟨htype, -⟩ := h (.array [.null]) (by simp [resolveEvaluated, resolveLiteralScalar, canWriteLiteral])
    rcases htype with htype | htype
    · cases htype
    · rw [OfType] at htype
      exact ne_null_of_ofType (htype .null List.mem_cons_self) rfl

end Plexdb.Cql.Resolve
