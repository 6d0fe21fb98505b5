import Plexdb.TypedConversions

/-! Chains of conversions. A conversion between different types gives something from or to blobs only, so the chains
that give every stored value of a type back stay at the type, or lead a word of 32 bits through its blob. -/

namespace Plexdb.Cql.Conversion

/-- The conversions lead from one type to another. -/
def Chained : Basic → List Step → Basic → Prop
  | source, [], target => source = target
  | source, step :: steps, target => step.source = source ∧ Chained step.target steps target

theorem Chained.append {source mid target : Basic} {front back : List Step} (hfront : Chained source front mid)
    (hback : Chained mid back target) : Chained source (front ++ back) target := by
  induction front generalizing source with
  | nil => exact hfront ▸ hback
  | cons step front ih => exact ⟨hfront.1, ih hfront.2⟩

theorem Chained.snoc {source target : Basic} {steps : List Step} {step : Step}
    (h : Chained source steps step.source) (htarget : step.target = target) : Chained source (steps ++ [step]) target :=
  h.append ⟨rfl, htarget⟩

/-- `int` and `date`, which are stored as words of 32 bits. -/
def isWord (dtype : Basic) : Bool := (intConvFor dtype).any (·.decodeToS32)

/-- A conversion that gives a word or the blob of it back. -/
def KeepsWord (step : Step) : Prop :=
  step.source = step.target ∨ (isWord step.source = true ∧ step.target = .blob) ∨
    (step.source = .blob ∧ isWord step.target = true)

theorem applyConversionStack_cons (v : ColumnValue) (step : Step) (steps : List Step) :
    applyConversionStack v (step :: steps) =
      (applyTypedConversion v step.source step.target).bind fun v => applyConversionStack v steps := rfl

theorem applyTypedConversion_same (v : ColumnValue) (dtype : Basic) : applyTypedConversion v dtype dtype = some v := by
  unfold applyTypedConversion
  rw [beq_self_eq_true, Bool.or_true, if_pos rfl]

theorem applyConversionStack_null (steps : List Step) : applyConversionStack .null steps = some .null := by
  induction steps with
  | nil => rfl
  | cons step steps ih => exact ih

/-- Nothing comes out of a chain once a conversion has given null. -/
theorem stack_cons_null {v : ColumnValue} {step : Step} (h : applyTypedConversion v step.source step.target = some .null)
    (steps : List Step) : applyConversionStack v (step :: steps) = some .null := by
  rw [applyConversionStack_cons, h, Option.bind_some, applyConversionStack_null]

/-! ### Words through blobs -/

theorem isWord_cases {dtype : Basic} (h : isWord dtype = true) :
    ∃ info, intConvFor dtype = some info ∧ info.bytes = 4 ∧ info.decodeToS32 = true := by
  cases dtype <;> first | exact ⟨_, rfl, rfl, rfl⟩ | exact Bool.noConfusion h

theorem bytes_ne_of_not_word {dtype : Basic} {info : IntConvType} (hinfo : intConvFor dtype = some info)
    (h : isWord dtype = false) : info.bytes ≠ 4 := by
  cases dtype <;> cases hinfo <;> first | exact Bool.noConfusion h | decide

/-- Only conversions from and to blobs give anything. -/
theorem applyTypedConversion_direct {v : ColumnValue} {source target : Basic} (hne : source ≠ target)
    (hsource : source ≠ .blob) (htarget : target ≠ .blob) (hnull : v.isNull = false) :
    applyTypedConversion v source target = some .null := by
  unfold applyTypedConversion
  rw [hnull, beq_eq_false_iff_ne.mpr hne, beq_eq_false_iff_ne.mpr htarget]
  cases source <;> first | rfl | exact absurd rfl hsource

/-- A blob is converted to a type of its length only. -/
theorem applyTypedConversion_blob {bytes : Bytes} {target : Basic} (hne : target ≠ .blob)
    (h : ∀ info, intConvFor target = some info → bytes.length ≠ info.bytes) :
    applyTypedConversion (.blob bytes) .blob target = some .null := by
  cases hinfo : intConvFor target with
  | some info => exact ofBlob_of_length hinfo (h info hinfo)
  | none =>
      unfold applyTypedConversion
      rw [beq_eq_false_iff_ne.mpr hne.symm, beq_eq_false_iff_ne.mpr hne, hinfo]
      rfl

/-- A word or its blob, at the type a chain has reached. -/
inductive Carries (bits : BitVec 32) : Basic → ColumnValue → Prop
  | word {dtype : Basic} (h : isWord dtype = true) : Carries bits dtype (.s32 bits)
  | blob : Carries bits .blob (.blob (twosComplement (.s32 bits)))

theorem Carries.step {bits : BitVec 32} {step : Step} {v : ColumnValue} (h : Carries bits step.source v) :
    (KeepsWord step ∧ ∃ w, applyTypedConversion v step.source step.target = some w ∧ Carries bits step.target w) ∨
      (¬ KeepsWord step ∧ applyTypedConversion v step.source step.target = some .null) := by
  obtain ⟨source, target⟩ := step
  by_cases hsame : source = target
  · subst hsame
    exact .inl ⟨.inl rfl, v, applyTypedConversion_same v source, h⟩
  cases h with
  | word hword =>
      obtain ⟨info, hinfo, hbytes, hdecode⟩ := isWord_cases hword
      by_cases htarget : target = .blob
      · subst htarget
        exact .inl ⟨.inr (.inl ⟨hword, rfl⟩), _, (inverts_s32 hinfo hbytes hdecode bits).1, .blob⟩
      · refine .inr ⟨?_, applyTypedConversion_direct hsame (intConvFor_ne_blob hinfo) htarget rfl⟩
        rintro (h | ⟨-, h⟩ | ⟨h, -⟩)
        exacts [hsame h, htarget h, intConvFor_ne_blob hinfo h]
  | blob =>
      cases hword : isWord target with
      | true =>
          obtain ⟨info, hinfo, hbytes, hdecode⟩ := isWord_cases hword
          exact .inl ⟨.inr (.inr ⟨rfl, hword⟩), _, (inverts_s32 hinfo hbytes hdecode bits).2, .word hword⟩
      | false =>
          refine .inr ⟨?_, applyTypedConversion_blob (Ne.symm hsame) fun info hinfo => ?_⟩
          · rintro (h | ⟨h, -⟩ | ⟨-, h⟩)
            · exact hsame h
            · exact Bool.noConfusion h
            · exact Bool.noConfusion (hword.symm.trans h)
          · rw [twosComplement, Native.length_beBytes]
            exact (bytes_ne_of_not_word hinfo hword).symm

theorem Carries.run {bits : BitVec 32} {source target : Basic} {v : ColumnValue} {steps : List Step}
    (h : Carries bits source v) (hchain : Chained source steps target) :
    applyConversionStack v steps = some (.s32 bits) ↔ isWord target = true ∧ ∀ step ∈ steps, KeepsWord step := by
  induction steps generalizing source v with
  | nil =>
      obtain rfl : source = target := hchain
      cases h with
      | word hword => exact iff_of_true rfl ⟨hword, List.forall_mem_nil _⟩
      | blob => exact iff_of_false (fun h => nomatch Option.some.inj h) fun h => Bool.noConfusion h.1
  | cons step steps ih =>
      obtain ⟨rfl, hchain⟩ := hchain
      rcases h.step with ⟨hkeeps, w, hw, hnext⟩ | ⟨hkeeps, hnull⟩
      · rw [applyConversionStack_cons, hw, Option.bind_some, ih hnext hchain, List.forall_mem_cons,
          and_iff_right hkeeps]
      · rw [stack_cons_null hnull]
        exact iff_of_false (fun h => nomatch Option.some.inj h) fun h => hkeeps (List.forall_mem_cons.mp h.2).1

/-! ### Values that do not come back -/

/-- Every conversion to another type gives null. -/
def Rigid (source : Basic) (v : ColumnValue) : Prop :=
  v.isNull = false ∧ ∀ target, source ≠ target → applyTypedConversion v source target = some .null

theorem ne_null {v : ColumnValue} (h : v.isNull = false) : v ≠ .null := by
  rintro rfl
  exact Bool.noConfusion h

theorem Rigid.run {source target : Basic} {v : ColumnValue} (h : Rigid source v) {steps : List Step}
    (hchain : Chained source steps target) (hrun : applyConversionStack v steps = some v) :
    ∀ step ∈ steps, step.source = step.target := by
  induction steps with
  | nil => exact List.forall_mem_nil _
  | cons step steps ih =>
      obtain ⟨hsource, hchain⟩ := hchain
      by_cases hsame : step.source = step.target
      · rw [applyConversionStack_cons, ← hsame, applyTypedConversion_same, Option.bind_some] at hrun
        rw [← hsame, hsource] at hchain
        exact List.forall_mem_cons.mpr ⟨hsame, ih hchain hrun⟩
      · rw [stack_cons_null (hsource ▸ h.2 _ (hsource ▸ hsame))] at hrun
        exact absurd (Option.some.inj hrun).symm (ne_null h.1)

end Plexdb.Cql.Conversion
