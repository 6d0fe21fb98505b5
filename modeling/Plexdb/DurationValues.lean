import Plexdb.LiteralValues

/-! The values of duration literals, and when they are the durations that are written. -/

namespace Plexdb.Cql.LiteralText

open Arithmetic (inS64)

/-! ### Units -/

namespace DurUnit

def months : DurUnit → Int
  | y => 12
  | mo => 1
  | _ => 0

def days : DurUnit → Int
  | w => 7
  | d => 1
  | _ => 0

def nanoseconds : DurUnit → Int
  | h => 3600000000000
  | ms => 1000000
  | m => 60000000000
  | s => 1000000000
  | us => 1000
  | ns => 1
  | _ => 0

/-- The one factor of the unit. -/
def factor (unit : DurUnit) : Int := unit.months + unit.days + unit.nanoseconds

end DurUnit

/-! ### Durations as they are written -/

abbrev Components := List (Numeral × DurUnit)

def render (comps : Components) : Bytes := comps.flatMap fun c => c.1.digits ++ unitText c.2

def totalMonths (comps : Components) : Int := (comps.map fun c => (c.1.value : Int) * c.2.months).sum

def totalDays (comps : Components) : Int := (comps.map fun c => (c.1.value : Int) * c.2.days).sum

def totalNanoseconds (comps : Components) : Int := (comps.map fun c => (c.1.value : Int) * c.2.nanoseconds).sum

/-- The duration that is written fits its fields. -/
def Fits (comps : Components) : Prop :=
  inS32 (totalMonths comps) ∧ inS32 (totalDays comps) ∧ inS64 (totalNanoseconds comps)

instance (comps : Components) : Decidable (Fits comps) := inferInstanceAs (Decidable (_ ∧ _))

def writtenDuration (comps : Components) : Duration :=
  ⟨BitVec.ofInt 32 (totalMonths comps), BitVec.ofInt 32 (totalDays comps), BitVec.ofInt 64 (totalNanoseconds comps)⟩

/-- What follows the literal neither makes its last unit longer nor goes on with a component. -/
def Delimits (whitespace : Bool) (rest : Bytes) : Prop :=
  (∀ c ∈ rest.head?, c ≠ 111 ∧ c ≠ 115) ∧ (skip whitespace rest).head?.any isDigit = false

section

variable (recovered : Bytes → BitVec 64)

/-- The value is the duration that is written if it fits, and there is none otherwise. -/
def DurationExact (whitespace : Bool) (comps : Components) (rest : Bytes) : Prop :=
  durationLiteral recovered whitespace (render comps ++ rest) =
    if Fits comps then .value (writtenDuration comps) (skip whitespace rest) else .rejected

def delta (n : BitVec 64) (unit : DurUnit) : Duration :=
  ⟨BitVec.ofInt 32 (n.toInt * unit.months), BitVec.ofInt 32 (n.toInt * unit.days),
    BitVec.ofInt 64 (n.toInt * unit.nanoseconds)⟩

def deltas (comps : Components) : List Duration := comps.map fun c => delta (durAmount recovered c.1.digits) c.2

/-- The sums on the way fit, from the ones so far. -/
def SumsFit (months days nanoseconds : Int) : List Duration → Prop
  | [] => True
  | d :: ds => inS32 (months + d.months.toInt) ∧ inS32 (days + d.days.toInt) ∧
      inS64 (nanoseconds + d.nanoseconds.toInt) ∧
        SumsFit (months + d.months.toInt) (days + d.days.toInt) (nanoseconds + d.nanoseconds.toInt) ds

def ProductFits (c : Numeral × DurUnit) : Prop := inS64 ((durAmount recovered c.1.digits).toInt * c.2.factor)

instance (c : Numeral × DurUnit) : Decidable (ProductFits recovered c) := inferInstanceAs (Decidable (inS64 _))

/-- No product and no sum of the components leaves its word. -/
def Defined (comps : Components) : Prop :=
  (∀ c ∈ comps, ProductFits recovered c) ∧ SumsFit 0 0 0 (deltas recovered comps)

end

/-! ### Parsing -/

theorem stripPrefix_append (p s : Bytes) : stripPrefix p (p ++ s) = some s := by
  induction p with
  | nil => rfl
  | cons c p ih => rw [List.cons_append, stripPrefix, if_pos rfl, ih]

theorem stripPrefix_cons_of_ne {c : UInt8} {s : Bytes} (h : ∀ d ∈ s.head?, d ≠ c) (p : Bytes) :
    stripPrefix (c :: p) s = none := by
  cases s with
  | nil => rfl
  | cons d s => exact if_neg fun heq => h d rfl heq.symm

theorem durUnit_unitText (unit : DurUnit) {rest : Bytes} (h : ∀ c ∈ rest.head?, c ≠ 111 ∧ c ≠ 115) :
    durUnit (unitText unit ++ rest) = some (unit, rest) := by
  cases unit with
  | m =>
      -- the two longer units that start with this letter
      have hmo : stripPrefix [111] rest = none := stripPrefix_cons_of_ne (fun c hc => (h c hc).1) []
      have hms : stripPrefix [115] rest = none := stripPrefix_cons_of_ne (fun c hc => (h c hc).2) []
      simp [durUnit, durUnits, unitText, stripPrefix, hmo, hms]
  | _ => simp [durUnit, durUnits, unitText, stripPrefix]

theorem unitText_head (unit : DurUnit) (rest : Bytes) :
    (unitText unit ++ rest).head?.any isDigit = false ∧ ∀ whitespace, skip whitespace (unitText unit ++ rest) =
      unitText unit ++ rest := by
  cases unit <;> exact ⟨rfl, fun whitespace => by cases whitespace <;> rfl⟩

theorem digit_bounds {c : UInt8} (h : isDigit c = true) : 48 ≤ c.toNat ∧ c.toNat ≤ 57 := by
  rw [isDigit, Bool.and_eq_true, decide_eq_true_iff, decide_eq_true_iff, UInt8.le_iff_toNat_le,
    UInt8.le_iff_toNat_le] at h
  exact h

theorem isSpace_digit {c : UInt8} (h : isDigit c = true) : isSpace c = false := by
  have hbounds := digit_bounds h
  rw [isSpace, Bool.or_eq_false_iff, decide_eq_false_iff_not, Bool.and_eq_false_iff, decide_eq_false_iff_not,
    decide_eq_false_iff_not, UInt8.le_iff_toNat_le, UInt8.le_iff_toNat_le]
  refine ⟨fun heq => ?_, Or.inr ?_⟩
  · rw [heq] at hbounds
    exact absurd hbounds.1 (by decide)
  · change ¬ c.toNat ≤ 13
    omega

/-- Where a component starts. -/
theorem render_cons_head (c : Numeral × DurUnit) (cs : Components) (rest : Bytes) :
    (∀ b ∈ (render (c :: cs) ++ rest).head?, b ≠ 111 ∧ b ≠ 115) ∧
    ∀ whitespace, skip whitespace (render (c :: cs) ++ rest) = render (c :: cs) ++ rest ∧
      (render (c :: cs) ++ rest).head?.any isDigit = true := by
  obtain ⟨b, s, hs, hb⟩ := c.1.head
  have htext : render (c :: cs) ++ rest = b :: (s ++ unitText c.2 ++ render cs ++ rest) := by
    rw [render, List.flatMap_cons, hs]
    simp [render]
  have hbounds := digit_bounds hb
  rw [htext]
  refine ⟨?_, fun whitespace => ⟨?_, hb⟩⟩
  · rintro _ ⟨⟩
    constructor
    · rintro rfl
      exact absurd hbounds.2 (by decide)
    · rintro rfl
      exact absurd hbounds.2 (by decide)
  · cases whitespace with
    | false => rfl
    | true => rw [skip, if_pos rfl, List.dropWhile_cons, isSpace_digit hb]; rfl

theorem components_render (whitespace : Bool) {rest : Bytes} (hrest : Delimits whitespace rest) (cs : Components) :
    ∀ (c : Numeral × DurUnit) (fuel : Nat), (c :: cs).length ≤ fuel →
      components whitespace fuel (render (c :: cs) ++ rest) =
        ((c :: cs).map fun c => (c.1.digits, c.2), some (skip whitespace rest)) := by
  induction cs with
  | nil =>
      intro c fuel hfuel
      cases fuel with
      | zero => exact absurd hfuel (by simp)
      | succ fuel =>
          have htext : render [c] ++ rest = c.1.digits ++ (unitText c.2 ++ rest) := by simp [render]
          obtain ⟨htake, hdrop⟩ := takeWhile_numeral c.1 (unitText_head c.2 rest).1
          rw [htext, components]
          simp only [htake, hdrop, (unitText_head c.2 rest).2, durUnit_unitText c.2 hrest.1]
          rw [if_neg (by rw [hrest.2]; decide)]
          rfl
  | cons d cs ih =>
      intro c fuel hfuel
      cases fuel with
      | zero => exact absurd hfuel (by simp)
      | succ fuel =>
          have htext : render (c :: d :: cs) ++ rest =
              c.1.digits ++ (unitText c.2 ++ (render (d :: cs) ++ rest)) := by simp [render]
          obtain ⟨htake, hdrop⟩ := takeWhile_numeral c.1 (unitText_head c.2 (render (d :: cs) ++ rest)).1
          obtain ⟨hhead, hskip⟩ := render_cons_head d cs rest
          have hnext := ih d fuel (by simpa using hfuel)
          rw [htext, components]
          simp only [htake, hdrop, (unitText_head c.2 (render (d :: cs) ++ rest)).2, durUnit_unitText c.2 hhead,
            (hskip whitespace).1]
          rw [if_pos (hskip whitespace).2, hnext]
          rfl

theorem length_le_render (comps : Components) : comps.length ≤ (render comps).length := by
  induction comps with
  | nil => exact le_refl 0
  | cons c cs ih =>
      obtain ⟨b, s, hs, -⟩ := c.1.head
      rw [render, List.flatMap_cons, List.length_append, List.length_append, hs, List.length_cons, List.length_cons]
      rw [render] at ih
      omega

theorem isDuration_render (c : Numeral × DurUnit) (cs : Components) (rest : Bytes) :
    isDuration (render (c :: cs) ++ rest) = true := by
  have htext : render (c :: cs) ++ rest = c.1.digits ++ (unitText c.2 ++ (render cs ++ rest)) := by simp [render]
  have hhead := ((render_cons_head c cs rest).2 false).2
  obtain ⟨-, hdrop⟩ := takeWhile_numeral c.1 (unitText_head c.2 (render cs ++ rest)).1
  rw [isDuration, hhead, htext, hdrop, Bool.true_and]
  cases c.2 <;> rfl

/-! ### Products and sums -/

theorem setWidth_ofInt (x : Int) : (BitVec.ofInt 64 x).setWidth 32 = BitVec.ofInt 32 x := by
  apply BitVec.eq_of_toNat_eq
  rw [BitVec.toNat_setWidth, BitVec.toNat_ofInt, BitVec.toNat_ofInt]
  have hpow : ((2 ^ 64 : Nat) : Int) = 2 ^ 64 := rfl
  have hpow' : ((2 ^ 32 : Nat) : Int) = 2 ^ 32 := rfl
  rw [hpow, hpow']
  omega

theorem inS64_toInt (n : BitVec 64) : inS64 n.toInt := ⟨BitVec.le_toInt n, BitVec.toInt_lt⟩

theorem component_eq (n : BitVec 64) (unit : DurUnit) :
    component n unit = if inS64 (n.toInt * unit.factor) then some (delta n unit) else none := by
  have hone : inS64 (n.toInt * 1) := by
    rw [mul_one]
    exact inS64_toInt n
  have hself : BitVec.ofInt 64 n.toInt = n := BitVec.ofInt_toInt
  have hself' : n.setWidth 32 = BitVec.ofInt 32 n.toInt := by rw [← setWidth_ofInt, hself]
  cases unit with
  | mo =>
      have hfits : inS64 (n.toInt * DurUnit.mo.factor) := hone
      rw [component, if_pos hfits, delta]
      simp [DurUnit.months, DurUnit.days, DurUnit.nanoseconds, monthsOf, hself']
  | d =>
      have hfits : inS64 (n.toInt * DurUnit.d.factor) := hone
      rw [component, if_pos hfits, delta]
      simp [DurUnit.months, DurUnit.days, DurUnit.nanoseconds, daysOf, hself']
  | ns =>
      have hfits : inS64 (n.toInt * DurUnit.ns.factor) := hone
      rw [component, if_pos hfits, delta]
      simp [DurUnit.months, DurUnit.days, DurUnit.nanoseconds, nanosecondsOf]
  | _ =>
      simp only [component, timesS64, delta, DurUnit.factor, DurUnit.months, DurUnit.days, DurUnit.nanoseconds,
        add_zero, zero_add, mul_zero]
      split_ifs with h
      · simp [monthsOf, daysOf, nanosecondsOf, setWidth_ofInt]
      · rfl

theorem mapM_ite {α β : Type _} (p : α → Prop) [DecidablePred p] (f : α → β) (xs : List α) :
    xs.mapM (fun x => if p x then some (f x) else none) = if ∀ x ∈ xs, p x then some (xs.map f) else none := by
  induction xs with
  | nil => rfl
  | cons x xs ih =>
      rw [List.mapM_cons, ih]
      by_cases hx : p x
      · by_cases hxs : ∀ y ∈ xs, p y
        · rw [if_pos hx, if_pos hxs, if_pos (List.forall_mem_cons.mpr ⟨hx, hxs⟩)]
          rfl
        · rw [if_pos hx, if_neg hxs, if_neg fun h => hxs (List.forall_mem_cons.mp h).2]
          rfl
      · rw [if_neg hx, if_neg fun h => hx (List.forall_mem_cons.mp h).1]
        rfl

theorem toInt_addS32 {a b : BitVec 32} (h : inS32 (a.toInt + b.toInt)) : (a + b).toInt = a.toInt + b.toInt := by
  obtain ⟨hmin, hmax⟩ := h
  rw [BitVec.toInt_add]
  exact Int.bmod_eq_of_le (by omega) (by omega)

theorem toInt_addS64 {a b : BitVec 64} (h : inS64 (a.toInt + b.toInt)) : (a + b).toInt = a.toInt + b.toInt := by
  obtain ⟨hmin, hmax⟩ := h
  rw [BitVec.toInt_add]
  exact Int.bmod_eq_of_le (by omega) (by omega)

/-- The sum is defined when no sum on the way leaves its word, and is then the sum. -/
theorem sumDurations_spec (ds : List Duration) (result : Duration) :
    (SumsFit result.months.toInt result.days.toInt result.nanoseconds.toInt ds →
      ∃ sum, sumDurations result ds = some sum ∧
        sum.months.toInt = result.months.toInt + (ds.map (·.months.toInt)).sum ∧
        sum.days.toInt = result.days.toInt + (ds.map (·.days.toInt)).sum ∧
        sum.nanoseconds.toInt = result.nanoseconds.toInt + (ds.map (·.nanoseconds.toInt)).sum) ∧
    (¬ SumsFit result.months.toInt result.days.toInt result.nanoseconds.toInt ds → sumDurations result ds = none) := by
  induction ds generalizing result with
  | nil => exact ⟨fun _ => ⟨result, rfl, by simp⟩, fun h => absurd trivial h⟩
  | cons d ds ih =>
      by_cases hm : inS32 (result.months.toInt + d.months.toInt)
      · by_cases hd : inS32 (result.days.toInt + d.days.toInt)
        · by_cases hn : inS64 (result.nanoseconds.toInt + d.nanoseconds.toInt)
          · have hadd : addDuration result d =
                some ⟨result.months + d.months, result.days + d.days, result.nanoseconds + d.nanoseconds⟩ := by
              rw [addDuration, addS32, addS32, addS64, if_pos hm, if_pos hd, if_pos hn]
              rfl
            obtain ⟨hsome, hnone⟩ := ih
              ⟨result.months + d.months, result.days + d.days, result.nanoseconds + d.nanoseconds⟩
            rw [toInt_addS32 hm, toInt_addS32 hd, toInt_addS64 hn] at hsome hnone
            rw [sumDurations, hadd, Option.bind_some]
            refine ⟨fun h => ?_, fun h => hnone fun hrest => h ⟨hm, hd, hn, hrest⟩⟩
            obtain ⟨sum, hsum, hmonths, hdays, hnanoseconds⟩ := hsome h.2.2.2
            refine ⟨sum, hsum, ?_, ?_, ?_⟩
            · rw [hmonths, List.map_cons, List.sum_cons, add_assoc]
            · rw [hdays, List.map_cons, List.sum_cons, add_assoc]
            · rw [hnanoseconds, List.map_cons, List.sum_cons, add_assoc]
          · refine ⟨fun h => absurd h.2.2.1 hn, fun _ => ?_⟩
            rw [sumDurations, addDuration, addS32, addS32, addS64, if_pos hm, if_pos hd, if_neg hn]
            rfl
        · refine ⟨fun h => absurd h.2.1 hd, fun _ => ?_⟩
          rw [sumDurations, addDuration, addS32, addS32, if_pos hm, if_neg hd]
          rfl
      · refine ⟨fun h => absurd h.1 hm, fun _ => ?_⟩
        rw [sumDurations, addDuration, addS32, if_neg hm]
        rfl

/-! ### The literal -/

variable {recovered : Bytes → BitVec 64}

/-- The literal, by its components. -/
theorem durationLiteral_render {whitespace : Bool} {rest : Bytes} (hrest : Delimits whitespace rest)
    {comps : Components} (hne : comps ≠ []) : durationLiteral recovered whitespace (render comps ++ rest) =
      if ∀ c ∈ comps, ProductFits recovered c then
        (sumDurations ⟨0, 0, 0⟩ (deltas recovered comps)).elim .undefined fun result =>
          if ∃ c ∈ comps, 2 ^ 63 ≤ c.1.value then .rejected else .value result (skip whitespace rest)
      else .undefined := by
  have hduration : isDuration (render comps ++ rest) = true := by
    obtain ⟨c, cs, rfl⟩ := List.exists_cons_of_ne_nil hne
    exact isDuration_render c cs rest
  have hcomponents : components whitespace (render comps ++ rest).length (render comps ++ rest) =
      (comps.map fun c => (c.1.digits, c.2), some (skip whitespace rest)) := by
    obtain ⟨c, cs, rfl⟩ := List.exists_cons_of_ne_nil hne
    refine components_render whitespace hrest cs c _ ?_
    rw [List.length_append]
    exact (length_le_render _).trans (Nat.le_add_right _ _)
  have hmap : (comps.map fun c => (c.1.digits, c.2)).mapM (fun c => component (durAmount recovered c.1) c.2) =
      if ∀ c ∈ comps, ProductFits recovered c then some (deltas recovered comps) else none := by
    rw [List.mapM_map]
    exact (congrArg (fun f => List.mapM f comps) (funext fun c => component_eq _ _)).trans
      (mapM_ite (ProductFits recovered) _ _)
  have hany : ((comps.map fun c => (c.1.digits, c.2)).any fun c => decide (2 ^ 63 ≤ decimalValue c.1)) =
      decide (∃ c ∈ comps, 2 ^ 63 ≤ c.1.value) := by
    rw [List.any_map, Bool.eq_iff_iff, List.any_eq_true, decide_eq_true_iff]
    exact exists_congr fun c => and_congr_right fun _ => decide_eq_true_iff
  rw [durationLiteral, hduration, if_pos rfl, hcomponents]
  simp only [hmap, hany]
  by_cases hproducts : ∀ c ∈ comps, ProductFits recovered c
  · rw [if_pos hproducts, if_pos hproducts]
    cases hsum : sumDurations ⟨0, 0, 0⟩ (deltas recovered comps) with
    | none => simp only [hsum, Option.elim_none]
    | some result => simp only [hsum, Option.elim_some, decide_eq_true_iff]
  · rw [if_neg hproducts, if_neg hproducts]

/-! ### Durations that fit -/

/-- A part of a written duration is nonnegative and not over its total. -/
theorem le_total {comps : Components} {c : Numeral × DurUnit} (hc : c ∈ comps) (part : DurUnit → Int)
    (hpart : ∀ unit, 0 ≤ part unit) :
    0 ≤ (c.1.value : Int) * part c.2 ∧
      (c.1.value : Int) * part c.2 ≤ (comps.map fun c => (c.1.value : Int) * part c.2).sum := by
  have hnonneg : ∀ x ∈ comps.map fun c => (c.1.value : Int) * part c.2, 0 ≤ x := by
    intro x hx
    obtain ⟨d, -, rfl⟩ := List.mem_map.mp hx
    exact mul_nonneg (Int.natCast_nonneg _) (hpart d.2)
  have hmem : (c.1.value : Int) * part c.2 ∈ comps.map fun c => (c.1.value : Int) * part c.2 :=
    List.mem_map.mpr ⟨c, hc, rfl⟩
  exact ⟨hnonneg _ hmem, List.single_le_sum hnonneg _ hmem⟩

theorem DurUnit.months_nonneg (unit : DurUnit) : 0 ≤ unit.months := by cases unit <;> decide

theorem DurUnit.days_nonneg (unit : DurUnit) : 0 ≤ unit.days := by cases unit <;> decide

theorem DurUnit.nanoseconds_nonneg (unit : DurUnit) : 0 ≤ unit.nanoseconds := by cases unit <;> decide

/-- A unit is a number of months, of days or of nanoseconds. -/
theorem DurUnit.factor_eq (unit : DurUnit) : 1 ≤ unit.factor ∧
    (unit.factor = unit.months ∨ unit.factor = unit.days ∨ unit.factor = unit.nanoseconds) := by
  cases unit <;> decide

/-- The product of a component of a duration that fits. -/
theorem product_of_fits {comps : Components} (h : Fits comps) {c : Numeral × DurUnit} (hc : c ∈ comps) :
    c.1.value < 2 ^ 63 ∧ inS64 ((c.1.value : Int) * c.2.factor) := by
  obtain ⟨hmonths, hdays, hnanoseconds⟩ := h
  obtain ⟨hm, hm'⟩ := le_total hc DurUnit.months DurUnit.months_nonneg
  obtain ⟨hd, hd'⟩ := le_total hc DurUnit.days DurUnit.days_nonneg
  obtain ⟨hn, hn'⟩ := le_total hc DurUnit.nanoseconds DurUnit.nanoseconds_nonneg
  obtain ⟨hone, hfactor⟩ := c.2.factor_eq
  have hvalue : (c.1.value : Int) * 1 ≤ (c.1.value : Int) * c.2.factor :=
    mul_le_mul_of_nonneg_left hone (Int.natCast_nonneg _)
  rw [totalMonths, inS32] at hmonths
  rw [totalDays, inS32] at hdays
  rw [totalNanoseconds, inS64] at hnanoseconds
  have hproduct : 0 ≤ (c.1.value : Int) * c.2.factor ∧ (c.1.value : Int) * c.2.factor < 2 ^ 63 := by
    rcases hfactor with heq | heq | heq
    · rw [heq]
      omega
    · rw [heq]
      omega
    · rw [heq]
      omega
  exact ⟨by omega, by omega, hproduct.2⟩

theorem toInt_durAmount {n : Numeral} (h : n.value < 2 ^ 63) :
    (durAmount recovered n.digits).toInt = n.value := by
  have hdecimal : decimalValue n.digits < 2 ^ 63 := h
  rw [durAmount, if_pos hdecimal, BitVec.toInt_ofNat']
  exact Int.bmod_eq_of_le (by change _ ≤ (n.value : Int); omega) (by change (n.value : Int) < _; omega)

theorem toInt_ofInt_32 {x : Int} (h : 0 ≤ x) (h' : x < 2 ^ 31) : (BitVec.ofInt 32 x).toInt = x := by
  rw [BitVec.toInt_ofInt]
  exact Int.bmod_eq_of_le (by omega) (by omega)

theorem toInt_ofInt_64 {x : Int} (h : 0 ≤ x) (h' : x < 2 ^ 63) : (BitVec.ofInt 64 x).toInt = x := by
  rw [BitVec.toInt_ofInt]
  exact Int.bmod_eq_of_le (by omega) (by omega)

/-- What a component of a duration that fits adds. -/
theorem toInt_delta {comps : Components} (h : Fits comps) {c : Numeral × DurUnit} (hc : c ∈ comps) :
    (delta (durAmount recovered c.1.digits) c.2).months.toInt = c.1.value * c.2.months ∧
    (delta (durAmount recovered c.1.digits) c.2).days.toInt = c.1.value * c.2.days ∧
    (delta (durAmount recovered c.1.digits) c.2).nanoseconds.toInt = c.1.value * c.2.nanoseconds := by
  obtain ⟨hvalue, -⟩ := product_of_fits h hc
  obtain ⟨hmonths, hdays, hnanoseconds⟩ := h
  obtain ⟨hm, hm'⟩ := le_total hc DurUnit.months DurUnit.months_nonneg
  obtain ⟨hd, hd'⟩ := le_total hc DurUnit.days DurUnit.days_nonneg
  obtain ⟨hn, hn'⟩ := le_total hc DurUnit.nanoseconds DurUnit.nanoseconds_nonneg
  rw [delta, toInt_durAmount hvalue]
  exact ⟨toInt_ofInt_32 hm (hm'.trans_lt hmonths.2), toInt_ofInt_32 hd (hd'.trans_lt hdays.2),
    toInt_ofInt_64 hn (hn'.trans_lt hnanoseconds.2)⟩

theorem sumsFit_of_nonneg {ds : List Duration}
    (h : ∀ d ∈ ds, 0 ≤ d.months.toInt ∧ 0 ≤ d.days.toInt ∧ 0 ≤ d.nanoseconds.toInt) :
    ∀ {months days nanoseconds : Int}, 0 ≤ months → 0 ≤ days → 0 ≤ nanoseconds →
      months + (ds.map (·.months.toInt)).sum < 2 ^ 31 → days + (ds.map (·.days.toInt)).sum < 2 ^ 31 →
        nanoseconds + (ds.map (·.nanoseconds.toInt)).sum < 2 ^ 63 → SumsFit months days nanoseconds ds := by
  induction ds with
  | nil => exact fun _ _ _ _ _ _ => trivial
  | cons d ds ih =>
      intro months days nanoseconds hm hd hn hmonths hdays hnanoseconds
      obtain ⟨⟨hdm, hdd, hdn⟩, hds⟩ := List.forall_mem_cons.mp h
      have hsum : ∀ part : Duration → Int, (∀ e ∈ ds, 0 ≤ part e) → 0 ≤ (ds.map part).sum := by
        intro part hpart
        refine List.sum_nonneg fun x hx => ?_
        obtain ⟨e, he, rfl⟩ := List.mem_map.mp hx
        exact hpart e he
      have hsm := hsum (·.months.toInt) fun e he => (hds e he).1
      have hsd := hsum (·.days.toInt) fun e he => (hds e he).2.1
      have hsn := hsum (·.nanoseconds.toInt) fun e he => (hds e he).2.2
      rw [List.map_cons, List.sum_cons] at hmonths hdays hnanoseconds
      exact ⟨⟨by omega, by omega⟩, ⟨by omega, by omega⟩, ⟨by omega, by omega⟩,
        ih hds (by omega) (by omega) (by omega) (by omega) (by omega) (by omega)⟩

/-- The components of a duration that fits are summed to it. -/
theorem sumDurations_of_fits {comps : Components} (h : Fits comps) :
    sumDurations ⟨0, 0, 0⟩ (deltas recovered comps) = some (writtenDuration comps) := by
  have hmonths : (deltas recovered comps).map (·.months.toInt) = comps.map fun c => (c.1.value : Int) * c.2.months := by
    rw [deltas, List.map_map]
    exact List.map_congr_left fun c hc => (toInt_delta h hc).1
  have hdays : (deltas recovered comps).map (·.days.toInt) = comps.map fun c => (c.1.value : Int) * c.2.days := by
    rw [deltas, List.map_map]
    exact List.map_congr_left fun c hc => (toInt_delta h hc).2.1
  have hnanoseconds : (deltas recovered comps).map (·.nanoseconds.toInt) =
      comps.map fun c => (c.1.value : Int) * c.2.nanoseconds := by
    rw [deltas, List.map_map]
    exact List.map_congr_left fun c hc => (toInt_delta h hc).2.2
  have hnonneg : ∀ d ∈ deltas recovered comps, 0 ≤ d.months.toInt ∧ 0 ≤ d.days.toInt ∧ 0 ≤ d.nanoseconds.toInt := by
    intro d hd
    obtain ⟨c, hc, rfl⟩ := List.mem_map.mp hd
    obtain ⟨hm, hd, hn⟩ := @toInt_delta recovered comps h c hc
    rw [hm, hd, hn]
    exact ⟨(le_total hc _ DurUnit.months_nonneg).1, (le_total hc _ DurUnit.days_nonneg).1,
      (le_total hc _ DurUnit.nanoseconds_nonneg).1⟩
  obtain ⟨hm, hd, hn⟩ := h
  have hfit : SumsFit 0 0 0 (deltas recovered comps) :=
    sumsFit_of_nonneg hnonneg (le_refl 0) (le_refl 0) (le_refl 0) (by rw [hmonths, zero_add]; exact hm.2)
      (by rw [hdays, zero_add]; exact hd.2) (by rw [hnanoseconds, zero_add]; exact hn.2)
  obtain ⟨sum, hsum, hsm, hsd, hsn⟩ := (sumDurations_spec (deltas recovered comps) ⟨0, 0, 0⟩).1 hfit
  rw [hmonths] at hsm
  rw [hdays] at hsd
  rw [hnanoseconds] at hsn
  have hzero : (0 : BitVec 32).toInt = 0 ∧ (0 : BitVec 64).toInt = 0 := by decide
  simp only [hzero.1, hzero.2, zero_add] at hsm hsd hsn
  rw [hsum, writtenDuration, totalMonths, totalDays, totalNanoseconds, ← hsm, ← hsd, ← hsn, BitVec.ofInt_toInt,
    BitVec.ofInt_toInt, BitVec.ofInt_toInt]

/-- A duration that does not fit is rejected only for a component that is no integer of 64 bits. -/
theorem durationExact_iff {whitespace : Bool} {rest : Bytes} (hrest : Delimits whitespace rest) {comps : Components}
    (hne : comps ≠ []) : DurationExact recovered whitespace comps rest ↔
      Fits comps ∨ (∃ c ∈ comps, 2 ^ 63 ≤ c.1.value) ∧ Defined recovered comps := by
  rw [DurationExact, durationLiteral_render hrest hne]
  by_cases hfits : Fits comps
  · have hproducts : ∀ c ∈ comps, ProductFits recovered c := by
      intro c hc
      obtain ⟨hvalue, hproduct⟩ := product_of_fits hfits hc
      rw [ProductFits, toInt_durAmount hvalue]
      exact hproduct
    have hsmall : ¬ ∃ c ∈ comps, 2 ^ 63 ≤ c.1.value := by
      rintro ⟨c, hc, hle⟩
      exact absurd (product_of_fits hfits hc).1 hle.not_gt
    rw [if_pos hproducts, sumDurations_of_fits hfits, Option.elim_some, if_neg hsmall, if_pos hfits]
    exact iff_of_true rfl (Or.inl hfits)
  · rw [if_neg hfits, or_iff_right hfits]
    obtain ⟨hsome, hnone⟩ := sumDurations_spec (deltas recovered comps) ⟨0, 0, 0⟩
    by_cases hproducts : ∀ c ∈ comps, ProductFits recovered c
    · rw [if_pos hproducts, Defined, and_iff_right hproducts]
      by_cases hsums : SumsFit 0 0 0 (deltas recovered comps)
      · obtain ⟨sum, hsum, -⟩ := hsome hsums
        rw [hsum, Option.elim_some, and_iff_left hsums]
        split_ifs with hlarge
        · exact iff_of_true rfl hlarge
        · exact iff_of_false nofun hlarge
      · rw [hnone hsums, Option.elim_none]
        exact iff_of_false nofun fun h => hsums h.2
    · rw [if_neg hproducts]
      exact iff_of_false nofun fun h => hproducts h.2.1

/-- An integer literal is exact when its number fits, and never rejected; a duration literal is exact when it fits, or
when an integer in it is not one of 64 bits and nothing else leaves its word; and a string literal is its text when
that is all code points. -/
theorem literals_exact (codePoint : UInt8 → Bool) (recovered : Bytes → BitVec 64) (whitespace : Bool) :
    (∀ sign n rest, rest.head?.any isDigit = false → (IntegerExact sign n rest ↔ inS64 (sign.apply n.value))) ∧
    (∀ comps rest, comps ≠ [] → Delimits whitespace rest → (DurationExact recovered whitespace comps rest ↔
      Fits comps ∨ (∃ c ∈ comps, 2 ^ 63 ≤ c.1.value) ∧ Defined recovered comps)) ∧
    ∀ s rest, rest.head? ≠ some quote →
      (stringLiteral codePoint (quote :: (doubled s ++ quote :: rest)) = .value s rest ↔
        ∀ b ∈ s, b ≠ quote → codePoint b = true) :=
  ⟨fun sign n _ hrest => integerExact_iff sign n hrest, fun _ _ hne hrest => durationExact_iff hrest hne,
    fun s _ hrest => stringLiteral_iff s hrest⟩

def numeralTwo : Numeral := ⟨[50], List.cons_ne_nil _ _, List.all_eq_true.mp rfl⟩

def numeralThirty : Numeral := ⟨[51, 48], List.cons_ne_nil _ _, List.all_eq_true.mp rfl⟩

/-- `2h30m`. -/
theorem literals_exact_hours :
    DurationExact (fun _ => 0) false [(numeralTwo, .h), (numeralThirty, .m)] [] :=
  ((literals_exact (fun c => c < 128) (fun _ => 0) false).2.1 _ [] (List.cons_ne_nil _ _)
    ⟨nofun, rfl⟩).mpr (Or.inl (by decide +kernel))

def numeralPastS64 : Numeral :=
  ⟨[57, 50, 50, 51, 51, 55, 50, 48, 51, 54, 56, 53, 52, 55, 55, 53, 56, 48, 56], List.cons_ne_nil _ _, List.all_eq_true.mp rfl⟩

def numeralPastS32 : Numeral := ⟨[51, 48, 48, 48, 48, 48, 48, 48, 48, 48], List.cons_ne_nil _ _, List.all_eq_true.mp rfl⟩

/-- `9223372036854775808` and `3000000000d` are accepted with negative values, and a string with a byte that is no code
point is no text. -/
theorem literals_wrap :
    integerLiteral numeralPastS64.digits = .value (BitVec.ofInt 64 (-2 ^ 63)) [] ∧
    ¬ IntegerExact .none numeralPastS64 [] ∧
    durationLiteral (fun _ => 0) false (render [(numeralPastS32, .d)]) =
      .value ⟨0, BitVec.ofInt 32 (-1294967296), 0⟩ [] ∧
    ¬ DurationExact (fun _ => 0) false [(numeralPastS32, .d)] [] ∧
    stringLiteral (fun c => c < 128) (quote :: (doubled [0xc3, 0xa9] ++ [quote])) = .rejected := by
  refine ⟨by decide +kernel, ?_, by decide +kernel, ?_, by decide +kernel⟩
  · unfold IntegerExact
    decide +kernel
  · unfold DurationExact
    decide +kernel

end Plexdb.Cql.LiteralText
