import Plexdb.Timeuuid

/-! The order of time-based UUIDs against the bounds of a millisecond, their conversion back to it, and the values of
successive calls of `now()`. -/

namespace Plexdb.Cql.Timeuuid

/-- The tick at which a millisecond starts. -/
def tickOf (unixMs : BitVec 64) : Int := unixMs.toInt * 10000 + 122192928000000000

/-- The ticks of the millisecond fit the 60 bits. -/
def Representable (unixMs : BitVec 64) : Prop := 0 ≤ tickOf unixMs ∧ tickOf unixMs < 2 ^ 60

def timeuuidLe (a b : Raw 16) : Prop := ∃ c, compareColumnValue (.uuid a) (.uuid b) .timeuuid = some c ∧ c ≤ 0

def timeuuidLt (a b : Raw 16) : Prop := ∃ c, compareColumnValue (.uuid a) (.uuid b) .timeuuid = some c ∧ c < 0

/-- The timestamp of the UUID is the one tick of the bounds. -/
def OnTick (unixMs : BitVec 64) (u : Raw 16) : Prop := (timeuuidTimestamp u : Int) = tickOf unixMs

/-- The variant bits of the clock sequence. -/
def HasVariant (u : Raw 16) : Prop := byteAt u 8 / 64 = 2

/-- Neither the clock nor the counter leaves the 60 bits. -/
def RunFits (last : UInt64) : List NowInput → Prop
  | [] => True
  | input :: inputs => (unixMsToUuidTimestamp100ns input.unixMsNow).toNat < 2 ^ 60 ∧ last.toNat + 1 < 2 ^ 60 ∧
      RunFits (nowTimeuuid last input).2 inputs

/-! ### Conversions -/

theorem toNat_tick {unixMs : BitVec 64} (h : Representable unixMs) :
    ((unixMsToUuidTimestamp100ns unixMs).toNat : Int) = tickOf unixMs := by
  obtain ⟨hmin, hmax⟩ := h
  have hvalue := BitVec.toInt_eq_toNat_cond unixMs
  have hlt := unixMs.isLt
  have hword : (unixMsToUuidTimestamp100ns unixMs).toNat =
      (unixMs.toNat * 10000 % 2 ^ 64 + 122192928000000000) % 2 ^ 64 := by
    rw [unixMsToUuidTimestamp100ns, UInt64.toNat_add, UInt64.toNat_mul]
    rfl
  rw [tickOf] at hmin hmax ⊢
  rw [hword]
  split at hvalue <;> omega

theorem toInt_uuidTimestamp100nsToUnixMs {ts : UInt64} (h : ts.toNat < 2 ^ 60) :
    (uuidTimestamp100nsToUnixMs ts).toInt = ((ts.toNat : Int) - 122192928000000000).tdiv 10000 := by
  have hts : ts.toBitVec.toInt = ts.toNat := by
    rw [BitVec.toInt_eq_toNat_cond, if_pos (by rw [UInt64.toNat_toBitVec]; omega)]
    rfl
  have hsub : (ts.toBitVec - uuidEpochOffset100ns.toBitVec).toInt = (ts.toNat : Int) - 122192928000000000 := by
    rw [BitVec.toInt_sub, hts]
    exact Int.bmod_eq_of_le (by change _ ≤ (ts.toNat : Int) - 122192928000000000; omega)
      (by change (ts.toNat : Int) - 122192928000000000 < _; omega)
  rw [uuidTimestamp100nsToUnixMs, BitVec.toInt_sdiv_of_ne_or_ne _ _ (Or.inr (by decide)), hsub]
  rfl

theorem timeuuidToUnixMs_make {unixMs : BitVec 64} (h : Representable unixMs) (clockSeq : UInt16) (node : Raw 6) :
    timeuuidToUnixMs (makeTimeuuidFromUnixMs unixMs clockSeq node) = unixMs := by
  have htick := toNat_tick h
  obtain ⟨hmin, hmax⟩ := h
  have hcollect := collectTimestamp_toNat (makeTimeuuidFromUnixMs unixMs clockSeq node)
  rw [makeTimeuuidFromUnixMs, timeuuidTimestamp_make, Nat.mod_eq_of_lt (by omega)] at hcollect
  apply BitVec.eq_of_toInt_eq
  rw [timeuuidToUnixMs, toInt_uuidTimestamp100nsToUnixMs (by rw [makeTimeuuidFromUnixMs, hcollect]; omega),
    makeTimeuuidFromUnixMs, hcollect, htick, tickOf, Int.add_sub_cancel]
  exact Int.mul_tdiv_cancel _ (by decide)

/-! ### The order -/

theorem timeuuidLe_iff {a b : Raw 16} : timeuuidLe a b ↔ timeuuidTimestamp a < timeuuidTimestamp b ∨
    timeuuidTimestamp a = timeuuidTimestamp b ∧ compareBytes (a.val.drop 8) (b.val.drop 8) ≤ 0 := by
  have hcompare : timeuuidLe a b ↔ compareTimeuuid a b ≤ 0 := by
    refine ⟨fun ⟨c, hc, hle⟩ => ?_, fun hle => ⟨_, rfl, hle⟩⟩
    rwa [Option.some.inj hc]
  rw [hcompare, compareTimeuuid]
  rcases lt_trichotomy (timeuuidTimestamp a) (timeuuidTimestamp b) with h | h | h
  · rw [if_pos h.ne, compareScalar_of_lt h]
    exact iff_of_true (by decide) (Or.inl h)
  · rw [if_neg (not_not.mpr h), or_iff_right h.not_lt, and_iff_right h]
  · rw [if_pos h.ne', compareScalar_of_gt h]
    exact iff_of_false (by decide) (by omega)

theorem timeuuidLt_of_lt {a b : Raw 16} (h : timeuuidTimestamp a < timeuuidTimestamp b) : timeuuidLt a b := by
  refine ⟨_, rfl, ?_⟩
  rw [compareTimeuuid, if_pos h.ne, compareScalar_of_lt h]
  decide

theorem compareBytes_zeros (bytes : Bytes) : compareBytes (List.replicate bytes.length 0) bytes ≤ 0 := by
  induction bytes with
  | nil => decide
  | cons b bytes ih =>
      rw [List.length_cons, List.replicate_succ, compareBytes_cons]
      split_ifs with h
      · exact ih
      · have hlt : (0 : UInt8).toNat < b.toNat := Nat.pos_of_ne_zero fun hzero => h (UInt8.toNat_inj.mp hzero.symm)
        rw [compareScalar_of_lt hlt]
        decide

theorem compareBytes_ones (bytes : Bytes) : compareBytes bytes (List.replicate bytes.length 0xff) ≤ 0 := by
  induction bytes with
  | nil => decide
  | cons b bytes ih =>
      rw [List.length_cons, List.replicate_succ, compareBytes_cons]
      split_ifs with h
      · exact ih
      · have hb := b.toNat_lt
        have hne : b.toNat ≠ (0xff : UInt8).toNat := fun heq => h (UInt8.toNat_inj.mp heq)
        have hlt : b.toNat < (0xff : UInt8).toNat := by
          change b.toNat < 255
          change b.toNat ≠ 255 at hne
          omega
        rw [compareScalar_of_lt hlt]
        decide

/-- The last eight bytes of a UUID. -/
theorem drop_eight (u : Raw 16) : u.val.drop 8 = uuidByte u 8 :: u.val.drop 9 := by
  have hlen : 8 < u.val.length := by rw [u.property]; decide
  rw [List.drop_eq_getElem_cons hlen, uuidByte, List.getD_eq_getElem _ _ hlen]

theorem length_drop_nine (u : Raw 16) : (u.val.drop 9).length = 7 := by
  rw [List.length_drop, u.property]

theorem min_tail_le_iff (unixMs : BitVec 64) (u : Raw 16) :
    compareBytes ((minTimeuuid unixMs).val.drop 8) (u.val.drop 8) ≤ 0 ↔ 0x80 ≤ byteAt u 8 := by
  have htail : (minTimeuuid unixMs).val.drop 8 = 0x80 :: List.replicate (u.val.drop 9).length 0 := by
    rw [length_drop_nine]
    rfl
  rw [htail, drop_eight, compareBytes_cons]
  change _ ↔ 0x80 ≤ (uuidByte u 8).toNat
  split_ifs with h
  · rw [← h]
    exact iff_of_true (compareBytes_zeros _) (by decide)
  · have hne : (uuidByte u 8).toNat ≠ (0x80 : UInt8).toNat := fun heq => h (UInt8.toNat_inj.mp heq.symm)
    rcases Nat.lt_or_gt_of_ne hne with hlt | hgt
    · rw [compareScalar_of_gt hlt]
      exact iff_of_false (by decide) hlt.not_ge
    · rw [compareScalar_of_lt hgt]
      exact iff_of_true (by decide) (le_of_lt hgt)

theorem max_tail_ge_iff (unixMs : BitVec 64) (u : Raw 16) :
    compareBytes (u.val.drop 8) ((maxTimeuuid unixMs).val.drop 8) ≤ 0 ↔ byteAt u 8 ≤ 0xbf := by
  have htail : (maxTimeuuid unixMs).val.drop 8 = 0xbf :: List.replicate (u.val.drop 9).length 0xff := by
    rw [length_drop_nine]
    rfl
  rw [htail, drop_eight, compareBytes_cons]
  change _ ↔ (uuidByte u 8).toNat ≤ 0xbf
  split_ifs with h
  · rw [h]
    exact iff_of_true (compareBytes_ones _) (by decide)
  · have hne : (uuidByte u 8).toNat ≠ (0xbf : UInt8).toNat := fun heq => h (UInt8.toNat_inj.mp heq)
    rcases Nat.lt_or_gt_of_ne hne with hlt | hgt
    · rw [compareScalar_of_lt hlt]
      exact iff_of_true (by decide) (le_of_lt hlt)
    · rw [compareScalar_of_gt hgt]
      exact iff_of_false (by decide) hgt.not_ge

/-- The UUIDs between the bounds of a millisecond are those of one tick of it. -/
theorem within_bounds_iff {unixMs : BitVec 64} (h : Representable unixMs) (u : Raw 16) :
    timeuuidLe (minTimeuuid unixMs) u ∧ timeuuidLe u (maxTimeuuid unixMs) ↔ OnTick unixMs u ∧ HasVariant u := by
  have htick := toNat_tick h
  obtain ⟨hpos, hlt⟩ := h
  have hmod : (unixMsToUuidTimestamp100ns unixMs).toNat % 2 ^ 60 = (unixMsToUuidTimestamp100ns unixMs).toNat :=
    Nat.mod_eq_of_lt (by omega)
  have hmin : timeuuidTimestamp (minTimeuuid unixMs) = (unixMsToUuidTimestamp100ns unixMs).toNat :=
    (timeuuidTimestamp_make _ _ _).trans hmod
  have hmax : timeuuidTimestamp (maxTimeuuid unixMs) = (unixMsToUuidTimestamp100ns unixMs).toNat :=
    (timeuuidTimestamp_make _ _ _).trans hmod
  rw [timeuuidLe_iff, timeuuidLe_iff, hmin, hmax, min_tail_le_iff, max_tail_ge_iff, OnTick, HasVariant, ← htick]
  omega

/-! ### Successive calls -/

theorem nextTimestamp_spec {last : UInt64} {unixMsNow : BitVec 64}
    (hnow : (unixMsToUuidTimestamp100ns unixMsNow).toNat < 2 ^ 60) (hlast : last.toNat + 1 < 2 ^ 60) :
    last.toNat < (nextTimestamp last unixMsNow).toNat ∧ (nextTimestamp last unixMsNow).toNat < 2 ^ 60 := by
  rw [nextTimestamp]
  split_ifs with h
  · have hsucc : (last + 1).toNat = last.toNat + 1 := by
      rw [UInt64.toNat_add]
      exact Nat.mod_eq_of_lt (by change last.toNat + 1 < _; omega)
    omega
  · exact ⟨Nat.lt_of_not_le fun hle => h (UInt64.le_iff_toNat_le.mpr hle), hnow⟩

/-- A call gives a timestamp over the last one, which is the next one's last. -/
theorem nowTimeuuid_spec {last : UInt64} {input : NowInput}
    (hnow : (unixMsToUuidTimestamp100ns input.unixMsNow).toNat < 2 ^ 60) (hlast : last.toNat + 1 < 2 ^ 60) :
    last.toNat < timeuuidTimestamp (nowTimeuuid last input).1 ∧
      timeuuidTimestamp (nowTimeuuid last input).1 = (nowTimeuuid last input).2.toNat := by
  obtain ⟨hgt, hlt⟩ := nextTimestamp_spec hnow hlast
  have hmake : timeuuidTimestamp (nowTimeuuid last input).1 = (nextTimestamp last input.unixMsNow).toNat := by
    rw [nowTimeuuid, timeuuidTimestamp_make, Nat.mod_eq_of_lt hlt]
  have hsnd : (nowTimeuuid last input).2 = nextTimestamp last input.unixMsNow := by simp only [nowTimeuuid]
  rw [hmake, hsnd]
  exact ⟨hgt, rfl⟩

theorem lt_of_mem_nowRun {inputs : List NowInput} {last : UInt64} (h : RunFits last inputs) :
    ∀ u ∈ nowRun last inputs, last.toNat < timeuuidTimestamp u := by
  induction inputs generalizing last with
  | nil => exact fun u hu => nomatch hu
  | cons input inputs ih =>
      obtain ⟨hnow, hlast, hrest⟩ := h
      obtain ⟨hgt, heq⟩ := nowTimeuuid_spec hnow hlast
      intro u hu
      rcases List.mem_cons.mp hu with rfl | hu
      · exact hgt
      · have hnext := ih hrest u hu
        rw [← heq] at hnext
        exact hgt.trans hnext

theorem nowRun_increasing {inputs : List NowInput} {last : UInt64} (h : RunFits last inputs) :
    (nowRun last inputs).Pairwise timeuuidLt := by
  induction inputs generalizing last with
  | nil => exact List.Pairwise.nil
  | cons input inputs ih =>
      obtain ⟨hnow, hlast, hrest⟩ := h
      obtain ⟨-, heq⟩ := nowTimeuuid_spec hnow hlast
      refine List.Pairwise.cons (fun u hu => timeuuidLt_of_lt ?_) (ih hrest)
      rw [heq]
      exact lt_of_mem_nowRun hrest u hu

/-- The bounds of a millisecond convert back to it, they hold the UUIDs of one tick of it and no others, and the
values of successive calls of `now()` increase. -/
theorem timeuuid_bounds {unixMs : BitVec 64} (h : Representable unixMs) :
    timeuuidToUnixMs (minTimeuuid unixMs) = unixMs ∧ timeuuidToUnixMs (maxTimeuuid unixMs) = unixMs ∧
    (∀ u, uuidVersion u = 1 → timeuuidToUnixMs u = unixMs →
      (timeuuidLe (minTimeuuid unixMs) u ∧ timeuuidLe u (maxTimeuuid unixMs) ↔
        OnTick unixMs u ∧ HasVariant u)) ∧
    ∀ inputs, RunFits 0 inputs → (nowRun 0 inputs).Pairwise timeuuidLt :=
  ⟨timeuuidToUnixMs_make h _ _, timeuuidToUnixMs_make h _ _, fun u _ _ => within_bounds_iff h u,
    fun _ => nowRun_increasing⟩

theorem timeuuid_bounds_epoch : timeuuidToUnixMs (minTimeuuid 0) = 0 ∧ timeuuidToUnixMs (maxTimeuuid 0) = 0 ∧
    (∀ u, uuidVersion u = 1 → timeuuidToUnixMs u = 0 →
      (timeuuidLe (minTimeuuid 0) u ∧ timeuuidLe u (maxTimeuuid 0) ↔ OnTick 0 u ∧ HasVariant u)) ∧
    ∀ inputs, RunFits 0 inputs → (nowRun 0 inputs).Pairwise timeuuidLt :=
  timeuuid_bounds ⟨by decide, by decide⟩

/-- The second tick of the epoch is over its greatest UUID, and the tick before the epoch under its least. -/
theorem timeuuid_out_of_bounds :
    (∃ u, uuidVersion u = 1 ∧ timeuuidToUnixMs u = 0 ∧ ¬ timeuuidLe u (maxTimeuuid 0)) ∧
    ∃ u, uuidVersion u = 1 ∧ timeuuidToUnixMs u = 0 ∧ ¬ timeuuidLe (minTimeuuid 0) u := by
  refine ⟨⟨makeTimeuuidFromTs100ns 122192928000000001 0 ⟨List.replicate 6 0, rfl⟩, by decide +kernel,
    by decide +kernel, ?_⟩, makeTimeuuidFromTs100ns 122192927999999999 0 ⟨List.replicate 6 0, rfl⟩,
    by decide +kernel, by decide +kernel, ?_⟩
  · rw [timeuuidLe_iff]
    decide +kernel
  · rw [timeuuidLe_iff]
    decide +kernel

end Plexdb.Cql.Timeuuid
