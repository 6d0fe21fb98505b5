import Plexdb.ColumnCompare

/-! The keys that the comparison of two stored values compares: a value is a list of rationals, and the order
is the lexicographic one. -/

namespace Plexdb.Cql

open Native (beValue)

/-! ### Bytes -/

def bytesKey (bytes : Bytes) : List ℚ := bytes.map fun b => (b.toNat : ℚ)

theorem bytesKey_inj {a b : Bytes} : bytesKey a = bytesKey b ↔ a = b := by
  refine ⟨fun h => ?_, congrArg bytesKey⟩
  exact List.map_injective_iff.mpr (fun x y hxy => UInt8.toNat_inj.mp (Nat.cast_injective hxy)) h

theorem clampCmp_of_ne {a b : UInt8} (h : a ≠ b) :
    clampCmp ((a.toNat : Int) - b.toNat) = compareScalar a.toNat b.toNat := by
  have hne : a.toNat ≠ b.toNat := fun heq => h (UInt8.toNat_inj.mp heq)
  rcases Nat.lt_or_gt_of_ne hne with hlt | hgt
  · rw [compareScalar_of_lt hlt, clampCmp, if_pos (by omega)]
  · rw [compareScalar_of_gt hgt, clampCmp, if_neg (by omega), if_pos (by omega)]

theorem compareBytes_eq (a b : Bytes) : compareBytes a b =
    let c := memoryCompare (a.take (min a.length b.length)) (b.take (min a.length b.length))
    if c ≠ 0 then clampCmp c else compareScalar a.length b.length := by
  have hzero : ¬min a.length b.length > 0 →
      memoryCompare (a.take (min a.length b.length)) (b.take (min a.length b.length)) = 0 := by
    intro h
    rw [Nat.eq_zero_of_not_pos h]
    rfl
  by_cases hpos : min a.length b.length > 0
  · rw [compareBytes, if_pos hpos]
  · rw [compareBytes, if_neg hpos, hzero hpos]

theorem compareBytes_cons (a b : UInt8) (as bs : Bytes) :
    compareBytes (a :: as) (b :: bs) = if a = b then compareBytes as bs else compareScalar a.toNat b.toNat := by
  rw [compareBytes_eq, compareBytes_eq]
  simp only [List.length_cons, Nat.succ_min_succ, List.take_succ_cons, memoryCompare]
  by_cases h : a = b
  · rw [if_pos h, if_pos h]
    have hlen : compareScalar (as.length + 1) (bs.length + 1) = compareScalar as.length bs.length :=
      compareScalar_map (f := Nat.succ) (fun _ _ => Nat.succ_lt_succ) _ _
    rw [hlen]
  · have hne : (a.toNat : Int) - b.toNat ≠ 0 := fun heq => h (UInt8.toNat_inj.mp (by omega))
    rw [if_neg h, if_neg h, if_pos hne, clampCmp_of_ne h]

theorem compareBytes_eq_key (a b : Bytes) : compareBytes a b = compareScalar (bytesKey a) (bytesKey b) := by
  induction a generalizing b with
  | nil =>
      cases b with
      | nil => rw [compareScalar_self, compareBytes_eq]; rfl
      | cons b bs =>
          have hlt : bytesKey [] < bytesKey (b :: bs) := List.nil_lt_cons _ _
          rw [compareScalar_of_lt hlt, compareBytes_eq]
          simp [memoryCompare, compareScalar]
  | cons a as ih =>
      cases b with
      | nil =>
          have hlt : bytesKey [] < bytesKey (a :: as) := List.nil_lt_cons _ _
          rw [compareScalar_of_gt hlt, compareBytes_eq]
          simp [memoryCompare, compareScalar]
      | cons b bs =>
          have hcast : compareScalar (a.toNat : ℚ) (b.toNat : ℚ) = compareScalar a.toNat b.toNat :=
            compareScalar_map (f := fun n : ℕ => (n : ℚ)) (fun _ _ h => Nat.cast_lt.mpr h) _ _
          change _ = compareScalar ((a.toNat : ℚ) :: bytesKey as) ((b.toNat : ℚ) :: bytesKey bs)
          rw [compareBytes_cons, ih, compareScalar_cons, hcast]
          by_cases h : a = b
          · rw [if_pos h, if_neg (by rw [h, compareScalar_self]; simp)]
          · have hne : compareScalar a.toNat b.toNat ≠ 0 := fun heq =>
              h (UInt8.toNat_inj.mp (compareScalar_eq_zero_iff.mp heq))
            rw [if_neg h, if_pos hne]

/-! ### Magnitudes -/

theorem beValue_cons (b : UInt8) (bs : Bytes) : beValue (b :: bs) = b.toNat * 256 ^ bs.length + beValue bs := by
  have hfold : ∀ (l : Bytes) (n : Nat),
      l.foldl (fun n b => n * 256 + b.toNat) n = n * 256 ^ l.length + beValue l := by
    intro l
    induction l with
    | nil => simp [beValue]
    | cons c l ih =>
        intro n
        rw [beValue, List.foldl_cons, List.foldl_cons, ih, ih (0 * 256 + c.toNat), List.length_cons, pow_succ]
        ring
  rw [beValue, List.foldl_cons, hfold]
  ring

theorem beValue_lt (bs : Bytes) : beValue bs < 256 ^ bs.length := by
  induction bs with
  | nil => simp [beValue]
  | cons b bs ih =>
      have hb : b.toNat ≤ 255 := Nat.le_of_lt_succ b.toNat_lt
      have hmul := Nat.mul_le_mul_right (256 ^ bs.length) hb
      rw [beValue_cons, List.length_cons, pow_succ]
      omega

/-- Magnitudes of one length compare as their bytes do. -/
theorem clampCmp_memoryCompare {a b : Bytes} (h : a.length = b.length) :
    clampCmp (memoryCompare a b) = compareScalar (beValue a) (beValue b) := by
  induction a generalizing b with
  | nil =>
      obtain rfl := List.length_eq_zero_iff.mp h.symm
      rw [compareScalar_self]
      rfl
  | cons a as ih =>
      obtain ⟨b, bs, rfl⟩ := List.exists_cons_of_length_eq_add_one h.symm
      have hlen := Nat.succ.inj h
      rw [memoryCompare, beValue_cons, beValue_cons, ← hlen]
      by_cases hab : a = b
      · have hmono : StrictMono fun n : ℕ => a.toNat * 256 ^ as.length + n := fun _ _ hlt => Nat.add_lt_add_left hlt _
        rw [if_pos hab, ih hlen, ← hab]
        exact (compareScalar_map hmono _ _).symm
      · rw [if_neg hab, clampCmp_of_ne hab]
        have ha := beValue_lt as
        have hb := beValue_lt bs
        rw [← hlen] at hb
        have hne : a.toNat ≠ b.toNat := fun heq => hab (UInt8.toNat_inj.mp heq)
        rcases Nat.lt_or_gt_of_ne hne with hlt | hgt
        · have hmul := Nat.mul_le_mul_right (256 ^ as.length) (Nat.succ_le_of_lt hlt)
          rw [Nat.succ_mul] at hmul
          rw [compareScalar_of_lt hlt, compareScalar_of_lt (by omega)]
        · have hmul := Nat.mul_le_mul_right (256 ^ as.length) (Nat.succ_le_of_lt hgt)
          rw [Nat.succ_mul] at hmul
          rw [compareScalar_of_gt hgt, compareScalar_of_gt (by omega)]

theorem beValue_significant (m : Bytes) : beValue (significant m) = beValue m := by
  induction m with
  | nil => rfl
  | cons b m ih =>
      rw [significant, List.dropWhile_cons]
      split_ifs with hb
      · have hb : b = 0 := of_decide_eq_true hb
        change beValue (significant m) = _
        rw [ih, beValue_cons, hb]
        simp
      · rfl

/-- Without leading zeros the length is that of the number. -/
theorem pow_le_beValue {m : Bytes} (h : significant m ≠ []) : 256 ^ ((significant m).length - 1) ≤ beValue m := by
  obtain ⟨b, bs, hm⟩ := List.exists_cons_of_ne_nil h
  have hb : b ≠ 0 := by
    have hhead := List.head_dropWhile_not (fun b : UInt8 => decide (b = 0)) h
    simp only [significant] at hm
    simpa only [hm, List.head_cons, decide_eq_false_iff_not] using hhead
  have hpos : 0 < b.toNat := Nat.pos_of_ne_zero fun heq => hb (UInt8.toNat_inj.mp (by rw [heq]; rfl))
  rw [← beValue_significant, hm, beValue_cons, List.length_cons, Nat.add_sub_cancel]
  exact Nat.le_add_right_of_le (Nat.le_mul_of_pos_left _ hpos)

theorem magnitudeIsZero_iff {m : Bytes} : magnitudeIsZero m = true ↔ beValue m = 0 := by
  rw [magnitudeIsZero, decide_eq_true_iff, List.length_eq_zero_iff]
  constructor
  · intro h
    rw [← beValue_significant, h]
    rfl
  · intro h
    by_contra hne
    have := pow_le_beValue hne
    have := Nat.pos_of_ne_zero (pow_ne_zero ((significant m).length - 1) (by decide : 256 ≠ 0))
    omega

theorem compareMagnitude_eq (a b : Bytes) : compareMagnitude a b = compareScalar (beValue a) (beValue b) := by
  have ha := beValue_lt (significant a)
  have hb := beValue_lt (significant b)
  -- the shorter one is less than the first power that the longer one reaches
  have hshort : ∀ m m' : Bytes, (significant m).length < (significant m').length → beValue m < beValue m' := by
    intro m m' hlt
    have hne : significant m' ≠ [] := List.ne_nil_of_length_pos (by omega)
    have hpow : 256 ^ (significant m).length ≤ 256 ^ ((significant m').length - 1) :=
      Nat.pow_le_pow_right (by decide) (by omega)
    have hm := beValue_lt (significant m)
    rw [beValue_significant] at hm
    exact hm.trans_le (hpow.trans (pow_le_beValue hne))
  rw [compareMagnitude]
  split_ifs with hlen hzero
  · rcases Nat.lt_or_gt_of_ne hlen with hlt | hgt
    · rw [compareScalar_of_lt hlt, compareScalar_of_lt (hshort a b hlt)]
    · rw [compareScalar_of_gt hgt, compareScalar_of_gt (hshort b a hgt)]
  · rw [← beValue_significant a, ← beValue_significant b, List.length_eq_zero_iff.mp hzero,
      List.length_eq_zero_iff.mp ((not_not.mp hlen).symm.trans hzero), compareScalar_self]
  · rw [clampCmp_memoryCompare (not_not.mp hlen), beValue_significant, beValue_significant]

/-! ### Numbers -/

theorem strictMono_natCast {R : Type} [Semiring R] [PartialOrder R] [IsStrictOrderedRing R] :
    StrictMono fun n : ℕ => (n : R) := fun _ _ h => Nat.cast_lt.mpr h

theorem compareVarint_eq (a b : VarInt) : compareVarint a b = compareScalar a.value b.value := by
  have hpos : ∀ m n : ℕ, compareScalar (m : ℤ) (n : ℤ) = compareScalar m n := compareScalar_map strictMono_natCast
  have hanti : StrictAnti fun n : ℕ => -(n : ℤ) := fun _ _ h => neg_lt_neg (Nat.cast_lt.mpr h)
  have hneg : ∀ m n : ℕ, compareScalar (-(m : ℤ)) (-(n : ℤ)) = -compareScalar m n := compareScalar_anti hanti
  obtain ⟨an, am⟩ := a
  obtain ⟨bn, bm⟩ := b
  have ha : magnitudeIsZero am = decide (beValue am = 0) := Bool.eq_iff_iff.mpr (by
    rw [magnitudeIsZero_iff, decide_eq_true_iff])
  have hb : magnitudeIsZero bm = decide (beValue bm = 0) := Bool.eq_iff_iff.mpr (by
    rw [magnitudeIsZero_iff, decide_eq_true_iff])
  simp only [compareVarint, VarInt.value, compareMagnitude_eq, ha, hb, Bool.and_eq_true, decide_eq_true_iff]
  by_cases hzero : beValue am = 0 ∧ beValue bm = 0
  · rw [if_pos hzero, hzero.1, hzero.2]
    cases an <;> cases bn <;> rfl
  · rw [if_neg hzero]
    cases an with
    | false =>
        cases bn with
        | false => simp [hpos]
        | true =>
            have hlt : (-(beValue bm : ℤ)) < beValue am := by omega
            simp [compareScalar_of_gt hlt]
    | true =>
        cases bn with
        | false =>
            have hlt : (-(beValue am : ℤ)) < beValue bm := by omega
            simp [compareScalar_of_lt hlt]
        | true => simp [hneg]

/-! ### Powers of ten -/

theorem length_mulTen (m : Bytes) : (mulTen m).1.length = m.length := by
  induction m with
  | nil => rfl
  | cons b m ih => rw [mulTen, List.length_cons, List.length_cons, ih]

theorem beValue_mulTen (m : Bytes) : (mulTen m).2 * 256 ^ m.length + beValue (mulTen m).1 = beValue m * 10 := by
  induction m with
  | nil => rfl
  | cons b m ih =>
      have hdiv := Nat.div_add_mod (b.toNat * 10 + (mulTen m).2) 256
      have hbyte : ∀ x : Nat, (UInt8.ofNat (x % 256)).toNat = x % 256 := fun x => by
        rw [UInt8.toNat_ofNat']
        omega
      simp only [mulTen, beValue_cons, length_mulTen, List.length_cons, pow_succ, hbyte]
      calc (b.toNat * 10 + (mulTen m).2) / 256 * (256 ^ m.length * 256)
            + ((b.toNat * 10 + (mulTen m).2) % 256 * 256 ^ m.length + beValue (mulTen m).1)
          = (256 * ((b.toNat * 10 + (mulTen m).2) / 256) + (b.toNat * 10 + (mulTen m).2) % 256) * 256 ^ m.length
            + beValue (mulTen m).1 := by ring
        _ = b.toNat * 10 * 256 ^ m.length + ((mulTen m).2 * 256 ^ m.length + beValue (mulTen m).1) := by
            rw [hdiv]
            ring
        _ = (b.toNat * 256 ^ m.length + beValue m) * 10 := by
            rw [ih]
            ring

theorem beValue_grow (carry : Nat) (m : Bytes) : beValue (grow carry m) = carry * 256 ^ m.length + beValue m := by
  fun_induction grow carry m with
  | case1 m => simp
  | case2 carry m hne ih =>
      have hdiv := Nat.div_add_mod carry 256
      have hbyte : (UInt8.ofNat (carry % 256)).toNat = carry % 256 := by
        rw [UInt8.toNat_ofNat']
        omega
      rw [ih, beValue_cons, List.length_cons, pow_succ, hbyte]
      calc carry / 256 * (256 ^ m.length * 256) + (carry % 256 * 256 ^ m.length + beValue m)
          = (256 * (carry / 256) + carry % 256) * 256 ^ m.length + beValue m := by ring
        _ = carry * 256 ^ m.length + beValue m := by rw [hdiv]

theorem beValue_magnitudeMulPow10 (m : Bytes) (times : Nat) :
    beValue (magnitudeMulPow10 m times) = beValue m * 10 ^ times := by
  induction times generalizing m with
  | zero => rw [magnitudeMulPow10, pow_zero, mul_one]
  | succ times ih =>
      rw [magnitudeMulPow10, ih, beValue_grow, length_mulTen, beValue_mulTen, pow_succ, mul_assoc, mul_comm 10]

theorem value_mulPow10 (v : VarInt) (times : Nat) :
    VarInt.value { v with magnitude := magnitudeMulPow10 v.magnitude times } = v.value * 10 ^ times := by
  rw [VarInt.value, VarInt.value, beValue_magnitudeMulPow10]
  cases v.negative with
  | false => simp
  | true => simp

theorem sub_scale {a b : BitVec 32} (h : b.slt a = true) : ((a - b).toNat : ℤ) = a.toInt - b.toInt := by
  rw [BitVec.slt_iff_toInt_lt] at h
  have ha := BitVec.toInt_eq_toNat_cond a
  have hb := BitVec.toInt_eq_toNat_cond b
  rw [BitVec.toNat_sub]
  split_ifs at ha hb <;> omega

/-- The number of a value of the smaller scale, at the larger scale. -/
theorem value_align {v : VarInt} {scale larger : BitVec 32} (h : scale.slt larger = true) :
    Decimal.value ⟨scale, v⟩ =
      VarInt.value { v with magnitude := magnitudeMulPow10 v.magnitude (larger - scale).toNat }
        * (10 : ℚ) ^ (-larger.toInt) := by
  have hexp : -scale.toInt = ((larger - scale).toNat : ℤ) + -larger.toInt := by
    rw [sub_scale h]
    ring
  rw [Decimal.value, value_mulPow10, hexp, zpow_add₀ (by norm_num), zpow_natCast]
  push_cast
  ring

theorem compareDecimal_eq (a b : Decimal) : compareDecimal a b = compareScalar a.value b.value := by
  have hmono : ∀ e : ℤ, StrictMono fun n : ℤ => (n : ℚ) * (10 : ℚ) ^ e := fun e m n h =>
    mul_lt_mul_of_pos_right (Int.cast_lt.mpr h) (zpow_pos (by norm_num) e)
  obtain ⟨sa, va⟩ := a
  obtain ⟨sb, vb⟩ := b
  rw [compareDecimal]
  split_ifs with heq hlt
  · obtain rfl : sa = sb := heq
    rw [compareVarint_eq]
    exact (compareScalar_map (hmono (-sa.toInt)) va.value vb.value).symm
  · rw [compareVarint_eq, value_align hlt]
    exact (compareScalar_map (hmono (-sa.toInt)) _ _).symm
  · have hgt : sa.slt sb = true := by
      rw [BitVec.slt_iff_toInt_lt] at hlt ⊢
      exact lt_of_le_of_ne (not_lt.mp hlt) fun h => heq (BitVec.toInt_inj.mp h)
    rw [compareVarint_eq, value_align hgt]
    exact (compareScalar_map (hmono (-sb.toInt)) _ _).symm

/-! ### Floats -/

theorem and_twoPow_ne_zero {w : Nat} (bits : BitVec (w + 1)) : bits &&& BitVec.twoPow (w + 1) w ≠ 0 ↔ bits.msb = true := by
  have hne : BitVec.twoPow (w + 1) w ≠ 0#(w + 1) := fun h => by
    have := congrArg BitVec.toNat h
    rw [BitVec.toNat_twoPow_of_lt (Nat.lt_succ_self w)] at this
    exact absurd this (by positivity)
  rw [BitVec.and_twoPow, BitVec.msb_eq_getLsbD_last, Nat.add_sub_cancel]
  cases bits.getLsbD w with
  | false => simp
  | true => simp

/-- Positive numbers get the first bit, negative ones are inverted. -/
theorem orderKey_injective {w : Nat} {a b : BitVec (w + 1)}
    (h : (if a &&& BitVec.twoPow (w + 1) w ≠ 0 then ~~~a else a ^^^ BitVec.twoPow (w + 1) w) =
      if b &&& BitVec.twoPow (w + 1) w ≠ 0 then ~~~b else b ^^^ BitVec.twoPow (w + 1) w) : a = b := by
  have hmsb : (BitVec.twoPow (w + 1) w).msb = true := by simp [BitVec.msb_twoPow]
  simp only [and_twoPow_ne_zero] at h
  split_ifs at h with ha hb hb
  · exact BitVec.not_inj.mp h
  · have := congrArg BitVec.msb h
    simp [ha, hb, hmsb] at this
  · have := congrArg BitVec.msb h
    simp [ha, hb, hmsb] at this
  · exact (BitVec.xor_left_inj _).mp h

theorem f64OrderKey_injective {a b : BitVec 64} (h : f64OrderKey a = f64OrderKey b) : a = b :=
  orderKey_injective (w := 63) h

theorem f32OrderKey_injective {a b : BitVec 32} (h : f32OrderKey a = f32OrderKey b) : a = b :=
  orderKey_injective (w := 31) h

/-! ### UUIDs -/

theorem byteAt_lt (u : Raw 16) (i : Nat) : byteAt u i < 256 := (u.val.getD i 0).toNat_lt

theorem lor_of_dvd {x y i : Nat} (hx : 2 ^ i ∣ x) (hy : y < 2 ^ i) : x ||| y = x + y := by
  obtain ⟨k, rfl⟩ := hx
  exact (Nat.two_pow_add_eq_or_of_lt hy k).symm

theorem timeuuidTimestamp_eq (u : Raw 16) : timeuuidTimestamp u =
    (byteAt u 6 % 16 * 256 + byteAt u 7) * 2 ^ 48 + (byteAt u 4 * 256 + byteAt u 5) * 2 ^ 32
      + (byteAt u 0 * 2 ^ 24 + byteAt u 1 * 2 ^ 16 + byteAt u 2 * 2 ^ 8 + byteAt u 3) := by
  have hb := byteAt_lt u
  have h0 := hb 0
  have h1 := hb 1
  have h2 := hb 2
  have h3 := hb 3
  have h4 := hb 4
  have h5 := hb 5
  have h6 := hb 6
  have h7 := hb 7
  have hlow : byteAt u 0 <<< 24 ||| byteAt u 1 <<< 16 ||| byteAt u 2 <<< 8 ||| byteAt u 3 =
      byteAt u 0 * 2 ^ 24 + byteAt u 1 * 2 ^ 16 + byteAt u 2 * 2 ^ 8 + byteAt u 3 := by
    simp only [Nat.shiftLeft_eq]
    rw [@lor_of_dvd (byteAt u 0 * 2 ^ 24) (byteAt u 1 * 2 ^ 16) 24 (by omega) (by omega),
      @lor_of_dvd (_ + _) (byteAt u 2 * 2 ^ 8) 16 (by omega) (by omega),
      @lor_of_dvd (_ + _) (byteAt u 3) 8 (by omega) (by omega)]
  have hmid : byteAt u 4 <<< 8 ||| byteAt u 5 = byteAt u 4 * 256 + byteAt u 5 := by
    rw [Nat.shiftLeft_eq, lor_of_dvd (i := 8) (by omega) (by omega)]
  have hhi : (byteAt u 6 <<< 8 ||| byteAt u 7) &&& 0x0FFF = byteAt u 6 % 16 * 256 + byteAt u 7 := by
    rw [Nat.shiftLeft_eq, lor_of_dvd (i := 8) (by omega) (by omega)]
    change _ &&& 2 ^ 12 - 1 = _
    rw [Nat.and_two_pow_sub_one_eq_mod]
    omega
  rw [timeuuidTimestamp, hlow, hmid, hhi]
  simp only [Nat.shiftLeft_eq]
  rw [@lor_of_dvd (_ * 2 ^ 48) (_ * 2 ^ 32) 48 (by omega) (by omega),
    @lor_of_dvd (_ + _) _ 32 (by omega) (by omega)]

/-- The timestamp is the first eight bytes but for the version. -/
theorem timeuuidTimestamp_inj {a b : Raw 16} : timeuuidTimestamp a = timeuuidTimestamp b ↔
    (∀ i < 8, i ≠ 6 → byteAt a i = byteAt b i) ∧ byteAt a 6 % 16 = byteAt b 6 % 16 := by
  rw [timeuuidTimestamp_eq, timeuuidTimestamp_eq]
  constructor
  · intro h
    have ha := byteAt_lt a
    have hb := byteAt_lt b
    have h0 := And.intro (ha 0) (hb 0)
    have h1 := And.intro (ha 1) (hb 1)
    have h2 := And.intro (ha 2) (hb 2)
    have h3 := And.intro (ha 3) (hb 3)
    have h4 := And.intro (ha 4) (hb 4)
    have h5 := And.intro (ha 5) (hb 5)
    have h7 := And.intro (ha 7) (hb 7)
    have hbytes : byteAt a 0 = byteAt b 0 ∧ byteAt a 1 = byteAt b 1 ∧ byteAt a 2 = byteAt b 2 ∧ byteAt a 3 = byteAt b 3 ∧
        byteAt a 4 = byteAt b 4 ∧ byteAt a 5 = byteAt b 5 ∧ byteAt a 7 = byteAt b 7 ∧
        byteAt a 6 % 16 = byteAt b 6 % 16 := by omega
    obtain ⟨e0, e1, e2, e3, e4, e5, e7, e6⟩ := hbytes
    refine ⟨fun i hi hne => ?_, e6⟩
    interval_cases i <;> first | assumption | exact absurd rfl hne
  · rintro ⟨h, h6⟩
    rw [h 0 (by decide) (by decide), h 1 (by decide) (by decide), h 2 (by decide) (by decide),
      h 3 (by decide) (by decide), h 4 (by decide) (by decide), h 5 (by decide) (by decide),
      h 7 (by decide) (by decide), h6]

theorem drop_eq_iff {a b : Raw 16} (n : Nat) : a.val.drop n = b.val.drop n ↔ ∀ i, n ≤ i → byteAt a i = byteAt b i := by
  constructor
  · intro h i hi
    have hget := congrArg (fun l : Bytes => (l.getD (i - n) 0).toNat) h
    simp only [List.getD_eq_getElem?_getD, List.getElem?_drop, Nat.add_sub_cancel' hi] at hget
    simpa only [byteAt, List.getD_eq_getElem?_getD] using hget
  · intro h
    refine List.ext_getElem (by rw [List.length_drop, List.length_drop, a.property, b.property]) fun i hi hi' => ?_
    have hbyte := UInt8.toNat_inj.mp (h (n + i) (Nat.le_add_right n i))
    rw [List.length_drop] at hi hi'
    rw [List.getD_eq_getElem _ _ (by omega), List.getD_eq_getElem _ _ (by omega)] at hbyte
    rw [List.getElem_drop, List.getElem_drop, hbyte]

def timeuuidKey (u : Raw 16) : List ℚ := (timeuuidTimestamp u : ℚ) :: bytesKey (u.val.drop 8)

def uuidKey (u : Raw 16) : List ℚ :=
  (uuidVersion u : ℚ) :: if uuidVersion u = 1 then timeuuidKey u else bytesKey u.val

theorem compareTimeuuid_eq (a b : Raw 16) : compareTimeuuid a b = compareScalar (timeuuidKey a) (timeuuidKey b) := by
  have hcast := compareScalar_map (strictMono_natCast (R := ℚ)) (timeuuidTimestamp a) (timeuuidTimestamp b)
  rw [compareTimeuuid, timeuuidKey, timeuuidKey, compareScalar_cons, hcast, compareBytes_eq_key]
  exact if_congr (not_congr compareScalar_eq_zero_iff.symm) rfl rfl

theorem compareUuid_eq (a b : Raw 16) : compareUuid a b = compareScalar (uuidKey a) (uuidKey b) := by
  have hcast := compareScalar_map (strictMono_natCast (R := ℚ)) (uuidVersion a) (uuidVersion b)
  rw [compareUuid, uuidKey, uuidKey, compareScalar_cons, hcast]
  by_cases h : uuidVersion a = uuidVersion b
  · rw [if_neg (not_not.mpr h), if_neg (not_not.mpr (compareScalar_eq_zero_iff.mpr h)), ← h]
    split_ifs with hv
    · exact compareTimeuuid_eq a b
    · exact compareBytes_eq_key a.val b.val
  · rw [if_pos h, if_pos fun hzero => h (compareScalar_eq_zero_iff.mp hzero)]

theorem timeuuidKey_inj {a b : Raw 16} : timeuuidKey a = timeuuidKey b ↔ SameButVersion a b := by
  rw [timeuuidKey, timeuuidKey, List.cons.injEq, Nat.cast_inj, bytesKey_inj, timeuuidTimestamp_inj, drop_eq_iff,
    SameButVersion]
  constructor
  · rintro ⟨⟨hlow, h6⟩, hhigh⟩
    refine ⟨fun i hne => ?_, h6⟩
    rcases Nat.lt_or_ge i 8 with hi | hi
    · exact hlow i hi hne
    · exact hhigh i hi
  · rintro ⟨h, h6⟩
    exact ⟨⟨fun i _ hne => h i hne, h6⟩, fun i hi => h i (by omega)⟩

theorem uuidVersion_eq (u : Raw 16) : uuidVersion u = byteAt u 6 / 16 := by
  have hlt := byteAt_lt u 6
  rw [uuidVersion, Nat.shiftRight_eq_div_pow]
  change _ &&& 2 ^ 4 - 1 = _
  rw [Nat.and_two_pow_sub_one_eq_mod]
  omega

theorem eq_of_sameButVersion {a b : Raw 16} (h : SameButVersion a b) (hv : uuidVersion a = uuidVersion b) : a = b := by
  have hall : a.val.drop 0 = b.val.drop 0 := (drop_eq_iff 0).mpr fun i _ => by
    by_cases hi : i = 6
    · rw [uuidVersion_eq, uuidVersion_eq] at hv
      have h6 := h.2
      subst hi
      omega
    · exact h.1 i hi
  exact Subtype.ext hall

theorem uuidKey_inj {a b : Raw 16} : uuidKey a = uuidKey b ↔ a = b := by
  refine ⟨fun h => ?_, congrArg uuidKey⟩
  rw [uuidKey, uuidKey, List.cons.injEq, Nat.cast_inj] at h
  obtain ⟨hv, h⟩ := h
  rw [← hv] at h
  split_ifs at h with h1
  · exact eq_of_sameButVersion (timeuuidKey_inj.mp h) hv
  · exact Subtype.ext (bytesKey_inj.mp h)

/-! ### Values -/

/-- The key that a stored value is compared by. -/
def orderKey (dtype : Basic) : ColumnValue → List ℚ
  | .s64 bits => [(bits.toInt : ℚ)]
  | .s32 bits => [(bits.toInt : ℚ)]
  | .s16 bits => [(bits.toInt : ℚ)]
  | .u8 bits => if dtype = .tinyint then [(bits.toInt : ℚ)] else [(bits.toNat : ℚ)]
  | .f64 bits => [((f64OrderKey bits).toNat : ℚ)]
  | .f32 bits => [((f32OrderKey bits).toNat : ℚ)]
  | .text bytes => bytesKey bytes
  | .blob bytes => bytesKey bytes
  | .inet value => bytesKey value.octets
  | .uuid value => if dtype = .timeuuid then timeuuidKey value else uuidKey value
  | .varint value => [(value.value : ℚ)]
  | .decimal value => [value.value]
  | _ => []

theorem compareScalar_int (a b : ℤ) : compareScalar a b = compareScalar [(a : ℚ)] [(b : ℚ)] := by
  rw [compareScalar_singleton]
  exact (compareScalar_map (fun _ _ h => Int.cast_lt.mpr h : StrictMono fun n : ℤ => (n : ℚ)) a b).symm

theorem compareScalar_nat (a b : ℕ) : compareScalar a b = compareScalar [(a : ℚ)] [(b : ℚ)] := by
  rw [compareScalar_singleton]
  exact (compareScalar_map strictMono_natCast a b).symm

/-- The comparison of stored values is that of their keys. -/
theorem compareColumnValue_eq {dtype : Basic} {a b : ColumnValue} (hdtype : dtype ≠ .duration)
    (ha : storedVariant dtype a = true) (hb : storedVariant dtype b = true) :
    compareColumnValue a b dtype = some (compareScalar (orderKey dtype a) (orderKey dtype b)) := by
  cases dtype <;> cases a <;> first | exact absurd ha Bool.false_ne_true | skip
  all_goals cases b <;> first | exact absurd hb Bool.false_ne_true | skip
  all_goals first
    | exact absurd rfl hdtype
    | exact congrArg some (compareScalar_int _ _)
    | exact congrArg some (compareScalar_nat _ _)
    | exact congrArg some (compareBytes_eq_key _ _)
    | exact congrArg some (compareTimeuuid_eq _ _)
    | exact congrArg some (compareUuid_eq _ _)
    | exact congrArg some ((compareVarint_eq _ _).trans (compareScalar_int _ _))
    | exact congrArg some ((compareDecimal_eq _ _).trans (compareScalar_singleton _ _).symm)

theorem octets_inj {a b : Inet} : a.octets = b.octets ↔ a = b := by
  refine ⟨fun h => ?_, congrArg Inet.octets⟩
  have hlen := congrArg List.length h
  cases a with
  | v4 a =>
      cases b with
      | v4 b => exact congrArg Inet.v4 (Subtype.ext h)
      | v6 b => exact absurd (a.property.symm.trans (hlen.trans b.property)) (by decide)
  | v6 a =>
      cases b with
      | v4 b => exact absurd (a.property.symm.trans (hlen.trans b.property)) (by decide)
      | v6 b => exact congrArg Inet.v6 (Subtype.ext h)

/-- The key of a stored value is the value, but for the version of a timeuuid. -/
theorem orderKey_inj {dtype : Basic} {a b : ColumnValue} (hdtype : dtype ≠ .duration) (huuid : dtype ≠ .timeuuid)
    (ha : storedVariant dtype a = true) (hb : storedVariant dtype b = true) :
    orderKey dtype a = orderKey dtype b ↔ SameValue a b := by
  cases dtype <;> cases a <;> first | exact absurd ha Bool.false_ne_true | skip
  all_goals cases b <;> first | exact absurd hb Bool.false_ne_true | skip
  all_goals simp only [orderKey, SameValue, reduceCtorEq, if_true, if_false, List.cons.injEq, and_true, Int.cast_inj,
    Nat.cast_inj, bytesKey_inj, octets_inj, uuidKey_inj, BitVec.toInt_inj, BitVec.toNat_inj, ColumnValue.s64.injEq,
    ColumnValue.s32.injEq, ColumnValue.s16.injEq, ColumnValue.u8.injEq, ColumnValue.f32.injEq, ColumnValue.f64.injEq,
    ColumnValue.text.injEq, ColumnValue.blob.injEq, ColumnValue.inet.injEq, ColumnValue.uuid.injEq]
  case double => exact ⟨f64OrderKey_injective, congrArg f64OrderKey⟩
  case float => exact ⟨f32OrderKey_injective, congrArg f32OrderKey⟩
  all_goals first | exact absurd rfl hdtype | exact absurd rfl huuid

theorem orderKey_timeuuid {a b : Raw 16} :
    orderKey .timeuuid (.uuid a) = orderKey .timeuuid (.uuid b) ↔ SameButVersion a b := timeuuidKey_inj

theorem orderKey_of_numericValue {dtype : Basic} {v : ColumnValue} {x : ℚ} (h : numericValue dtype v = some x) :
    orderKey dtype v = [x] := by
  cases v with
  | u8 bits =>
      rw [numericValue] at h
      split_ifs at h with htiny
      rw [orderKey, if_pos htiny, Option.some.inj h]
  | s64 _ | s32 _ | s16 _ | varint _ | decimal _ => exact congrArg (fun x => [x]) (Option.some.inj h)
  | _ => exact absurd h (Option.some_ne_none x).symm

end Plexdb.Cql
