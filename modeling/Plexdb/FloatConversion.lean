import Mathlib

/-! Conversions between the 32-bit and the 64-bit binary floats, on their bits: to nearest, ties to
even. A NaN keeps the leading bits of its payload and becomes quiet. -/

namespace Plexdb.Float

/-- A format by its mantissa bits, the position of its last mantissa bit at the smallest exponent,
counted from that of 64-bit floats, and its largest exponent field. -/
structure Format where
  manBits : Nat
  base : Nat
  expMax : Nat

def binary32 : Format := ⟨23, 925, 255⟩

def binary64 : Format := ⟨52, 0, 2047⟩

/-- `n / 2 ^ k` to the nearest integer, ties to even. -/
def roundEven (n k : Nat) : Nat :=
  if 2 ^ k < 2 * (n % 2 ^ k) ∨ 2 ^ k = 2 * (n % 2 ^ k) ∧ n / 2 ^ k % 2 = 1 then n / 2 ^ k + 1 else n / 2 ^ k

/-- The bits of `sig * 2 ^ p`. A significand that rounds up to the next power of two carries into the
exponent field. -/
def Format.encode (f : Format) (sig p : Nat) : Nat :=
  if sig = 0 then 0
  else
    let last := max (sig.log2 + p - f.manBits) f.base
    let rounded := if last ≤ p then sig * 2 ^ (p - last) else roundEven sig (last - p)
    min (f.expMax * 2 ^ f.manBits) ((last - f.base) * 2 ^ f.manBits + rounded)

/-- The bits below the sign. -/
def convertMagnitude (f g : Format) (x : Nat) : Nat :=
  let e := x / 2 ^ f.manBits
  let m := x % 2 ^ f.manBits
  if e = f.expMax then
    if m = 0 then g.expMax * 2 ^ g.manBits
    else g.expMax * 2 ^ g.manBits + (m * 2 ^ g.manBits / 2 ^ f.manBits ||| 2 ^ (g.manBits - 1))
  else g.encode (if e = 0 then m else 2 ^ f.manBits + m) (e - 1 + f.base)

def toF64 (x : BitVec 32) : BitVec 64 :=
  BitVec.ofNat 64 (x.toNat / 2 ^ 31 * 2 ^ 63 + convertMagnitude binary32 binary64 (x.toNat % 2 ^ 31))

def toF32 (x : BitVec 64) : BitVec 32 :=
  BitVec.ofNat 32 (x.toNat / 2 ^ 63 * 2 ^ 31 + convertMagnitude binary64 binary32 (x.toNat % 2 ^ 63))

/-- A NaN whose quiet bit is clear. -/
def isSignaling (x : BitVec 32) : Bool :=
  let m := x.toNat % 2 ^ 23
  x.toNat / 2 ^ 23 % 2 ^ 8 == 255 && m != 0 && m < 2 ^ 22

/-! ### Widening is exact -/

theorem roundEven_mul (sig k : Nat) : roundEven (sig * 2 ^ k) k = sig := by
  have hpos : 0 < 2 ^ k := Nat.two_pow_pos k
  rw [roundEven, Nat.mul_mod_left, Nat.mul_div_cancel _ hpos, if_neg (by omega)]

theorem log2_mul_two_pow {sig : Nat} (h : sig ≠ 0) (k : Nat) : (sig * 2 ^ k).log2 = sig.log2 + k := by
  rw [Nat.log2_eq_iff (Nat.mul_ne_zero h (Nat.two_pow_pos k).ne')]
  have hle := Nat.log2_self_le h
  have hlt := Nat.lt_log2_self (n := sig)
  constructor
  · rw [Nat.pow_add]
    exact Nat.mul_le_mul_right _ hle
  · rw [Nat.add_right_comm, Nat.pow_add]
    exact Nat.mul_lt_mul_of_pos_right hlt (Nat.two_pow_pos k)

theorem Format.encode_eq {f : Format} {sig p last : Nat} (hsig : sig ≠ 0)
    (hlast : max (sig.log2 + p - f.manBits) f.base = last) :
    f.encode sig p = min (f.expMax * 2 ^ f.manBits) ((last - f.base) * 2 ^ f.manBits +
      if last ≤ p then sig * 2 ^ (p - last) else roundEven sig (last - p)) := by
  subst hlast
  rw [Format.encode, if_neg hsig]

theorem convertMagnitude_eq {f g : Format} {e m : Nat} (hm : m < 2 ^ f.manBits) :
    convertMagnitude f g (e * 2 ^ f.manBits + m) =
      if e = f.expMax then
        if m = 0 then g.expMax * 2 ^ g.manBits
        else g.expMax * 2 ^ g.manBits + (m * 2 ^ g.manBits / 2 ^ f.manBits ||| 2 ^ (g.manBits - 1))
      else g.encode (if e = 0 then m else 2 ^ f.manBits + m) (e - 1 + f.base) := by
  have hdiv : (e * 2 ^ f.manBits + m) / 2 ^ f.manBits = e := by
    rw [Nat.mul_comm, Nat.mul_add_div (Nat.two_pow_pos _), Nat.div_eq_of_lt hm, Nat.add_zero]
  have hmod : (e * 2 ^ f.manBits + m) % 2 ^ f.manBits = m := by
    rw [Nat.mul_comm, Nat.mul_add_mod, Nat.mod_eq_of_lt hm]
  rw [convertMagnitude, hdiv, hmod]

/-- A significand that fits 32-bit floats, taken to 64 bits: it ends in zeros and starts at the implicit
bit. -/
theorem encode_binary64 {sig p : Nat} (hsig : sig ≠ 0) (hlog : sig.log2 ≤ 23) (hpos : 52 ≤ p) (hmax : p < 2000) :
    binary64.encode sig p = (sig.log2 + p - 52) * 2 ^ 52 + sig * 2 ^ (52 - sig.log2) ∧
      2 ^ 52 ≤ sig * 2 ^ (52 - sig.log2) ∧ sig * 2 ^ (52 - sig.log2) < 2 ^ 53 := by
  have hlow : 2 ^ 52 ≤ sig * 2 ^ (52 - sig.log2) := by
    calc 2 ^ 52 = 2 ^ sig.log2 * 2 ^ (52 - sig.log2) := by rw [← Nat.pow_add]; congr 1; omega
      _ ≤ _ := Nat.mul_le_mul_right _ (Nat.log2_self_le hsig)
  have hhigh : sig * 2 ^ (52 - sig.log2) < 2 ^ 53 := by
    calc _ < 2 ^ (sig.log2 + 1) * 2 ^ (52 - sig.log2) :=
          Nat.mul_lt_mul_of_pos_right Nat.lt_log2_self (Nat.two_pow_pos _)
      _ = 2 ^ 53 := by rw [← Nat.pow_add]; congr 1; omega
  have hlast : max (sig.log2 + p - 52) 0 = sig.log2 + p - 52 := Nat.max_zero _
  refine ⟨(Format.encode_eq (f := binary64) hsig hlast).trans ?_, hlow, hhigh⟩
  rw [if_pos (by omega), show p - (sig.log2 + p - 52) = 52 - sig.log2 by omega]
  exact Nat.min_eq_right (by change _ ≤ 2047 * 2 ^ 52; change (sig.log2 + p - 52) * 2 ^ 52 + _ ≤ _; omega)

/-- Back to 32 bits the zeros are cut off again. -/
theorem encode_binary32 {sig p : Nat} (hsig : sig ≠ 0) (hlog : sig.log2 ≤ 23) (hpos : 925 ≤ p) (hmax : p < 1179)
    (hlast : p = 925 ∨ sig.log2 = 23) :
    binary32.encode (sig * 2 ^ (52 - sig.log2)) (sig.log2 + p - 52) = (p - 925) * 2 ^ 23 + sig := by
  have hlog' : (sig * 2 ^ (52 - sig.log2)).log2 = 52 := by
    rw [log2_mul_two_pow hsig]
    omega
  have hsig' : sig * 2 ^ (52 - sig.log2) ≠ 0 := Nat.mul_ne_zero hsig (Nat.two_pow_pos _).ne'
  have hlt : sig < 2 ^ 24 := lt_of_lt_of_le Nat.lt_log2_self (Nat.pow_le_pow_right (by decide) (by omega))
  have hlast' : max ((sig * 2 ^ (52 - sig.log2)).log2 + (sig.log2 + p - 52) - 23) 925 = p := by
    rw [hlog']
    omega
  have hrounded : (if p ≤ sig.log2 + p - 52 then
      sig * 2 ^ (52 - sig.log2) * 2 ^ (sig.log2 + p - 52 - p)
      else roundEven (sig * 2 ^ (52 - sig.log2)) (p - (sig.log2 + p - 52))) = sig := by
    rw [if_neg (by omega), show p - (sig.log2 + p - 52) = 52 - sig.log2 by omega, roundEven_mul]
  refine (Format.encode_eq (f := binary32) hsig' hlast').trans ?_
  rw [hrounded]
  exact Nat.min_eq_right (by change (p - 925) * 2 ^ 23 + _ ≤ 255 * 2 ^ 23; omega)

theorem convertMagnitude_finite {e m : Nat} (he : e < 255) (hm : m < 2 ^ 23) :
    convertMagnitude binary64 binary32 (convertMagnitude binary32 binary64 (e * 2 ^ 23 + m)) = e * 2 ^ 23 + m := by
  have hwide : convertMagnitude binary32 binary64 (e * 2 ^ 23 + m) =
      binary64.encode (if e = 0 then m else 2 ^ 23 + m) (e - 1 + 925) :=
    (convertMagnitude_eq (f := binary32) hm).trans (if_neg (show ¬ e = 255 by omega))
  rw [hwide]
  generalize hsig : (if e = 0 then m else 2 ^ 23 + m) = sig
  by_cases hzero : sig = 0
  · have hem : e = 0 ∧ m = 0 := by
      split_ifs at hsig with he0
      · exact ⟨he0, hsig.trans hzero⟩
      · omega
    obtain ⟨rfl, rfl⟩ := hem
    rw [hzero]
    decide
  · have hlt : sig < 2 ^ 24 := by
      split_ifs at hsig
      · omega
      · omega
    have hlog : sig.log2 ≤ 23 := by
      have := (Nat.log2_lt hzero).mpr hlt
      omega
    have hlast : e - 1 + 925 = 925 ∨ sig.log2 = 23 := by
      by_cases he0 : e = 0
      · omega
      · rw [if_neg he0] at hsig
        exact Or.inr ((Nat.log2_eq_iff hzero).mpr ⟨by omega, hlt⟩)
    obtain ⟨hencode, hlow, hhigh⟩ := encode_binary64 (p := e - 1 + 925) hzero hlog (by omega) (by omega)
    have hsplit : (sig.log2 + (e - 1 + 925) - 52) * 2 ^ 52 + sig * 2 ^ (52 - sig.log2) =
        (sig.log2 + (e - 1 + 925) - 52 + 1) * 2 ^ 52 + (sig * 2 ^ (52 - sig.log2) - 2 ^ 52) := by omega
    rw [hencode, hsplit]
    refine (convertMagnitude_eq (f := binary64) (by change _ < 2 ^ 52; omega)).trans ?_
    refine (if_neg (show ¬ sig.log2 + (e - 1 + 925) - 52 + 1 = 2047 by omega)).trans ?_
    rw [if_neg (by omega)]
    rw [show binary64.base = 0 from rfl, show binary64.manBits = 52 from rfl, Nat.add_sub_cancel, Nat.add_zero,
      Nat.add_sub_cancel' hlow, encode_binary32 hzero hlog (by omega) (by omega) hlast]
    clear hwide hencode hlow hhigh hsplit hlast hlog hzero
    rw [Nat.add_sub_cancel, ← hsig]
    split_ifs with he0
    · rw [he0]
    · omega

theorem convertMagnitude_nan {m : Nat} (hm : m < 2 ^ 23) (hne : m ≠ 0) :
    convertMagnitude binary64 binary32 (convertMagnitude binary32 binary64 (255 * 2 ^ 23 + m)) =
      255 * 2 ^ 23 + (m ||| 2 ^ 22) := by
  have hpayload : m * 2 ^ 52 / 2 ^ 23 = m * 2 ^ 29 := by
    rw [show (2 : Nat) ^ 52 = 2 ^ 29 * 2 ^ 23 from rfl, ← Nat.mul_assoc, Nat.mul_div_cancel _ (Nat.two_pow_pos 23)]
  have hwide : convertMagnitude binary32 binary64 (255 * 2 ^ 23 + m) = 2047 * 2 ^ 52 + (m * 2 ^ 29 ||| 2 ^ 51) := by
    refine (convertMagnitude_eq (f := binary32) hm).trans ((if_pos rfl).trans ((if_neg hne).trans ?_))
    change 2047 * 2 ^ 52 + (m * 2 ^ 52 / 2 ^ 23 ||| 2 ^ 51) = _
    rw [hpayload]
  have hlt : m * 2 ^ 29 ||| 2 ^ 51 < 2 ^ 52 := Nat.or_lt_two_pow (by omega) (by decide)
  have hpos : m * 2 ^ 29 ||| 2 ^ 51 ≠ 0 := by
    have := Nat.right_le_or (n := m * 2 ^ 29) (m := 2 ^ 51)
    omega
  have hback : (m * 2 ^ 29 ||| 2 ^ 51) * 2 ^ 23 / 2 ^ 52 = m ||| 2 ^ 22 := by
    rw [show (2 : Nat) ^ 52 = 2 ^ 29 * 2 ^ 23 from rfl, Nat.mul_div_mul_right _ _ (Nat.two_pow_pos 23),
      ← Nat.shiftRight_eq_div_pow, Nat.shiftRight_or_distrib, Nat.shiftRight_eq_div_pow,
      Nat.mul_div_cancel _ (Nat.two_pow_pos 29)]
    rfl
  rw [hwide]
  refine (convertMagnitude_eq (f := binary64) hlt).trans ((if_pos rfl).trans ((if_neg hpos).trans ?_))
  change 255 * 2 ^ 23 + ((m * 2 ^ 29 ||| 2 ^ 51) * 2 ^ 23 / 2 ^ 52 ||| 2 ^ 22) = _
  rw [hback, Nat.or_assoc, Nat.or_self]

/-- Taken to 64 bits and back, a magnitude is what it was, up to the quiet bit of a NaN. -/
theorem convertMagnitude_back {x : Nat} (hx : x < 2 ^ 31) :
    convertMagnitude binary64 binary32 (convertMagnitude binary32 binary64 x) =
      if x / 2 ^ 23 = 255 ∧ x % 2 ^ 23 ≠ 0 then 255 * 2 ^ 23 + (x % 2 ^ 23 ||| 2 ^ 22) else x := by
  have hsplit : x / 2 ^ 23 * 2 ^ 23 + x % 2 ^ 23 = x := Nat.div_add_mod' x _
  have hm : x % 2 ^ 23 < 2 ^ 23 := Nat.mod_lt _ (by decide)
  by_cases he : x / 2 ^ 23 = 255
  · by_cases hne : x % 2 ^ 23 = 0
    · rw [if_neg fun h => h.2 hne, ← hsplit, he, hne]
      decide
    · rw [if_pos ⟨he, hne⟩, ← convertMagnitude_nan hm hne, ← he, hsplit]
  · rw [if_neg fun h => he h.1]
    have hfinite := convertMagnitude_finite (e := x / 2 ^ 23) (by omega) hm
    rwa [hsplit] at hfinite

theorem Format.encode_le (f : Format) (sig p : Nat) : f.encode sig p ≤ f.expMax * 2 ^ f.manBits := by
  unfold Format.encode
  split_ifs
  · exact Nat.zero_le _
  · exact Nat.min_le_left _ _

theorem convertMagnitude_lt (x : Nat) : convertMagnitude binary32 binary64 x < 2 ^ 63 := by
  have hm : x % 2 ^ 23 < 2 ^ 23 := Nat.mod_lt _ (by decide)
  have hsplit : x / 2 ^ 23 * 2 ^ 23 + x % 2 ^ 23 = x := Nat.div_add_mod' x _
  rw [← hsplit]
  refine (convertMagnitude_eq (f := binary32) (g := binary64) hm).trans_lt ?_
  split
  · split
    · decide
    · have hpayload : x % 2 ^ 23 * 2 ^ 52 / 2 ^ 23 ||| 2 ^ 51 < 2 ^ 52 := Nat.or_lt_two_pow (by omega) (by decide)
      change 2047 * 2 ^ 52 + (x % 2 ^ 23 * 2 ^ 52 / 2 ^ 23 ||| 2 ^ 51) < _
      omega
  · exact (Format.encode_le _ _ _).trans_lt (by decide)

theorem or_quiet_eq_self {m : Nat} (hm : m < 2 ^ 23) : m ||| 2 ^ 22 = m ↔ ¬ m < 2 ^ 22 := by
  constructor
  · intro h hlt
    have := Nat.right_le_or (n := m) (m := 2 ^ 22)
    omega
  · intro hge
    obtain ⟨low, rfl⟩ := Nat.exists_eq_add_of_le (Nat.le_of_not_lt hge)
    have hor : 2 ^ 22 + low = 2 ^ 22 ||| low := Nat.two_pow_add_eq_or_of_lt (i := 22) (by omega) 1
    rw [hor, Nat.or_comm, ← Nat.or_assoc, Nat.or_self]

/-- A 32-bit float taken to 64 bits and back is the same float, unless it is a signaling NaN. -/
theorem toF32_toF64 (x : BitVec 32) : toF32 (toF64 x) = x ↔ isSignaling x = false := by
  have hx := x.isLt
  have hlt := convertMagnitude_lt (x.toNat % 2 ^ 31)
  have hm : x.toNat % 2 ^ 31 % 2 ^ 23 < 2 ^ 23 := Nat.mod_lt _ (by decide)
  have hwide : (toF64 x).toNat =
      x.toNat / 2 ^ 31 * 2 ^ 63 + convertMagnitude binary32 binary64 (x.toNat % 2 ^ 31) := by
    rw [toF64, BitVec.toNat_ofNat, Nat.mod_eq_of_lt (by omega)]
  have hsign : (toF64 x).toNat / 2 ^ 63 = x.toNat / 2 ^ 31 := by omega
  have hmag : (toF64 x).toNat % 2 ^ 63 = convertMagnitude binary32 binary64 (x.toNat % 2 ^ 31) := by omega
  have hexp : x.toNat % 2 ^ 31 / 2 ^ 23 = x.toNat / 2 ^ 23 % 2 ^ 8 := by omega
  have hman : x.toNat % 2 ^ 31 % 2 ^ 23 = x.toNat % 2 ^ 23 := by omega
  rw [toF32, hsign, hmag, convertMagnitude_back (Nat.mod_lt _ (by decide)), ← BitVec.toNat_inj, BitVec.toNat_ofNat,
    hexp, hman]
  rw [hman] at hm
  have hquiet := or_quiet_eq_self hm
  have hor : x.toNat % 2 ^ 23 ||| 2 ^ 22 < 2 ^ 23 := Nat.or_lt_two_pow hm (by decide)
  simp only [isSignaling, Bool.and_eq_false_iff, bne_eq_false_iff_eq, beq_eq_false_iff_ne, decide_eq_false_iff_not]
  split_ifs with h
  · rw [Nat.mod_eq_of_lt (by omega)]
    omega
  · rw [Nat.mod_eq_of_lt (by omega)]
    omega

end Plexdb.Float
