import Plexdb.ColumnOrder

/-! Time-based UUIDs (`cql/engine/evaluator.cpp`): a 60-bit count of 100 ns ticks, scattered over the first eight
bytes, with a version and a variant. An `S64` and a `U64` are the same word. -/

namespace Plexdb.Cql.Timeuuid

/-! ### Timestamps -/

def uuidEpochOffset100ns : UInt64 := 122192928000000000

def unixMsToUuidTimestamp100ns (unixMs : BitVec 64) : UInt64 :=
  UInt64.ofBitVec unixMs * 10000 + uuidEpochOffset100ns

/-- The quotient is rounded towards zero. -/
def uuidTimestamp100nsToUnixMs (ts : UInt64) : BitVec 64 :=
  (ts.toBitVec - uuidEpochOffset100ns.toBitVec).sdiv 10000

def makeTimeuuidFromTs100ns (timestamp : UInt64) (clockSeq : UInt16) (node : Raw 6) : Raw 16 :=
  ⟨[((timestamp >>> 24) &&& 0xff).toUInt8, ((timestamp >>> 16) &&& 0xff).toUInt8,
    ((timestamp >>> 8) &&& 0xff).toUInt8, (timestamp &&& 0xff).toUInt8,
    ((timestamp >>> 40) &&& 0xff).toUInt8, ((timestamp >>> 32) &&& 0xff).toUInt8,
    (0x10 : UInt8) ||| ((timestamp >>> 56) &&& 0x0f).toUInt8, ((timestamp >>> 48) &&& 0xff).toUInt8,
    (0x80 : UInt8) ||| ((clockSeq >>> 8) &&& 0x3f).toUInt8, (clockSeq &&& 0xff).toUInt8] ++ node.val,
    by rw [List.length_append, node.property]; rfl⟩

def makeTimeuuidFromUnixMs (unixMs : BitVec 64) (clockSeq : UInt16) (node : Raw 6) : Raw 16 :=
  makeTimeuuidFromTs100ns (unixMsToUuidTimestamp100ns unixMs) clockSeq node

def uuidByte (uuid : Raw 16) (i : Nat) : UInt8 := uuid.val.getD i 0

/-- The timestamp that `timeuuid_to_unix_ms` collects. -/
def collectTimestamp (uuid : Raw 16) : UInt64 :=
  (0 : UInt64) ||| (uuidByte uuid 0).toUInt64 <<< 24 ||| (uuidByte uuid 1).toUInt64 <<< 16 |||
    (uuidByte uuid 2).toUInt64 <<< 8 ||| (uuidByte uuid 3).toUInt64 ||| (uuidByte uuid 4).toUInt64 <<< 40 |||
    (uuidByte uuid 5).toUInt64 <<< 32 ||| (uuidByte uuid 6 &&& 0x0f).toUInt64 <<< 56 |||
    (uuidByte uuid 7).toUInt64 <<< 48

def timeuuidToUnixMs (uuid : Raw 16) : BitVec 64 := uuidTimestamp100nsToUnixMs (collectTimestamp uuid)

/-! ### Functions -/

def minTimeuuid (unixMs : BitVec 64) : Raw 16 := makeTimeuuidFromUnixMs unixMs 0 ⟨List.replicate 6 0, rfl⟩

def maxTimeuuid (unixMs : BitVec 64) : Raw 16 := makeTimeuuidFromUnixMs unixMs 0x3fff ⟨List.replicate 6 0xff, rfl⟩

/-- What `now_timeuuid` reads: the node, the entropy of the clock sequence, and the clock. -/
structure NowInput where
  node : Raw 6
  csEntropy : UInt8 × UInt8
  unixMsNow : BitVec 64

/-- The timestamp of the next call, after one with the timestamp `last`. -/
def nextTimestamp (last : UInt64) (unixMsNow : BitVec 64) : UInt64 :=
  let ts := unixMsToUuidTimestamp100ns unixMsNow
  if ts ≤ last then last + 1 else ts

/-- The UUID, and the new value of `last_ts_100ns`. -/
def nowTimeuuid (last : UInt64) (input : NowInput) : Raw 16 × UInt64 :=
  let clockSeq := (input.csEntropy.1.toUInt16 ||| input.csEntropy.2.toUInt16 <<< 8) &&& 0x3fff
  let ts := nextTimestamp last input.unixMsNow
  (makeTimeuuidFromTs100ns ts clockSeq input.node, ts)

/-- The values of successive calls. -/
def nowRun (last : UInt64) : List NowInput → List (Raw 16)
  | [] => []
  | input :: inputs => (nowTimeuuid last input).1 :: nowRun (nowTimeuuid last input).2 inputs

/-! ### The collected timestamp -/

theorem toNat_low_byte (x : UInt64) : (x &&& 0xff).toUInt8.toNat = x.toNat % 256 := by
  rw [UInt64.toNat_toUInt8, UInt64.toNat_and]
  have hmask : x.toNat &&& (0xff : UInt64).toNat = x.toNat % 2 ^ 8 := Nat.and_two_pow_sub_one_eq_mod _ 8
  rw [hmask]
  omega

theorem toNat_low_nibble (x : UInt64) : (x &&& 0x0f).toUInt8.toNat = x.toNat % 16 := by
  rw [UInt64.toNat_toUInt8, UInt64.toNat_and]
  have hmask : x.toNat &&& (0x0f : UInt64).toNat = x.toNat % 2 ^ 4 := Nat.and_two_pow_sub_one_eq_mod _ 4
  rw [hmask]
  omega

theorem toNat_shiftRight (x : UInt64) {k : UInt64} (hk : k.toNat < 64) :
    (x >>> k).toNat = x.toNat / 2 ^ k.toNat := by
  rw [UInt64.toNat_shiftRight, Nat.mod_eq_of_lt hk, Nat.shiftRight_eq_div_pow]

theorem toNat_byte_shiftLeft (b : UInt8) (k : UInt64) (hk : k.toNat ≤ 56) :
    (b.toUInt64 <<< k).toNat = b.toNat * 2 ^ k.toNat := by
  have hb := b.toNat_lt
  have hlt : b.toNat * 2 ^ k.toNat < 2 ^ 64 := by
    calc b.toNat * 2 ^ k.toNat < 2 ^ 8 * 2 ^ k.toNat := Nat.mul_lt_mul_of_pos_right hb (Nat.two_pow_pos _)
      _ = 2 ^ (8 + k.toNat) := (Nat.pow_add 2 8 _).symm
      _ ≤ 2 ^ 64 := Nat.pow_le_pow_right (by decide) (by omega)
  rw [UInt64.toNat_shiftLeft, UInt8.toNat_toUInt64, Nat.mod_eq_of_lt (by omega : k.toNat < 64), Nat.shiftLeft_eq,
    Nat.mod_eq_of_lt hlt]

/-- Both readers of a UUID collect the same timestamp. -/
theorem collectTimestamp_toNat (u : Raw 16) : (collectTimestamp u).toNat = timeuuidTimestamp u := by
  have hb := byteAt_lt u
  have h0 := hb 0
  have h1 := hb 1
  have h2 := hb 2
  have h3 := hb 3
  have h4 := hb 4
  have h5 := hb 5
  have h6 := hb 6
  have h7 := hb 7
  have hnibble : (uuidByte u 6 &&& 0x0f).toNat = byteAt u 6 % 16 := by
    rw [UInt8.toNat_and]
    exact Nat.and_two_pow_sub_one_eq_mod _ 4
  have hsum : (collectTimestamp u).toNat =
      byteAt u 6 % 16 * 2 ^ 56 ||| byteAt u 7 * 2 ^ 48 ||| byteAt u 4 * 2 ^ 40 ||| byteAt u 5 * 2 ^ 32 |||
      byteAt u 0 * 2 ^ 24 ||| byteAt u 1 * 2 ^ 16 ||| byteAt u 2 * 2 ^ 8 ||| byteAt u 3 := by
    simp only [collectTimestamp, UInt64.toNat_or]
    rw [toNat_byte_shiftLeft _ 24 (by decide), toNat_byte_shiftLeft _ 16 (by decide),
      toNat_byte_shiftLeft _ 8 (by decide), toNat_byte_shiftLeft _ 40 (by decide),
      toNat_byte_shiftLeft _ 32 (by decide), toNat_byte_shiftLeft _ 56 (by decide),
      toNat_byte_shiftLeft _ 48 (by decide), UInt8.toNat_toUInt64, hnibble]
    change 0 ||| byteAt u 0 * 2 ^ 24 ||| byteAt u 1 * 2 ^ 16 ||| byteAt u 2 * 2 ^ 8 ||| byteAt u 3 |||
      byteAt u 4 * 2 ^ 40 ||| byteAt u 5 * 2 ^ 32 ||| byteAt u 6 % 16 * 2 ^ 56 ||| byteAt u 7 * 2 ^ 48 = _
    rw [Nat.zero_or]
    ac_rfl
  rw [hsum, timeuuidTimestamp_eq, @lor_of_dvd _ (byteAt u 7 * 2 ^ 48) 56 (by omega) (by omega),
    @lor_of_dvd _ (byteAt u 4 * 2 ^ 40) 48 (by omega) (by omega),
    @lor_of_dvd _ (byteAt u 5 * 2 ^ 32) 40 (by omega) (by omega),
    @lor_of_dvd _ (byteAt u 0 * 2 ^ 24) 32 (by omega) (by omega),
    @lor_of_dvd _ (byteAt u 1 * 2 ^ 16) 24 (by omega) (by omega),
    @lor_of_dvd _ (byteAt u 2 * 2 ^ 8) 16 (by omega) (by omega),
    @lor_of_dvd _ (byteAt u 3) 8 (by omega) (by omega)]
  omega

theorem timeuuidTimestamp_lt (u : Raw 16) : timeuuidTimestamp u < 2 ^ 60 := by
  have hb := byteAt_lt u
  have h0 := hb 0
  have h1 := hb 1
  have h2 := hb 2
  have h3 := hb 3
  have h4 := hb 4
  have h5 := hb 5
  have h7 := hb 7
  rw [timeuuidTimestamp_eq]
  omega

/-- A UUID holds the low 60 bits of the timestamp it is made of. -/
theorem timeuuidTimestamp_make (ts : UInt64) (clockSeq : UInt16) (node : Raw 6) :
    timeuuidTimestamp (makeTimeuuidFromTs100ns ts clockSeq node) = ts.toNat % 2 ^ 60 := by
  have h6 : byteAt (makeTimeuuidFromTs100ns ts clockSeq node) 6 % 16 = ts.toNat / 2 ^ 56 % 16 := by
    change ((0x10 : UInt8) ||| ((ts >>> 56) &&& 0x0f).toUInt8).toNat % 16 = _
    rw [UInt8.toNat_or, toNat_low_nibble, toNat_shiftRight ts (by decide)]
    have hor : (0x10 : UInt8).toNat ||| (ts.toNat / 2 ^ 56 % 16) = 16 + ts.toNat / 2 ^ 56 % 16 :=
      @lor_of_dvd 16 _ 4 (by decide) (by omega)
    change ((0x10 : UInt8).toNat ||| (ts.toNat / 2 ^ 56 % 16)) % 16 = _
    rw [hor]
    omega
  have hbyte : ∀ (i : Nat) (k : UInt64), k.toNat < 64 →
      byteAt (makeTimeuuidFromTs100ns ts clockSeq node) i = ((ts >>> k) &&& 0xff).toUInt8.toNat →
        byteAt (makeTimeuuidFromTs100ns ts clockSeq node) i = ts.toNat / 2 ^ k.toNat % 256 := by
    intro i k hk h
    rw [h, toNat_low_byte, toNat_shiftRight ts hk]
  rw [timeuuidTimestamp_eq, h6, hbyte 7 48 (by decide) rfl, hbyte 4 40 (by decide) rfl, hbyte 5 32 (by decide) rfl,
    hbyte 0 24 (by decide) rfl, hbyte 1 16 (by decide) rfl, hbyte 2 8 (by decide) rfl]
  have h3 : byteAt (makeTimeuuidFromTs100ns ts clockSeq node) 3 = ts.toNat % 256 := toNat_low_byte ts
  rw [h3]
  change (ts.toNat / 2 ^ 56 % 16 * 256 + ts.toNat / 2 ^ 48 % 256) * 2 ^ 48 +
    (ts.toNat / 2 ^ 40 % 256 * 256 + ts.toNat / 2 ^ 32 % 256) * 2 ^ 32 +
    (ts.toNat / 2 ^ 24 % 256 * 2 ^ 24 + ts.toNat / 2 ^ 16 % 256 * 2 ^ 16 + ts.toNat / 2 ^ 8 % 256 * 2 ^ 8 +
      ts.toNat % 256) = _
  omega

end Plexdb.Cql.Timeuuid
