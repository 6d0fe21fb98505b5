import Plexdb.Bytes

/-! The two checksums of the native protocol (`cql/crc/crc.cppm`): a table look-up for each byte, in
tables that eight steps of the polynomial division fill. -/

namespace Plexdb.Cql.Crc

/-! ### CRC-24, most significant bit first -/

def crc24Bit (c : UInt32) : UInt32 :=
  let c := c <<< 1
  if c &&& 0x1000000 ≠ 0 then c ^^^ 0x1974F0B else c

/-- `CRC24_TABLE`. -/
def crc24Entry (i : UInt32) : UInt32 := crc24Bit^[8] (i <<< 16) &&& 0xFFFFFF

def crc24Byte (c : UInt32) (b : UInt8) : UInt32 :=
  crc24Entry (((c >>> 16) ^^^ b.toUInt32) &&& 0xFF) ^^^ ((c <<< 8) &&& 0xFFFFFF)

def crc24 (data : Bytes) : UInt32 := data.foldl crc24Byte 0x875060

/-! ### CRC-32, least significant bit first -/

def crc32Bit (c : UInt32) : UInt32 :=
  if c &&& 1 ≠ 0 then (c >>> 1) ^^^ 0xEDB88320 else c >>> 1

/-- `CRC32_TABLE`. -/
def crc32Entry (i : UInt32) : UInt32 := crc32Bit^[8] i

def crc32Byte (c : UInt32) (b : UInt8) : UInt32 := crc32Entry ((c ^^^ b.toUInt32) &&& 0xFF) ^^^ (c >>> 8)

def crc32 (data : Bytes) (init : UInt32) : UInt32 := data.foldl crc32Byte init ^^^ 0xFFFFFFFF

/-- The seed of a payload checksum. -/
def crc32CqlV5Init : UInt32 := 0xBB88812C

/-! ### Three bytes hold a CRC-24 -/

theorem toNat_and_mask_lt (x : UInt32) : (x &&& 0xFFFFFF).toNat < 2 ^ 24 := by
  rw [UInt32.toNat_and]
  exact Nat.lt_of_le_of_lt Nat.and_le_right (by decide)

theorem crc24Byte_lt (c : UInt32) (b : UInt8) : (crc24Byte c b).toNat < 2 ^ 24 := by
  rw [crc24Byte, UInt32.toNat_xor]
  exact Nat.xor_lt_two_pow (toNat_and_mask_lt _) (toNat_and_mask_lt _)

theorem crc24_lt (data : Bytes) : (crc24 data).toNat < 2 ^ 24 := by
  induction data using List.reverseRecOn with
  | nil => decide
  | append_singleton data b _ =>
      rw [crc24, List.foldl_append]
      exact crc24Byte_lt _ b

example : crc24 (ascii "123456789") = 0x4B3F02 ∧ crc32 (ascii "123456789") 0xFFFFFFFF = 0xCBF43926 := by
  decide +kernel

end Plexdb.Cql.Crc
