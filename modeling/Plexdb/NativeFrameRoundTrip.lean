import Plexdb.ListUpdates
import Plexdb.NativeFrames

/-! What `send_v5_outer_frames` sends is received again, exactly when every compressed payload fits
the 17 bits that a header has for its length. -/

namespace Plexdb.Cql.Native

open Wire

/-! ### Packed fields -/

theorem lor_shiftLeft {a n : Nat} (h : a < 2 ^ n) (b : Nat) : a ||| b <<< n = a + b * 2 ^ n := by
  rw [Nat.or_comm, ← Nat.shiftLeft_add_eq_or_of_lt h, Nat.shiftLeft_eq, Nat.add_comm]

theorem toNat_ofNat_byte (n : Nat) : (UInt8.ofNat n).toNat = n % 256 := by simp

/-- A header keeps the low 17 bits of each length. -/
theorem readHeader_uncompressed (h : OuterHeader) (rest : Bytes) :
    readHeader false (headerBits false h ++ rest) = ⟨h.payloadLen % 2 ^ 17, 0, h.selfContained⟩ := by
  obtain ⟨c, u, sc⟩ := h
  have hand (x : Nat) : x &&& 1 = x % 2 := Nat.and_one_is_mod x
  have hflag : sc.toNat < 2 := sc.toNat_lt
  simp only [readHeader, headerBits, Bool.false_eq_true, if_false, List.cons_append, List.getD_cons_zero,
    List.getD_cons_succ, toNat_ofNat_byte, hand, Nat.shiftRight_eq_div_pow]
  rw [lor_shiftLeft (show c / 2 ^ 16 % 2 < 2 ^ 1 by omega), lor_shiftLeft (show c % 256 < 2 ^ 8 by omega),
    lor_shiftLeft (by omega)]
  refine OuterHeader.mk.injEq .. ▸ ⟨by omega, rfl, ?_⟩
  rw [show (c / 2 ^ 16 % 2 + sc.toNat * 2 ^ 1) % 256 / 2 ^ 1 % 2 = sc.toNat by omega]
  cases sc <;> rfl

theorem readHeader_compressed (h : OuterHeader) (rest : Bytes) :
    readHeader true (headerBits true h ++ rest) =
      ⟨h.payloadLen % 2 ^ 17, h.uncompLen % 2 ^ 17, h.selfContained⟩ := by
  obtain ⟨c, u, sc⟩ := h
  have hand (x : Nat) : x &&& 1 = x % 2 := Nat.and_one_is_mod x
  have hand3 (x : Nat) : x &&& 3 = x % 4 := Nat.and_two_pow_sub_one_eq_mod x 2
  have hand7F (x : Nat) : x &&& 0x7F = x % 128 := Nat.and_two_pow_sub_one_eq_mod x 7
  have hflag : sc.toNat < 2 := sc.toNat_lt
  simp only [readHeader, headerBits, if_true, List.cons_append, List.getD_cons_zero,
    List.getD_cons_succ, toNat_ofNat_byte, hand, hand3, hand7F, Nat.shiftRight_eq_div_pow]
  rw [lor_shiftLeft (show c / 2 ^ 16 % 2 < 2 ^ 1 by omega), lor_shiftLeft (show c % 256 < 2 ^ 8 by omega),
    lor_shiftLeft (show u / 2 ^ 15 % 4 < 2 ^ 2 by omega),
    lor_shiftLeft (show (c / 2 ^ 16 % 2 + u % 128 * 2 ^ 1) % 256 / 2 ^ 1 % 128 < 2 ^ 7 by omega),
    lor_shiftLeft (by omega), lor_shiftLeft (by omega)]
  refine OuterHeader.mk.injEq .. ▸ ⟨by omega, by omega, ?_⟩
  rw [show (u / 2 ^ 15 % 4 + sc.toNat * 2 ^ 2) % 256 / 2 ^ 2 % 2 = sc.toNat by omega]
  cases sc <;> rfl

/-- What a header keeps. -/
def OuterHeader.stored (compressed : Bool) (h : OuterHeader) : OuterHeader :=
  ⟨h.payloadLen % 2 ^ 17, if compressed then h.uncompLen % 2 ^ 17 else 0, h.selfContained⟩

theorem readHeader_headerBits (compressed : Bool) (h : OuterHeader) (rest : Bytes) :
    readHeader compressed (headerBits compressed h ++ rest) = h.stored compressed := by
  cases compressed with
  | false => exact readHeader_uncompressed h rest
  | true => exact readHeader_compressed h rest

theorem length_headerBits (compressed : Bool) (h : OuterHeader) :
    (headerBits compressed h).length = v5HdrByteCount compressed := by
  cases compressed <;> rfl

/-! ### One frame -/

theorem length_frameBytes (compressed : Bool) (h : OuterHeader) (payload : Bytes) :
    (frameBytes compressed h payload).length =
      v5HdrByteCount compressed + v5HdrCrc24ByteCount + (payload.length + v5PayloadCrc32ByteCount) := by
  simp only [frameBytes, List.length_append, length_headerBits, length_leBytes, v5HdrCrc24ByteCount,
    v5PayloadCrc32ByteCount]
  omega

theorem readHeader_frameBytes (compressed : Bool) (h : OuterHeader) (payload : Bytes) :
    readHeader compressed (frameBytes compressed h payload) = h.stored compressed := by
  rw [frameBytes, List.append_assoc, List.append_assoc, readHeader_headerBits]

/-- The header of a frame passes its checksum and is what is left of the lengths. -/
theorem outerFrameOf_frameBytes (lz4 : Lz4) (compressed : Bool) (h : OuterHeader) (payload rest : Bytes) :
    outerFrameOf lz4 compressed (frameBytes compressed h payload ++ rest) =
      payloadOf lz4 compressed (h.stored compressed)
        (payload ++ (leBytes 4 (Crc.crc32 payload Crc.crc32CqlV5Init).toNat ++ rest)) := by
  have hbits := length_headerBits compressed h
  have hcrc : (leBytes 3 (Crc.crc24 (headerBits compressed h)).toNat).length = v5HdrCrc24ByteCount :=
    length_leBytes 3 _
  have hlong : ¬ (frameBytes compressed h payload ++ rest).length <
      v5HdrByteCount compressed + v5HdrCrc24ByteCount := by
    rw [List.length_append, length_frameBytes]
    omega
  rw [outerFrameOf, if_neg hlong, frameBytes, List.append_assoc, List.append_assoc, List.append_assoc,
    readHeader_headerBits, List.take_left' hbits, ← List.drop_drop, List.drop_left' hbits, List.take_left' hcrc,
    List.drop_left' hcrc, leValue_leBytes 3 _ (Crc.crc24_lt _), if_neg (not_not.mpr rfl)]

/-- A payload whose length the header has passes its checksum and is unpacked. -/
theorem payloadOf_append (lz4 : Lz4) (compressed : Bool) {h : OuterHeader} {payload : Bytes}
    (hlen : h.payloadLen = payload.length) (rest : Bytes) :
    payloadOf lz4 compressed h
        (payload ++ (leBytes 4 (Crc.crc32 payload Crc.crc32CqlV5Init).toNat ++ rest)) =
      (unpack lz4 compressed h payload).map fun chunk => (chunk, h.selfContained, rest) := by
  have hcrc : (leBytes 4 (Crc.crc32 payload Crc.crc32CqlV5Init).toNat).length = v5PayloadCrc32ByteCount :=
    length_leBytes 4 _
  have hlong : ¬ (payload ++ (leBytes 4 (Crc.crc32 payload Crc.crc32CqlV5Init).toNat ++ rest)).length <
      payload.length + v5PayloadCrc32ByteCount := by
    rw [List.length_append, List.length_append, hcrc]
    omega
  rw [payloadOf, hlen, if_neg hlong, List.take_left' rfl, ← List.drop_drop, List.drop_left' rfl,
    List.take_left' hcrc, List.drop_left' hcrc, leValue_leBytes 4 _ (UInt32.toNat_lt _), if_neg (not_not.mpr rfl)]
  cases unpack lz4 compressed h payload <;> rfl

/-- The length of a chunk's payload fits the header. -/
def FitsHeader (lz4 : Lz4) (compressed : Bool) (chunk : Bytes) : Prop :=
  compressed = true → (lz4.compress chunk).length ≤ v5MaxPayloadByteCount

/-- A frame is received as it was sent. -/
theorem outerFrameOf_outerFrame {lz4 : Lz4} (hlz4 : lz4.Lawful) {compressed : Bool} {chunk : Bytes}
    (hchunk : chunk.length ≤ v5MaxPayloadByteCount) (hfits : FitsHeader lz4 compressed chunk) (selfContained : Bool) :
    ∃ frame, outerFrame lz4 compressed chunk selfContained = some frame ∧
      ∀ rest, outerFrameOf lz4 compressed (frame ++ rest) = some (chunk, selfContained, rest) := by
  have hmod {n : Nat} (hn : n ≤ v5MaxPayloadByteCount) : n % 2 ^ 17 = n :=
    Nat.mod_eq_of_lt (by rw [v5MaxPayloadByteCount] at hn; omega)
  cases compressed with
  | false =>
      have hlen : (OuterHeader.stored false ⟨chunk.length, 0, selfContained⟩).payloadLen = chunk.length := hmod hchunk
      refine ⟨frameBytes false ⟨chunk.length, 0, selfContained⟩ chunk, rfl, fun rest => ?_⟩
      rw [outerFrameOf_frameBytes, payloadOf_append lz4 false hlen]
      rfl
  | true =>
      have hpos := hlz4.compress_pos chunk
      have hlen : (OuterHeader.stored true ⟨(lz4.compress chunk).length, chunk.length, selfContained⟩).payloadLen =
          (lz4.compress chunk).length := hmod (hfits rfl)
      refine ⟨frameBytes true ⟨(lz4.compress chunk).length, chunk.length, selfContained⟩ (lz4.compress chunk), ?_,
        fun rest => ?_⟩
      · rw [outerFrame, if_pos rfl]
        dsimp only
        rw [if_neg (by omega)]
      · rw [outerFrameOf_frameBytes, payloadOf_append lz4 true hlen, unpack, if_pos rfl, OuterHeader.stored,
          if_pos rfl, hmod hchunk, hlz4.decompress_compress]
        simp

/-! ### The message -/

theorem outerChunks_of_le {data : Bytes} (h : data.length ≤ v5MaxPayloadByteCount) :
    outerChunks data = [(data, true)] := by
  rw [outerChunks, if_pos h]

theorem outerChunks_of_lt {data : Bytes} (h : ¬ data.length ≤ v5MaxPayloadByteCount) :
    outerChunks data = (data.take v5MaxPayloadByteCount, false) :: outerChunks (data.drop v5MaxPayloadByteCount) := by
  rw [outerChunks, if_neg h]

/-- The frames of a message are received one by one, and assembled to the message. -/
theorem messageOf_sendV5OuterFrames {lz4 : Lz4} (hlz4 : lz4.Lawful) {compressed : Bool} {data : Bytes}
    (hfits : ∀ c ∈ outerChunks data, FitsHeader lz4 compressed c.1) :
    ∃ frames, sendV5OuterFrames lz4 compressed data = some frames ∧
      (∀ frame ∈ frames, ∃ chunk selfContained, ∀ rest,
        outerFrameOf lz4 compressed (frame ++ rest) = some (chunk, selfContained, rest)) ∧
      ∀ envelopeBuf rest,
        messageOf lz4 compressed envelopeBuf (frames.flatten ++ rest) = some (envelopeBuf ++ data, rest) := by
  induction data using outerChunks.induct with
  | case1 data hle =>
      rw [outerChunks_of_le hle] at hfits
      obtain ⟨frame, hframe, hread⟩ := outerFrameOf_outerFrame hlz4 hle (hfits _ List.mem_cons_self) true
      refine ⟨[frame], ?_, List.forall_mem_singleton.mpr ⟨data, true, hread⟩, fun envelopeBuf rest => ?_⟩
      · rw [sendV5OuterFrames, outerChunks_of_le hle]
        simp [hframe]
      · rw [List.flatten_singleton, messageOf_last (hread rest)]
  | case2 data hlt ih =>
      rw [outerChunks_of_lt hlt] at hfits
      obtain ⟨hfirst, hothers⟩ := List.forall_mem_cons.mp hfits
      obtain ⟨frame, hframe, hread⟩ := outerFrameOf_outerFrame hlz4 (List.length_take_le _ _) hfirst false
      obtain ⟨frames, hframes, hreads, hmessage⟩ := ih hothers
      refine ⟨frame :: frames, ?_, List.forall_mem_cons.mpr ⟨⟨_, _, hread⟩, hreads⟩, fun envelopeBuf rest => ?_⟩
      · rw [sendV5OuterFrames] at hframes ⊢
        rw [outerChunks_of_lt hlt, List.mapM_cons, hframe, hframes]
        rfl
      · rw [List.flatten_cons, List.append_assoc, messageOf_more (hread _), hmessage, List.append_assoc,
          List.take_append_drop]

/-- Sending completes, every frame passes both checksums and is read as the one frame it is, and the
receive loop assembles the message and leaves what follows it, however the bytes arrive. -/
def RoundTrips (lz4 : Lz4) (compressed : Bool) (data : Bytes) : Prop :=
  ∃ frames, sendV5OuterFrames lz4 compressed data = some frames ∧
    (∀ frame ∈ frames, ∀ s rest, s.bytes = frame ++ rest →
      ∃ chunk selfContained s', readOuterFrame lz4 compressed s = some (chunk, selfContained, s') ∧ s'.bytes = rest) ∧
    ∀ s rest, s.bytes = frames.flatten ++ rest →
      ∃ s', readMessage lz4 compressed [] s = some (data, s') ∧ s'.bytes = rest

theorem roundTrips_of_fits {lz4 : Lz4} (hlz4 : lz4.Lawful) {compressed : Bool} {data : Bytes}
    (hfits : ∀ c ∈ outerChunks data, FitsHeader lz4 compressed c.1) : RoundTrips lz4 compressed data := by
  obtain ⟨frames, hframes, hread, hmessage⟩ := messageOf_sendV5OuterFrames hlz4 hfits
  refine ⟨frames, hframes, fun frame hframe s rest hs => ?_, fun s rest hs => ?_⟩
  · obtain ⟨chunk, selfContained, hflat⟩ := hread frame hframe
    have heq := readOuterFrame_eq lz4 compressed s
    rw [hs, hflat rest] at heq
    obtain ⟨⟨chunk', selfContained', s'⟩, hframed, hsame⟩ := Option.map_eq_some_iff.mp heq
    exact ⟨chunk', selfContained', s', hframed, congrArg (·.2.2) hsame⟩
  · have heq := readMessage_eq lz4 compressed [] s
    rw [hs, hmessage, List.nil_append] at heq
    obtain ⟨⟨data', s'⟩, hread, hsame⟩ := Option.map_eq_some_iff.mp heq
    obtain ⟨rfl, hrest⟩ := Prod.mk.inj hsame
    exact ⟨s', hread, hrest⟩

/-- A frame whose payload does not fit the header is not read as one frame. -/
theorem fitsHeader_of_roundTrips {lz4 : Lz4} {compressed : Bool} {data : Bytes}
    (h : RoundTrips lz4 compressed data) : ∀ c ∈ outerChunks data, FitsHeader lz4 compressed c.1 := by
  obtain ⟨frames, hframes, hread, -⟩ := h
  rintro ⟨chunk, selfContained⟩ hc rfl
  obtain ⟨frame, hmem, hframe⟩ := exists_of_mapM hframes hc
  obtain ⟨chunk', selfContained', s', hread', hrest⟩ := hread frame hmem ⟨frame, []⟩ [] rfl
  have hlength := length_of_outerFrameOf (flat_of_readOuterFrame hread')
  rw [outerFrame, if_pos rfl] at hframe
  dsimp only at hframe
  split_ifs at hframe
  rw [hrest, Stream.bytes, List.flatten_nil, List.append_nil, ← Option.some.inj hframe, readHeader_frameBytes,
    length_frameBytes] at hlength
  have := Nat.mod_lt (lz4.compress chunk).length (show 2 ^ 17 > 0 by decide)
  simp only [OuterHeader.stored, List.length_nil] at hlength
  show (lz4.compress chunk).length ≤ 131071
  omega

/-- A message makes the round trip exactly when the compressed size of each of its chunks, if they are
compressed, is one that 17 bits can hold. -/
theorem v5_outer_frames_round_trip {lz4 : Lz4} (hlz4 : lz4.Lawful) (compressed : Bool) (data : Bytes) :
    RoundTrips lz4 compressed data ↔
      (compressed = true → ∀ c ∈ outerChunks data, (lz4.compress c.1).length ≤ v5MaxPayloadByteCount) :=
  ⟨fun h hcompressed c hc => fitsHeader_of_roundTrips h c hc hcompressed,
    fun h => roundTrips_of_fits hlz4 fun c hc hcompressed => h hcompressed c hc⟩

/-! ### Incompressible data -/

/-- The length bytes of an LZ4 sequence. -/
def lengthBytes (n : Nat) : Bytes := List.replicate (n / 255) 255 ++ [UInt8.ofNat (n % 255)]

def readLengthBytes : Bytes → Option (Nat × Bytes)
  | [] => none
  | b :: p => if b = 255 then (readLengthBytes p).map fun (n, p) => (n + 255, p) else some (b.toNat, p)

/-- The LZ4 block of data without a repetition: one sequence, all of it literals. -/
def literalBlock (x : Bytes) : Bytes :=
  if x.length < 15 then UInt8.ofNat (x.length * 16) :: x
  else 0xF0 :: (lengthBytes (x.length - 15) ++ x)

def readLiteralBlock : Bytes → Nat → Option Bytes
  | [], _ => none
  | token :: p, maxLen => do
      let (n, p) ←
        if token.toNat / 16 < 15 then some (token.toNat / 16, p)
        else (readLengthBytes p).map fun (n, p) => (n + 15, p)
      if p.length = n ∧ n ≤ maxLen then some p else none

/-- What LZ4 does on data that it finds nothing to compress in. -/
def literalLz4 : Lz4 := ⟨literalBlock, readLiteralBlock, fun n => n + n / 255 + 16⟩

theorem readLengthBytes_append (n : Nat) (p : Bytes) : readLengthBytes (lengthBytes n ++ p) = some (n, p) := by
  have hlast : UInt8.ofNat (n % 255) ≠ 255 := by
    intro h
    have := congrArg UInt8.toNat h
    rw [toNat_ofNat_byte] at this
    simp only [UInt8.reduceToNat] at this
    omega
  have hrun (k : Nat) : readLengthBytes (List.replicate k 255 ++ [UInt8.ofNat (n % 255)] ++ p) =
      some (k * 255 + n % 255, p) := by
    induction k with
    | zero =>
        rw [List.replicate_zero, List.nil_append, List.singleton_append, readLengthBytes, if_neg hlast,
          toNat_ofNat_byte, Nat.zero_mul, Nat.zero_add, Nat.mod_eq_of_lt (by omega)]
    | succ k ih =>
        rw [List.replicate_succ, List.cons_append, List.cons_append, readLengthBytes,
          if_pos (show (255 : UInt8) = 255 from rfl), ih, Option.map_some]
        simp only [Option.some.injEq, Prod.mk.injEq, and_true]
        omega
  rw [lengthBytes, hrun, Nat.mul_comm, Nat.div_add_mod]

theorem length_literalBlock (x : Bytes) :
    (literalBlock x).length = if x.length < 15 then x.length + 1 else x.length + (x.length - 15) / 255 + 2 := by
  rw [literalBlock]
  split_ifs
  · rfl
  · simp only [List.length_cons, lengthBytes, List.length_append, List.length_replicate, List.length_nil]
    omega

theorem readLiteralBlock_literalBlock (x : Bytes) : readLiteralBlock (literalBlock x) x.length = some x := by
  rw [literalBlock]
  split_ifs with hshort
  · have htoken : (UInt8.ofNat (x.length * 16)).toNat / 16 = x.length := by
      rw [toNat_ofNat_byte]
      omega
    rw [readLiteralBlock, htoken, if_pos hshort]
    simp
  · have hlength : x.length - 15 + 15 = x.length := by omega
    rw [readLiteralBlock, if_neg (by decide), readLengthBytes_append]
    simp [hlength]

theorem literalLz4_lawful : literalLz4.Lawful where
  compress_pos x := by
    show 0 < (literalBlock x).length
    rw [length_literalBlock]
    split_ifs <;> omega
  compress_le x := by
    show (literalBlock x).length ≤ x.length + x.length / 255 + 16
    rw [length_literalBlock]
    split_ifs <;> omega
  decompress_compress := readLiteralBlock_literalBlock

/-- Bytes in which hardly any four repeat. -/
def noise (n : Nat) : Bytes := (List.range n).map fun i => UInt8.ofNat (i ^ 3 * 2654435761 / 2 ^ 24)

theorem v5_outer_frames_round_trip_short : RoundTrips literalLz4 true (ascii "abc") :=
  (v5_outer_frames_round_trip literalLz4_lawful true (ascii "abc")).mpr fun _ => by
    rw [outerChunks_of_le (by decide)]
    decide

theorem not_roundTrips_literalLz4 {data : Bytes} (h : data.length = v5MaxPayloadByteCount) :
    ¬ RoundTrips literalLz4 true data := by
  intro hround
  have hfits := fitsHeader_of_roundTrips hround
  rw [outerChunks_of_le (le_of_eq h), List.forall_mem_singleton] at hfits
  have hshort : (literalBlock data).length ≤ v5MaxPayloadByteCount := hfits rfl
  rw [length_literalBlock, h, v5MaxPayloadByteCount, if_neg (by decide)] at hshort
  omega

/-- A full chunk of incompressible bytes is sent in a frame that cannot be received. -/
theorem incompressible_chunk_is_lost :
    ∃ lz4 : Lz4, lz4.Lawful ∧ ∃ data, data.length = v5MaxPayloadByteCount ∧ ¬ RoundTrips lz4 true data := by
  have hlength : (noise v5MaxPayloadByteCount).length = v5MaxPayloadByteCount := by
    rw [noise, List.length_map, List.length_range]
  exact ⟨literalLz4, literalLz4_lawful, noise v5MaxPayloadByteCount, hlength, not_roundTrips_literalLz4 hlength⟩

end Plexdb.Cql.Native
