import Plexdb.Crc
import Plexdb.NativeStream
import Plexdb.Wire

/-! The outer frames of protocol version 5: `send_v5_outer_frames` and the receive loop of
`post_startup_loop` (`cql/native/native.cppm`). LZ4 is a library; what is known of it is that it
compresses within its bound and decompresses what it compressed. -/

namespace Plexdb.Cql.Native

open Wire

/-! ### LZ4 -/

/-- `compress` gives the compressed bytes, none of them for a failure; `decompress` is told how many
bytes to expect at most. -/
structure Lz4 where
  compress : Bytes → Bytes
  decompress : Bytes → Nat → Option Bytes
  compressBound : Nat → Nat

structure Lz4.Lawful (lz4 : Lz4) : Prop where
  compress_pos : ∀ x, 0 < (lz4.compress x).length
  compress_le : ∀ x, (lz4.compress x).length ≤ lz4.compressBound x.length
  decompress_compress : ∀ x, lz4.decompress (lz4.compress x) x.length = some x

/-! ### Headers -/

def v5MaxPayloadByteCount : Nat := 131071

def v5HdrCrc24ByteCount : Nat := 3

def v5PayloadCrc32ByteCount : Nat := 4

/-- `V5_COMP_HDR_BYTE_COUNT` and `V5_UNCOMP_HDR_BYTE_COUNT`. -/
def v5HdrByteCount (compressed : Bool) : Nat := if compressed then 5 else 3

structure OuterHeader where
  payloadLen : Nat
  uncompLen : Nat
  selfContained : Bool
  deriving DecidableEq

/-- The `bits` of a header; the conversions to `U8` cut off what is above eight bits. -/
def headerBits (compressed : Bool) (h : OuterHeader) : Bytes :=
  let c := h.payloadLen
  let u := h.uncompLen
  if compressed then
    [UInt8.ofNat c, UInt8.ofNat (c >>> 8), UInt8.ofNat (c >>> 16 &&& 0x01 ||| (u &&& 0x7F) <<< 1),
      UInt8.ofNat (u >>> 7), UInt8.ofNat (u >>> 15 &&& 0x03 ||| h.selfContained.toNat <<< 2)]
  else
    [UInt8.ofNat c, UInt8.ofNat (c >>> 8), UInt8.ofNat (c >>> 16 &&& 0x01 ||| h.selfContained.toNat <<< 1)]

/-- The header at the front of the read buffer. -/
def readHeader (compressed : Bool) (buf : Bytes) : OuterHeader :=
  let b (i : Nat) : Nat := (buf.getD i 0).toNat
  let payloadLen := b 0 ||| b 1 <<< 8 ||| (b 2 &&& 0x01) <<< 16
  if compressed then
    ⟨payloadLen, (b 2 >>> 1 &&& 0x7F) ||| b 3 <<< 7 ||| (b 4 &&& 0x03) <<< 15, b 4 >>> 2 &&& 1 != 0⟩
  else ⟨payloadLen, 0, b 2 >>> 1 &&& 1 != 0⟩

/-! ### Sending -/

/-- The chunks of the message, each with whether it is the last. -/
def outerChunks (data : Bytes) : List (Bytes × Bool) :=
  if data.length ≤ v5MaxPayloadByteCount then [(data, true)]
  else (data.take v5MaxPayloadByteCount, false) :: outerChunks (data.drop v5MaxPayloadByteCount)
  termination_by data.length
  decreasing_by simp only [List.length_drop, v5MaxPayloadByteCount] at *; omega

/-- Header and payload with their checksums. -/
def frameBytes (compressed : Bool) (h : OuterHeader) (payload : Bytes) : Bytes :=
  headerBits compressed h ++ leBytes 3 (Crc.crc24 (headerBits compressed h)).toNat ++ payload
    ++ leBytes 4 (Crc.crc32 payload Crc.crc32CqlV5Init).toNat

/-- The frame of one chunk; `none` is the failed assertion that LZ4 succeeds. -/
def outerFrame (lz4 : Lz4) (compressed : Bool) (chunk : Bytes) (selfContained : Bool) : Option Bytes :=
  if compressed then
    let payload := lz4.compress chunk
    if payload.length = 0 then none
    else some (frameBytes true ⟨payload.length, chunk.length, selfContained⟩ payload)
  else some (frameBytes false ⟨chunk.length, 0, selfContained⟩ chunk)

/-- The frames that `send_v5_outer_frames` sends one after the other. -/
def sendV5OuterFrames (lz4 : Lz4) (compressed : Bool) (data : Bytes) : Option (List Bytes) :=
  (outerChunks data).mapM fun c => outerFrame lz4 compressed c.1 c.2

/-! ### Receiving -/

/-- What a payload adds to the message. -/
def unpack (lz4 : Lz4) (compressed : Bool) (h : OuterHeader) (payload : Bytes) : Option Bytes :=
  if compressed then (lz4.decompress payload h.uncompLen).filter (·.length = h.uncompLen)
  else some payload

/-- What a frame adds to its message, whether the message ends with it, and what is read after it. -/
abbrev Framed (σ : Type) := Bytes × Bool × σ

/-- The payload behind a header. -/
def readPayload (lz4 : Lz4) (compressed : Bool) (h : OuterHeader) (s : Stream) : Option (Framed Stream) := do
  let s ← s.fillTo (h.payloadLen + v5PayloadCrc32ByteCount)
  let payload := s.buf.take h.payloadLen
  if (Crc.crc32 payload Crc.crc32CqlV5Init).toNat ≠
      leValue ((s.buf.drop h.payloadLen).take v5PayloadCrc32ByteCount) then none
  else do
    let chunk ← unpack lz4 compressed h payload
    some (chunk, h.selfContained, s.consumeFront (h.payloadLen + v5PayloadCrc32ByteCount))

/-- One outer frame. `none` ends the connection: a read or a checksum fails, or decompression does. -/
def readOuterFrame (lz4 : Lz4) (compressed : Bool) (s : Stream) : Option (Framed Stream) := do
  let hdrLen := v5HdrByteCount compressed
  let s ← s.fillTo (hdrLen + v5HdrCrc24ByteCount)
  if (Crc.crc24 (s.buf.take hdrLen)).toNat ≠ leValue ((s.buf.drop hdrLen).take v5HdrCrc24ByteCount) then none
  else readPayload lz4 compressed (readHeader compressed s.buf) (s.consumeFront (hdrLen + v5HdrCrc24ByteCount))

/-! ### The frame at the front of a byte string -/

def payloadOf (lz4 : Lz4) (compressed : Bool) (h : OuterHeader) (p : Bytes) : Option (Framed Bytes) :=
  if p.length < h.payloadLen + v5PayloadCrc32ByteCount then none
  else if (Crc.crc32 (p.take h.payloadLen) Crc.crc32CqlV5Init).toNat ≠
      leValue ((p.drop h.payloadLen).take v5PayloadCrc32ByteCount) then none
  else do
    let chunk ← unpack lz4 compressed h (p.take h.payloadLen)
    some (chunk, h.selfContained, p.drop (h.payloadLen + v5PayloadCrc32ByteCount))

/-- What `readOuterFrame` makes of the bytes of a stream, however they arrive. -/
def outerFrameOf (lz4 : Lz4) (compressed : Bool) (p : Bytes) : Option (Framed Bytes) :=
  let hdrLen := v5HdrByteCount compressed
  if p.length < hdrLen + v5HdrCrc24ByteCount then none
  else if (Crc.crc24 (p.take hdrLen)).toNat ≠ leValue ((p.drop hdrLen).take v5HdrCrc24ByteCount) then none
  else payloadOf lz4 compressed (readHeader compressed p) (p.drop (hdrLen + v5HdrCrc24ByteCount))

/-- The same frame, with the bytes that are left of the stream. -/
def Framed.flat (f : Framed Stream) : Framed Bytes := (f.1, f.2.1, f.2.2.bytes)

theorem take_drop_buf {m n : Nat} {s : Stream} (h : m + n ≤ s.buf.length) :
    (s.buf.drop m).take n = (s.bytes.drop m).take n := by
  rw [Stream.bytes, List.drop_append_of_le_length (by omega), List.take_append_of_le_length (by simp; omega)]

theorem getD_buf {i : Nat} {s : Stream} (h : i < s.buf.length) : s.buf.getD i 0 = s.bytes.getD i 0 := by
  rw [Stream.bytes, List.getD_append _ _ _ _ h]

theorem readHeader_buf {compressed : Bool} {s : Stream} (h : v5HdrByteCount compressed ≤ s.buf.length) :
    readHeader compressed s.buf = readHeader compressed s.bytes := by
  cases compressed with
  | false =>
      have h3 : 3 ≤ s.buf.length := h
      simp only [readHeader, getD_buf (show 0 < s.buf.length by omega), getD_buf (show 1 < s.buf.length by omega),
        getD_buf (show 2 < s.buf.length by omega), Bool.false_eq_true, if_false]
  | true =>
      have h5 : 5 ≤ s.buf.length := h
      simp only [readHeader, getD_buf (show 0 < s.buf.length by omega), getD_buf (show 1 < s.buf.length by omega),
        getD_buf (show 2 < s.buf.length by omega), getD_buf (show 3 < s.buf.length by omega),
        getD_buf (show 4 < s.buf.length by omega), if_true]

theorem readPayload_eq (lz4 : Lz4) (compressed : Bool) (h : OuterHeader) (s : Stream) :
    (readPayload lz4 compressed h s).map Framed.flat = payloadOf lz4 compressed h s.bytes := by
  rw [readPayload, payloadOf]
  cases hfill : s.fillTo (h.payloadLen + v5PayloadCrc32ByteCount) with
  | none => rw [if_pos (Stream.fillTo_eq_none.mp hfill)]; rfl
  | some s₁ =>
      obtain ⟨hbytes, hle⟩ := Stream.fillTo_eq_some hfill
      rw [if_neg (by rw [← Stream.fillTo_eq_none, hfill]; exact Option.some_ne_none _), Option.bind_eq_bind,
        Option.bind_some]
      dsimp only
      rw [Stream.take_buf (by omega), take_drop_buf hle, hbytes]
      split_ifs with hcrc
      · rfl
      · cases unpack lz4 compressed h (s.bytes.take h.payloadLen) with
        | none => rfl
        | some chunk =>
            rw [Option.bind_eq_bind, Option.bind_some, Option.bind_eq_bind, Option.bind_some, Option.map_some,
              Framed.flat, Stream.bytes_consumeFront hle, hbytes]

theorem readOuterFrame_eq (lz4 : Lz4) (compressed : Bool) (s : Stream) :
    (readOuterFrame lz4 compressed s).map Framed.flat = outerFrameOf lz4 compressed s.bytes := by
  rw [readOuterFrame, outerFrameOf]
  cases hfill : s.fillTo (v5HdrByteCount compressed + v5HdrCrc24ByteCount) with
  | none => rw [if_pos (Stream.fillTo_eq_none.mp hfill)]; rfl
  | some s₁ =>
      obtain ⟨hbytes, hle⟩ := Stream.fillTo_eq_some hfill
      have hheader : v5HdrByteCount compressed ≤ s₁.buf.length := by omega
      rw [if_neg (by rw [← Stream.fillTo_eq_none, hfill]; exact Option.some_ne_none _), Option.bind_eq_bind,
        Option.bind_some, Stream.take_buf hheader, take_drop_buf hle, readHeader_buf hheader, hbytes]
      split_ifs with hcrc
      · rfl
      · rw [readPayload_eq, Stream.bytes_consumeFront hle, hbytes]

/-! ### The receive loop -/

theorem length_of_outerFrameOf {lz4 : Lz4} {compressed : Bool} {p rest chunk : Bytes} {selfContained : Bool}
    (h : outerFrameOf lz4 compressed p = some (chunk, selfContained, rest)) :
    p.length = v5HdrByteCount compressed + v5HdrCrc24ByteCount +
      ((readHeader compressed p).payloadLen + v5PayloadCrc32ByteCount) + rest.length := by
  rw [outerFrameOf] at h
  split_ifs at h with hshort
  rw [payloadOf] at h
  split_ifs at h with hpayload
  obtain ⟨chunk', -, h⟩ := Option.bind_eq_some_iff.mp h
  obtain ⟨-, h⟩ := Prod.mk.inj (Option.some.inj h)
  obtain ⟨-, rfl⟩ := Prod.mk.inj h
  simp only [List.length_drop] at hpayload ⊢
  omega

theorem lt_of_outerFrameOf {lz4 : Lz4} {compressed : Bool} {p rest chunk : Bytes} {selfContained : Bool}
    (h : outerFrameOf lz4 compressed p = some (chunk, selfContained, rest)) : rest.length < p.length := by
  have := length_of_outerFrameOf h
  simp only [v5HdrCrc24ByteCount] at this
  omega

theorem flat_of_readOuterFrame {lz4 : Lz4} {compressed : Bool} {s s' : Stream} {chunk : Bytes}
    {selfContained : Bool} (h : readOuterFrame lz4 compressed s = some (chunk, selfContained, s')) :
    outerFrameOf lz4 compressed s.bytes = some (chunk, selfContained, s'.bytes) := by
  rw [← readOuterFrame_eq, h]
  rfl

theorem length_of_readOuterFrame {lz4 : Lz4} {compressed : Bool} {s s' : Stream} {chunk : Bytes}
    {selfContained : Bool} (h : readOuterFrame lz4 compressed s = some (chunk, selfContained, s')) :
    s'.bytes.length < s.bytes.length :=
  lt_of_outerFrameOf (flat_of_readOuterFrame h)

/-- Accumulates outer frames in `envelope_buf` until one ends the message. -/
def readMessage (lz4 : Lz4) (compressed : Bool) (envelopeBuf : Bytes) (s : Stream) : Option (Bytes × Stream) :=
  match _h : readOuterFrame lz4 compressed s with
  | none => none
  | some (chunk, true, s') => some (envelopeBuf ++ chunk, s')
  | some (chunk, false, s') => readMessage lz4 compressed (envelopeBuf ++ chunk) s'
  termination_by s.bytes.length
  decreasing_by exact length_of_readOuterFrame _h

/-- The message at the front of a byte string. -/
def messageOf (lz4 : Lz4) (compressed : Bool) (envelopeBuf p : Bytes) : Option (Bytes × Bytes) :=
  match _h : outerFrameOf lz4 compressed p with
  | none => none
  | some (chunk, true, rest) => some (envelopeBuf ++ chunk, rest)
  | some (chunk, false, rest) => messageOf lz4 compressed (envelopeBuf ++ chunk) rest
  termination_by p.length
  decreasing_by exact lt_of_outerFrameOf _h

section

variable {lz4 : Lz4} {compressed : Bool} {envelopeBuf p rest chunk : Bytes}

theorem messageOf_none (h : outerFrameOf lz4 compressed p = none) :
    messageOf lz4 compressed envelopeBuf p = none := by
  rw [messageOf]
  split <;> simp_all

theorem messageOf_last (h : outerFrameOf lz4 compressed p = some (chunk, true, rest)) :
    messageOf lz4 compressed envelopeBuf p = some (envelopeBuf ++ chunk, rest) := by
  rw [messageOf]
  split <;> simp_all

theorem messageOf_more (h : outerFrameOf lz4 compressed p = some (chunk, false, rest)) :
    messageOf lz4 compressed envelopeBuf p = messageOf lz4 compressed (envelopeBuf ++ chunk) rest := by
  rw [messageOf]
  split <;> simp_all

end

/-- The loop assembles the message at the front of the stream, however it arrives. -/
theorem readMessage_eq (lz4 : Lz4) (compressed : Bool) (envelopeBuf : Bytes) (s : Stream) :
    (readMessage lz4 compressed envelopeBuf s).map (fun (data, s') => (data, s'.bytes)) =
      messageOf lz4 compressed envelopeBuf s.bytes := by
  induction envelopeBuf, s using readMessage.induct lz4 compressed with
  | case1 envelopeBuf s h =>
      have hflat := readOuterFrame_eq lz4 compressed s
      rw [h] at hflat
      rw [messageOf_none hflat.symm, readMessage]
      split <;> simp_all
  | case2 envelopeBuf s chunk s' h =>
      rw [messageOf_last (flat_of_readOuterFrame h), readMessage]
      split <;> simp_all
  | case3 envelopeBuf s chunk s' h ih =>
      rw [messageOf_more (flat_of_readOuterFrame h), ← ih, readMessage]
      split <;> simp_all

end Plexdb.Cql.Native
