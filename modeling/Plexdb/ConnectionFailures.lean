import Plexdb.NativeFrameRoundTrip
import Plexdb.NativeConnection
import Plexdb.RespReply
import Plexdb.Suspensions

/-! What the connection handlers do when the peer vanishes: `connection_handler` of `keyvalue/resp/resp.cppm`, and
`negotiate_connection` with `post_startup_loop` of `cql/native`. A failed read ends a handler. The result of a
write is dropped: by `send_block` itself in the one, and by the callers of `send_block` in the other. -/

namespace Plexdb.Connections

open Suspensions

/-! ### RESP -/

section

open Kv Resp

variable {σ ι : Type} (e : Engine σ ι) (fuel : Nat)

structure RespPoint (σ : Type) where
  state : σ
  readBuf : Bytes

/-- A round of the loop of the handler. -/
def respTurn (p : RespPoint σ) : Turn (RespPoint σ) UInt8 :=
  match parse p.readBuf with
  | .incomplete => .read fun data => data.map fun d => { p with readBuf := p.readBuf ++ d }
  | .error => .send [appendError (ascii "ERR") (ascii "Protocol error")] none
  | .notImplemented => .assertion
  | .ok stmt consumed =>
      match execute e fuel p.state stmt with
      | none => .assertion
      | some (result, state) =>
          .send [(encodeResult result).1] (if (encodeResult result).2 then some ⟨state, p.readBuf.drop consumed⟩ else none)

/-- `send_block` goes on with its next chunk whatever a write gives. -/
def respHandler (capacity : Nat) : Handler (RespPoint σ) UInt8 := ⟨respTurn e fuel, capacity, true⟩

theorem readsEnd_resp (capacity : Nat) : ReadsEnd (respHandler e fuel capacity) := by
  intro p k hturn
  change respTurn e fuel p = .read k at hturn
  rw [respTurn] at hturn
  split at hturn
  · obtain rfl := Turn.read.inj hturn
    rfl
  · cases hturn
  · cases hturn
  · split at hturn
    · cases hturn
    · cases hturn

end

/-! ### Native -/

open Cql Cql.Native
open Wire (leBytes)

structure Frame where
  op : UInt8
  stream : UInt16
  body : Bytes

def opError : UInt8 := 0x00

def opReady : UInt8 := 0x02

def opSupported : UInt8 := 0x06

def envelopeHeader (version flags : UInt8) (f : Frame) : Bytes :=
  [0x80 ||| version, flags] ++ beBytes 2 f.stream.toNat ++ [f.op] ++ beBytes 4 f.body.length

/-- The three blocks that `send_v5_outer_frames` sends of a chunk. -/
def chunkBlocks (lz4 : Lz4) (compressed : Bool) (chunk : Bytes) (selfContained : Bool) : Option (List Bytes) :=
  let blocks (h : OuterHeader) (payload : Bytes) : List Bytes :=
    [headerBits compressed h ++ leBytes 3 (Crc.crc24 (headerBits compressed h)).toNat, payload,
      leBytes 4 (Crc.crc32 payload Crc.crc32CqlV5Init).toNat]
  if compressed then
    let payload := lz4.compress chunk
    if payload.length = 0 then none else some (blocks ⟨payload.length, chunk.length, selfContained⟩ payload)
  else some (blocks ⟨chunk.length, 0, selfContained⟩ chunk)

theorem flatten_chunkBlocks (lz4 : Lz4) (compressed : Bool) (chunk : Bytes) (selfContained : Bool) :
    (chunkBlocks lz4 compressed chunk selfContained).map List.flatten = outerFrame lz4 compressed chunk selfContained := by
  rw [chunkBlocks, outerFrame]
  cases compressed with
  | false => simp [frameBytes]
  | true =>
      dsimp only
      rw [if_pos rfl, if_pos rfl]
      split_ifs
      · rfl
      · simp [frameBytes]

/-- `send_native_frame`. -/
def nativeBlocks (lz4 : Lz4) (version : UInt8) (compressed : Bool) (f : Frame) : Option (List Bytes) :=
  if version < 5 then some [envelopeHeader version 0x00 f, f.body]
  else ((outerChunks (envelopeHeader version 0x10 f ++ f.body)).mapM fun c => chunkBlocks lz4 compressed c.1 c.2).map
    List.flatten

/-- `send_unframed_response`. -/
def unframedResponse (version flags : UInt8) (f : Frame) : List Bytes := [envelopeHeader version flags f, f.body]

def cqlString (s : Bytes) : Bytes := beBytes 2 s.length ++ s

def supportedBody : Bytes :=
  beBytes 2 2 ++ cqlString (ascii "CQL_VERSION") ++ beBytes 2 1 ++ cqlString (ascii "3.0.0") ++
    cqlString (ascii "COMPRESSION") ++ beBytes 2 1 ++ cqlString (ascii "lz4")

def protocolErrorBody (message : Bytes) : Bytes := appendBeS32 0x000A ++ cqlString message

/-- Where a connection stands: it negotiates, waits for a version 4 envelope, waits for the header or the payload of
an outer frame, or dispatches the envelopes of a message. -/
inductive NativePoint (τ : Type) where
  | negotiate (buf : Bytes)
  | v4 (conn : τ) (frame : Bytes)
  | v5Header (compressed : Bool) (conn : τ) (readBuf envelopeBuf : Bytes)
  | v5Payload (compressed : Bool) (h : OuterHeader) (conn : τ) (readBuf envelopeBuf : Bytes)
  | dispatch (compressed : Bool) (conn : τ) (readBuf p : Bytes)
  /-- After a copy whose ranges overlap. -/
  | undefined

section

-- `frameHandler` gives the frames that are sent for an envelope, or a failed assertion
variable {τ : Type} (lz4 : Lz4) (frameHandler : τ → Envelope → Option (τ × List Frame)) (start : τ)

def startPoint (protocol : NegotiatedProtocol) : NativePoint τ :=
  if protocol.version = 5 then .v5Header protocol.compressed start [] [] else .v4 start []

/-- What is sent for an envelope of the negotiation, and where it goes on. -/
def negotiateTurn (buf : Bytes) : Turn (NativePoint τ) UInt8 :=
  let frameLen := negotiateFrameLen (bodyLength buf)
  let more : Turn (NativePoint τ) UInt8 := .read fun data => data.map fun d => .negotiate (buf ++ d)
  if buf.length < v4FrameHeaderByteCount then more
  else if buf.length < frameLen then more
  else
    let e := envelopeAt buf (bodyLength buf).toNat
    let version := e.header.getD 0 0 &&& 0x7F
    let op := e.header.getD 4 0
    let stream := UInt16.ofNat (readBeU16 (e.header.drop 2))
    if op = opOptions then
      .send (unframedResponse 4 0x00 ⟨opSupported, stream, supportedBody⟩)
        (some (if frameLen < buf.length - frameLen then .undefined else .negotiate (buf.drop frameLen)))
    else if op = opStartup then
      if version < 3 ∨ version > 5 then
        .send (unframedResponse 4 0x00 ⟨opError, stream, protocolErrorBody
          (ascii "Invalid or unsupported protocol version (supported: 3, 4, 5)")⟩) none
      else match startupOptions e.body with
        | none => .assertion
        | some wantLz4 =>
            .send (unframedResponse version (if version ≥ 5 then 0x10 else 0x00) ⟨opReady, stream, []⟩)
              (some (startPoint start ⟨version.toNat, version ≥ 5 && wantLz4⟩))
    else .send (unframedResponse 4 0x00 ⟨opError, stream, protocolErrorBody
      (ascii "Expected STARTUP or OPTIONS before any other message")⟩) none

/-- An envelope is handled, and what is sent for it comes before the next point. -/
def handleFrame (version : UInt8) (compressed : Bool) (conn : τ) (e : Envelope) (next : τ → NativePoint τ) :
    Turn (NativePoint τ) UInt8 :=
  match frameHandler conn e with
  | none => .assertion
  | some (conn, frames) =>
      match frames.mapM (nativeBlocks lz4 version compressed) with
      | none => .assertion
      | some blocks => .send blocks.flatten (some (next conn))

def v4Turn (conn : τ) (frame : Bytes) : Turn (NativePoint τ) UInt8 :=
  let frameByteCount := v4FrameByteCount (bodyLength frame)
  let more : Turn (NativePoint τ) UInt8 := .read fun data => data.map fun d => .v4 conn (frame ++ d)
  if frame.length < v4FrameHeaderByteCount then more
  else if frame.length < frameByteCount then more
  else handleFrame lz4 frameHandler 4 false conn (envelopeAt frame (bodyLength frame)) fun conn =>
    .v4 conn (frame.drop frameByteCount)

/-- A wrong checksum ends the loop. -/
def v5HeaderTurn (compressed : Bool) (conn : τ) (readBuf envelopeBuf : Bytes) : Turn (NativePoint τ) UInt8 :=
  let hdrLen := v5HdrByteCount compressed
  if readBuf.length < hdrLen + v5HdrCrc24ByteCount then
    .read fun data => data.map fun d => .v5Header compressed conn (readBuf ++ d) envelopeBuf
  else if (Crc.crc24 (readBuf.take hdrLen)).toNat ≠
      Wire.leValue ((readBuf.drop hdrLen).take v5HdrCrc24ByteCount) then .finish
  else .send [] (some (.v5Payload compressed (readHeader compressed readBuf) conn
    (readBuf.drop (hdrLen + v5HdrCrc24ByteCount)) envelopeBuf))

def v5PayloadTurn (compressed : Bool) (h : OuterHeader) (conn : τ) (readBuf envelopeBuf : Bytes) :
    Turn (NativePoint τ) UInt8 :=
  if readBuf.length < h.payloadLen + v5PayloadCrc32ByteCount then
    .read fun data => data.map fun d => .v5Payload compressed h conn (readBuf ++ d) envelopeBuf
  else
    let payload := readBuf.take h.payloadLen
    if (Crc.crc32 payload Crc.crc32CqlV5Init).toNat ≠
        Wire.leValue ((readBuf.drop h.payloadLen).take v5PayloadCrc32ByteCount) then .finish
    else match unpack lz4 compressed h payload with
      | none => .finish
      | some chunk =>
          let rest := readBuf.drop (h.payloadLen + v5PayloadCrc32ByteCount)
          .send [] (some (if h.selfContained then .dispatch compressed conn rest (envelopeBuf ++ chunk)
            else .v5Header compressed conn rest (envelopeBuf ++ chunk)))

def nativeTurn : NativePoint τ → Turn (NativePoint τ) UInt8
  | .negotiate buf => negotiateTurn start buf
  | .v4 conn frame => v4Turn lz4 frameHandler conn frame
  | .v5Header compressed conn readBuf envelopeBuf => v5HeaderTurn compressed conn readBuf envelopeBuf
  | .v5Payload compressed h conn readBuf envelopeBuf => v5PayloadTurn lz4 compressed h conn readBuf envelopeBuf
  | .dispatch compressed conn readBuf p =>
      match nextEnvelope p with
      | none => .send [] (some (.v5Header compressed conn readBuf []))
      | some (e, rest) =>
          handleFrame lz4 frameHandler 5 compressed conn e fun conn => .dispatch compressed conn readBuf rest
  | .undefined => .assertion

/-- `send_block` leaves its block at a failed write, and says nothing to its caller. -/
def nativeHandler (capacity : Nat) : Handler (NativePoint τ) UInt8 :=
  ⟨nativeTurn lz4 frameHandler start, capacity, false⟩

variable {lz4 frameHandler start}

theorem handleFrame_ne_read {version : UInt8} {compressed : Bool} {conn : τ} {e : Envelope} {next : τ → NativePoint τ}
    {k : Option Bytes → Option (NativePoint τ)} :
    handleFrame lz4 frameHandler version compressed conn e next ≠ .read k := by
  intro h
  rw [handleFrame] at h
  split at h
  · cases h
  · split at h
    · cases h
    · cases h

theorem readsEnd_negotiate {buf : Bytes} {k : Option Bytes → Option (NativePoint τ)}
    (h : negotiateTurn start buf = .read k) : k none = none := by
  rw [negotiateTurn] at h
  dsimp only at h
  by_cases hheader : buf.length < v4FrameHeaderByteCount
  · rw [if_pos hheader] at h
    obtain rfl := Turn.read.inj h
    rfl
  rw [if_neg hheader] at h
  by_cases hframe : buf.length < negotiateFrameLen (bodyLength buf)
  · rw [if_pos hframe] at h
    obtain rfl := Turn.read.inj h
    rfl
  rw [if_neg hframe] at h
  split at h
  · cases h
  · split at h
    · split at h
      · cases h
      · split at h
        · cases h
        · cases h
    · cases h

theorem readsEnd_native (capacity : Nat) : ReadsEnd (nativeHandler lz4 frameHandler start capacity) := by
  intro p k hturn
  change nativeTurn lz4 frameHandler start p = .read k at hturn
  cases p with
  | negotiate buf => exact readsEnd_negotiate hturn
  | v4 conn frame =>
      rw [nativeTurn, v4Turn] at hturn
      split_ifs at hturn
      · obtain rfl := Turn.read.inj hturn
        rfl
      · obtain rfl := Turn.read.inj hturn
        rfl
      · exact absurd hturn handleFrame_ne_read
  | v5Header compressed conn readBuf envelopeBuf =>
      rw [nativeTurn, v5HeaderTurn] at hturn
      split_ifs at hturn
      obtain rfl := Turn.read.inj hturn
      rfl
  | v5Payload compressed hdr conn readBuf envelopeBuf =>
      rw [nativeTurn, v5PayloadTurn] at hturn
      by_cases hlen : readBuf.length < hdr.payloadLen + v5PayloadCrc32ByteCount
      · rw [if_pos hlen] at hturn
        obtain rfl := Turn.read.inj hturn
        rfl
      rw [if_neg hlen] at hturn
      dsimp only at hturn
      split at hturn
      · cases hturn
      · split at hturn
        · cases hturn
        · cases hturn
  | dispatch compressed conn readBuf p =>
      rw [nativeTurn] at hturn
      split at hturn
      · cases hturn
      · exact absurd hturn handleFrame_ne_read
  | undefined => cases hturn

end

/-- In every run of either handler in which an operation fails only if it is a read or the last write of the
handler, nothing follows the failed operation and the handler has returned. -/
theorem no_io_after_failed {σ ι τ : Type} (e : Kv.Engine σ ι) (fuel capacity : Nat) (st : σ) (lz4 : Lz4)
    (frameHandler : τ → Envelope → Option (τ × List Frame)) (start : τ) :
    (∀ pre post l s, Run (step (respHandler e fuel capacity))
        (fun s l => l.failed = true → MayFail (respHandler e fuel capacity) s) (.running ⟨st, []⟩) (pre ++ l :: post) s →
      l.failed = true → post = [] ∧ s = .returned) ∧
    ∀ pre post l s, Run (step (nativeHandler lz4 frameHandler start capacity))
        (fun s l => l.failed = true → MayFail (nativeHandler lz4 frameHandler start capacity) s) (.running (.negotiate []))
        (pre ++ l :: post) s →
      l.failed = true → post = [] ∧ s = .returned :=
  ⟨fun _ _ _ _ hrun hfailed => nothing_after_failed (readsEnd_resp e fuel capacity) (readEnds_resume (some _)) hrun
      hfailed,
    fun _ _ _ _ hrun hfailed => nothing_after_failed (readsEnd_native capacity) (readEnds_resume (some _)) hrun hfailed⟩

/-- The reply to a `QUIT` is the last write. -/
theorem no_io_after_failed_quit :
    ∃ s, Run (step (respHandler Resp.emptyEngine 0 65536))
        (fun s l => l.failed = true → MayFail (respHandler Resp.emptyEngine 0 65536) s) (.running ⟨(), []⟩)
        ([.go, .read (some (ascii "QUIT\r\n")), .go] ++ .write false :: []) s ∧ s = .returned := by
  have hrun : Run (step (respHandler Resp.emptyEngine 0 65536))
      (fun s l => l.failed = true → MayFail (respHandler Resp.emptyEngine 0 65536) s) (.running ⟨(), []⟩)
      ([.go, .read (some (ascii "QUIT\r\n")), .go] ++ .write false :: []) .returned := by
    refine .cons (fun h => Bool.noConfusion h) rfl (.cons (fun h => Bool.noConfusion h) rfl
      (.cons (fun h => Bool.noConfusion h) rfl (.cons (fun _ => ⟨rfl, fun b hb => ?_, fun _ => ?_⟩) rfl (.nil _))))
    · exact absurd hb List.not_mem_nil
    · decide
  exact ⟨_, hrun, ((no_io_after_failed Resp.emptyEngine 0 65536 () literalLz4 (fun (conn : Unit) _ => some (conn, [])) ()).1
    _ _ _ _ hrun rfl).2⟩

/-- Both handlers read on after a write that failed: the reply to a `PING`, and the answer to a version 4
`STARTUP`. -/
theorem read_after_failed_write :
    (∃ s, Run (step (respHandler Resp.emptyEngine 0 65536)) (fun _ _ => True) (.running ⟨(), []⟩)
        ([.go, .read (some (ascii "PING\r\n")), .go] ++ .write false :: [.go, .read none]) s) ∧
      ∃ s, Run (step (nativeHandler literalLz4 (fun (conn : Unit) _ => some (conn, [])) () 65536)) (fun _ _ => True)
        (.running (.negotiate [])) ([.go, .read (some [4, 0, 0, 0, 1, 0, 0, 0, 0]), .go] ++
          .write false :: [.go, .read none]) s :=
  ⟨⟨_, .cons trivial rfl (.cons trivial rfl (.cons trivial rfl (.cons trivial rfl (.cons trivial rfl (.cons trivial rfl
      (.nil _))))))⟩,
    ⟨_, .cons trivial rfl (.cons trivial rfl (.cons trivial rfl (.cons trivial rfl (.cons trivial rfl (.cons trivial rfl
      (.nil _))))))⟩⟩

end Plexdb.Connections
