import Plexdb.NativeFields
import Plexdb.NativeFrames

/-! A native connection: `negotiate_connection` (`cql/native/native.cpp`), which answers `OPTIONS` and
`STARTUP` envelope by envelope, and after it `post_startup_loop` (`cql/native/native.cppm`), which
hands envelopes to `frame_handler`: plain ones in version 4, ones packed in outer frames in version
5. What the handlers answer is left out; a loop goes on whatever they do. -/

namespace Plexdb.Cql.Native

/-! ### Envelopes -/

def v4FrameHeaderByteCount : Nat := 9

/-- The length field of a header. -/
def bodyLength (p : Bytes) : Int := readBeS32 (p.drop 5)

/-- What a handler is given: the header, the length of the body, and the bytes received of it. -/
structure Envelope where
  header : Bytes
  bodyLength : Int
  body : Bytes
  deriving DecidableEq

def envelopeAt (p : Bytes) (bodyLength : Int) : Envelope :=
  ⟨p.take v4FrameHeaderByteCount, bodyLength, (p.drop v4FrameHeaderByteCount).take bodyLength.toNat⟩

structure NegotiatedProtocol where
  version : Nat
  compressed : Bool
  deriving DecidableEq

/-- `[string]`; `none` is a failed assertion. -/
def readCqlString (p : Bytes) : Option (Bytes × Bytes) :=
  if p.length < 2 then none
  else
    let len := readBeU16 p
    let p := p.drop 2
    if p.length < len then none else some (p.take len, p.drop len)

/-- Whether one of the options asks for LZ4. A string equals a literal when it is a prefix of it. -/
def wantsLz4 : Nat → Bytes → Option Bool
  | 0, _ => some false
  | n + 1, p =>
      if p.isEmpty then some false
      else do
        let (key, p) ← readCqlString p
        let (value, p) ← readCqlString p
        let rest ← wantsLz4 n p
        some (key.isPrefixOf (ascii "COMPRESSION") && value.isPrefixOf (ascii "lz4") || rest)

def startupOptions (body : Bytes) : Option Bool :=
  if body.length < 2 then some false else wantsLz4 (readBeU16 body) (body.drop 2)

/-- What becomes of the connection: the next envelope is awaited, or the negotiation succeeds, or the
connection ends. -/
inductive NegotiateAnswer where
  | supported
  | ready (protocol : NegotiatedProtocol)
  | refused
  deriving DecidableEq

def opStartup : UInt8 := 0x01

def opOptions : UInt8 := 0x05

def negotiateAnswer (e : Envelope) : NegotiateAnswer :=
  let version := (e.header.getD 0 0).toNat &&& 0x7F
  let op := e.header.getD 4 0
  if op = opOptions then .supported
  else if op = opStartup then
    if version < 3 ∨ version > 5 then .refused
    else
      match startupOptions e.body with
      -- a failed assertion
      | none => .refused
      | some wantLz4 => .ready ⟨version, 5 ≤ version && wantLz4⟩
  else .refused

/-- The envelopes that the negotiation handled, its outcome, and what is left to read. -/
structure Negotiation (σ : Type) where
  handled : List Envelope
  protocol : Option NegotiatedProtocol
  rest : σ

def Negotiation.after {σ : Type} (e : Envelope) (n : Negotiation σ) : Negotiation σ :=
  { n with handled := e :: n.handled }

def Negotiation.flat (n : Negotiation Stream) : Negotiation Bytes := ⟨n.handled, n.protocol, n.rest.bytes⟩

/-- A negative length counts as none. -/
def negotiateFrameLen (bodyLen : Int) : Nat := v4FrameHeaderByteCount + bodyLen.toNat

/-- The envelopes that were handled, and the bytes that were not. -/
structure Served where
  handled : List Envelope
  unread : Bytes
  deriving DecidableEq

def Served.after (e : Envelope) (s : Served) : Served := { s with handled := e :: s.handled }

/-- `frame_byte_count`, in 64 bits. -/
def v4FrameByteCount (bodyLen : Int) : Nat := ((v4FrameHeaderByteCount + bodyLen) % 2 ^ 64).toNat

/-- The envelope at the front, if there is a whole one. -/
def nextEnvelope (p : Bytes) : Option (Envelope × Bytes) :=
  if p.length < v4FrameHeaderByteCount then none
  else
    let bodyLen := bodyLength p
    if bodyLen < 0 then none
    else if p.length < v4FrameHeaderByteCount + bodyLen.toNat then none
    else some (envelopeAt p bodyLen, p.drop (v4FrameHeaderByteCount + bodyLen.toNat))

end Plexdb.Cql.Native
