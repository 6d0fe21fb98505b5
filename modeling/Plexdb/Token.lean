import Plexdb.Murmur3

/-! The token of a partition key (`cql/engine/token.cpp`): the hash of a whole buffer, and `Murmur3State`, which is
given the bytes in pieces. -/

namespace Plexdb.Cql.Token

open Wire (leValue)

def rotl64 (x r : UInt64) : UInt64 := (x <<< r) ||| (x >>> (64 - r))

def load64Le (p : Bytes) : UInt64 := UInt64.ofNat (leValue (p.take 8))

def c1 : UInt64 := 0x87c37b91114253d5

def c2 : UInt64 := 0x4cf5ad432745937f

/-- `process_block`, on the 16 bytes at `block`. -/
def processBlock (h : UInt64 × UInt64) (block : Bytes) : UInt64 × UInt64 :=
  let (h1, h2) := h
  let k1 := load64Le block
  let k2 := load64Le (block.drop 8)
  let k1 := rotl64 (k1 * c1) 31 * c2
  let h1 := rotl64 (h1 ^^^ k1) 27
  let h1 := (h1 + h2) * 5 + 0x52dce729
  let k2 := rotl64 (k2 * c2) 33 * c1
  let h2 := rotl64 (h2 ^^^ k2) 31
  let h2 := (h2 + h1) * 5 + 0x38495ab5
  (h1, h2)

/-- `carry` is the part of the buffer that is filled. -/
structure Murmur3State where
  h : UInt64 × UInt64 := (0, 0)
  totalLen : UInt64 := 0
  carry : Bytes := []

namespace Murmur3State

/-- `while (len >= 16)`. -/
def blockLoop (h : UInt64 × UInt64) (data : Bytes) : (UInt64 × UInt64) × Bytes :=
  if _h : 16 ≤ data.length then blockLoop (processBlock h data) (data.drop 16) else (h, data)
  termination_by data.length
  decreasing_by
    rw [List.length_drop]
    omega

/-- What fills the carry first, if it is not empty. -/
def fillCarry (s : Murmur3State) (data : Bytes) : Murmur3State × Bytes :=
  if s.carry.length > 0 then
    let need := 16 - s.carry.length
    let take := if data.length < need then data.length else need
    let carry := s.carry ++ data.take take
    let data := data.drop take
    if carry.length = 16 then ({ s with h := processBlock s.h carry, carry := [] }, data)
    else ({ s with carry := carry }, data)
  else (s, data)

def update (s : Murmur3State) (data : Bytes) : Murmur3State :=
  let s := { s with totalLen := s.totalLen + UInt64.ofNat data.length }
  let (s, data) := s.fillCarry data
  let (h, data) := blockLoop s.h data
  { s with h := h, carry := if data.length > 0 then s.carry ++ data else s.carry }

end Murmur3State

end Plexdb.Cql.Token
