import Mathlib
import Plexdb.Wire
import Plexdb.BlockStream

/-! The 128-bit hash Murmur3 for 64-bit machines, with the widening of a tail byte as a parameter: the original
takes the byte as unsigned. The low half is what is used of it. -/

namespace Plexdb.Murmur3

open Wire (leValue)

def c1 : UInt64 := 0x87c37b91114253d5

def c2 : UInt64 := 0x4cf5ad432745937f

def rotateLeft (x r : UInt64) : UInt64 := (x <<< r) ||| (x >>> (64 - r))

def mixLow (k : UInt64) : UInt64 := rotateLeft (k * c1) 31 * c2

def mixHigh (k : UInt64) : UInt64 := rotateLeft (k * c2) 33 * c1

structure Lanes where
  h1 : UInt64
  h2 : UInt64
  deriving DecidableEq

/-- A word of the body, in little-endian order. -/
def word (block : Bytes) : UInt64 := UInt64.ofNat (leValue block)

/-- One block of 16 bytes. -/
def body (h : Lanes) (block : Bytes) : Lanes :=
  let h1 := (rotateLeft (h.h1 ^^^ mixLow (word (block.take 8))) 27 + h.h2) * 5 + 0x52dce729
  let h2 := (rotateLeft (h.h2 ^^^ mixHigh (word (block.drop 8))) 31 + h1) * 5 + 0x38495ab5
  ⟨h1, h2⟩

/-- A word of the tail: the widened bytes, each shifted to its place. -/
def tailWord (widen : UInt8 → UInt64) : Bytes → UInt64
  | [] => 0
  | b :: bytes => widen b ^^^ (tailWord widen bytes <<< 8)

/-- Less than a block. A word without bytes is zero, and mixes to zero. -/
def tail (widen : UInt8 → UInt64) (h : Lanes) (bytes : Bytes) : Lanes :=
  ⟨h.h1 ^^^ mixLow (tailWord widen (bytes.take 8)), h.h2 ^^^ mixHigh (tailWord widen (bytes.drop 8))⟩

def avalanche (k : UInt64) : UInt64 :=
  let k := (k ^^^ (k >>> 33)) * 0xff51afd7ed558ccd
  let k := (k ^^^ (k >>> 33)) * 0xc4ceb9fe1a85ec53
  k ^^^ (k >>> 33)

def finish (h : Lanes) (length : UInt64) : UInt64 :=
  let h1 := (h.h1 ^^^ length) + (h.h2 ^^^ length)
  let h2 := (h.h2 ^^^ length) + h1
  avalanche h1 + avalanche h2

/-- The low half of the hash of `data`. -/
def low (widen : UInt8 → UInt64) (seed : UInt64) (data : Bytes) : UInt64 :=
  let (h, rest) := BlockStream.absorb 16 body ⟨seed, seed⟩ data
  finish (tail widen h rest) (UInt64.ofNat data.length)

/-! ### Tails -/

end Plexdb.Murmur3
