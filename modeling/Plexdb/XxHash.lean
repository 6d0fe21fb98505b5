import Plexdb.Wire

/-! `XXHash64` (`core/third_party/xxhash/xxhash.cppm`) of a whole buffer, and the hash of a string that is
made from it (`core/base/string.cpp`). -/

namespace Plexdb

open Wire (leValue)

namespace XxHash64

def prime1 : UInt64 := 11400714785074694791
def prime2 : UInt64 := 14029467366897019727
def prime3 : UInt64 := 1609587929392839161
def prime4 : UInt64 := 9650029242287828579
def prime5 : UInt64 := 2870177450012600261

def rotateLeft (x bits : UInt64) : UInt64 := (x <<< bits) ||| (x >>> (64 - bits))

def processSingle (previous input : UInt64) : UInt64 := rotateLeft (previous + input * prime2) 31 * prime1

/-- The word at the front of the data. -/
def word (n : Nat) (data : Bytes) : UInt64 := UInt64.ofNat (leValue (data.take n))

structure Lanes where
  s0 : UInt64
  s1 : UInt64
  s2 : UInt64
  s3 : UInt64

def Lanes.init (seed : UInt64) : Lanes := ⟨seed + prime1 + prime2, seed + prime2, seed, seed - prime1⟩

/-- `process`, on 32 bytes. -/
def Lanes.process (s : Lanes) (data : Bytes) : Lanes :=
  ⟨processSingle s.s0 (word 8 data), processSingle s.s1 (word 8 (data.drop 8)),
    processSingle s.s2 (word 8 (data.drop 16)), processSingle s.s3 (word 8 (data.drop 24))⟩

/-- The loop over the blocks of 32 bytes. -/
def processBlocks : (blocks : Nat) → Bytes → Lanes → Lanes
  | 0, _, s => s
  | blocks + 1, data, s => processBlocks blocks (data.drop 32) (s.process data)

def Lanes.fold (s : Lanes) : UInt64 :=
  let result := rotateLeft s.s0 1 + rotateLeft s.s1 7 + rotateLeft s.s2 12 + rotateLeft s.s3 18
  let result := (result ^^^ processSingle 0 s.s0) * prime1 + prime4
  let result := (result ^^^ processSingle 0 s.s1) * prime1 + prime4
  let result := (result ^^^ processSingle 0 s.s2) * prime1 + prime4
  (result ^^^ processSingle 0 s.s3) * prime1 + prime4

/-- The loop over the words of eight bytes that are left. -/
def eatWords : (words : Nat) → Bytes → UInt64 → UInt64
  | 0, _, result => result
  | words + 1, data, result =>
      eatWords words (data.drop 8) (rotateLeft (result ^^^ processSingle 0 (word 8 data)) 27 * prime1 + prime4)

def eatBytes (data : Bytes) (result : UInt64) : UInt64 :=
  data.foldl (fun result b => rotateLeft (result ^^^ UInt64.ofNat b.toNat * prime5) 11 * prime1) result

def mix (result : UInt64) : UInt64 :=
  let result := (result ^^^ (result >>> 33)) * prime2
  let result := (result ^^^ (result >>> 29)) * prime3
  result ^^^ (result >>> 32)

def hash (input : Bytes) (seed : UInt64) : UInt64 :=
  let lanes := processBlocks (input.length / 32) input (Lanes.init seed)
  let buffer := input.drop (input.length / 32 * 32)
  let result := if input.length ≥ 32 then lanes.fold else lanes.s2 + prime5
  let result := eatWords (buffer.length / 8) buffer (result + UInt64.ofNat input.length)
  let rest := buffer.drop (buffer.length / 8 * 8)
  if rest.length ≥ 4 then
    mix (eatBytes (rest.drop 4) (rotateLeft (result ^^^ word 4 rest * prime1) 23 * prime2 + prime3))
  else mix (eatBytes rest result)

end XxHash64

/-- `hash(String8)`: never zero. -/
def hashString (s : Bytes) : UInt64 :=
  let result := XxHash64.hash s 0
  result ||| (if result = 0 then 1 else 0)

theorem hashString_ne_zero (s : Bytes) : hashString s ≠ 0 := by
  rw [hashString]
  split_ifs with h
  · rw [h]
    decide
  · rwa [UInt64.or_zero]

end Plexdb
