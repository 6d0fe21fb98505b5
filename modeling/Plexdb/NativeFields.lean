import Plexdb.Wire

/-! Big-endian fields (`read_be_u16`, `read_be_s32` and `append_be_s32` of `cql/native/native.cpp`). -/

namespace Plexdb.Cql.Native

open Wire

def beValue (p : Bytes) : Nat := p.foldl (fun n b => n * 256 + b.toNat) 0

def readBeU16 (p : Bytes) : Nat := beValue (p.take 2)

def readBeS32 (p : Bytes) : Int := (BitVec.ofNat 32 (beValue (p.take 4))).toInt

def beBytes (n x : Nat) : Bytes := (leBytes n x).reverse

def appendBeS32 (v : BitVec 32) : Bytes := beBytes 4 v.toNat

theorem length_beBytes (n x : Nat) : (beBytes n x).length = n := by
  rw [beBytes, List.length_reverse, length_leBytes]

theorem beValue_reverse (p : Bytes) : beValue p.reverse = leValue p := by
  induction p with
  | nil => rfl
  | cons b p ih =>
      rw [beValue, List.reverse_cons, List.foldl_append] at *
      rw [ih, leValue]
      simp only [List.foldl_cons, List.foldl_nil]
      omega

theorem beValue_beBytes {n x : Nat} (h : x < 256 ^ n) : beValue (beBytes n x) = x := by
  rw [beBytes, beValue_reverse, leValue_leBytes n x h]

/-- A field that is exactly `n` bytes wide comes back as its bits. -/
theorem ofNat_beValue_beBytes {w : Nat} (n : Nat) (x : BitVec w) (h : w = 8 * n) :
    BitVec.ofNat w (beValue (beBytes n x.toNat)) = x := by
  subst h
  have hx : x.toNat < 256 ^ n := by
    have := x.isLt
    rwa [Nat.pow_mul] at this
  rw [beValue_beBytes hx, BitVec.ofNat_toNat, BitVec.setWidth_eq]

@[simp]
theorem length_appendBeS32 (v : BitVec 32) : (appendBeS32 v).length = 4 := length_beBytes 4 _

theorem readBeS32_appendBeS32 (v : BitVec 32) (rest : Bytes) : readBeS32 (appendBeS32 v ++ rest) = v.toInt := by
  rw [readBeS32, List.take_append_of_le_length (by simp), List.take_of_length_le (by simp), appendBeS32,
    ofNat_beValue_beBytes 4 v rfl]

theorem drop_appendBeS32 (v : BitVec 32) (rest : Bytes) : (appendBeS32 v ++ rest).drop 4 = rest := by
  rw [List.drop_append_of_le_length (by simp), List.drop_of_length_le (by simp), List.nil_append]

end Plexdb.Cql.Native
