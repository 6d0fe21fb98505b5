import Plexdb.NestedEquality

/-! Nested values whose sets and maps went through any run of the operations on their tables. -/

namespace Plexdb.Cql.NestedColumnValue

open Buckets Keyed

/-! ### Built values -/

def isNaN (exp man : Nat) (x : BitVec (1 + exp + man)) : Bool :=
  x.toNat / 2 ^ man % 2 ^ exp == 2 ^ exp - 1 && x.toNat % 2 ^ man != 0

end Plexdb.Cql.NestedColumnValue
