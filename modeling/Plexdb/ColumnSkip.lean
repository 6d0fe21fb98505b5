import Plexdb.ColumnCodec

/-! Skipping stored values (`skip_column_value` of `cql/engine/io.codec.cpp` and of the generated
`io_codec_wire.cpp`). A skip moves the cursor of a blob and does not look at the size of the blob. -/

namespace Plexdb.Cql

open Wire

/-! ### Skippers -/

def skipVarInt (s : Bytes) : Option Bytes := do
  let (n, s) ← readCount (s.drop 1)
  pure (s.drop n)

/-- `skip_column_value` on a native type. -/
def skipBasic (dtype : Basic) (s : Bytes) : Option Bytes :=
  match dtype with
  | .smallint => some (s.drop 2)
  | .int | .date => some (s.drop 4)
  | .bigint | .timestamp | .counter | .time => some (s.drop 8)
  | .tinyint | .boolean => some (s.drop 1)
  | .float => some (s.drop 4)
  | .double => some (s.drop 8)
  | .text | .varchar | .ascii | .blob | .hex => do
      let (n, s) ← readCount s
      pure (s.drop n)
  | .uuid | .timeuuid => some (s.drop 16)
  | .inet => do
      let (isV6, s) ← readFlag s
      pure (s.drop (if isV6 then 16 else 4))
  | .varint => skipVarInt s
  | .decimal => skipVarInt (s.drop 4)
  | .duration => some (((s.drop 4).drop 4).drop 8)

def skipMany (skip : Bytes → Option Bytes) : Nat → Bytes → Option Bytes
  | 0, s => some s
  | n + 1, s => do
      let s ← skip s
      skipMany skip n s

mutual

/-- `skip_column_value`. -/
def skipColumnValue (t : Ty) (s : Bytes) : Option Bytes :=
  match t with
  | .basic dtype => skipBasic dtype s
  | .list element _ => do
      let (n, s) ← readCount s
      skipMany (skipColumnValue element) n s
  | .set key _ => do
      let (n, s) ← readCount s
      skipMany (skipColumnValue key) n s
  | .map key value _ => do
      let (n, s) ← readCount s
      skipMany (fun s => (skipColumnValue key s).bind (skipColumnValue value)) n s
  | .vector element count _ => skipMany (skipColumnValue element) count.toNat s
  | .tuple elements _ => do
      let (mask, s) ← readMask elements.length s
      skipMaskedPayloads elements elements.length mask 0 s
  | .udt _ _ _ fieldTypes => do
      let (written, s) ← readCount s
      if written ≤ fieldTypes.length then
        let (mask, s) ← readMask written s
        skipMaskedPayloads fieldTypes written mask 0 s
      else none

/-- The payload loop of `skip_masked_payloads`: fields `i` to `count`. -/
def skipMaskedPayloads (ts : List Ty) (count : Nat) (mask : List (BitVec 64)) (i : Nat) (s : Bytes) :
    Option Bytes :=
  match ts with
  | t :: ts =>
      if i < count then do
        let s ← if maskBit mask i then skipColumnValue t s else some s
        skipMaskedPayloads ts count mask (i + 1) s
      else some s
  | [] => some s

end

/-! ### A skip is a read whose value is dropped -/

/-- The skipper moves past every value that the reader reads. -/
def Skips {α : Type} (skip : Bytes → Option Bytes) (read : Reader α) : Prop :=
  ∀ s a rest, read s = some (a, rest) → skip s = some rest

theorem drop_of_take {n : Nat} {s front rest : Bytes} (h : take n s = some (front, rest)) : s.drop n = rest := by
  unfold take at h
  split_ifs at h with hle
  exact (Prod.mk.inj (Option.some.inj h)).2

theorem drop_of_readRaw {n : Nat} {s rest : Bytes} {x : BitVec (8 * n)} (h : readRaw n s = some (x, rest)) :
    s.drop n = rest := by
  obtain ⟨⟨front, s'⟩, htake, h⟩ := Option.bind_eq_some_iff.mp h
  obtain ⟨-, rfl⟩ := Prod.mk.inj (Option.some.inj h)
  exact drop_of_take htake

theorem drop_of_readFixed {n : Nat} {s rest : Bytes} {x : Raw n} (h : readFixed n s = some (x, rest)) :
    s.drop n = rest := by
  unfold readFixed at h
  split at h
  · cases h
  · rename_i htake
    obtain ⟨-, rfl⟩ := Prod.mk.inj (Option.some.inj h)
    exact drop_of_take htake

theorem skip_of_readPrefixed {s rest bytes : Bytes} (h : readPrefixed s = some (bytes, rest)) :
    (readCount s).bind (fun x => some (x.2.drop x.1)) = some rest := by
  obtain ⟨⟨n, s'⟩, hcount, h⟩ := Option.bind_eq_some_iff.mp h
  rw [hcount, Option.bind_some]
  exact congrArg some (drop_of_take h)

theorem skips_varInt : Skips skipVarInt readVarInt := by
  intro s value rest h
  obtain ⟨⟨negative, s₁⟩, hflag, h⟩ := Option.bind_eq_some_iff.mp h
  obtain ⟨⟨magnitude, s₂⟩, hmagnitude, h⟩ := Option.bind_eq_some_iff.mp h
  obtain ⟨-, rfl⟩ := Prod.mk.inj (Option.some.inj h)
  obtain ⟨⟨raw, s₀⟩, hraw, hflag⟩ := Option.bind_eq_some_iff.mp hflag
  obtain ⟨-, rfl⟩ := Prod.mk.inj (Option.some.inj hflag)
  rw [skipVarInt, drop_of_readRaw hraw]
  exact skip_of_readPrefixed hmagnitude

theorem skips_basic (dtype : Basic) : Skips (skipBasic dtype) (readBasic dtype) := by
  intro s v rest h
  cases dtype
  case inet =>
    obtain ⟨⟨isV6, s₁⟩, hflag, h⟩ := Option.bind_eq_some_iff.mp h
    simp only [skipBasic, hflag, Option.bind_eq_bind, Option.bind_some]
    cases isV6 <;>
    · simp only [Bool.false_eq_true, if_true, if_false] at h
      obtain ⟨⟨bytes, s₂⟩, hbytes, h⟩ := Option.bind_eq_some_iff.mp h
      obtain ⟨-, rfl⟩ := Prod.mk.inj (Option.some.inj h)
      exact congrArg some (drop_of_readFixed hbytes)
  case varint =>
    obtain ⟨⟨value, s₁⟩, hvalue, h⟩ := Option.bind_eq_some_iff.mp h
    obtain ⟨-, rfl⟩ := Prod.mk.inj (Option.some.inj h)
    exact skips_varInt _ _ _ hvalue
  case decimal =>
    obtain ⟨⟨scale, s₁⟩, hscale, h⟩ := Option.bind_eq_some_iff.mp h
    obtain ⟨⟨value, s₂⟩, hvalue, h⟩ := Option.bind_eq_some_iff.mp h
    obtain ⟨-, rfl⟩ := Prod.mk.inj (Option.some.inj h)
    rw [skipBasic, drop_of_readRaw hscale]
    exact skips_varInt _ _ _ hvalue
  case duration =>
    obtain ⟨⟨months, s₁⟩, hmonths, h⟩ := Option.bind_eq_some_iff.mp h
    obtain ⟨⟨days, s₂⟩, hdays, h⟩ := Option.bind_eq_some_iff.mp h
    obtain ⟨⟨nanoseconds, s₃⟩, hnanoseconds, h⟩ := Option.bind_eq_some_iff.mp h
    obtain ⟨-, rfl⟩ := Prod.mk.inj (Option.some.inj h)
    rw [skipBasic, drop_of_readRaw hmonths, drop_of_readRaw hdays, drop_of_readRaw hnanoseconds]
  all_goals
    obtain ⟨⟨bits, s₁⟩, hbits, h⟩ := Option.bind_eq_some_iff.mp h
    obtain ⟨-, rfl⟩ := Prod.mk.inj (Option.some.inj h)
    first
      | exact congrArg some (drop_of_readRaw hbits)
      | exact congrArg some (drop_of_readFixed hbits)
      | exact skip_of_readPrefixed hbits

theorem skips_many {α : Type} {skip : Bytes → Option Bytes} {read : Reader α} (h : Skips skip read) (n : Nat) :
    Skips (skipMany skip n) (readMany read n) := by
  induction n with
  | zero =>
      intro s as rest hread
      obtain ⟨-, rfl⟩ := Prod.mk.inj (Option.some.inj hread)
      rfl
  | succ n ih =>
      intro s as rest hread
      rw [readMany] at hread
      obtain ⟨⟨a, s₁⟩, ha, hread⟩ := Option.bind_eq_some_iff.mp hread
      obtain ⟨⟨as, s₂⟩, has, hread⟩ := Option.bind_eq_some_iff.mp hread
      obtain ⟨-, rfl⟩ := Prod.mk.inj (Option.some.inj hread)
      rw [skipMany, h _ _ _ ha]
      exact ih _ _ _ has

theorem skips_pair {α β : Type} {skipFront skipBack : Bytes → Option Bytes} {readFront : Reader α}
    {readBack : Reader β} (hfront : Skips skipFront readFront) (hback : Skips skipBack readBack) :
    Skips (fun s => (skipFront s).bind skipBack) (readPair readFront readBack) := by
  intro s e rest h
  rw [readPair] at h
  obtain ⟨⟨a, s₁⟩, ha, h⟩ := Option.bind_eq_some_iff.mp h
  obtain ⟨⟨b, s₂⟩, hb, h⟩ := Option.bind_eq_some_iff.mp h
  obtain ⟨-, rfl⟩ := Prod.mk.inj (Option.some.inj h)
  dsimp only
  rw [hfront _ _ _ ha]
  exact hback _ _ _ hb

mutual

theorem skips_columnValue : ∀ t : Ty, Skips (skipColumnValue t) (readColumnValue t)
  | .basic dtype, s, v, rest, h => by
      rw [readColumnValue] at h
      rw [skipColumnValue]
      exact skips_basic dtype s v rest h
  | .list element _, s, v, rest, h => by
      rw [readColumnValue] at h
      obtain ⟨⟨n, s₁⟩, hcount, h⟩ := Option.bind_eq_some_iff.mp h
      obtain ⟨⟨vs, s₂⟩, hvs, h⟩ := Option.bind_eq_some_iff.mp h
      obtain ⟨-, rfl⟩ := Prod.mk.inj (Option.some.inj h)
      rw [skipColumnValue, hcount]
      exact skips_many (skips_columnValue element) n _ _ _ hvs
  | .set key _, s, v, rest, h => by
      rw [readColumnValue] at h
      obtain ⟨⟨n, s₁⟩, hcount, h⟩ := Option.bind_eq_some_iff.mp h
      obtain ⟨⟨vs, s₂⟩, hvs, h⟩ := Option.bind_eq_some_iff.mp h
      obtain ⟨-, rfl⟩ := Prod.mk.inj (Option.some.inj h)
      rw [skipColumnValue, hcount]
      exact skips_many (skips_columnValue key) n _ _ _ hvs
  | .map key value _, s, v, rest, h => by
      rw [readColumnValue] at h
      obtain ⟨⟨n, s₁⟩, hcount, h⟩ := Option.bind_eq_some_iff.mp h
      obtain ⟨⟨es, s₂⟩, hes, h⟩ := Option.bind_eq_some_iff.mp h
      obtain ⟨-, rfl⟩ := Prod.mk.inj (Option.some.inj h)
      rw [skipColumnValue, hcount]
      exact skips_many (skips_pair (skips_columnValue key) (skips_columnValue value)) n _ _ _ hes
  | .vector element count _, s, v, rest, h => by
      rw [readColumnValue] at h
      obtain ⟨⟨vs, s₁⟩, hvs, h⟩ := Option.bind_eq_some_iff.mp h
      obtain ⟨-, rfl⟩ := Prod.mk.inj (Option.some.inj h)
      rw [skipColumnValue]
      exact skips_many (skips_columnValue element) count.toNat _ _ _ hvs
  | .tuple elements _, s, v, rest, h => by
      rw [readColumnValue] at h
      obtain ⟨⟨mask, s₁⟩, hmask, h⟩ := Option.bind_eq_some_iff.mp h
      obtain ⟨⟨vs, s₂⟩, hvs, h⟩ := Option.bind_eq_some_iff.mp h
      obtain ⟨-, rfl⟩ := Prod.mk.inj (Option.some.inj h)
      rw [skipColumnValue, hmask]
      exact skips_maskedPayloads elements _ mask 0 _ _ _ hvs
  | .udt _ _ _ fieldTypes, s, v, rest, h => by
      rw [readColumnValue] at h
      obtain ⟨⟨written, s₁⟩, hcount, h⟩ := Option.bind_eq_some_iff.mp h
      rw [skipColumnValue, hcount, Option.bind_eq_bind, Option.bind_some]
      dsimp only at h ⊢
      split at h
      · rename_i hle
        obtain ⟨⟨mask, s₂⟩, hmask, h⟩ := Option.bind_eq_some_iff.mp h
        obtain ⟨⟨vs, s₃⟩, hvs, h⟩ := Option.bind_eq_some_iff.mp h
        obtain ⟨-, rfl⟩ := Prod.mk.inj (Option.some.inj h)
        rw [if_pos hle, hmask]
        exact skips_maskedPayloads fieldTypes written mask 0 _ _ _ hvs
      · cases h

theorem skips_maskedPayloads : ∀ (ts : List Ty) (count : Nat) (mask : List (BitVec 64)) (i : Nat),
    Skips (skipMaskedPayloads ts count mask i) (readMaskedPayloads ts count mask i)
  | [], count, mask, i, s, vs, rest, h => by
      rw [readMaskedPayloads] at h
      obtain ⟨-, rfl⟩ := Prod.mk.inj (Option.some.inj h)
      rw [skipMaskedPayloads]
  | t :: ts, count, mask, i, s, vs, rest, h => by
      rw [readMaskedPayloads] at h
      rw [skipMaskedPayloads]
      split at h
      · rename_i hlt
        rw [if_pos hlt]
        cases hbit : maskBit mask i
        · rw [hbit, if_neg Bool.false_ne_true] at h
          rw [if_neg Bool.false_ne_true]
          obtain ⟨⟨v, s₁⟩, hv, h⟩ := Option.bind_eq_some_iff.mp h
          obtain ⟨-, rfl⟩ := Prod.mk.inj (Option.some.inj hv)
          obtain ⟨⟨vs, s₂⟩, hvs, h⟩ := Option.bind_eq_some_iff.mp h
          obtain ⟨-, rfl⟩ := Prod.mk.inj (Option.some.inj h)
          exact skips_maskedPayloads ts count mask (i + 1) _ _ _ hvs
        · rw [hbit, if_pos rfl] at h
          rw [if_pos rfl]
          obtain ⟨⟨v, s₁⟩, hv, h⟩ := Option.bind_eq_some_iff.mp h
          obtain ⟨⟨vs, s₂⟩, hvs, h⟩ := Option.bind_eq_some_iff.mp h
          obtain ⟨-, rfl⟩ := Prod.mk.inj (Option.some.inj h)
          rw [skips_columnValue t _ _ _ hv]
          exact skips_maskedPayloads ts count mask (i + 1) _ _ _ hvs
      · rename_i hlt
        obtain ⟨-, rfl⟩ := Prod.mk.inj (Option.some.inj h)
        rw [if_neg hlt]

end

end Plexdb.Cql
