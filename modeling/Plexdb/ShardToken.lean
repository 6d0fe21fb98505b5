import Mathlib
import Plexdb.EvenSplit
import Plexdb.XxHash

/-! The shard that owns a key (`core/shard/token.cppm`): the high part of the product of the key's token and the
number of shards. -/

namespace Plexdb.Shard

def tokenSeed : UInt64 := 0x706c65786462

def tokenOf (key : Bytes) : UInt64 := XxHash64.hash key tokenSeed

/-- `owning_shard`, where the compiler has 128-bit integers. -/
def owningShard (token : UInt64) (shardCount : UInt32) : UInt32 :=
  if shardCount ≤ 1 then 0
  else
    let product : BitVec 128 := token.toBitVec.setWidth 128 * shardCount.toBitVec.setWidth 128
    UInt32.ofBitVec ((product >>> 64).setWidth 32)

/-- `owning_shard`, where it has not. -/
def owningShardPortable (token : UInt64) (shardCount : UInt32) : UInt32 :=
  if shardCount ≤ 1 then 0
  else
    let hi := token >>> 32
    let lo := token &&& 0xFFFFFFFF
    ((hi * shardCount.toUInt64 + ((lo * shardCount.toUInt64) >>> 32)) >>> 32).toUInt32

def shardForKey (key : Bytes) (shardCount : UInt32) : UInt32 := owningShard (tokenOf key) shardCount

/-- None of the portable computation's products and sums reaches `2 ^ 64`, and its result fits 32 bits. -/
structure PortableFits (token : UInt64) (shardCount : UInt32) : Prop where
  high : (token >>> 32).toNat * shardCount.toNat < 2 ^ 64
  low : (token &&& 0xFFFFFFFF).toNat * shardCount.toNat < 2 ^ 64
  sum : (token >>> 32).toNat * shardCount.toNat
    + (token &&& 0xFFFFFFFF).toNat * shardCount.toNat / 2 ^ 32 < 2 ^ 64

/-- The tokens that a shard owns. -/
def owned (shardCount shard : UInt32) : Set UInt64 := {token | owningShard token shardCount = shard}

/-! ### The value computed -/

theorem owningShard_toNat {n : UInt32} (hn : 0 < n) (token : UInt64) :
    (owningShard token n).toNat = token.toNat * n.toNat / 2 ^ 64 := by
  have ht : token.toNat < 2 ^ 64 := token.toNat_lt
  have hn' : n.toNat < 2 ^ 32 := n.toNat_lt
  have hpos : 0 < n.toNat := hn
  rw [owningShard]
  split_ifs with h
  · have h1 : n.toNat = 1 := by
      have : n.toNat ≤ 1 := h
      omega
    rw [h1, Nat.mul_one, Nat.div_eq_of_lt ht]
    rfl
  · have hprod : token.toNat * n.toNat < 2 ^ 64 * 2 ^ 32 := Nat.mul_lt_mul'' ht hn'
    have hdiv : token.toNat * n.toNat / 2 ^ 64 < 2 ^ 32 := by omega
    simp only [UInt32.toNat_ofBitVec, BitVec.toNat_setWidth, BitVec.toNat_ushiftRight, BitVec.toNat_mul,
      UInt64.toNat_toBitVec, UInt32.toNat_toBitVec, Nat.shiftRight_eq_div_pow]
    rw [Nat.mod_eq_of_lt (by omega : token.toNat < 2 ^ 128), Nat.mod_eq_of_lt (by omega : n.toNat < 2 ^ 128),
      Nat.mod_eq_of_lt (by omega : token.toNat * n.toNat < 2 ^ 128), Nat.mod_eq_of_lt hdiv]

theorem high_toNat (x : UInt64) : (x >>> 32).toNat = x.toNat / 2 ^ 32 := by
  rw [UInt64.toNat_shiftRight, Nat.shiftRight_eq_div_pow]
  rfl

theorem low_toNat (token : UInt64) : (token &&& 0xFFFFFFFF).toNat = token.toNat % 2 ^ 32 := by
  rw [UInt64.toNat_and]
  exact Nat.and_two_pow_sub_one_eq_mod token.toNat 32

theorem portableFits (token : UInt64) (n : UInt32) : PortableFits token n := by
  have ht : token.toNat < 2 ^ 64 := token.toNat_lt
  have hn : n.toNat ≤ 2 ^ 32 - 1 := by
    have := n.toNat_lt
    omega
  have hhi : (token >>> 32).toNat ≤ 2 ^ 32 - 1 := by
    rw [high_toNat]
    omega
  have hlo : (token &&& 0xFFFFFFFF).toNat ≤ 2 ^ 32 - 1 := by
    rw [low_toNat]
    omega
  have h1 := Nat.mul_le_mul hhi hn
  have h2 := Nat.mul_le_mul hlo hn
  constructor <;> omega

/-- The high part of a product, from the products of the halves. -/
theorem split_mul (T n : ℕ) :
    (T / 2 ^ 32 * n + T % 2 ^ 32 * n / 2 ^ 32) / 2 ^ 32 = T * n / 2 ^ 64 := by
  have hsplit : T * n = 2 ^ 32 * (T / 2 ^ 32 * n) + T % 2 ^ 32 * n := by
    calc T * n = (2 ^ 32 * (T / 2 ^ 32) + T % 2 ^ 32) * n := by rw [Nat.div_add_mod]
      _ = 2 ^ 32 * (T / 2 ^ 32 * n) + T % 2 ^ 32 * n := by ring
  calc (T / 2 ^ 32 * n + T % 2 ^ 32 * n / 2 ^ 32) / 2 ^ 32
      = T * n / 2 ^ 32 / 2 ^ 32 := by rw [hsplit, Nat.mul_add_div (by norm_num)]
    _ = T * n / 2 ^ 64 := by rw [Nat.div_div_eq_div_mul]; norm_num

theorem portable_eq (token : UInt64) (n : UInt32) : owningShardPortable token n = owningShard token n := by
  by_cases h : n ≤ 1
  · rw [owningShardPortable, owningShard, if_pos h, if_pos h]
  have hn : 0 < n := by
    have : ¬ n.toNat ≤ 1 := h
    change 0 < n.toNat
    omega
  have hlt : token.toNat * n.toNat / 2 ^ 64 < 2 ^ 32 :=
    (EvenSplit.part_lt hn token.toNat_lt).trans n.toNat_lt
  obtain ⟨hhigh, hlow, hsum⟩ := portableFits token n
  apply UInt32.toNat_inj.mp
  rw [owningShard_toNat hn, owningShardPortable, if_neg h]
  rw [high_toNat] at hhigh hsum
  rw [low_toNat] at hlow hsum
  simp only [UInt64.toNat_toUInt32, UInt64.toNat_add, UInt64.toNat_mul, UInt32.toNat_toUInt64, low_toNat,
    high_toNat]
  rw [Nat.mod_eq_of_lt hhigh, Nat.mod_eq_of_lt hlow, Nat.mod_eq_of_lt hsum, split_mul, Nat.mod_eq_of_lt hlt]

/-! ### The division of the tokens -/

theorem owningShard_lt {n : UInt32} (hn : 0 < n) (token : UInt64) : owningShard token n < n := by
  change (owningShard token n).toNat < n.toNat
  rw [owningShard_toNat hn]
  exact EvenSplit.part_lt hn token.toNat_lt

theorem owningShard_mono {n : UInt32} (hn : 0 < n) {s t : UInt64} (h : s ≤ t) :
    owningShard s n ≤ owningShard t n := by
  change (owningShard s n).toNat ≤ (owningShard t n).toNat
  rw [owningShard_toNat hn, owningShard_toNat hn]
  exact EvenSplit.part_mono h

theorem mem_owned {n : UInt32} (hn : 0 < n) {shard : UInt32} {token : UInt64} :
    token ∈ owned n shard ↔ token.toNat * n.toNat / 2 ^ 64 = shard.toNat := by
  rw [owned, Set.mem_ofPred_eq, ← UInt32.toNat_inj, owningShard_toNat hn]

/-- The tokens of a shard are those of one interval. -/
theorem toNat_image_owned {n : UInt32} (hn : 0 < n) {shard : UInt32} (hs : shard < n) :
    UInt64.toNat '' owned n shard
      = ↑(Finset.Ico (EvenSplit.start (2 ^ 64) n.toNat shard.toNat)
          (EvenSplit.start (2 ^ 64) n.toNat (shard.toNat + 1))) := by
  rw [← EvenSplit.filter_part (by norm_num) (UInt32.lt_iff_toNat_lt.mp hn) (UInt32.lt_iff_toNat_lt.mp hs)]
  ext t
  simp only [Set.mem_image, Finset.coe_filter, Finset.mem_range, Set.mem_ofPred_eq]
  constructor
  · rintro ⟨token, htoken, rfl⟩
    exact ⟨token.toNat_lt, (mem_owned hn).mp htoken⟩
  · rintro ⟨hlt, hpart⟩
    have ht : (UInt64.ofNat t).toNat = t := UInt64.toNat_ofNat_of_lt' hlt
    refine ⟨UInt64.ofNat t, (mem_owned hn).mpr ?_, ht⟩
    rw [ht]
    exact hpart

theorem ncard_owned {n : UInt32} (hn : 0 < n) {shard : UInt32} (hs : shard < n) :
    (owned n shard).ncard = EvenSplit.start (2 ^ 64) n.toNat (shard.toNat + 1)
      - EvenSplit.start (2 ^ 64) n.toNat shard.toNat := by
  rw [← Set.ncard_image_of_injective (owned n shard) (fun _ _ => UInt64.toNat_inj.mp),
    toNat_image_owned hn hs, Set.ncard_coe_finset, Nat.card_Ico]

/-- Every key is owned by one of the shards. -/
theorem shardForKey_lt {n : UInt32} (hn : 0 < n) (key : Bytes) : shardForKey key n < n :=
  owningShard_lt hn (tokenOf key)

/-- The shards divide the tokens into contiguous ranges of sizes that differ by at most one, and the computation
without 128-bit integers finds the same shard without an overflow. -/
theorem owningShard_divides (n : UInt32) (hn : 0 < n) :
    (∀ token, owningShard token n < n) ∧
    (∀ s t, s ≤ t → owningShard s n ≤ owningShard t n) ∧
    (∀ shard, shard < n → ∃ lo hi : ℕ, ∀ token : UInt64,
      token ∈ owned n shard ↔ lo ≤ token.toNat ∧ token.toNat < hi) ∧
    (∀ s t, s < n → t < n → (owned n s).ncard ≤ (owned n t).ncard + 1) ∧
    (∀ token, PortableFits token n ∧ owningShardPortable token n = owningShard token n) := by
  refine ⟨owningShard_lt hn, fun s t => owningShard_mono hn, ?_, ?_, ?_⟩
  · intro shard _
    refine ⟨EvenSplit.start (2 ^ 64) n.toNat shard.toNat, EvenSplit.start (2 ^ 64) n.toNat (shard.toNat + 1), ?_⟩
    intro token
    rw [mem_owned hn, EvenSplit.part_eq_iff (by norm_num) (UInt32.lt_iff_toNat_lt.mp hn)]
  · intro s t hs ht
    rw [ncard_owned hn hs, ncard_owned hn ht]
    exact EvenSplit.size_le hn s.toNat t.toNat
  · intro token
    exact ⟨portableFits token n, portable_eq token n⟩

theorem owningShard_divides_five : owningShard 0xFFFFFFFFFFFFFFFF 5 < 5 :=
  (owningShard_divides 5 (by decide)).1 0xFFFFFFFFFFFFFFFF

end Plexdb.Shard
