import Plexdb.Token

/-! The streamed and the one-shot token are the token of the reference hash with signed tail bytes, for every way of
splitting the bytes into pieces. -/

namespace Plexdb.Cql.Token

open Murmur3 (Lanes)
open BlockStream (absorb)

def lanes (h : UInt64 × UInt64) : Lanes := ⟨h.1, h.2⟩

/-! ### Blocks -/

theorem lanes_processBlock (h : UInt64 × UInt64) (block : Bytes) :
    lanes (processBlock h block) = Murmur3.body (lanes h) (block.take 16) := by
  have hlow : (block.take 16).take 8 = block.take 8 := by rw [List.take_take]; rfl
  have hhigh : (block.take 16).drop 8 = (block.drop 8).take 8 := by rw [List.drop_take]
  rw [Murmur3.body, hlow, hhigh]
  rfl

namespace Murmur3State

theorem blockLoop_eq (h : UInt64 × UInt64) (data : Bytes) :
    (lanes (blockLoop h data).1, (blockLoop h data).2) = absorb 16 Murmur3.body (lanes h) data := by
  induction h, data using blockLoop.induct with
  | case1 h data hlen ih =>
      rw [blockLoop, dif_pos hlen, ih, BlockStream.absorb_block _ (by decide) hlen, lanes_processBlock]
  | case2 h data hlen => rw [blockLoop, dif_neg hlen, BlockStream.absorb_short _ (Nat.lt_of_not_le hlen)]

/-- The carry is filled with the front of the data: either it is used up then, or all of the data is. -/
theorem fillCarry_spec {s s' : Murmur3State} {data rest : Bytes} (hcarry : s.carry.length < 16)
    (h : s.fillCarry data = (s', rest)) :
    absorb 16 Murmur3.body (lanes s.h) (s.carry ++ data) = absorb 16 Murmur3.body (lanes s'.h) (s'.carry ++ rest) ∧
      s'.totalLen = s.totalLen ∧ (s'.carry = [] ∨ rest = [] ∧ s'.carry.length < 16) := by
  rw [fillCarry] at h
  by_cases hempty : s.carry.length > 0
  · rw [if_pos hempty] at h
    dsimp only at h
    by_cases hshort : data.length < 16 - s.carry.length
    · rw [if_pos hshort, List.take_length, List.drop_length, if_neg (by rw [List.length_append]; omega)] at h
      cases h
      refine ⟨by rw [List.append_nil], rfl, Or.inr ⟨rfl, ?_⟩⟩
      rw [List.length_append]
      omega
    · have hfull : (s.carry ++ data.take (16 - s.carry.length)).length = 16 := by
        rw [List.length_append, List.length_take]
        omega
      have hblock : 16 ≤ (s.carry ++ data).length := by
        rw [List.length_append]
        omega
      have htake : (s.carry ++ data).take 16 = s.carry ++ data.take (16 - s.carry.length) := by
        rw [List.take_append, List.take_of_length_le (by omega)]
      have hdrop : (s.carry ++ data).drop 16 = data.drop (16 - s.carry.length) := by
        rw [List.drop_append, List.drop_of_length_le (by omega), List.nil_append]
      rw [if_neg hshort, if_pos hfull] at h
      obtain ⟨rfl, rfl⟩ := Prod.mk.inj h
      refine ⟨?_, rfl, Or.inl rfl⟩
      have hlanes := lanes_processBlock s.h (s.carry ++ data.take (16 - s.carry.length))
      rw [List.take_of_length_le (Nat.le_of_eq hfull)] at hlanes
      calc
        absorb 16 Murmur3.body (lanes s.h) (s.carry ++ data)
            = absorb 16 Murmur3.body (Murmur3.body (lanes s.h) ((s.carry ++ data).take 16))
                ((s.carry ++ data).drop 16) := BlockStream.absorb_block _ (by decide) hblock
        _ = absorb 16 Murmur3.body (lanes (processBlock s.h (s.carry ++ data.take (16 - s.carry.length))))
                (data.drop (16 - s.carry.length)) := by rw [htake, hdrop, hlanes]
  · rw [if_neg hempty] at h
    cases h
    exact ⟨rfl, rfl, Or.inl (List.eq_nil_of_length_eq_zero (by omega))⟩

/-- The state after the bytes `data`. -/
structure Consumed (s : Murmur3State) (data : Bytes) : Prop where
  absorbed : absorb 16 Murmur3.body ⟨0, 0⟩ data = (lanes s.h, s.carry)
  totalLen : s.totalLen = UInt64.ofNat data.length

theorem Consumed.length_carry {s : Murmur3State} {data : Bytes} (h : Consumed s data) : s.carry.length < 16 := by
  have hlt : (absorb 16 Murmur3.body ⟨0, 0⟩ data).2.length < 16 := BlockStream.length_absorb_lt (by decide) _ _
  rwa [h.absorbed] at hlt

theorem Consumed.update {s : Murmur3State} {data : Bytes} (h : Consumed s data) (piece : Bytes) :
    Consumed (s.update piece) (data ++ piece) := by
  cases hfill : fillCarry { s with totalLen := s.totalLen + UInt64.ofNat piece.length } piece with
  | mk s' rest =>
      obtain ⟨habsorb, htotal, hleft⟩ := fillCarry_spec
        (s := { s with totalLen := s.totalLen + UInt64.ofNat piece.length }) h.length_carry hfill
      have hupdate : s.update piece = { s' with
          h := (blockLoop s'.h rest).1
          carry := if (blockLoop s'.h rest).2.length > 0 then s'.carry ++ (blockLoop s'.h rest).2 else s'.carry } := by
        rw [Murmur3State.update, hfill]
      have hloop := blockLoop_eq s'.h rest
      rw [hupdate]
      refine ⟨?_, ?_⟩
      · rw [BlockStream.absorb_append (by decide), h.absorbed, habsorb]
        rcases hleft with hcarry | ⟨hrest, hlen⟩
        · rw [hcarry, List.nil_append, ← hloop, List.nil_append]
          split
          · rfl
          · rw [List.eq_nil_of_length_eq_zero (by omega : (blockLoop s'.h rest).2.length = 0)]
        · have hnil : blockLoop s'.h [] = (s'.h, []) := by rw [blockLoop, dif_neg (by decide)]
          rw [hrest, hnil, List.append_nil, BlockStream.absorb_short _ hlen]
          rfl
      · rw [htotal, List.length_append, UInt64.ofNat_add, ← h.totalLen]

/-- A run over the pieces of a string. -/
theorem Consumed.foldl {s : Murmur3State} {data : Bytes} (h : Consumed s data) (pieces : List Bytes) :
    Consumed (pieces.foldl Murmur3State.update s) (data ++ pieces.flatten) := by
  induction pieces generalizing s data with
  | nil => rwa [List.flatten_nil, List.append_nil]
  | cons piece pieces ih =>
      rw [List.foldl_cons, List.flatten_cons, ← List.append_assoc]
      exact ih (h.update piece)

end Murmur3State

end Plexdb.Cql.Token
