import Mathlib
import Plexdb.Wire

/-! Byte memories, the fixed-width fields in them, and areas filled with pieces: a piece is laid below the ones
before it, and the gap of a removed piece is closed from below. -/

namespace Plexdb.ByteArea

/-- The bytes from a base address on. -/
abbrev Memory := Nat → UInt8

namespace Memory

open Wire (leBytes leValue)

def read (m : Memory) (off len : Nat) : Bytes := (List.range len).map fun i => m (off + i)

/-- A copy of bytes to an address. A move within the memory writes what was read before. -/
def put (m : Memory) (dst : Nat) (bs : Bytes) : Memory := fun a =>
  if dst ≤ a ∧ a < dst + bs.length then bs.getD (a - dst) 0 else m a

variable {m m' : Memory} {dst off len : Nat} {bs : Bytes}

@[simp] theorem length_read (m : Memory) (off len : Nat) : (m.read off len).length = len := by
  rw [read, List.length_map, List.length_range]

@[simp] theorem read_zero (m : Memory) (off : Nat) : m.read off 0 = [] := rfl

theorem getD_read {i : Nat} (hi : i < len) : (m.read off len).getD i 0 = m (off + i) := by
  rw [List.getD_eq_getElem _ _ (by rwa [length_read])]
  simp [read]

theorem read_congr {off' : Nat} (h : ∀ i < len, m (off + i) = m' (off' + i)) : m.read off len = m'.read off' len := by
  rw [read, read]
  exact List.map_congr_left fun i hi => h i (List.mem_range.mp hi)

theorem put_of_lt {a : Nat} (h : a < dst) : m.put dst bs a = m a := if_neg fun hin => by omega

theorem put_of_ge {a : Nat} (h : dst + bs.length ≤ a) : m.put dst bs a = m a := if_neg fun hin => by omega

@[simp] theorem read_put_self (m : Memory) (dst : Nat) (bs : Bytes) : (m.put dst bs).read dst bs.length = bs := by
  apply List.ext_getElem
  · exact length_read _ _ _
  · intro i hi hi'
    simp [read, put, hi']

theorem read_put_apart (h : len = 0 ∨ off + len ≤ dst ∨ dst + bs.length ≤ off) :
    (m.put dst bs).read off len = m.read off len := by
  refine read_congr fun i hi => ?_
  rcases h with h | h | h
  · omega
  · exact put_of_lt (by omega)
  · exact put_of_ge (by omega)

@[simp] theorem put_read (m : Memory) (off len : Nat) : m.put off (m.read off len) = m := by
  funext a
  rw [put]
  split_ifs with h
  · rw [length_read] at h
    rw [getD_read (by omega)]
    congr 1
    omega
  · rfl

/-- What stands inside moved bytes. -/
theorem read_moved {src n : Nat} (hlow : dst ≤ off) (hhigh : off + len ≤ dst + n) :
    (m.put dst (m'.read src n)).read off len = m'.read (off - dst + src) len := by
  refine read_congr fun i hi => ?_
  have hin : dst ≤ off + i ∧ off + i < dst + (m'.read src n).length := by
    rw [length_read]
    omega
  rw [put, if_pos hin, getD_read (by omega)]
  congr 1
  omega

/-! ### Fields -/

/-- The little-endian number of `n` bytes. -/
def field (m : Memory) (off n : Nat) : Nat := leValue (m.read off n)

def setField (m : Memory) (off n value : Nat) : Memory := m.put off (leBytes n value)

theorem leValue_lt (bs : Bytes) : leValue bs < 256 ^ bs.length := by
  induction bs with
  | nil => exact Nat.one_pos
  | cons b bs ih =>
      have hb : b.toNat < 256 := b.toNat_lt
      rw [leValue, List.length_cons, Nat.pow_succ]
      omega

theorem field_lt (m : Memory) (off n : Nat) : m.field off n < 256 ^ n := by
  have h := leValue_lt (m.read off n)
  rwa [length_read] at h

variable {n value : Nat}

theorem field_setField (h : value < 256 ^ n) : (m.setField off n value).field off n = value := by
  have hread : (m.setField off n value).read off n = leBytes n value := by
    have hself := read_put_self m off (leBytes n value)
    rwa [Wire.length_leBytes] at hself
  rw [field, hread, Wire.leValue_leBytes n value h]

theorem read_setField (h : len = 0 ∨ off + len ≤ dst ∨ dst + n ≤ off) :
    (m.setField dst n value).read off len = m.read off len := by
  refine read_put_apart ?_
  rwa [Wire.length_leBytes]

theorem field_setField_apart {n' : Nat} (h : off + n' ≤ dst ∨ dst + n ≤ off) :
    (m.setField dst n value).field off n' = m.field off n' := by
  rw [field, read_setField (.inr h), field]

theorem field_put_apart {n' : Nat} (h : off + n' ≤ dst ∨ dst + bs.length ≤ off) :
    (m.put dst bs).field off n' = m.field off n' := by
  rw [field, read_put_apart (.inr h), field]

theorem field_moved {src n' : Nat} (hlow : dst ≤ off) (hhigh : off + n' ≤ dst + n) :
    (m.put dst (m'.read src n)).field off n' = m'.field (off - dst + src) n' := by
  rw [field, read_moved hlow hhigh, field]

/-- The memories have the same bytes from an address on. -/
def AgreeFrom (low : Nat) (m m' : Memory) : Prop := ∀ a, low ≤ a → m' a = m a

theorem AgreeFrom.refl (low : Nat) (m : Memory) : AgreeFrom low m m := fun _ _ => rfl

theorem AgreeFrom.put {low : Nat} (h : AgreeFrom low m m') (hdst : dst + bs.length ≤ low) :
    AgreeFrom low m (m'.put dst bs) :=
  fun a ha => (put_of_ge (hdst.trans ha)).trans (h a ha)

theorem AgreeFrom.setField {low : Nat} (h : AgreeFrom low m m') (hdst : dst + n ≤ low) :
    AgreeFrom low m (m'.setField dst n value) :=
  h.put (by rwa [Wire.length_leBytes])

theorem AgreeFrom.field {low : Nat} (h : AgreeFrom low m m') (hoff : low ≤ off) : m'.field off n = m.field off n := by
  rw [Memory.field, Memory.field, read_congr fun i _ => h (off + i) (hoff.trans (Nat.le_add_right off i))]

theorem AgreeFrom.mono {low low' : Nat} (h : AgreeFrom low m m') (hle : low ≤ low') : AgreeFrom low' m m' :=
  fun a ha => h a (hle.trans ha)

theorem AgreeFrom.trans {m'' : Memory} {low : Nat} (h : AgreeFrom low m m') (h' : AgreeFrom low m' m'') :
    AgreeFrom low m m'' :=
  fun a ha => (h' a ha).trans (h a ha)

end Memory

/-! ### Pieces -/

structure Piece where
  off : Nat
  len : Nat
deriving DecidableEq

namespace Piece

def read (m : Memory) (p : Piece) : Bytes := m.read p.off p.len

/-- No byte belongs to both. -/
def Apart (p q : Piece) : Prop := p.len = 0 ∨ q.len = 0 ∨ p.off + p.len ≤ q.off ∨ q.off + q.len ≤ p.off

theorem Apart.symm {p q : Piece} (h : Apart p q) : Apart q p := by
  rcases h with h | h | h | h
  · exact .inr (.inl h)
  · exact .inl h
  · exact .inr (.inr (.inr h))
  · exact .inr (.inr (.inl h))

/-- Where a piece stands when the gap of the removed one is closed from below. -/
def shift (removed p : Piece) : Piece := ⟨if p.off < removed.off then p.off + removed.len else p.off, p.len⟩

@[simp] theorem shift_len (removed p : Piece) : (shift removed p).len = p.len := rfl

variable {r p q : Piece}

theorem shift_of_lt (h : p.off < r.off) : shift r p = ⟨p.off + r.len, p.len⟩ := by rw [shift, if_pos h]

theorem shift_of_ge (h : r.off ≤ p.off) : shift r p = p := by rw [shift, if_neg (Nat.not_lt.mpr h)]

theorem shift_of_empty (h : r.len = 0) : shift r p = p := by
  rw [shift, h, Nat.add_zero, ite_self]

/-- Closing a gap keeps the order of the others. -/
theorem shift_below (hp : Apart r p) (hq : Apart r q) (hplen : 0 < p.len) (hqlen : 0 < q.len)
    (h : p.off + p.len ≤ q.off) : (shift r p).off + p.len ≤ (shift r q).off := by
  rw [Apart] at hp hq
  rcases Nat.lt_or_ge q.off r.off with hlt | hge
  · rw [shift_of_lt hlt, shift_of_lt (by omega)]
    dsimp only
    omega
  · rw [shift_of_ge hge]
    rcases Nat.lt_or_ge p.off r.off with hlt | hge'
    · rw [shift_of_lt hlt]
      dsimp only
      omega
    · rwa [shift_of_ge hge']

theorem Apart.shift (hp : Apart r p) (hq : Apart r q) (h : Apart p q) : Apart (shift r p) (shift r q) := by
  rcases Nat.eq_zero_or_pos p.len with hplen | hplen
  · exact .inl hplen
  rcases Nat.eq_zero_or_pos q.len with hqlen | hqlen
  · exact .inr (.inl hqlen)
  rcases h with h | h | h | h
  · exact .inl h
  · exact .inr (.inl h)
  · exact .inr (.inr (.inl (shift_below hp hq hplen hqlen h)))
  · exact .inr (.inr (.inr (shift_below hq hp hqlen hplen h)))

end Piece

/-- The pieces lie in `[low, high)`, apart from each other. -/
structure Laid (low high : Nat) (ps : List Piece) : Prop where
  high : ∀ p ∈ ps, p.off + p.len ≤ high
  low : ∀ p ∈ ps, p.len = 0 ∨ low ≤ p.off
  apart : ps.Pairwise Piece.Apart

namespace Laid

open Piece

variable {low high : Nat} {p r : Piece} {ps qs : List Piece} {m : Memory} {bs : Bytes}

theorem nil (low high : Nat) : Laid low high [] :=
  ⟨fun _ hp => absurd hp List.not_mem_nil, fun _ hp => absurd hp List.not_mem_nil, List.Pairwise.nil⟩

theorem perm (h : Laid low high ps) (hperm : ps.Perm qs) : Laid low high qs :=
  ⟨fun p hp => h.high p (hperm.mem_iff.mpr hp), fun p hp => h.low p (hperm.mem_iff.mpr hp),
    (hperm.pairwise_iff fun hpq => Apart.symm hpq).mp h.apart⟩

theorem cons_iff : Laid low high (p :: ps) ↔
    (p.off + p.len ≤ high ∧ (p.len = 0 ∨ low ≤ p.off) ∧ ∀ q ∈ ps, Apart p q) ∧ Laid low high ps := by
  constructor
  · rintro ⟨hhigh, hlow, hapart⟩
    obtain ⟨hp, hps⟩ := List.pairwise_cons.mp hapart
    obtain ⟨hphigh, hhigh⟩ := List.forall_mem_cons.mp hhigh
    obtain ⟨hplow, hlow⟩ := List.forall_mem_cons.mp hlow
    exact ⟨⟨hphigh, hplow, hp⟩, hhigh, hlow, hps⟩
  · rintro ⟨⟨hphigh, hplow, hp⟩, hhigh, hlow, hps⟩
    exact ⟨List.forall_mem_cons.mpr ⟨hphigh, hhigh⟩, List.forall_mem_cons.mpr ⟨hplow, hlow⟩,
      List.pairwise_cons.mpr ⟨hp, hps⟩⟩

theorem mono {low' : Nat} (h : Laid low high ps) (hle : low' ≤ low) : Laid low' high ps :=
  ⟨h.high, fun p hp => (h.low p hp).imp_right hle.trans, h.apart⟩

theorem read_within (h : Laid low high ps) {m' : Memory} (hsame : ∀ a, low ≤ a → a < high → m' a = m a) (hp : p ∈ ps) :
    p.read m' = p.read m := by
  refine Memory.read_congr fun i hi => ?_
  have hphigh := h.high p hp
  rcases h.low p hp with hlen | hlow
  · omega
  · exact hsame _ (hlow.trans (Nat.le_add_right _ _)) (by omega)

/-- Writes below the area leave its pieces. -/
theorem read_agree (h : Laid low high ps) {m' : Memory} (hagree : Memory.AgreeFrom low m m') (hp : p ∈ ps) :
    p.read m' = p.read m :=
  h.read_within (fun a ha _ => hagree a ha) hp

/-- A new piece right below the area. -/
theorem alloc (h : Laid low high ps) {len : Nat} (hlen : len ≤ low) (hlow : low ≤ high) :
    Laid (low - len) high (⟨low - len, len⟩ :: ps) := by
  refine cons_iff.mpr ⟨⟨?_, .inr le_rfl, ?_⟩, h.mono (Nat.sub_le low len)⟩
  · dsimp only
    omega
  · intro q hq
    rcases h.low q hq with hq | hq
    · exact .inr (.inl hq)
    · exact .inr (.inr (.inl (by dsimp only; omega)))

theorem read_alloc_self (m : Memory) (low : Nat) (bs : Bytes) :
    (⟨low - bs.length, bs.length⟩ : Piece).read (m.put (low - bs.length) bs) = bs :=
  Memory.read_put_self m (low - bs.length) bs

/-- The bytes below the removed piece, moved up over it. -/
def closeGap (low : Nat) (r : Piece) (m : Memory) : Memory :=
  m.put (low + r.len) (m.read low (r.off - low))

theorem shift (h : Laid low high (r :: ps)) : Laid (low + r.len) high (ps.map (Piece.shift r)) := by
  obtain ⟨⟨hrhigh, hrlow, hr⟩, hps⟩ := cons_iff.mp h
  refine ⟨?_, ?_, ?_⟩
  · intro q hq
    obtain ⟨p, hp, rfl⟩ := List.mem_map.mp hq
    have hphigh := hps.high p hp
    have hapart := hr p hp
    rw [Apart] at hapart
    rcases Nat.lt_or_ge p.off r.off with hlt | hge
    · rw [shift_of_lt hlt]
      dsimp only
      omega
    · rwa [shift_of_ge hge]
  · intro q hq
    obtain ⟨p, hp, rfl⟩ := List.mem_map.mp hq
    have hplow := hps.low p hp
    have hapart := hr p hp
    rw [Apart] at hapart
    rcases Nat.lt_or_ge p.off r.off with hlt | hge
    · rw [shift_of_lt hlt]
      dsimp only
      omega
    · rw [shift_of_ge hge]
      omega
  · rw [List.pairwise_map]
    refine hps.apart.imp_of_mem fun {p q} hp hq hpq => ?_
    exact Apart.shift (hr p hp) (hr q hq) hpq

/-- Closing the gap keeps the bytes of the others. -/
theorem read_shift (h : Laid low high (r :: ps)) (hrlow : low ≤ r.off) (hp : p ∈ ps) :
    (Piece.shift r p).read (closeGap low r m) = p.read m := by
  obtain ⟨⟨-, -, hr⟩, hps⟩ := cons_iff.mp h
  have hapart := hr p hp
  have hplow := hps.low p hp
  rw [Apart] at hapart
  rcases Nat.eq_zero_or_pos p.len with hlen | hlen
  · rw [Piece.read, Piece.read, shift_len, hlen, Memory.read_zero, Memory.read_zero]
  rcases Nat.eq_zero_or_pos r.len with hrlen | hrlen
  · rw [closeGap, hrlen, Nat.add_zero, Memory.put_read, shift_of_empty hrlen]
  rw [Piece.read, closeGap]
  rcases Nat.lt_or_ge p.off r.off with hlt | hge
  · rw [shift_of_lt hlt, Memory.read_moved (by dsimp only; omega) (by dsimp only; omega), Piece.read]
    congr 1
    dsimp only
    omega
  · rw [shift_of_ge hge, Memory.read_put_apart (by rw [Memory.length_read]; omega), Piece.read]

end Laid

end Plexdb.ByteArea
