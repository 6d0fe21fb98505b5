import Plexdb.Bytes

/-! Fixed-width little-endian fields and counted runs. A reader takes bytes from the front of a
stream and hands back what is left, or fails when the stream is too short. -/

namespace Plexdb.Wire

abbrev Reader (α : Type) := Bytes → Option (α × Bytes)

def leBytes : Nat → Nat → Bytes
  | 0, _ => []
  | n + 1, x => UInt8.ofNat (x % 256) :: leBytes n (x / 256)

def leValue : Bytes → Nat
  | [] => 0
  | b :: bs => b.toNat + 256 * leValue bs

theorem length_leBytes (n x : Nat) : (leBytes n x).length = n := by
  induction n generalizing x with
  | zero => rfl
  | succ n ih => rw [leBytes, List.length_cons, ih]

theorem leValue_leBytes (n x : Nat) (h : x < 256 ^ n) : leValue (leBytes n x) = x := by
  induction n generalizing x with
  | zero => rw [Nat.pow_zero] at h; rw [leBytes, leValue]; omega
  | succ n ih =>
      have hdiv : x / 256 < 256 ^ n := by
        rw [Nat.div_lt_iff_lt_mul (by decide)]
        rwa [Nat.pow_succ] at h
      have hbyte : (UInt8.ofNat (x % 256)).toNat = x % 256 := by simp
      rw [leBytes, leValue, ih _ hdiv, hbyte]
      omega

/-- The next `n` bytes. -/
def take (n : Nat) : Reader Bytes := fun s =>
  if n ≤ s.length then some (s.take n, s.drop n) else none

theorem take_append {n : Nat} {front : Bytes} (h : front.length = n) (rest : Bytes) :
    take n (front ++ rest) = some (front, rest) := by
  subst h
  simp [take]

theorem take_eq_some {n : Nat} {s front rest : Bytes} (h : take n s = some (front, rest)) :
    front.length = n := by
  unfold take at h
  split_ifs at h with hle
  obtain ⟨rfl, -⟩ := Prod.mk.inj (Option.some.inj h)
  exact List.length_take_of_le hle

/-! ### Scalars: the raw bytes of an `n`-byte integer or float -/

def writeRaw (n : Nat) (x : BitVec (8 * n)) : Bytes := leBytes n x.toNat

def readRaw (n : Nat) : Reader (BitVec (8 * n)) := fun s => do
  let (front, s) ← take n s
  pure (BitVec.ofNat (8 * n) (leValue front), s)

theorem readRaw_writeRaw (n : Nat) (x : BitVec (8 * n)) (rest : Bytes) :
    readRaw n (writeRaw n x ++ rest) = some (x, rest) := by
  have hx : x.toNat < 256 ^ n := by
    have := x.isLt
    rwa [Nat.pow_mul] at this
  rw [readRaw, writeRaw, take_append (length_leBytes n x.toNat)]
  simp [leValue_leBytes n _ hx]

/-- A `U64` that holds a count. -/
def writeCount (n : Nat) : Bytes := writeRaw 8 (BitVec.ofNat 64 n)

def readCount : Reader Nat := fun s => do
  let (n, s) ← readRaw 8 s
  pure (n.toNat, s)

theorem readCount_writeCount {n : Nat} (h : n < 2 ^ 64) (rest : Bytes) :
    readCount (writeCount n ++ rest) = some (n, rest) := by
  rw [readCount, writeCount, readRaw_writeRaw]
  simpa using h

/-- A `U64` length and that many bytes. -/
def writePrefixed (bytes : Bytes) : Bytes := writeCount bytes.length ++ bytes

def readPrefixed : Reader Bytes := fun s => do
  let (n, s) ← readCount s
  take n s

theorem readPrefixed_writePrefixed {bytes : Bytes} (h : bytes.length < 2 ^ 64) (rest : Bytes) :
    readPrefixed (writePrefixed bytes ++ rest) = some (bytes, rest) := by
  rw [readPrefixed, writePrefixed, List.append_assoc, readCount_writeCount h]
  exact take_append rfl rest

/-! ### Pairs and runs -/

variable {α β : Type}

def readPair (readFront : Reader α) (readBack : Reader β) : Reader (α × β) := fun s => do
  let (a, s) ← readFront s
  let (b, s) ← readBack s
  pure ((a, b), s)

def writePair (writeFront : α → Option Bytes) (writeBack : β → Option Bytes) (e : α × β) :
    Option Bytes := do
  let front ← writeFront e.1
  let back ← writeBack e.2
  pure (front ++ back)

theorem readPair_writePair_map {γ δ : Type} {readFront : Reader γ} {readBack : Reader δ}
    {writeFront : α → Option Bytes} {writeBack : β → Option Bytes} {f : α → γ} {g : β → δ} {e : α × β}
    (hfront : ∃ bytes, writeFront e.1 = some bytes ∧
      ∀ rest, readFront (bytes ++ rest) = some (f e.1, rest))
    (hback : ∃ bytes, writeBack e.2 = some bytes ∧
      ∀ rest, readBack (bytes ++ rest) = some (g e.2, rest)) :
    ∃ bytes, writePair writeFront writeBack e = some bytes ∧
      ∀ rest, readPair readFront readBack (bytes ++ rest) = some ((f e.1, g e.2), rest) := by
  obtain ⟨front, hwriteFront, hreadFront⟩ := hfront
  obtain ⟨back, hwriteBack, hreadBack⟩ := hback
  refine ⟨front ++ back, by simp [writePair, hwriteFront, hwriteBack], fun rest => ?_⟩
  rw [readPair, List.append_assoc, hreadFront]
  simp [hreadBack]

theorem readPair_writePair {readFront : Reader α} {readBack : Reader β}
    {writeFront : α → Option Bytes} {writeBack : β → Option Bytes} {e : α × β}
    (hfront : ∃ bytes, writeFront e.1 = some bytes ∧
      ∀ rest, readFront (bytes ++ rest) = some (e.1, rest))
    (hback : ∃ bytes, writeBack e.2 = some bytes ∧
      ∀ rest, readBack (bytes ++ rest) = some (e.2, rest)) :
    ∃ bytes, writePair writeFront writeBack e = some bytes ∧
      ∀ rest, readPair readFront readBack (bytes ++ rest) = some (e, rest) :=
  readPair_writePair_map (f := id) (g := id) hfront hback

theorem readPair_forall {readFront : Reader α} {readBack : Reader β} {P : α → Prop} {Q : β → Prop}
    (hfront : ∀ s a rest, readFront s = some (a, rest) → P a)
    (hback : ∀ s b rest, readBack s = some (b, rest) → Q b) {s rest : Bytes} {e : α × β}
    (h : readPair readFront readBack s = some (e, rest)) : P e.1 ∧ Q e.2 := by
  rw [readPair] at h
  obtain ⟨⟨a, s'⟩, ha, h⟩ := Option.bind_eq_some_iff.mp h
  obtain ⟨⟨b, s''⟩, hb, h⟩ := Option.bind_eq_some_iff.mp h
  obtain ⟨rfl, rfl⟩ := Prod.mk.inj (Option.some.inj h)
  exact ⟨hfront _ _ _ ha, hback _ _ _ hb⟩

/-- `n` items one after another. -/
def readMany (read : Reader α) : Nat → Reader (List α)
  | 0, s => some ([], s)
  | n + 1, s => do
      let (a, s) ← read s
      let (as, s) ← readMany read n s
      pure (a :: as, s)

/-- All items back to back; fails when one cannot be written. -/
def writeMany (write : α → Option Bytes) : List α → Option Bytes
  | [] => some []
  | a :: as => do
      let front ← write a
      let back ← writeMany write as
      pure (front ++ back)

theorem readMany_writeMany_map {read : Reader β} {write : α → Option Bytes} {f : α → β} {as : List α}
    (h : ∀ a ∈ as, ∃ bytes, write a = some bytes ∧ ∀ rest, read (bytes ++ rest) = some (f a, rest)) :
    ∃ bytes, writeMany write as = some bytes ∧
      ∀ rest, readMany read as.length (bytes ++ rest) = some (as.map f, rest) := by
  induction as with
  | nil => exact ⟨[], rfl, fun _ => rfl⟩
  | cons a as ih =>
      obtain ⟨front, hfront, hread⟩ := h a List.mem_cons_self
      obtain ⟨back, hback, hreadMany⟩ := ih fun b hb => h b (List.mem_cons_of_mem a hb)
      refine ⟨front ++ back, by simp [writeMany, hfront, hback], fun rest => ?_⟩
      rw [List.append_assoc, List.length_cons, readMany, hread]
      simp [hreadMany]

theorem readMany_writeMany {read : Reader α} {write : α → Option Bytes} {as : List α}
    (h : ∀ a ∈ as, ∃ bytes, write a = some bytes ∧ ∀ rest, read (bytes ++ rest) = some (a, rest)) :
    ∃ bytes, writeMany write as = some bytes ∧
      ∀ rest, readMany read as.length (bytes ++ rest) = some (as, rest) := by
  simpa using readMany_writeMany_map (f := id) h

theorem readMany_forall {read : Reader α} {P : α → Prop}
    (h : ∀ s a rest, read s = some (a, rest) → P a) {n : Nat} {s rest : Bytes} {as : List α}
    (hread : readMany read n s = some (as, rest)) : ∀ a ∈ as, P a := by
  induction n generalizing s as with
  | zero =>
      obtain ⟨rfl, -⟩ := Prod.mk.inj (Option.some.inj hread)
      simp
  | succ n ih =>
      rw [readMany] at hread
      obtain ⟨⟨a, s'⟩, hhead, hread⟩ := Option.bind_eq_some_iff.mp hread
      obtain ⟨⟨as', s''⟩, htail, hread⟩ := Option.bind_eq_some_iff.mp hread
      obtain ⟨rfl, rfl⟩ := Prod.mk.inj (Option.some.inj hread)
      exact List.forall_mem_cons.mpr ⟨h _ _ _ hhead, ih htail⟩

end Plexdb.Wire
