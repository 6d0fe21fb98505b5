import Plexdb.ColumnSkip

/-! Reading a native value out of a buffer (`read_column_value_sync` of the generated
`io_codec_sync.cpp`), against the streaming reader, and the bytes that a reader and a skipper consume. -/

namespace Plexdb.Cql

open Wire

/-! ### The synchronous reader -/

/-- A reader of the buffer from a `U16` position. -/
abbrev SyncReader (α : Type) := UInt16 → Option (α × UInt16)

section
variable (src : Bytes) (len : UInt16)

/-- The assertion on the bounds of a field of `n` bytes, whose `U64` sum wraps around, and its
`memory_copy`, which reads no further than the buffer goes. -/
def copyField (n : UInt64) : SyncReader Bytes := fun pos =>
  if pos.toUInt64 + n ≤ len.toUInt64 ∧ pos.toNat + n.toNat ≤ src.length then
    some ((src.drop pos.toNat).take n.toNat, pos + n.toUInt16)
  else none

def syncRaw (n : Nat) : SyncReader (BitVec (8 * n)) := fun pos => do
  let (bytes, pos) ← copyField src len (UInt64.ofNat n) pos
  pure (BitVec.ofNat (8 * n) (leValue bytes), pos)

def syncFlag : SyncReader Bool := fun pos => do
  let (raw, pos) ← syncRaw src len 1 pos
  pure (raw != 0, pos)

/-- A `U64` length and that many bytes. -/
def syncPrefixed : SyncReader Bytes := fun pos => do
  let (length, pos) ← syncRaw src len 8 pos
  copyField src len (UInt64.ofBitVec length) pos

def syncFixed (n : Nat) : SyncReader (Raw n) := fun pos => do
  let (bytes, pos) ← copyField src len (UInt64.ofNat n) pos
  if h : bytes.length = n then some (⟨bytes, h⟩, pos) else none

def syncVarInt : SyncReader VarInt := fun pos => do
  let (negative, pos) ← syncFlag src len pos
  let (magnitude, pos) ← syncPrefixed src len pos
  pure (⟨negative, magnitude⟩, pos)

/-- `read_column_value_sync`. -/
def readColumnValueSync (dtype : Basic) : SyncReader ColumnValue := fun pos =>
  match dtype with
  | .smallint => do
      let (value, pos) ← syncRaw src len 2 pos
      pure (.s16 value, pos)
  | .int | .date => do
      let (value, pos) ← syncRaw src len 4 pos
      pure (.s32 value, pos)
  | .bigint | .timestamp | .counter | .time => do
      let (value, pos) ← syncRaw src len 8 pos
      pure (.s64 value, pos)
  | .tinyint | .boolean => do
      let (value, pos) ← syncRaw src len 1 pos
      pure (.u8 value, pos)
  | .float => do
      let (value, pos) ← syncRaw src len 4 pos
      pure (.f32 value, pos)
  | .double => do
      let (value, pos) ← syncRaw src len 8 pos
      pure (.f64 value, pos)
  | .text | .varchar | .ascii => do
      let (value, pos) ← syncPrefixed src len pos
      pure (.text value, pos)
  | .blob | .hex => do
      let (value, pos) ← syncPrefixed src len pos
      pure (.blob value, pos)
  | .uuid | .timeuuid => do
      let (value, pos) ← syncFixed src len 16 pos
      pure (.uuid value, pos)
  | .inet => do
      let (isV6, pos) ← syncFlag src len pos
      if isV6 then
        let (v6, pos) ← syncFixed src len 16 pos
        pure (.inet (.v6 v6), pos)
      else
        let (v4, pos) ← syncFixed src len 4 pos
        pure (.inet (.v4 v4), pos)
  | .varint => do
      let (value, pos) ← syncVarInt src len pos
      pure (.varint value, pos)
  | .decimal => do
      let (scale, pos) ← syncRaw src len 4 pos
      let (unscaled, pos) ← syncVarInt src len pos
      pure (.decimal ⟨scale, unscaled⟩, pos)
  | .duration => do
      let (months, pos) ← syncRaw src len 4 pos
      let (days, pos) ← syncRaw src len 4 pos
      let (nanoseconds, pos) ← syncRaw src len 8 pos
      pure (.duration ⟨months, days, nanoseconds⟩, pos)

end

/-! ### The two readers are alike -/

/-- From every position in the buffer the synchronous reader gives what the streaming reader gives on the
bytes from there on, and stops at the position where these are left. -/
def Alike {α : Type} (src : Bytes) (sync : SyncReader α) (read : Reader α) : Prop :=
  ∀ pos : UInt16, pos.toNat ≤ src.length →
    (sync pos).map (fun x => (x.1, src.drop x.2.toNat)) = read (src.drop pos.toNat) ∧
      ∀ x ∈ sync pos, x.2.toNat ≤ src.length

theorem readFixed_eq (n : Nat) : readFixed n = fun s => (take n s).bind fun x =>
    if h : x.1.length = n then some (⟨x.1, h⟩, x.2) else none := by
  funext s
  unfold readFixed
  split
  · rename_i htake
    rw [htake, Option.bind_none]
  · rename_i htake
    simp only [htake, Option.bind_some, take_eq_some htake, dif_pos]

namespace Alike

variable {α β : Type} {src : Bytes} {len : UInt16}

theorem copyField (hlen : src.length = len.toNat) (n : UInt64) :
    Alike src (copyField src len n) (take n.toNat) := by
  intro pos hpos
  have hlt := len.toNat_lt
  have hn := n.toNat_lt
  have hbounds : pos.toUInt64 + n ≤ len.toUInt64 ∧ pos.toNat + n.toNat ≤ src.length ↔
      n.toNat ≤ (src.drop pos.toNat).length := by
    rw [List.length_drop, UInt64.le_iff_toNat_le, UInt64.toNat_add, UInt16.toNat_toUInt64,
      UInt16.toNat_toUInt64]
    constructor
    · intro h
      omega
    · intro h
      rw [Nat.mod_eq_of_lt (by omega)]
      omega
  unfold Cql.copyField take
  by_cases h : n.toNat ≤ (src.drop pos.toNat).length
  · have hnext : (pos + n.toUInt16).toNat = pos.toNat + n.toNat := by
      rw [List.length_drop] at h
      rw [UInt16.toNat_add, UInt64.toNat_toUInt16]
      omega
    rw [if_pos (hbounds.mpr h), if_pos h]
    refine ⟨?_, ?_⟩
    · rw [Option.map_some, hnext, List.drop_drop]
    · rintro x ⟨rfl⟩
      rw [hnext]
      exact (hbounds.mpr h).2
  · rw [if_neg (fun hb => h (hbounds.mp hb)), if_neg h]
    exact ⟨rfl, by simp⟩

theorem pure (a : α) : Alike src (fun pos => some (a, pos)) fun s => some (a, s) :=
  fun _ hpos => ⟨rfl, by rintro x ⟨rfl⟩; exact hpos⟩

theorem bind {sync : SyncReader α} {read : Reader α} {syncNext : α → SyncReader β} {readNext : α → Reader β}
    (h : Alike src sync read) (hnext : ∀ a, Alike src (syncNext a) (readNext a)) :
    Alike src (fun pos => (sync pos).bind fun x => syncNext x.1 x.2)
      fun s => (read s).bind fun x => readNext x.1 x.2 := by
  intro pos hpos
  obtain ⟨hread, hwithin⟩ := h pos hpos
  dsimp only
  cases hsync : sync pos with
  | none =>
      rw [hsync] at hread
      rw [← hread]
      exact ⟨rfl, by simp⟩
  | some x =>
      rw [hsync] at hread
      rw [← hread]
      exact hnext x.1 x.2 (hwithin x hsync)

theorem map {sync : SyncReader α} {read : Reader α} (h : Alike src sync read) (f : α → β) :
    Alike src (fun pos => (sync pos).bind fun x => some (f x.1, x.2))
      fun s => (read s).bind fun x => some (f x.1, x.2) :=
  h.bind fun a => Alike.pure (f a)

theorem raw (hlen : src.length = len.toNat) {n : Nat} (hn : n < 2 ^ 64) :
    Alike src (syncRaw src len n) (readRaw n) := by
  have h := Alike.copyField hlen (UInt64.ofNat n)
  rw [UInt64.toNat_ofNat_of_lt' hn] at h
  exact h.map fun bytes => BitVec.ofNat (8 * n) (leValue bytes)

theorem flag (hlen : src.length = len.toNat) : Alike src (syncFlag src len) readFlag :=
  (Alike.raw hlen (n := 1) (by decide)).map fun raw => raw != 0

theorem prefixed (hlen : src.length = len.toNat) : Alike src (syncPrefixed src len) readPrefixed := by
  have h := (Alike.raw hlen (n := 8) (by decide)).bind fun length =>
    Alike.copyField hlen (UInt64.ofBitVec length)
  have hread : readPrefixed = fun s => (readRaw 8 s).bind fun x => take x.1.toNat x.2 := by
    funext s
    unfold readPrefixed readCount
    cases readRaw 8 s <;> rfl
  rw [hread]
  exact h

theorem fixed (hlen : src.length = len.toNat) {n : Nat} (hn : n < 2 ^ 64) :
    Alike src (syncFixed src len n) (readFixed n) := by
  have h := Alike.copyField hlen (UInt64.ofNat n)
  rw [UInt64.toNat_ofNat_of_lt' hn] at h
  have hnext : ∀ bytes : Bytes,
      Alike src (fun pos => if h : bytes.length = n then some ((⟨bytes, h⟩ : Raw n), pos) else none)
        fun s => if h : bytes.length = n then some (⟨bytes, h⟩, s) else none := by
    intro bytes
    by_cases hlength : bytes.length = n
    · simp only [dif_pos hlength]
      exact Alike.pure _
    · simp only [dif_neg hlength]
      exact fun _ _ => ⟨rfl, by simp⟩
  rw [readFixed_eq]
  exact h.bind hnext

theorem varInt (hlen : src.length = len.toNat) : Alike src (syncVarInt src len) readVarInt :=
  (Alike.flag hlen).bind fun negative => (Alike.prefixed hlen).map fun magnitude => VarInt.mk negative magnitude

theorem columnValue (hlen : src.length = len.toNat) (dtype : Basic) :
    Alike src (readColumnValueSync src len dtype) (readBasic dtype) := by
  cases dtype
  case smallint => exact (Alike.raw hlen (n := 2) (by decide)).map ColumnValue.s16
  case int | date => exact (Alike.raw hlen (n := 4) (by decide)).map ColumnValue.s32
  case bigint | timestamp | counter | time => exact (Alike.raw hlen (n := 8) (by decide)).map ColumnValue.s64
  case tinyint | boolean => exact (Alike.raw hlen (n := 1) (by decide)).map ColumnValue.u8
  case float => exact (Alike.raw hlen (n := 4) (by decide)).map ColumnValue.f32
  case double => exact (Alike.raw hlen (n := 8) (by decide)).map ColumnValue.f64
  case text | varchar | ascii => exact (Alike.prefixed hlen).map ColumnValue.text
  case blob | hex => exact (Alike.prefixed hlen).map ColumnValue.blob
  case uuid | timeuuid => exact (Alike.fixed hlen (by decide)).map ColumnValue.uuid
  case inet =>
    have hnext : ∀ isV6 : Bool,
        Alike src
          (fun pos => if isV6 then (syncFixed src len 16 pos).bind fun x => some (ColumnValue.inet (.v6 x.1), x.2)
            else (syncFixed src len 4 pos).bind fun x => some (ColumnValue.inet (.v4 x.1), x.2))
          (fun s => if isV6 then (readFixed 16 s).bind fun x => some (ColumnValue.inet (.v6 x.1), x.2)
            else (readFixed 4 s).bind fun x => some (ColumnValue.inet (.v4 x.1), x.2)) := by
      intro isV6
      cases isV6 with
      | false => exact (Alike.fixed hlen (by decide)).map fun v4 => ColumnValue.inet (.v4 v4)
      | true => exact (Alike.fixed hlen (by decide)).map fun v6 => ColumnValue.inet (.v6 v6)
    exact (Alike.flag hlen).bind hnext
  case varint => exact (Alike.varInt hlen).map ColumnValue.varint
  case decimal =>
    exact (Alike.raw hlen (n := 4) (by decide)).bind fun scale =>
      (Alike.varInt hlen).map fun unscaled => ColumnValue.decimal ⟨scale, unscaled⟩
  case duration =>
    exact (Alike.raw hlen (n := 4) (by decide)).bind fun months =>
      (Alike.raw hlen (n := 4) (by decide)).bind fun days =>
        (Alike.raw hlen (n := 8) (by decide)).map fun nanoseconds =>
          ColumnValue.duration ⟨months, days, nanoseconds⟩

end Alike

/-! ### What a read consumes -/

/-- A read that succeeds depends on the bytes it consumes alone. -/
def Fronts {α : Type} (read : Reader α) : Prop :=
  ∀ s a rest, read s = some (a, rest) → ∃ front, s = front ++ rest ∧ ∀ tail, read (front ++ tail) = some (a, tail)

namespace Fronts

variable {α β : Type}

theorem take (n : Nat) : Fronts (Wire.take n) := by
  intro s front rest h
  have hlength := take_eq_some h
  unfold Wire.take at h
  split_ifs at h with hle
  obtain ⟨rfl, rfl⟩ := Prod.mk.inj (Option.some.inj h)
  exact ⟨s.take n, (List.take_append_drop n s).symm, fun tail => take_append hlength tail⟩

theorem pure (a : α) : Fronts fun s => some (a, s) := by
  intro s b rest h
  obtain ⟨rfl, rfl⟩ := Prod.mk.inj (Option.some.inj h)
  exact ⟨[], rfl, fun tail => rfl⟩

theorem fail : Fronts fun _ => (none : Option (α × Bytes)) := by
  intro s a rest h
  cases h

theorem bind {read : Reader α} {next : α → Reader β} (h : Fronts read) (hnext : ∀ a, Fronts (next a)) :
    Fronts fun s => (read s).bind fun x => next x.1 x.2 := by
  intro s b rest hread
  obtain ⟨⟨a, s₁⟩, ha, hb⟩ := Option.bind_eq_some_iff.mp hread
  obtain ⟨front, rfl, hfront⟩ := h s a s₁ ha
  obtain ⟨back, rfl, hback⟩ := hnext a s₁ b rest hb
  refine ⟨front ++ back, (List.append_assoc _ _ _).symm, fun tail => ?_⟩
  dsimp only
  rw [List.append_assoc, hfront, Option.bind_some]
  exact hback tail

theorem map {read : Reader α} (h : Fronts read) (f : α → β) :
    Fronts fun s => (read s).bind fun x => some (f x.1, x.2) :=
  h.bind fun a => Fronts.pure (f a)

theorem raw (n : Nat) : Fronts (readRaw n) :=
  (Fronts.take n).map fun bytes => BitVec.ofNat (8 * n) (leValue bytes)

theorem count : Fronts readCount := (Fronts.raw 8).map fun n => n.toNat

theorem many {read : Reader α} (h : Fronts read) (n : Nat) : Fronts (readMany read n) := by
  induction n with
  | zero => exact Fronts.pure []
  | succ n ih => exact h.bind fun a => ih.map fun as => a :: as

theorem pair {readFront : Reader α} {readBack : Reader β} (hfront : Fronts readFront) (hback : Fronts readBack) :
    Fronts (readPair readFront readBack) :=
  hfront.bind fun a => hback.map fun b => (a, b)

theorem prefixed : Fronts readPrefixed := Fronts.count.bind fun n => Fronts.take n

theorem flag : Fronts readFlag := (Fronts.raw 1).map fun raw => raw != 0

theorem fixed (n : Nat) : Fronts (readFixed n) := by
  have hnext : ∀ bytes : Bytes,
      Fronts fun s => if h : bytes.length = n then some ((⟨bytes, h⟩ : Raw n), s) else none := by
    intro bytes
    by_cases hlength : bytes.length = n
    · simp only [dif_pos hlength]
      exact Fronts.pure _
    · simp only [dif_neg hlength]
      exact Fronts.fail
  rw [readFixed_eq]
  exact (Fronts.take n).bind hnext

theorem varInt : Fronts readVarInt :=
  Fronts.flag.bind fun negative => Fronts.prefixed.map fun magnitude => VarInt.mk negative magnitude

theorem basic (dtype : Basic) : Fronts (readBasic dtype) := by
  cases dtype
  case smallint => exact (Fronts.raw 2).map ColumnValue.s16
  case int | date => exact (Fronts.raw 4).map ColumnValue.s32
  case bigint | timestamp | counter | time => exact (Fronts.raw 8).map ColumnValue.s64
  case tinyint | boolean => exact (Fronts.raw 1).map ColumnValue.u8
  case float => exact (Fronts.raw 4).map ColumnValue.f32
  case double => exact (Fronts.raw 8).map ColumnValue.f64
  case text | varchar | ascii => exact Fronts.prefixed.map ColumnValue.text
  case blob | hex => exact Fronts.prefixed.map ColumnValue.blob
  case uuid | timeuuid => exact (Fronts.fixed 16).map ColumnValue.uuid
  case inet =>
    have hnext : ∀ isV6 : Bool, Fronts fun s =>
        if isV6 then (readFixed 16 s).bind fun x => some (ColumnValue.inet (.v6 x.1), x.2)
        else (readFixed 4 s).bind fun x => some (ColumnValue.inet (.v4 x.1), x.2) := by
      intro isV6
      cases isV6 with
      | false => exact (Fronts.fixed 4).map fun v4 => ColumnValue.inet (.v4 v4)
      | true => exact (Fronts.fixed 16).map fun v6 => ColumnValue.inet (.v6 v6)
    exact Fronts.flag.bind hnext
  case varint => exact Fronts.varInt.map ColumnValue.varint
  case decimal =>
    exact (Fronts.raw 4).bind fun scale => Fronts.varInt.map fun unscaled => ColumnValue.decimal ⟨scale, unscaled⟩
  case duration =>
    exact (Fronts.raw 4).bind fun months => (Fronts.raw 4).bind fun days =>
      (Fronts.raw 8).map fun nanoseconds => ColumnValue.duration ⟨months, days, nanoseconds⟩

theorem maskedPayloads {ts : List Ty} (h : ∀ t ∈ ts, Fronts (readColumnValue t)) (count : Nat)
    (mask : List (BitVec 64)) (i : Nat) : Fronts (readMaskedPayloads ts count mask i) := by
  induction ts generalizing i with
  | nil =>
      intro s
      rw [readMaskedPayloads]
      exact Fronts.pure [] s
  | cons t ts ih =>
      have hback := ih (fun t ht => h t (List.mem_cons_of_mem _ ht)) (i + 1)
      by_cases hlt : i < count
      · cases hbit : maskBit mask i with
        | false =>
            have hread : readMaskedPayloads (t :: ts) count mask i = fun s =>
                (readMaskedPayloads ts count mask (i + 1) s).bind fun x => some (.null :: x.1, x.2) := by
              funext s
              rw [readMaskedPayloads, if_pos hlt, hbit]
              rfl
            rw [hread]
            exact hback.map fun vs => .null :: vs
        | true =>
            have hread : readMaskedPayloads (t :: ts) count mask i = fun s =>
                (readColumnValue t s).bind fun x =>
                  (readMaskedPayloads ts count mask (i + 1) x.2).bind fun y => some (x.1 :: y.1, y.2) := by
              funext s
              rw [readMaskedPayloads, if_pos hlt, hbit]
              rfl
            rw [hread]
            exact (h t List.mem_cons_self).bind fun v => hback.map fun vs => v :: vs
      · have hread : readMaskedPayloads (t :: ts) count mask i = fun s => some ([], s) := by
          funext s
          rw [readMaskedPayloads, if_neg hlt]
        rw [hread]
        exact Fronts.pure []

theorem columnValue (t : Ty) : Fronts (readColumnValue t) := by
  induction t with
  | basic b =>
      intro s
      rw [readColumnValue]
      exact Fronts.basic b s
  | list e frozen ih =>
      have hread := Fronts.count.bind fun n => (ih.many n).map fun vs => ColumnValue.array vs
      intro s
      rw [readColumnValue]
      exact hread s
  | set k frozen ih =>
      have hread := Fronts.count.bind fun n =>
        (ih.many n).map fun vs => ColumnValue.set (vs.foldl insertKey [])
      intro s
      rw [readColumnValue]
      exact hread s
  | map k v frozen ihk ihv =>
      have hread := Fronts.count.bind fun n => ((ihk.pair ihv).many n).map fun es =>
        ColumnValue.map (es.foldl (fun m e => insertEntry m e.1 e.2) [])
      intro s
      rw [readColumnValue]
      exact hread s
  | vector e count frozen ih =>
      have hread := (ih.many count.toNat).map fun vs => ColumnValue.array vs
      intro s
      rw [readColumnValue]
      exact hread s
  | tuple es frozen ih =>
      have hread := ((Fronts.raw 8).many (maskWords es.length)).bind fun mask =>
        (Fronts.maskedPayloads ih es.length mask 0).map fun vs => ColumnValue.array vs
      intro s
      rw [readColumnValue]
      exact hread s
  | udt keyspace name names ts ih =>
      have hfields : ∀ written : Nat, Fronts fun s =>
          if written ≤ ts.length then
            (readMask written s).bind fun x => (readMaskedPayloads ts written x.1 0 x.2).bind fun y =>
              some (ColumnValue.array (y.1 ++ List.replicate (ts.length - written) .null), y.2)
          else none := by
        intro written
        split_ifs
        · exact ((Fronts.raw 8).many (maskWords written)).bind fun mask =>
            (Fronts.maskedPayloads ih written mask 0).map fun vs =>
              ColumnValue.array (vs ++ List.replicate (ts.length - written) .null)
        · exact Fronts.fail
      have hread := Fronts.count.bind hfields
      intro s
      rw [readColumnValue]
      exact hread s

end Fronts

/-! ### The three readers agree -/

theorem readBasic_nil (dtype : Basic) : readBasic dtype [] = none := by
  cases dtype <;> rfl

/-- A synchronous read stops where the streaming read does. -/
theorem sync_of_read {dtype : Basic} {src rest : Bytes} {len pos : UInt16} {v : ColumnValue}
    (hlen : src.length = len.toNat) (h : readBasic dtype (src.drop pos.toNat) = some (v, rest)) :
    ∃ stop, readColumnValueSync src len dtype pos = some (v, stop) ∧ src.drop stop.toNat = rest ∧
      stop.toNat = pos.toNat + ((src.drop pos.toNat).length - rest.length) := by
  have hpos : pos.toNat < src.length := by
    by_contra hnot
    rw [List.drop_eq_nil_of_le (by omega), readBasic_nil] at h
    cases h
  obtain ⟨hread, hwithin⟩ := Alike.columnValue hlen dtype pos (by omega)
  rw [h] at hread
  obtain ⟨⟨w, stop⟩, hsync, heq⟩ := Option.map_eq_some_iff.mp hread
  obtain ⟨rfl, rfl⟩ := Prod.mk.inj heq
  refine ⟨stop, hsync, rfl, ?_⟩
  have hstop : stop.toNat ≤ src.length := hwithin _ hsync
  obtain ⟨front, hfront, -⟩ := Fronts.basic dtype _ _ _ h
  have hlength := congrArg List.length hfront
  rw [List.length_append] at hlength
  simp only [List.length_drop] at hlength ⊢
  omega

/-- Skipping a value consumes the bytes that reading it consumes, whatever follows them, and a native value is
read out of a buffer as it is read from the stream. -/
theorem skip_and_sync_agree {t : Ty} {s rest : Bytes} {v : ColumnValue} (h : readColumnValue t s = some (v, rest)) :
    (∃ consumed, s = consumed ++ rest ∧ ∀ tail, readColumnValue t (consumed ++ tail) = some (v, tail) ∧
        skipColumnValue t (consumed ++ tail) = some tail) ∧
      ∀ dtype, t = .basic dtype → ∀ (src : Bytes) (len pos : UInt16), src.length = len.toNat →
        src.drop pos.toNat = s →
          ∃ stop, readColumnValueSync src len dtype pos = some (v, stop) ∧ src.drop stop.toNat = rest ∧
            stop.toNat = pos.toNat + (s.length - rest.length) := by
  constructor
  · obtain ⟨consumed, rfl, hread⟩ := Fronts.columnValue t s v rest h
    refine ⟨consumed, rfl, fun tail => ⟨hread tail, ?_⟩⟩
    exact skips_columnValue t _ _ _ (hread tail)
  · rintro dtype rfl src len pos hlen rfl
    rw [readColumnValue] at h
    exact sync_of_read hlen h

/-- A text of one byte, followed by another byte. -/
theorem skip_and_sync_agree_text :
    (∃ consumed, [1, 0, 0, 0, 0, 0, 0, 0, 120, 7] = consumed ++ [7] ∧
      ∀ tail, readColumnValue (.basic .text) (consumed ++ tail) = some (.text [120], tail) ∧
        skipColumnValue (.basic .text) (consumed ++ tail) = some tail) ∧
      ∀ dtype, Ty.basic .text = .basic dtype → ∀ (src : Bytes) (len pos : UInt16), src.length = len.toNat →
        src.drop pos.toNat = [1, 0, 0, 0, 0, 0, 0, 0, 120, 7] →
          ∃ stop, readColumnValueSync src len dtype pos = some (.text [120], stop) ∧
            src.drop stop.toNat = [7] ∧ stop.toNat = pos.toNat + 9 :=
  skip_and_sync_agree (by rw [readColumnValue]; rfl)

end Plexdb.Cql
