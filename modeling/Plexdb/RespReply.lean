import Plexdb.KvEngine
import Plexdb.RespPrefix
import Plexdb.Wire

/-! The replies of a connection (`encode_result` in `keyvalue/resp/resp.protocol.cpp`), and a decoder of RESP replies
that reads them back. A status or an error ends with its line, so it must not contain one of the bytes of a line
end. -/

namespace Plexdb.Resp

open Kv
open Wire (readMany)

/-! ### The encoder; each function gives what it appends to the buffer -/

def decimal (value : Int) : Bytes := if value < 0 then 45 :: toStr value.natAbs else toStr value.natAbs

def appendSimpleString (value : Bytes) : Bytes := 43 :: (value ++ crlf)

def appendError (kind message : Bytes) : Bytes := 45 :: ((kind ++ 32 :: message) ++ crlf)

def appendInteger (value : Int) : Bytes := 58 :: (decimal value ++ crlf)

def appendBulkString (value : Bytes) : Bytes := 36 :: (decimal value.length ++ crlf) ++ (value ++ crlf)

def appendNullBulkString : Bytes := ascii "$-1\r\n"

def appendArrayHeader (count : Int) : Bytes := 42 :: (decimal count ++ crlf)

def appendOptionalBulkString : Option Bytes → Bytes
  | some value => appendBulkString value
  | none => appendNullBulkString

/-- The appended bytes, and whether the connection is kept. -/
def encodeResult (result : ExecutionResult) : Bytes × Bool :=
  match result.status with
  | .close => (appendSimpleString (ascii "OK"), false)
  | .error => (appendError (ascii "ERR") result.errorMessage, true)
  | .notFound => (appendNullBulkString, true)
  | .ok => (match result.kind with
      | .none => []
      | .simpleStr => appendSimpleString result.str
      | .bulkStr => appendBulkString result.str
      | .int => appendInteger result.integer
      | .arr => appendArrayHeader result.arr.length ++ result.arr.flatMap appendBulkString
      | .nullArr => appendArrayHeader result.nullArr.length ++ result.nullArr.flatMap appendOptionalBulkString
      | .scan => appendArrayHeader 2 ++ appendBulkString result.cursor ++
          (appendArrayHeader result.arr.length ++ result.arr.flatMap appendBulkString), true)

/-! ### A decoder -/

inductive Reply where
  | simple (text : Bytes)
  | error (text : Bytes)
  | integer (value : Int)
  | bulk (value : Bytes)
  | nullBulk
  | array (items : List Reply)
  | nullArray

/-- A text that fits in one line. -/
def LineSafe (text : Bytes) : Prop := 13 ∉ text ∧ 10 ∉ text

instance (text : Bytes) : Decidable (LineSafe text) := inferInstanceAs (Decidable (_ ∧ _))

def readLine (s : Bytes) : Option (Bytes × Bytes) := (findCrlf s).filter fun r => LineSafe r.1

def readNatural (text : Bytes) : Option Nat :=
  if text ≠ [] ∧ ∀ c ∈ text, isDigit c then some (decimalValue 0 text) else none

def readInteger : Bytes → Option Int
  | 45 :: digits => (readNatural digits).map fun n : Nat => -(n : Int)
  | digits => (readNatural digits).map fun n : Nat => (n : Int)

/-- The bytes of a bulk string, and the line end behind it. -/
def readBulk (length : Nat) (s : Bytes) : Option (Bytes × Bytes) :=
  if s.length < length + 2 ∨ (s.drop length).take 2 ≠ crlf then none
  else some (s.take length, s.drop (length + 2))

def readBulkReply (length : Int) (rest : Bytes) : Option (Reply × Bytes) :=
  if length = -1 then some (.nullBulk, rest)
  else if length < 0 then none
  else (readBulk length.toNat rest).map fun r => (.bulk r.1, r.2)

def readArrayReply (read : Bytes → Option (Reply × Bytes)) (count : Int) (rest : Bytes) : Option (Reply × Bytes) :=
  if count = -1 then some (.nullArray, rest)
  else if count < 0 then none
  else (readMany read count.toNat rest).map fun r => (.array r.1, r.2)

/-- A reply behind its first line; `read` is for what an array holds. -/
def readBody (read : Bytes → Option (Reply × Bytes)) (c : UInt8) (line rest : Bytes) : Option (Reply × Bytes) :=
  if c = 43 then some (.simple line, rest)
  else if c = 45 then some (.error line, rest)
  else if c = 58 then (readInteger line).map fun value => (.integer value, rest)
  else if c = 36 then (readInteger line).bind fun length => readBulkReply length rest
  else if c = 42 then (readInteger line).bind fun count => readArrayReply read count rest
  else none

/-- A reply whose arrays nest less deep than `depth`. -/
def readReply : (depth : Nat) → Bytes → Option (Reply × Bytes)
  | 0, _ => none
  | _, [] => none
  | depth + 1, c :: s => (readLine s).bind fun r => readBody (readReply depth) c r.1 r.2

def decodeReply (s : Bytes) : Option (Reply × Bytes) := readReply (s.length + 1) s

/-- The reply that stands for a result. -/
def replyOf (result : ExecutionResult) : Reply :=
  match result.status with
  | .close => .simple (ascii "OK")
  | .error => .error (ascii "ERR " ++ result.errorMessage)
  | .notFound => .nullBulk
  | .ok => match result.kind with
      | .none => .nullBulk
      | .simpleStr => .simple result.str
      | .bulkStr => .bulk result.str
      | .int => .integer result.integer
      | .arr => .array (result.arr.map .bulk)
      | .nullArr => .array (result.nullArr.map fun v => v.elim .nullBulk .bulk)
      | .scan => .array [.bulk result.cursor, .array (result.arr.map .bulk)]

/-! ### Decimal texts -/

theorem toNat_of_isDigit {c : Char} (h : c.isDigit) : c.toNat.toUInt8.toNat = c.toNat := by
  have hle : c.toNat ≤ 57 := (Char.isDigit_iff_toNat.mp h).2
  change c.toNat % 2 ^ 8 = c.toNat
  exact Nat.mod_eq_of_lt (by omega)

theorem decimalValue_map {cs : List Char} (h : ∀ c ∈ cs, c.isDigit) (value : Nat) :
    decimalValue value (cs.map fun c => c.toNat.toUInt8) = Nat.ofDigitChars 10 cs value := by
  induction cs generalizing value with
  | nil => rfl
  | cons c cs ih =>
      have hc : c.isDigit := h c List.mem_cons_self
      have hdigit : c.toNat.toUInt8.toNat = c.toNat := toNat_of_isDigit hc
      have hih := ih (fun d hd => h d (List.mem_cons_of_mem c hd)) (10 * value + (c.toNat - '0'.toNat))
      change decimalValue (value * 10 + (c.toNat.toUInt8.toNat - 48)) (cs.map fun c => c.toNat.toUInt8) = _
      rw [hdigit, Nat.mul_comm value 10, Nat.ofDigitChars_cons, ← hih]
      congr 1

theorem isDecimal_toStr (n : Nat) : IsDecimal (toStr n) n := by
  have hdigits : ∀ c ∈ Nat.toDigits 10 n, c.isDigit := fun c hc =>
    Nat.isDigit_of_mem_toDigits (by decide) (by decide) hc
  refine ⟨?_, fun c hc => ?_, ?_⟩
  · rw [toStr, Ne, List.map_eq_nil_iff]
    exact Nat.toDigits_ne_nil
  · obtain ⟨d, hd, rfl⟩ := List.mem_map.mp hc
    rw [isDigit_iff, toNat_of_isDigit (hdigits d hd)]
    exact Char.isDigit_iff_toNat.mp (hdigits d hd)
  · rw [toStr, decimalValue_map hdigits, Nat.ofDigitChars_ten_toDigits]

theorem readNatural_of_isDecimal {text : Bytes} {n : Nat} (h : IsDecimal text n) : readNatural text = some n := by
  rw [readNatural, if_pos ⟨h.nonempty, h.digits⟩, h.value_eq]

theorem not_mem_of_isDecimal {text : Bytes} {n : Nat} (h : IsDecimal text n) {c : UInt8} (hc : isDigit c = false) :
    c ∉ text := by
  intro hmem
  rw [h.digits c hmem] at hc
  cases hc

theorem readInteger_decimal (value : Int) : readInteger (decimal value) = some value := by
  have hdecimal := isDecimal_toStr value.natAbs
  rw [decimal]
  split_ifs with hneg
  · rw [readInteger, readNatural_of_isDecimal hdecimal, Option.map_some]
    congr 1
    omega
  · rw [readInteger.eq_2, readNatural_of_isDecimal hdecimal, Option.map_some]
    · congr 1
      omega
    · intro digits heq
      refine not_mem_of_isDecimal hdecimal (c := 45) (by decide) ?_
      rw [heq]
      exact List.mem_cons_self

theorem lineSafe_decimal (value : Int) : LineSafe (decimal value) := by
  have hdecimal := isDecimal_toStr value.natAbs
  have hcr : (13 : UInt8) ∉ toStr value.natAbs := not_mem_of_isDecimal hdecimal (by decide)
  have hlf : (10 : UInt8) ∉ toStr value.natAbs := not_mem_of_isDecimal hdecimal (by decide)
  rw [decimal]
  split_ifs
  · exact ⟨List.not_mem_cons_of_ne_of_not_mem (by decide) hcr, List.not_mem_cons_of_ne_of_not_mem (by decide) hlf⟩
  · exact ⟨hcr, hlf⟩

/-! ### Lines and replies -/

theorem readLine_append {line : Bytes} (h : LineSafe line) (rest : Bytes) :
    readLine (line ++ crlf ++ rest) = some (line, rest) := by
  have hline : ¬ crlf <:+: line := fun hin => h.1 (hin.subset (by decide))
  rw [readLine, findCrlf_append hline]
  exact Option.filter_some_pos (decide_eq_true h)

theorem lineSafe_of_readLine {s line rest : Bytes} (h : readLine s = some (line, rest)) : LineSafe line :=
  of_decide_eq_true (Option.filter_eq_some_iff.mp h).2

section

/-- The first line of a reply, and the rest of it. -/
theorem readReply_cons {line : Bytes} (h : LineSafe line) (depth : Nat) (c : UInt8) (rest : Bytes) :
    readReply (depth + 1) (c :: (line ++ crlf ++ rest)) = readBody (readReply depth) c line rest := by
  rw [readReply, readLine_append h]
  rfl

variable {depth : Nat} {rest : Bytes}

theorem readReply_simple {text : Bytes} (h : LineSafe text) :
    readReply (depth + 1) (appendSimpleString text ++ rest) = some (.simple text, rest) :=
  readReply_cons h depth 43 rest

theorem readReply_error {message : Bytes} (h : LineSafe message) :
    readReply (depth + 1) (appendError (ascii "ERR") message ++ rest) = some (.error (ascii "ERR " ++ message), rest) := by
  have hline : LineSafe (ascii "ERR" ++ 32 :: message) := by
    refine ⟨fun hmem => ?_, fun hmem => ?_⟩
    · rcases List.mem_append.mp hmem with hmem | hmem
      · exact absurd hmem (by decide)
      · exact h.1 (List.mem_of_ne_of_mem (by decide) hmem)
    · rcases List.mem_append.mp hmem with hmem | hmem
      · exact absurd hmem (by decide)
      · exact h.2 (List.mem_of_ne_of_mem (by decide) hmem)
  exact readReply_cons hline depth 45 rest

theorem readReply_integer (value : Int) :
    readReply (depth + 1) (appendInteger value ++ rest) = some (.integer value, rest) := by
  have hcons := readReply_cons (lineSafe_decimal value) depth 58 rest
  refine hcons.trans ?_
  change (readInteger (decimal value)).map _ = _
  rw [readInteger_decimal]
  rfl

theorem readBulk_append (value : Bytes) : readBulk value.length (value ++ crlf ++ rest) = some (value, rest) := by
  have hcrlf : crlf.length = 2 := rfl
  rw [readBulk, if_neg, List.append_assoc, List.take_left, ← List.append_assoc]
  · rw [List.drop_left' (by rw [List.length_append, hcrlf])]
  · rw [List.append_assoc, List.drop_left, List.length_append, List.length_append, hcrlf]
    rintro (hlt | hne)
    · omega
    · exact hne (List.take_left' rfl)

/-- A bulk string of whatever length its first line gives. -/
theorem readReply_bulk_line {length : Int} (rest : Bytes) :
    readReply (depth + 1) (36 :: (decimal length ++ crlf ++ rest)) = readBulkReply length rest := by
  refine (readReply_cons (lineSafe_decimal length) depth 36 rest).trans ?_
  change (readInteger (decimal length)).bind _ = _
  rw [readInteger_decimal, Option.bind_some]

theorem readReply_bulk (value : Bytes) :
    readReply (depth + 1) (appendBulkString value ++ rest) = some (.bulk value, rest) := by
  rw [appendBulkString, List.append_assoc, List.cons_append, readReply_bulk_line, readBulkReply, if_neg (by omega),
    if_neg (by omega), Int.toNat_natCast, readBulk_append]
  rfl

theorem appendNullBulkString_eq : appendNullBulkString = 36 :: (decimal (-1) ++ crlf) := by decide +kernel

theorem readReply_nullBulk :
    readReply (depth + 1) (appendNullBulkString ++ rest) = some (.nullBulk, rest) := by
  rw [appendNullBulkString_eq, List.cons_append, readReply_bulk_line, readBulkReply, if_pos rfl]

theorem readReply_optionalBulk (value : Option Bytes) :
    readReply (depth + 1) (appendOptionalBulkString value ++ rest) = some (value.elim .nullBulk .bulk, rest) := by
  cases value with
  | none => exact readReply_nullBulk
  | some value => exact readReply_bulk value

theorem readReply_array {items : List Reply} {bytes : Bytes}
    (h : readMany (readReply depth) items.length (bytes ++ rest) = some (items, rest)) :
    readReply (depth + 1) (appendArrayHeader items.length ++ bytes ++ rest) = some (.array items, rest) := by
  have hcons := readReply_cons (lineSafe_decimal items.length) depth 42 (bytes ++ rest)
  rw [appendArrayHeader, List.append_assoc, List.cons_append]
  refine hcons.trans ?_
  change (readInteger (decimal items.length)).bind _ = _
  rw [readInteger_decimal, Option.bind_some, readArrayReply, if_neg (by omega), if_neg (by omega), Int.toNat_natCast, h]
  rfl

end

/-- Items that are read back one by one are read back in a row. -/
theorem readMany_flatMap {α β : Type} {read : Bytes → Option (β × Bytes)} {write : α → Bytes} {f : α → β}
    (h : ∀ a rest, read (write a ++ rest) = some (f a, rest)) (as : List α) (rest : Bytes) :
    readMany read as.length (as.flatMap write ++ rest) = some (as.map f, rest) := by
  induction as with
  | nil => rfl
  | cons a as ih =>
      rw [List.length_cons, readMany, List.flatMap_cons, List.append_assoc, h]
      simp only [Option.bind_eq_bind, Option.bind_some, ih]
      rfl

theorem readReply_bulks (depth : Nat) (values : List Bytes) (rest : Bytes) :
    readReply (depth + 2) (appendArrayHeader values.length ++ values.flatMap appendBulkString ++ rest) =
      some (.array (values.map .bulk), rest) := by
  have hmany := readMany_flatMap (fun value rest => @readReply_bulk depth rest value) values rest
  rw [← List.length_map Reply.bulk] at hmany
  have harray := readReply_array hmany
  rwa [List.length_map] at harray

/-! ### What a statement can produce -/

/-- A result with something to encode, whose status text fits in one line. -/
def Encodable (result : ExecutionResult) : Prop :=
  result.status = .ok → result.kind ≠ .none ∧ (result.kind = .simpleStr → LineSafe result.str)

theorem two_le_length_encode {result : ExecutionResult} (h : Encodable result) : 2 ≤ (encodeResult result).1.length := by
  have hcrlf : crlf.length = 2 := rfl
  rw [encodeResult]
  cases hstatus : result.status with
  | close => exact Nat.le_add_left 2 3
  | error => simp only [appendError, List.length_cons, List.length_append, hcrlf]; omega
  | notFound => exact Nat.le_add_left 2 3
  | ok =>
      cases hkind : result.kind with
      | none => exact absurd hkind (h hstatus).1
      | simpleStr => simp only [appendSimpleString, List.length_cons, List.length_append, hcrlf]; omega
      | bulkStr => simp only [appendBulkString, List.length_cons, List.length_append, hcrlf]; omega
      | int => simp only [appendInteger, List.length_cons, List.length_append, hcrlf]; omega
      | arr => simp only [appendArrayHeader, List.length_cons, List.length_append, hcrlf]; omega
      | nullArr => simp only [appendArrayHeader, List.length_cons, List.length_append, hcrlf]; omega
      | scan => simp only [appendArrayHeader, List.length_cons, List.length_append, hcrlf]; omega

theorem decodeReply_encode {result : ExecutionResult} (h : Encodable result)
    (hsafe : result.status = .error → LineSafe result.errorMessage) (rest : Bytes) :
    decodeReply ((encodeResult result).1 ++ rest) = some (replyOf result, rest) := by
  suffices hread : ∀ depth, 2 ≤ depth →
      readReply (depth + 1) ((encodeResult result).1 ++ rest) = some (replyOf result, rest) by
    refine hread _ ?_
    have hlen := two_le_length_encode h
    rw [List.length_append]
    omega
  intro depth hdepth
  obtain ⟨depth, rfl⟩ := Nat.exists_eq_add_of_le' hdepth
  rw [encodeResult, replyOf]
  cases hstatus : result.status with
  | close => exact readReply_simple (by decide)
  | error => exact readReply_error (hsafe hstatus)
  | notFound => exact readReply_nullBulk
  | ok =>
      cases hkind : result.kind with
      | none => exact absurd hkind (h hstatus).1
      | simpleStr => exact readReply_simple ((h hstatus).2 hkind)
      | bulkStr => exact readReply_bulk result.str
      | int => exact readReply_integer result.integer
      | arr => exact readReply_bulks _ result.arr rest
      | nullArr =>
          have hmany := readMany_flatMap (fun value rest => @readReply_optionalBulk (depth + 1) rest value)
            result.nullArr rest
          rw [← List.length_map (fun v : Option Bytes => v.elim Reply.nullBulk Reply.bulk)] at hmany
          have harray := readReply_array hmany
          rwa [List.length_map] at harray
      | scan =>
          have hkeys := readReply_bulks depth result.arr rest
          have hitems : readMany (readReply (depth + 2)) 2 (appendBulkString result.cursor ++
              (appendArrayHeader result.arr.length ++ result.arr.flatMap appendBulkString) ++ rest) =
                some ([.bulk result.cursor, .array (result.arr.map .bulk)], rest) := by
            rw [readMany, List.append_assoc, readReply_bulk]
            simp only [Option.bind_eq_bind, Option.bind_some, readMany, hkeys]
            rfl
          have harray := @readReply_array _ rest [.bulk result.cursor, .array (result.arr.map .bulk)] _ hitems
          rw [← List.append_assoc] at harray
          exact harray

/-- A result that is no error. -/
def Plain (result : ExecutionResult) : Prop := result.status ≠ .error ∧ Encodable result

theorem plain_notFound : Plain createNotFound := ⟨by decide, fun h => by cases h⟩

theorem plain_close : Plain createClose := ⟨by decide, fun h => by cases h⟩

theorem plain_simple {text : Bytes} (h : LineSafe text) : Plain (createSimple text) :=
  ⟨ExecutionStatus.noConfusion, fun _ => ⟨ResultKind.noConfusion, fun _ => h⟩⟩

/-- The other kinds have no text that ends with its line. -/
theorem plain_of_kind {result : ExecutionResult} (hstatus : result.status = .ok) (hnone : result.kind ≠ .none)
    (hsimple : result.kind ≠ .simpleStr) : Plain result :=
  ⟨by rw [hstatus]; decide, fun _ => ⟨hnone, fun h => absurd h hsimple⟩⟩

section

variable {σ ι : Type} {e : Engine σ ι} {s s' : σ} {result : ExecutionResult}

theorem plain_get {key : Bytes} (h : executeGet e s key = some result) : Plain result := by
  rw [executeGet] at h
  obtain ⟨idOpt, -, h⟩ := Option.bind_eq_some_iff.mp h
  cases idOpt with
  | none =>
      cases h
      exact plain_notFound
  | some id =>
      obtain ⟨value, -, rfl⟩ := Option.map_eq_some_iff.mp h
      exact plain_of_kind rfl ResultKind.noConfusion ResultKind.noConfusion

theorem plain_set {key value : Bytes} {nx xx : Bool} (h : executeSet e s key value nx xx = some (result, s')) :
    Plain result := by
  rw [executeSet] at h
  obtain ⟨idOpt, -, h⟩ := Option.bind_eq_some_iff.mp h
  split_ifs at h
  · cases h
    exact plain_notFound
  · cases h
    exact plain_notFound
  · obtain ⟨s₁, -, heq⟩ := Option.map_eq_some_iff.mp h
    cases heq
    exact plain_simple (by decide)

theorem plain_scan {cursor : UInt64} {pattern : Option Bytes} {count : Option UInt64}
    (h : executeScan e s cursor pattern count = some result) : Plain result := by
  rw [executeScan] at h
  obtain ⟨first, -, h⟩ := Option.bind_eq_some_iff.mp h
  obtain ⟨found, -, h⟩ := Option.bind_eq_some_iff.mp h
  obtain ⟨next, -, h⟩ := Option.bind_eq_some_iff.mp h
  cases h
  exact plain_of_kind rfl ResultKind.noConfusion ResultKind.noConfusion

/-- The one error is the unknown command, which quotes its name. -/
theorem execute_result {fuel : Nat} {stmt : Statement} (h : execute e fuel s stmt = some (result, s')) :
    (∃ name args, stmt = .unknown name args ∧
        result = createError (ascii "unknown command '" ++ name ++ ascii "'")) ∨
      ((∀ name args, stmt ≠ .unknown name args) ∧ Plain result) := by
  have hkind : ∀ {r : ExecutionResult}, r.status = .ok → r.kind ≠ .none → r.kind ≠ .simpleStr → Plain r := plain_of_kind
  cases stmt with
  | unknown name args =>
      cases h
      exact Or.inl ⟨name, args, rfl, rfl⟩
  | ping message =>
      refine Or.inr ⟨fun _ _ => Statement.noConfusion, ?_⟩
      cases message with
      | none =>
          cases h
          exact plain_simple (by decide)
      | some message =>
          cases h
          exact hkind rfl ResultKind.noConfusion ResultKind.noConfusion
  | quit =>
      cases h
      exact Or.inr ⟨fun _ _ => Statement.noConfusion, plain_close⟩
  | get key =>
      obtain ⟨r, hr, heq⟩ := Option.map_eq_some_iff.mp h
      cases heq
      exact Or.inr ⟨fun _ _ => Statement.noConfusion, plain_get hr⟩
  | set key value nx xx => exact Or.inr ⟨fun _ _ => Statement.noConfusion, plain_set h⟩
  | scan cursor pattern count =>
      obtain ⟨r, hr, heq⟩ := Option.map_eq_some_iff.mp h
      cases heq
      exact Or.inr ⟨fun _ _ => Statement.noConfusion, plain_scan hr⟩
  | del keys =>
      obtain ⟨r, -, heq⟩ := Option.map_eq_some_iff.mp h
      cases heq
      exact Or.inr ⟨fun _ _ => Statement.noConfusion, hkind rfl ResultKind.noConfusion ResultKind.noConfusion⟩
  | exists_ keys =>
      obtain ⟨r, -, heq⟩ := Option.map_eq_some_iff.mp h
      cases heq
      exact Or.inr ⟨fun _ _ => Statement.noConfusion, hkind rfl ResultKind.noConfusion ResultKind.noConfusion⟩
  | mget keys =>
      obtain ⟨r, -, heq⟩ := Option.map_eq_some_iff.mp h
      cases heq
      exact Or.inr ⟨fun _ _ => Statement.noConfusion, hkind rfl ResultKind.noConfusion ResultKind.noConfusion⟩
  | mset pairs =>
      obtain ⟨r, -, heq⟩ := Option.map_eq_some_iff.mp h
      cases heq
      exact Or.inr ⟨fun _ _ => Statement.noConfusion, plain_simple (by decide)⟩
  | keys pattern =>
      obtain ⟨first, -, h⟩ := Option.bind_eq_some_iff.mp h
      obtain ⟨keys, -, h⟩ := Option.bind_eq_some_iff.mp h
      cases h
      exact Or.inr ⟨fun _ _ => Statement.noConfusion, hkind rfl ResultKind.noConfusion ResultKind.noConfusion⟩
  | flushDb | flushAll =>
      obtain ⟨s₁, -, h⟩ := Option.bind_eq_some_iff.mp h
      obtain ⟨s₂, -, h⟩ := Option.bind_eq_some_iff.mp h
      cases h
      exact Or.inr ⟨fun _ _ => Statement.noConfusion, plain_simple (by decide)⟩
  | dbSize | info =>
      obtain ⟨r, -, heq⟩ := Option.map_eq_some_iff.mp h
      cases heq
      exact Or.inr ⟨fun _ _ => Statement.noConfusion, hkind rfl ResultKind.noConfusion ResultKind.noConfusion⟩
  | typeOf key =>
      obtain ⟨idOpt, -, h⟩ := Option.bind_eq_some_iff.mp h
      cases h
      refine Or.inr ⟨fun _ _ => Statement.noConfusion, plain_simple ?_⟩
      split_ifs
      · decide
      · decide
  | cmd =>
      cases h
      exact Or.inr ⟨fun _ _ => Statement.noConfusion, hkind rfl ResultKind.noConfusion ResultKind.noConfusion⟩
  | selectDb index =>
      rw [execute] at h
      split_ifs at h
      cases h
      exact Or.inr ⟨fun _ _ => Statement.noConfusion, plain_simple (by decide)⟩
  | clientGetName =>
      cases h
      exact Or.inr ⟨fun _ _ => Statement.noConfusion, plain_notFound⟩
  | client args =>
      cases h
      exact Or.inr ⟨fun _ _ => Statement.noConfusion, plain_simple (by decide)⟩

end

/-! ### The replies of a connection -/

section

variable {σ ι : Type} (e : Engine σ ι) (fuel : Nat)

/-- The commands are executed one after another, until one closes the connection: the results, and what was
sent. -/
def serveReplies (s : σ) : List Statement → Option (List ExecutionResult × Bytes)
  | [] => some ([], [])
  | stmt :: stmts => do
      let (result, s) ← execute e fuel s stmt
      let (bytes, keepAlive) := encodeResult result
      if keepAlive then do
        let (results, stream) ← serveReplies s stmts
        some (result :: results, bytes ++ stream)
      else some ([result], bytes)

end

/-- A decoded error fits in one line. -/
theorem lineSafe_of_decodeReply {s text rest : Bytes} (h : decodeReply s = some (.error text, rest)) :
    LineSafe text := by
  cases s with
  | nil => cases h
  | cons c s =>
      rw [decodeReply, readReply] at h
      obtain ⟨⟨line, rest'⟩, hline, h⟩ := Option.bind_eq_some_iff.mp h
      dsimp only at h
      rw [readBody] at h
      split_ifs at h
      · cases h
      · obtain ⟨heq, -⟩ := Prod.mk.inj (Option.some.inj h)
        cases heq
        exact lineSafe_of_readLine hline
      · obtain ⟨n, -, h⟩ := Option.map_eq_some_iff.mp h
        cases h
      · obtain ⟨n, -, h⟩ := Option.bind_eq_some_iff.mp h
        rw [readBulkReply] at h
        split_ifs at h
        · cases h
        · obtain ⟨r, -, h⟩ := Option.map_eq_some_iff.mp h
          cases h
      · obtain ⟨n, -, h⟩ := Option.bind_eq_some_iff.mp h
        rw [readArrayReply] at h
        split_ifs at h
        · cases h
        · obtain ⟨r, -, h⟩ := Option.map_eq_some_iff.mp h
          cases h

theorem lineSafe_append {a b : Bytes} : LineSafe (a ++ b) ↔ LineSafe a ∧ LineSafe b := by
  simp only [LineSafe, List.mem_append, not_or]
  tauto

theorem lineSafe_unknown (name : Bytes) : LineSafe (ascii "unknown command '" ++ name ++ ascii "'") ↔ LineSafe name := by
  rw [lineSafe_append, lineSafe_append]
  constructor
  · rintro ⟨⟨-, h⟩, -⟩
    exact h
  · intro h
    exact ⟨⟨by decide, h⟩, by decide⟩

section

variable {σ ι : Type} {e : Engine σ ι} {fuel : Nat} {s s' : σ} {stmt : Statement} {result : ExecutionResult}

/-- One reply is read back exactly when the command it may quote fits in one line. -/
theorem decodeReply_execute_iff (h : execute e fuel s stmt = some (result, s')) (rest : Bytes) :
    (∃ rest', decodeReply ((encodeResult result).1 ++ rest) = some (replyOf result, rest')) ↔
      ∀ name args, stmt = .unknown name args → LineSafe name := by
  rcases execute_result h with ⟨name, args, rfl, rfl⟩ | ⟨hother, hplain⟩
  · constructor
    · rintro ⟨rest', hread⟩ name' args' heq
      cases heq
      exact (lineSafe_unknown name).mp (lineSafe_append.mp (lineSafe_of_decodeReply hread)).2
    · intro hsafe
      exact ⟨rest, decodeReply_encode (fun hok => by cases hok) (fun _ => (lineSafe_unknown name).mpr (hsafe name args rfl))
        rest⟩
  · refine iff_of_true ⟨rest, ?_⟩ fun name args heq => absurd heq (hother name args)
    exact decodeReply_encode hplain.2 (fun herror => absurd herror hplain.1) rest

theorem decodeReply_execute (h : execute e fuel s stmt = some (result, s'))
    (hsafe : ∀ name args, stmt = .unknown name args → LineSafe name) (rest : Bytes) :
    decodeReply ((encodeResult result).1 ++ rest) = some (replyOf result, rest) := by
  rcases execute_result h with ⟨name, args, rfl, rfl⟩ | ⟨-, hplain⟩
  · exact decodeReply_encode (fun hok => by cases hok) (fun _ => (lineSafe_unknown name).mpr (hsafe name args rfl)) rest
  · exact decodeReply_encode hplain.2 (fun herror => absurd herror hplain.1) rest

end

/-- The replies to a sequence of commands are read back one by one to their results, with nothing left over,
exactly when no unknown command that was executed has a name with a line break. -/
theorem replies_decode_iff {σ ι : Type} (e : Engine σ ι) (fuel : Nat) (s : σ) (stmts : List Statement)
    {results : List ExecutionResult} {stream : Bytes} (h : serveReplies e fuel s stmts = some (results, stream))
    (rest : Bytes) :
    readMany decodeReply results.length (stream ++ rest) = some (results.map replyOf, rest) ↔
      ∀ stmt ∈ stmts.take results.length, ∀ name args, stmt = .unknown name args → LineSafe name := by
  induction stmts generalizing s results stream with
  | nil =>
      cases h
      exact iff_of_true rfl fun stmt hstmt => absurd hstmt List.not_mem_nil
  | cons stmt stmts ih =>
      rw [serveReplies] at h
      obtain ⟨⟨result, s'⟩, hexecute, h⟩ := Option.bind_eq_some_iff.mp h
      dsimp only at h
      have hone := decodeReply_execute_iff hexecute
      have hread := decodeReply_execute hexecute
      split_ifs at h
      · obtain ⟨⟨results', stream'⟩, hserve, h⟩ := Option.bind_eq_some_iff.mp h
        cases h
        rw [List.length_cons, List.take_succ_cons, List.forall_mem_cons, readMany, List.append_assoc, List.map_cons,
          ← ih s' hserve]
        constructor
        · intro hmany
          obtain ⟨⟨reply, rest₁⟩, hreply, hmany⟩ := Option.bind_eq_some_iff.mp hmany
          obtain ⟨⟨replies, rest₂⟩, hreplies, hmany⟩ := Option.bind_eq_some_iff.mp hmany
          obtain ⟨heq, rfl⟩ := Prod.mk.inj (Option.some.inj hmany)
          obtain ⟨rfl, rfl⟩ := List.cons.inj heq
          have hsafe := (hone _).mp ⟨rest₁, hreply⟩
          rw [hread hsafe] at hreply
          obtain ⟨-, rfl⟩ := Prod.mk.inj (Option.some.inj hreply)
          exact ⟨hsafe, hreplies⟩
        · rintro ⟨hsafe, hmany⟩
          rw [hread hsafe]
          simp only [Option.bind_eq_bind, Option.bind_some, hmany]
          rfl
      · cases h
        rw [List.length_singleton, List.take_succ_cons, List.take_zero, List.forall_mem_singleton, readMany]
        constructor
        · intro hmany
          obtain ⟨⟨reply, rest₁⟩, hreply, hmany⟩ := Option.bind_eq_some_iff.mp hmany
          obtain ⟨heq, -⟩ := Prod.mk.inj (Option.some.inj hmany)
          obtain ⟨rfl, -⟩ := List.cons.inj heq
          exact (hone _).mp ⟨rest₁, hreply⟩
        · intro hsafe
          rw [hread hsafe]
          rfl

/-- An engine that holds nothing. -/
def emptyEngine : Engine Unit Unit where
  tfind _ _ := some none
  tinsert _ _ _ := none
  remove _ _ := none
  begin_ _ := some none
  firstGreaterEqual _ _ := some none
  advance _ _ := some none
  deref _ := 0
  size _ := some 0
  truncate _ := some ()
  readKey _ _ := none
  readValue _ _ := none
  writeEntry _ _ _ _ := none
  allocBlob _ := none
  freeBlob _ _ := none
  freeBlobs _ _ := some ()

theorem replies_decode_pipeline :
    (readMany decodeReply 3 (ascii "-ERR unknown command 'FOO'\r\n*2\r\n$-1\r\n$-1\r\n+OK\r\n" ++ []) =
        some ([.error (ascii "ERR unknown command 'FOO'"), .array [.nullBulk, .nullBulk], .simple (ascii "OK")], []) ↔
      ∀ stmt ∈ [Statement.unknown (ascii "FOO") [], .mget [ascii "a", ascii "b"], .quit, .dbSize].take 3,
        ∀ name args, stmt = .unknown name args → LineSafe name) := by
  have hserve : serveReplies emptyEngine 0 () [.unknown (ascii "FOO") [], .mget [ascii "a", ascii "b"], .quit, .dbSize] =
      some ([createError (ascii "unknown command 'FOO'"), createNullArr [none, none], createClose],
        ascii "-ERR unknown command 'FOO'\r\n*2\r\n$-1\r\n$-1\r\n+OK\r\n") := by
    decide +kernel
  exact replies_decode_iff emptyEngine 0 () [.unknown (ascii "FOO") [], .mget [ascii "a", ascii "b"], .quit, .dbSize]
    hserve []

/-- The name of an unknown command ends the error reply, and the rest of it is read as a second reply. -/
theorem unknown_command_splits :
    serveReplies emptyEngine 0 () [.unknown (ascii "A'\r\n+B") [], .dbSize] =
        some ([createError (ascii "unknown command 'A'\r\n+B'"), createInt 0],
          ascii "-ERR unknown command 'A'\r\n+B'\r\n:0\r\n") ∧
      readMany decodeReply 2 (ascii "-ERR unknown command 'A'\r\n+B'\r\n:0\r\n") =
        some ([.error (ascii "ERR unknown command 'A'"), .simple (ascii "B'")], ascii ":0\r\n") :=
  ⟨by decide +kernel, rfl⟩

end Plexdb.Resp
