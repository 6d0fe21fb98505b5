import Plexdb.KvStatements
import Plexdb.XxHash

/-! The key-value engine (`keyvalue/engine/engine.cppm`): the execution of a statement, over any engine. An engine
has an index from the hash of a key to the identity of a blob, and the blob holds the key and the value. `none` is
a failed assertion, or a loop that is longer than the fuel it is given. -/

namespace Plexdb.Kv

/-! ### Patterns (`keyvalue/glob/glob.cpp`) -/

/-- The loop of `match`: `star` is the position behind the last `*` and `starKi` where its match begins. -/
def globLoop (key pattern : Bytes) (pi ki : Nat) (star : Option Nat) (starKi : Nat) (h : starKi ≤ ki) : Bool :=
  if _hki : ki < key.length then
    if pi < pattern.length ∧ (pattern[pi]? = some 63 ∨ pattern[pi]? = key[ki]?) then
      globLoop key pattern (pi + 1) (ki + 1) star starKi (h.trans (Nat.le_succ ki))
    else if _hpi : pi < pattern.length ∧ pattern[pi]? = some 42 then
      globLoop key pattern (pi + 1) ki (some (pi + 1)) ki (le_refl ki)
    else match star with
      | some afterStar => globLoop key pattern afterStar (starKi + 1) star (starKi + 1) (le_refl _)
      | none => false
  else (pattern.drop pi).all (· == 42)
  termination_by (key.length - starKi, key.length - ki, pattern.length - pi)
  decreasing_by
    · exact Prod.Lex.right _ (Prod.Lex.left _ _ (by omega))
    · rcases Nat.lt_or_eq_of_le h with hlt | heq
      · exact Prod.Lex.left _ _ (by omega)
      · rw [heq]
        exact Prod.Lex.right _ (Prod.Lex.right _ (by omega))
    · exact Prod.Lex.left _ _ (by omega)

def globMatch (key pattern : Bytes) : Bool :=
  if pattern = ascii "*" then true else globLoop key pattern 0 0 none 0 (le_refl 0)

/-! ### Results -/

inductive ExecutionStatus where
  | ok
  | notFound
  | error
  | close
  deriving DecidableEq, Repr

inductive ResultKind where
  | none
  | simpleStr
  | bulkStr
  | int
  | arr
  | nullArr
  | scan
  deriving DecidableEq, Repr

structure ExecutionResult where
  status : ExecutionStatus := .ok
  kind : ResultKind := .none
  str : Bytes := []
  integer : Int := 0
  arr : List Bytes := []
  nullArr : List (Option Bytes) := []
  cursor : Bytes := []
  errorMessage : Bytes := []
  deriving DecidableEq, Repr

def createNotFound : ExecutionResult := { status := .notFound }
def createClose : ExecutionResult := { status := .close }
def createError (msg : Bytes) : ExecutionResult := { status := .error, errorMessage := msg }
def createSimple (s : Bytes) : ExecutionResult := { kind := .simpleStr, str := s }
def createBulk (s : Bytes) : ExecutionResult := { kind := .bulkStr, str := s }
def createInt (n : Int) : ExecutionResult := { kind := .int, integer := n }
def createArr (a : List Bytes) : ExecutionResult := { kind := .arr, arr := a }
def createNullArr (a : List (Option Bytes)) : ExecutionResult := { kind := .nullArr, nullArr := a }
def createScan (cursor : Bytes) (keys : List Bytes) : ExecutionResult := { kind := .scan, cursor := cursor, arr := keys }

/-- `to_str(U64)`. -/
def toStr (n : Nat) : Bytes := (Nat.toDigits 10 n).map fun c => c.toNat.toUInt8

/-! ### The engine -/

/-- What the statements use of an engine. `ι` is a position in the index before its end, which is `none`. The last
field is the branch of `FLUSHDB` that frees the blobs. -/
structure Engine (σ ι : Type) where
  tfind : σ → UInt64 → Option (Option UInt64)
  tinsert : σ → UInt64 → UInt64 → Option σ
  remove : σ → UInt64 → Option σ
  begin_ : σ → Option (Option ι)
  firstGreaterEqual : σ → UInt64 → Option (Option ι)
  advance : σ → ι → Option (Option ι)
  deref : ι → UInt64
  size : σ → Option UInt64
  truncate : σ → Option σ
  readKey : σ → UInt64 → Option Bytes
  readValue : σ → UInt64 → Option Bytes
  writeEntry : σ → UInt64 → Bytes → Bytes → Option σ
  allocBlob : σ → Option (UInt64 × σ)
  freeBlob : σ → UInt64 → Option σ
  freeBlobs : (fuel : Nat) → σ → Option σ

section

variable {σ ι : Type} (e : Engine σ ι)

/-- The blob of the key is written over, or a new one is entered into the index. -/
def storeEntry (s : σ) (keyHash : UInt64) (idOpt : Option UInt64) (key value : Bytes) : Option σ :=
  match idOpt with
  | some id => e.writeEntry s id key value
  | none => do
      let (id, s) ← e.allocBlob s
      let s ← e.writeEntry s id key value
      e.tinsert s keyHash id

def executeGet (s : σ) (key : Bytes) : Option ExecutionResult := do
  match ← e.tfind s (hashString key) with
  | none => some createNotFound
  | some id => (e.readValue s id).map createBulk

def executeSet (s : σ) (key value : Bytes) (nx xx : Bool) : Option (ExecutionResult × σ) := do
  let keyHash := hashString key
  let idOpt ← e.tfind s keyHash
  if nx && idOpt.isSome then some (createNotFound, s)
  else if xx && idOpt.isNone then some (createNotFound, s)
  else (storeEntry e s keyHash idOpt key value).map fun s => (createSimple (ascii "OK"), s)

/-- The loop of `DEL` over the keys, with the count of those that were there. -/
def deleteKeys (s : σ) (count : Nat) : List Bytes → Option (Nat × σ)
  | [] => some (count, s)
  | key :: keys => do
      let keyHash := hashString key
      match ← e.tfind s keyHash with
      | none => deleteKeys s count keys
      | some id =>
          let s ← e.freeBlob s id
          let s ← e.remove s keyHash
          deleteKeys s (count + 1) keys

def countKeys (s : σ) : List Bytes → Option Nat
  | [] => some 0
  | key :: keys => do
      let idOpt ← e.tfind s (hashString key)
      let count ← countKeys s keys
      some (if idOpt.isSome then count + 1 else count)

def readIfFound (s : σ) : Option UInt64 → Option (Option Bytes)
  | some id => (e.readValue s id).map some
  | none => some none

/-- The loop of `MGET`. -/
def readKeys (s : σ) : List Bytes → Option (List (Option Bytes))
  | [] => some []
  | key :: keys => do
      let idOpt ← e.tfind s (hashString key)
      let val ← readIfFound e s idOpt
      let vals ← readKeys s keys
      some (val :: vals)

def storePairs (s : σ) : List (Bytes × Bytes) → Option σ
  | [] => some s
  | (key, value) :: pairs => do
      let keyHash := hashString key
      let idOpt ← e.tfind s keyHash
      let s ← storeEntry e s keyHash idOpt key value
      storePairs s pairs

/-- The loop of `KEYS`. -/
def collectKeys (s : σ) (pattern : Bytes) : (fuel : Nat) → Option ι → Option (List Bytes)
  | _, none => some []
  | 0, some _ => none
  | fuel + 1, some it => do
      let key ← e.readKey s (e.deref it)
      let next ← e.advance s it
      let keys ← collectKeys s pattern fuel next
      some (if globMatch key pattern then key :: keys else keys)

/-- The loop of `SCAN`: the keys of `count` entries, and the position behind them. -/
def scanKeys (s : σ) (pattern : Bytes) : (count : Nat) → Option ι → Option (List Bytes × Option ι)
  | _, none => some ([], none)
  | 0, some it => some ([], some it)
  | count + 1, some it => do
      let key ← e.readKey s (e.deref it)
      let next ← e.advance s it
      let (keys, last) ← scanKeys s pattern count next
      some (if globMatch key pattern then key :: keys else keys, last)

def scanStart (s : σ) (cursor : UInt64) : Option (Option ι) :=
  if cursor = 0 then e.begin_ s else e.firstGreaterEqual s cursor

/-- The hash of the key behind the last entry, or zero at the end. -/
def nextCursor (s : σ) : Option ι → Option UInt64
  | some it => (e.readKey s (e.deref it)).map hashString
  | none => some 0

def executeScan (s : σ) (cursor : UInt64) (pattern : Option Bytes) (count : Option UInt64) : Option ExecutionResult := do
  let first ← scanStart e s cursor
  let (keys, last) ← scanKeys e s (pattern.getD (ascii "*")) (count.getD 10).toNat first
  let next ← nextCursor e s last
  some (createScan (toStr next.toNat) keys)

def executeInfo (size : UInt64) : ExecutionResult :=
  createBulk (ascii "# Server\r\nredis_version:7.0.0\r\narch_bits:64\r\n# Keyspace\r\ndb0:keys=" ++ toStr size.toNat ++
    ascii ",expires=0\r\n")

/-- `execute_inside_transaction`. -/
def execute (fuel : Nat) (s : σ) : Statement → Option (ExecutionResult × σ)
  | .ping message => some (match message with
      | some message => createBulk message
      | none => createSimple (ascii "PONG"), s)
  | .quit => some (createClose, s)
  | .get key => (executeGet e s key).map (·, s)
  | .set key value nx xx => executeSet e s key value nx xx
  | .del keys => (deleteKeys e s 0 keys).map fun r => (createInt r.1, r.2)
  | .exists_ keys => (countKeys e s keys).map fun count => (createInt count, s)
  | .mget keys => (readKeys e s keys).map fun vals => (createNullArr vals, s)
  | .mset pairs => (storePairs e s pairs).map fun s => (createSimple (ascii "OK"), s)
  | .keys pattern => do
      let first ← e.begin_ s
      let keys ← collectKeys e s pattern fuel first
      some (createArr keys, s)
  | .scan cursor pattern count => (executeScan e s cursor pattern count).map (·, s)
  | .flushDb | .flushAll => do
      let s ← e.freeBlobs fuel s
      let s ← e.truncate s
      some (createSimple (ascii "OK"), s)
  | .dbSize => (e.size s).map fun size => (createInt size.toInt64.toInt, s)
  | .typeOf key => do
      let idOpt ← e.tfind s (hashString key)
      some (createSimple (ascii (if idOpt.isSome then "string" else "none")), s)
  | .cmd => some (createArr [], s)
  -- a database other than the first is not implemented
  | .selectDb index => if index ≠ 0 then none else some (createSimple (ascii "OK"), s)
  | .clientGetName => some (createNotFound, s)
  | .client _ => some (createSimple (ascii "OK"), s)
  | .info _ => (e.size s).map fun size => (executeInfo size, s)
  | .unknown name _ => some (createError (ascii "unknown command '" ++ name ++ ascii "'"), s)

end

end Plexdb.Kv
