import Plexdb.KvEngine
import Plexdb.SortedEntries

/-! What a key-value store is: a dictionary from the hash of a key to the key and its value. Keys with one hash share
an entry, which has the last of them that was stored. Every statement has an answer and an effect on the dictionary. -/

namespace Plexdb.Kv

/-- Where a key stands in the index. -/
def keyHash (key : Bytes) : Fin (2 ^ 64) := (hashString key).toFin

abbrev KvMap := Dict (Fin (2 ^ 64)) (Bytes × Bytes)

namespace KvMap

def contains (d : KvMap) (key : Bytes) : Bool := (d.get (keyHash key)).isSome

def find (d : KvMap) (key : Bytes) : Option Bytes := (d.get (keyHash key)).map (·.2)

def store (d : KvMap) (key value : Bytes) : KvMap := d.set (keyHash key) (key, value)

def delete (d : KvMap) (key : Bytes) : KvMap := d.erase (keyHash key)

def storeAll (d : KvMap) (pairs : List (Bytes × Bytes)) : KvMap := pairs.foldl (fun d p => d.store p.1 p.2) d

def deleteAll (d : KvMap) (keys : List Bytes) : KvMap := keys.foldl delete d

/-- How many of the deletions, one after the other, find their key. -/
def deletions (d : KvMap) : List Bytes → Nat
  | [] => 0
  | key :: keys => (d.delete key).deletions keys + if d.contains key then 1 else 0

/-- Whether `NX` or `XX` keeps a `SET` from storing. -/
def refuses (d : KvMap) (key : Bytes) (nx xx : Bool) : Bool := (nx && d.contains key) || (xx && !d.contains key)

/-- The keys of entries that match. -/
def matching (pattern : Bytes) (es : List (Fin (2 ^ 64) × Bytes × Bytes)) : List Bytes :=
  (es.map (·.2.1)).filter (globMatch · pattern)

/-- What a cursor has not passed yet. -/
def behind (d : KvMap) (cursor : UInt64) : List (Fin (2 ^ 64) × Bytes × Bytes) :=
  if cursor = 0 then d.entries else d.entries.filter fun e => cursor.toFin ≤ e.1

/-- The cursor before these entries. -/
def cursorOf : List (Fin (2 ^ 64) × Bytes × Bytes) → UInt64
  | [] => 0
  | e :: _ => hashString e.2.1

def scan (d : KvMap) (cursor : UInt64) (pattern : Bytes) (count : Nat) : ExecutionResult :=
  createScan (toStr (cursorOf ((d.behind cursor).drop count)).toNat) (matching pattern ((d.behind cursor).take count))

def answer (d : KvMap) : Statement → ExecutionResult
  | .ping message => match message with
      | some message => createBulk message
      | none => createSimple (ascii "PONG")
  | .quit => createClose
  | .get key => match d.find key with
      | some value => createBulk value
      | none => createNotFound
  | .set key _ nx xx => if d.refuses key nx xx then createNotFound else createSimple (ascii "OK")
  | .del keys => createInt (d.deletions keys)
  | .exists_ keys => createInt (keys.countP d.contains)
  | .mget keys => createNullArr (keys.map d.find)
  | .mset _ => createSimple (ascii "OK")
  | .keys pattern => createArr (matching pattern d.entries)
  | .scan cursor pattern count => d.scan cursor (pattern.getD (ascii "*")) (count.getD 10).toNat
  | .flushDb | .flushAll => createSimple (ascii "OK")
  | .dbSize => createInt (UInt64.ofNat d.size).toInt64.toInt
  | .typeOf key => createSimple (ascii (if d.contains key then "string" else "none"))
  | .cmd => createArr []
  | .selectDb _ => createSimple (ascii "OK")
  | .clientGetName => createNotFound
  | .client _ => createSimple (ascii "OK")
  | .info _ => executeInfo (UInt64.ofNat d.size)
  | .unknown name _ => createError (ascii "unknown command '" ++ name ++ ascii "'")

def effect (d : KvMap) : Statement → KvMap
  | .set key value nx xx => if d.refuses key nx xx then d else d.store key value
  | .del keys => d.deleteAll keys
  | .mset pairs => d.storeAll pairs
  | .flushDb | .flushAll => Dict.empty
  | _ => d

/-- Every entry stands under the hash of its key. -/
def Keyed (d : KvMap) : Prop := ∀ k p, d.get k = some p → k = keyHash p.1

theorem keyed_empty : Keyed Dict.empty := fun _ _ h => by cases h

theorem Keyed.store {d : KvMap} (hd : d.Keyed) (key value : Bytes) : (d.store key value).Keyed := by
  intro k p hp
  rw [KvMap.store, Dict.get_set] at hp
  split_ifs at hp with hk
  · cases hp
    exact hk
  · exact hd k p hp

theorem Keyed.delete {d : KvMap} (hd : d.Keyed) (key : Bytes) : (d.delete key).Keyed := by
  intro k p hp
  rw [KvMap.delete, Dict.get_erase] at hp
  split_ifs at hp
  exact hd k p hp

/-- Whatever storing and deleting keeps, every statement keeps. -/
theorem effect_induction {R : KvMap → Prop} (hstore : ∀ d key value, R d → R (d.store key value))
    (hdelete : ∀ d key, R d → R (d.delete key)) (hempty : R Dict.empty) {d : KvMap} (hd : R d) (st : Statement) :
    R (d.effect st) := by
  have hall : ∀ pairs d, R d → R (d.storeAll pairs) := by
    intro pairs
    induction pairs with
    | nil => exact fun d hd => hd
    | cons p pairs ih => exact fun d hd => ih _ (hstore d p.1 p.2 hd)
  have hnone : ∀ keys d, R d → R (d.deleteAll keys) := by
    intro keys
    induction keys with
    | nil => exact fun d hd => hd
    | cons key keys ih => exact fun d hd => ih _ (hdelete d key hd)
  cases st with
  | set key value nx xx =>
      rw [effect]
      split
      · exact hd
      · exact hstore d key value hd
  | del keys => exact hnone keys d hd
  | mset pairs => exact hall pairs d hd
  | flushDb => exact hempty
  | flushAll => exact hempty
  | _ => exact hd

theorem Keyed.effect {d : KvMap} (hd : d.Keyed) (st : Statement) : (d.effect st).Keyed :=
  effect_induction (fun _ key value hd => hd.store key value) (fun _ key hd => hd.delete key) keyed_empty hd st

end KvMap

end Plexdb.Kv
