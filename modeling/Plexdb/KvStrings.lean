import Plexdb.KvDurability

/-! The key-value store as its clients know it, a map from keys to values. It is one as long as no two of the keys in
use have the same hash. -/

namespace Plexdb.Kv

open Pager (Sys)

/-- The keys that a statement names. -/
def Statement.named : Statement → List Bytes
  | .get key => [key]
  | .set key _ _ _ => [key]
  | .del ks => ks
  | .exists_ ks => ks
  | .mget ks => ks
  | .mset pairs => pairs.map (·.1)
  | .typeOf key => [key]
  | _ => []

abbrev KeyMap := Bytes → Option Bytes

namespace KeyMap

def contains (m : KeyMap) (key : Bytes) : Bool := (m key).isSome

def store (m : KeyMap) (key value : Bytes) : KeyMap := Function.update m key (some value)

def delete (m : KeyMap) (key : Bytes) : KeyMap := Function.update m key none

def refuses (m : KeyMap) (key : Bytes) (nx xx : Bool) : Bool := (nx && m.contains key) || (xx && !m.contains key)

/-- How many of the deletions, one after the other, find their key. -/
def deletions (m : KeyMap) : List Bytes → Nat
  | [] => 0
  | key :: keys => (m.delete key).deletions keys + if m.contains key then 1 else 0

def effect (m : KeyMap) : Statement → KeyMap
  | .set key value nx xx => if m.refuses key nx xx then m else m.store key value
  | .del keys => keys.foldl delete m
  | .mset pairs => pairs.foldl (fun m p => m.store p.1 p.2) m
  | .flushDb | .flushAll => fun _ => none
  | _ => m

/-- The answer to a statement that names keys. -/
def answer (m : KeyMap) : Statement → Option ExecutionResult
  | .get key => some (match m key with
      | some value => createBulk value
      | none => createNotFound)
  | .set key _ nx xx => some (if m.refuses key nx xx then createNotFound else createSimple (ascii "OK"))
  | .del keys => some (createInt (m.deletions keys))
  | .exists_ keys => some (createInt (keys.countP m.contains))
  | .mget keys => some (createNullArr (keys.map m))
  | .mset _ => some (createSimple (ascii "OK"))
  | .typeOf key => some (createSimple (ascii (if m.contains key then "string" else "none")))
  | _ => none

end KeyMap

/-! ### Keys with hashes of their own -/

/-- The store and the map have the same values for these keys. -/
def Agrees (keys : Set Bytes) (d : KvMap) (m : KeyMap) : Prop := ∀ key ∈ keys, d.find key = m key

namespace Agrees

variable {keys : Set Bytes} {d : KvMap} {m : KeyMap} {key value : Bytes}

theorem contains (h : Agrees keys d m) (hkey : key ∈ keys) : d.contains key = m.contains key := by
  rw [KeyMap.contains, ← h key hkey, KvMap.find, Option.isSome_map]
  rfl

theorem refuses (h : Agrees keys d m) (hkey : key ∈ keys) (nx xx : Bool) :
    d.refuses key nx xx = m.refuses key nx xx := by
  rw [KvMap.refuses, KeyMap.refuses, h.contains hkey]

variable (hinj : keys.InjOn keyHash)

include hinj

/-- What changes under the hash of a key changes for this key alone. -/
theorem update (h : Agrees keys d m) (hkey : key ∈ keys) {d' : KvMap} {o : Option Bytes}
    (hd' : ∀ key', d'.find key' = if keyHash key' = keyHash key then o else d.find key') :
    Agrees keys d' (Function.update m key o) := by
  intro key' hkey'
  rw [hd', Function.update_apply]
  by_cases heq : key' = key
  · rw [if_pos (congrArg keyHash heq), if_pos heq]
  · rw [if_neg fun hhash => heq (hinj hkey' hkey hhash), if_neg heq]
    exact h key' hkey'

theorem store (h : Agrees keys d m) (hkey : key ∈ keys) : Agrees keys (d.store key value) (m.store key value) := by
  refine h.update hinj hkey fun key' => ?_
  rw [KvMap.find, KvMap.store, Dict.get_set]
  split_ifs <;> rfl

theorem delete (h : Agrees keys d m) (hkey : key ∈ keys) : Agrees keys (d.delete key) (m.delete key) := by
  refine h.update hinj hkey fun key' => ?_
  rw [KvMap.find, KvMap.delete, Dict.get_erase]
  split_ifs <;> rfl

theorem deleteAll {ks : List Bytes} (h : Agrees keys d m) (hks : ∀ key ∈ ks, key ∈ keys) :
    Agrees keys (d.deleteAll ks) (ks.foldl KeyMap.delete m) ∧ d.deletions ks = m.deletions ks := by
  induction ks generalizing d m with
  | nil => exact ⟨h, rfl⟩
  | cons key ks ih =>
      obtain ⟨hkey, hrest⟩ := List.forall_mem_cons.mp hks
      obtain ⟨hagrees, hcount⟩ := ih (h.delete hinj hkey) hrest
      refine ⟨hagrees, ?_⟩
      rw [KvMap.deletions, KeyMap.deletions, hcount, h.contains hkey]

theorem storeAll {pairs : List (Bytes × Bytes)} (h : Agrees keys d m) (hpairs : ∀ p ∈ pairs, p.1 ∈ keys) :
    Agrees keys (d.storeAll pairs) (pairs.foldl (fun m p => m.store p.1 p.2) m) := by
  induction pairs generalizing d m with
  | nil => exact h
  | cons p pairs ih =>
      obtain ⟨hkey, hrest⟩ := List.forall_mem_cons.mp hpairs
      exact ih (h.store hinj hkey) hrest

/-- Every statement keeps the agreement. -/
theorem effect (h : Agrees keys d m) {st : Statement} (hst : ∀ key ∈ st.named, key ∈ keys) :
    Agrees keys (d.effect st) (m.effect st) := by
  cases st with
  | set key value nx xx =>
      have hkey := hst key List.mem_cons_self
      rw [KvMap.effect, KeyMap.effect, h.refuses hkey]
      split_ifs
      · exact h
      · exact h.store hinj hkey
  | del ks => exact (h.deleteAll hinj hst).1
  | mset pairs => exact h.storeAll hinj fun p hp => hst p.1 (List.mem_map_of_mem hp)
  | flushDb => exact fun _ _ => rfl
  | flushAll => exact fun _ _ => rfl
  | _ => exact h

theorem answer (h : Agrees keys d m) {st : Statement} (hst : ∀ key ∈ st.named, key ∈ keys) {a : ExecutionResult}
    (ha : m.answer st = some a) : d.answer st = a := by
  have hcontains : ∀ key ∈ st.named, d.contains key = m.contains key := fun key hkey => h.contains (hst key hkey)
  cases st with
  | get key =>
      cases ha
      exact congrArg (fun
        | some value => createBulk value
        | none => createNotFound) (h key (hst key List.mem_cons_self))
  | set key value nx xx =>
      cases ha
      rw [KvMap.answer, h.refuses (hst key List.mem_cons_self)]
  | del ks =>
      cases ha
      have hcount : d.deletions ks = m.deletions ks := (h.deleteAll hinj hst).2
      rw [KvMap.answer, hcount]
  | exists_ ks =>
      cases ha
      rw [KvMap.answer, List.countP_congr fun key hkey => by rw [hcontains key hkey]]
  | mget ks =>
      cases ha
      have hvalues : ks.map d.find = ks.map m := List.map_congr_left fun key hkey => h key (hst key hkey)
      rw [KvMap.answer, hvalues]
  | mset pairs =>
      cases ha
      rfl
  | typeOf key =>
      cases ha
      rw [KvMap.answer, hcontains key List.mem_cons_self]
  | _ => cases ha

/-- The agreement through a run. -/
theorem foldl (h : Agrees keys d m) {sts : List Statement} (hsts : ∀ st ∈ sts, ∀ key ∈ st.named, key ∈ keys) :
    Agrees keys (sts.foldl KvMap.effect d) (sts.foldl KeyMap.effect m) := by
  induction sts generalizing d m with
  | nil => exact h
  | cons st sts ih =>
      obtain ⟨hst, hrest⟩ := List.forall_mem_cons.mp hsts
      exact ih (h.effect hinj hst) hrest

end Agrees

/-! ### Runs -/

variable {W : Nat} {index : BTree.NodeRef} {fuel : Nat} {salt : BitVec 64}

end Plexdb.Kv
