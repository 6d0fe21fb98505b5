import Plexdb.BTreePages
import Plexdb.KvEngine
import Plexdb.Wire

/-! The key-value engine on a pager (`PagedEngine` of `keyvalue/engine/engine.cppm`), as programs on its pages. The
index is a tree from the hash of a key to the first page of a blob, and the blob holds the lengths and the bytes of
the key and the value. Every loop over the index takes fuel; it fails when the fuel is used up before the end. -/

namespace Plexdb.Kv.Paged

open Blob (BlobProgram BlobDynamicPaged u64)
open BTree (U64 NodeRef wordLayout)
open Wire (leBytes leValue)

variable {W : Nat}

/-! ### Blobs of entries -/

def writeBlob (b : BlobDynamicPaged) (key value : Bytes) : BlobProgram W Unit := do
  let b ← Blob.resizeImpl b (u64 (16 + key.length + value.length))
  Blob.update b (leBytes 8 key.length) 0
  Blob.update b key 8
  Blob.update b (leBytes 8 value.length) (u64 (8 + key.length))
  Blob.update b value (u64 (8 + key.length + 8))

def blobReadKey (b : BlobDynamicPaged) : BlobProgram W Bytes := do
  let keyLength ← Blob.get b 8 0
  Blob.get b (leValue keyLength) 8

def blobReadValue (b : BlobDynamicPaged) : BlobProgram W Bytes := do
  let keyLength ← Blob.get b 8 0
  let valueLength ← Blob.get b 8 (u64 (8 + leValue keyLength))
  Blob.get b (leValue valueLength) (u64 (8 + leValue keyLength + 8))

def readKey (id : U64) : BlobProgram W Bytes := do
  let b ← Blob.load id
  blobReadKey b

def readValue (id : U64) : BlobProgram W Bytes := do
  let b ← Blob.load id
  blobReadValue b

def writeEntry (id : U64) (key value : Bytes) : BlobProgram W Unit := do
  let b ← Blob.load id
  writeBlob b key value

def allocBlob : BlobProgram W U64 := do
  let page ← Blob.createPagedDynamic 0
  pure (Fin.ofNat _ page)

def freeBlob (id : U64) : BlobProgram W Unit := do
  let b ← Blob.load id
  Blob.removeImpl b

/-! ### Statements -/

/-- The iterator's value: the first page of the blob. -/
def deref (it : BTree.Iterator (Page W)) : BlobProgram W U64 := PageProgram.ofOption (it.value (wordLayout W))

variable (index : NodeRef)

def tfind (key : Bytes) : BlobProgram W (Option U64) := BTree.tfind (wordLayout W) index (hashString key).toFin

def tinsert (key : Bytes) (id : U64) : BlobProgram W Bool :=
  BTree.insertImpl (wordLayout W) index (hashString key).toFin id

/-- The blob of the key is written over, or a new one is entered into the index. -/
def storeEntry (idOpt : Option U64) (key value : Bytes) : BlobProgram W Unit :=
  match idOpt with
  | some id => writeEntry id key value
  | none => do
      let id ← allocBlob
      writeEntry id key value
      let _ ← tinsert index key id
      pure ()

def executeGet (key : Bytes) : BlobProgram W ExecutionResult := do
  match ← tfind index key with
  | none => pure createNotFound
  | some id => do
      let value ← readValue id
      pure (createBulk value)

def executeSet (key value : Bytes) (nx xx : Bool) : BlobProgram W ExecutionResult := do
  let idOpt ← tfind index key
  if nx && idOpt.isSome then pure createNotFound
  else if xx && idOpt.isNone then pure createNotFound
  else do
    storeEntry index idOpt key value
    pure (createSimple (ascii "OK"))

def deleteKeys (count : Nat) : List Bytes → BlobProgram W Nat
  | [] => pure count
  | key :: keys => do
      match ← tfind index key with
      | none => deleteKeys count keys
      | some id => do
          freeBlob id
          let _ ← BTree.removeImpl (wordLayout W) index (hashString key).toFin
          deleteKeys (count + 1) keys

def countKeys (count : Nat) : List Bytes → BlobProgram W Nat
  | [] => pure count
  | key :: keys => do
      let idOpt ← tfind index key
      countKeys (if idOpt.isSome then count + 1 else count) keys

def readIfFound : Option U64 → BlobProgram W (Option Bytes)
  | some id => do
      let value ← readValue id
      pure (some value)
  | none => pure none

def readKeys : List Bytes → BlobProgram W (List (Option Bytes))
  | [] => pure []
  | key :: keys => do
      let idOpt ← tfind index key
      let value ← readIfFound idOpt
      let values ← readKeys keys
      pure (value :: values)

def storePairs : List (Bytes × Bytes) → BlobProgram W Unit
  | [] => pure ()
  | (key, value) :: pairs => do
      let idOpt ← tfind index key
      storeEntry index idOpt key value
      storePairs pairs

/-- The loop of `KEYS`. -/
def collectKeys (pattern : Bytes) : (fuel : Nat) → Option (BTree.Iterator (Page W)) → BlobProgram W (List Bytes)
  | _, none => pure []
  | 0, some _ => .fail
  | fuel + 1, some it => do
      let id ← deref it
      let key ← readKey id
      let next ← it.advance (wordLayout W)
      let keys ← collectKeys pattern fuel next
      pure (if globMatch key pattern then key :: keys else keys)

/-- The loop of `SCAN`. -/
def scanKeys (pattern : Bytes) : (count : Nat) → Option (BTree.Iterator (Page W)) →
    BlobProgram W (List Bytes × Option (BTree.Iterator (Page W)))
  | _, none => pure ([], none)
  | 0, some it => pure ([], some it)
  | count + 1, some it => do
      let id ← deref it
      let key ← readKey id
      let next ← it.advance (wordLayout W)
      let (keys, last) ← scanKeys pattern count next
      pure (if globMatch key pattern then key :: keys else keys, last)

def scanStart (cursor : UInt64) : BlobProgram W (Option (BTree.Iterator (Page W))) :=
  if cursor = 0 then BTree.begin_ (wordLayout W) index else BTree.findFirstGeq (wordLayout W) index cursor.toFin

def nextCursor : Option (BTree.Iterator (Page W)) → BlobProgram W UInt64
  | some it => do
      let id ← deref it
      let key ← readKey id
      pure (hashString key)
  | none => pure 0

def executeScan (cursor : UInt64) (pattern : Option Bytes) (count : Option UInt64) :
    BlobProgram W ExecutionResult := do
  let first ← scanStart index cursor
  let (keys, last) ← scanKeys (pattern.getD (ascii "*")) (count.getD 10).toNat first
  let next ← nextCursor last
  pure (createScan (toStr next.toNat) keys)

/-- The loop of `FLUSHDB` goes on to the next entry before it frees the blob of one. -/
def freeBlobs : (fuel : Nat) → Option (BTree.Iterator (Page W)) → BlobProgram W Unit
  | _, none => pure ()
  | 0, some _ => .fail
  | fuel + 1, some it => do
      let id ← deref it
      let next ← it.advance (wordLayout W)
      freeBlob id
      freeBlobs fuel next

def executeFlush (fuel : Nat) : BlobProgram W ExecutionResult := do
  let first ← BTree.begin_ (wordLayout W) index
  freeBlobs fuel first
  BTree.truncateImpl (wordLayout W) index fuel
  pure (createSimple (ascii "OK"))

def size : BlobProgram W UInt64 := do
  let size ← BTree.size (wordLayout W) index
  pure (UInt64.ofNat size)

/-- `execute_inside_transaction`. -/
def execute (fuel : Nat) : Statement → BlobProgram W ExecutionResult
  | .ping message => match message with
      | some message => pure (createBulk message)
      | none => pure (createSimple (ascii "PONG"))
  | .quit => pure createClose
  | .get key => executeGet index key
  | .set key value nx xx => executeSet index key value nx xx
  | .del keys => do
      let count ← deleteKeys index 0 keys
      pure (createInt count)
  | .exists_ keys => do
      let count ← countKeys index 0 keys
      pure (createInt count)
  | .mget keys => do
      let values ← readKeys index keys
      pure (createNullArr values)
  | .mset pairs => do
      storePairs index pairs
      pure (createSimple (ascii "OK"))
  | .keys pattern => do
      let first ← BTree.begin_ (wordLayout W) index
      let keys ← collectKeys pattern fuel first
      pure (createArr keys)
  | .scan cursor pattern count => executeScan index cursor pattern count
  | .flushDb | .flushAll => executeFlush index fuel
  | .dbSize => do
      let size ← size index
      pure (createInt size.toInt64.toInt)
  | .typeOf key => do
      let idOpt ← tfind index key
      pure (createSimple (ascii (if idOpt.isSome then "string" else "none")))
  | .cmd => pure (createArr [])
  -- a database other than the first is not implemented
  | .selectDb database => if database ≠ 0 then .fail else pure (createSimple (ascii "OK"))
  | .clientGetName => pure createNotFound
  | .client _ => pure (createSimple (ascii "OK"))
  | .info _ => do
      let size ← size index
      pure (executeInfo size)
  | .unknown name _ => pure (createError (ascii "unknown command '" ++ name ++ ascii "'"))

end Plexdb.Kv.Paged
