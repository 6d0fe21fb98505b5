import Plexdb.KvLaid

/-! What the statements of the key-value store do on a pager: the store on some pages is a dictionary, and an
operation answers as the dictionary does and leaves the store of the dictionary it makes. -/

namespace Plexdb.Kv

open Blob (BlobDynamicPaged BlobProgram Does Fits Heap Views)
open BTree (U64 NodeRef Tree IsTree Replaced wordLayout)
open Pager (Sys)

variable {W : Nat}

/-! ### Stores -/

abbrev Items := Dict U64 Item

/-- The dictionary of the entries. -/
def mapOf (items : Items) : KvMap := items.map Item.pair

/-- The store under `index` has these entries. -/
structure IsStore (index : NodeRef) (h : Heap W) {n : Nat} (t : Tree U64 U64 n) (items : Items) : Prop extends
    Laid index h t items.entries where
  entries : t.entries = (items.map Item.id).entries

/-- The store under `index`, on `pages`, is the dictionary. -/
def Represents (index : NodeRef) (h : Heap W) (pages : List Nat) (d : KvMap) : Prop :=
  ∃ items : Items, ∃ n, ∃ t : Tree U64 U64 n, IsStore index h t items ∧ mapOf items = d ∧
    pagesOf index t items.entries = pages

/-- The store is a dictionary now, on pages that it owned or that were free; other pages are as they were. -/
def Leaves (index : NodeRef) (live : Finset Nat) (h : Heap W) (pages : List Nat) (d : KvMap) (s : Sys W) : Prop :=
  ∃ live' h' pages', Views s live' h' ∧ Represents index h' pages' d ∧ Replaced live live' h h' pages pages'

/-- The capacities of pages of ten words and more. -/
theorem capacities (hW : 10 ≤ W) : 2 ≤ (wordLayout W).leafCapacity ∧ 3 ≤ (wordLayout W).internalCapacity := by
  unfold BTree.Layout.leafCapacity BTree.Layout.internalCapacity BTree.maxKeysLeaf BTree.maxKeysInternal
    BTree.nodeHeaderBytes
  change 2 ≤ (if 24 + 8 + 8 ≤ 8 * W then some (min ((8 * W - 24) / (8 + 8)) (2 ^ 16 - 1)) else none).getD 0 ∧
    3 ≤ (if 24 + 8 + 2 * 8 ≤ 8 * W then some (min ((8 * W - 24 - 8) / (8 + 8)) (2 ^ 16 - 1)) else none).getD 0
  rw [if_pos (by omega), if_pos (by omega), Option.getD_some, Option.getD_some]
  omega

section

variable {index : NodeRef} {s : Sys W} {live live' : Finset Nat} {h h' : Heap W} {pages pages' : List Nat}
  {d d' : KvMap} {n : Nat} {t : Tree U64 U64 n} {items : Items}

theorem Represents.leaves (hs : Views s live h) (hd : Represents index h pages d) :
    Leaves index live h pages d s := by
  obtain ⟨items, n, t, hst, rfl, rfl⟩ := hd
  exact ⟨live, h, _, hs, ⟨items, n, t, hst, rfl, rfl⟩, Replaced.refl (hst.mem_live hs)⟩

theorem Leaves.trans (hl : Leaves index live' h' pages' d s) (hr : Replaced live live' h h' pages pages') :
    Leaves index live h pages d s := by
  obtain ⟨live'', h'', pages'', hs, hd, hr'⟩ := hl
  exact ⟨live'', h'', pages'', hs, hd, hr.trans hr'⟩

/-! ### Looking up -/

section

variable (hW : 10 ≤ W) (hs : Views s live h) (hst : IsStore index h t items)

include hW hs hst

theorem does_tfind (key : Bytes) : Does (Paged.tfind index key)
    (fun s' o => o = (items.get (keyHash key)).map Item.id ∧ Views s' live h) s := by
  refine BTree.does_tfind (Blob.heapRules (show 0 < W by omega)).toReadRules hs hst.tree fun s' hs' => ⟨?_, hs'⟩
  rw [hst.entries]
  exact Dict.get_map

theorem does_readIfFound {idOpt : Option U64} {key : Bytes} (hid : idOpt = (items.get (keyHash key)).map Item.id) :
    Does (Paged.readIfFound idOpt) (fun s' out => out = (mapOf items).find key ∧ Views s' live h) s := by
  rw [KvMap.find, mapOf, Dict.get_map]
  cases hget : items.get (keyHash key) with
  | none =>
      rw [hget] at hid
      rw [hid]
      exact ⟨rfl, hs⟩
  | some i =>
      rw [hget] at hid
      rw [hid]
      have hi := hst.stored _ (Dict.get_eq_some.mp hget)
      refine (does_readValue (by omega) hs hi.entry hi.head).bind ?_
      rintro s₁ - ⟨rfl, hs₁⟩
      exact ⟨rfl, hs₁⟩

end

theorem contains_map (key : Bytes) :
    (mapOf items).contains key = ((items.get (keyHash key)).map Item.id).isSome := by
  rw [KvMap.contains, mapOf, Dict.get_map, Option.isSome_map, Option.isSome_map]

theorem does_countKeys (hW : 10 ≤ W) (hs : Views s live h) (hst : IsStore index h t items) (count : Nat)
    (keys : List Bytes) : Does (Paged.countKeys index count keys)
      (fun s' out => out = count + keys.countP ((mapOf items).contains) ∧ Views s' live h) s := by
  induction keys generalizing s count with
  | nil => exact ⟨rfl, hs⟩
  | cons key keys ih =>
      refine (does_tfind hW hs hst key).bind ?_
      rintro s₁ - ⟨rfl, hs₁⟩
      refine (ih hs₁ _).mono ?_
      rintro s₂ - ⟨rfl, hs₂⟩
      refine ⟨?_, hs₂⟩
      rw [List.countP_cons, contains_map]
      split_ifs <;> omega

theorem does_readKeys (hW : 10 ≤ W) (hs : Views s live h) (hst : IsStore index h t items) (keys : List Bytes) :
    Does (Paged.readKeys index keys)
      (fun s' out => out = keys.map ((mapOf items).find) ∧ Views s' live h) s := by
  induction keys generalizing s with
  | nil => exact ⟨rfl, hs⟩
  | cons key keys ih =>
      refine (does_tfind hW hs hst key).bind ?_
      rintro s₁ - ⟨rfl, hs₁⟩
      refine (does_readIfFound hW hs₁ hst rfl).bind ?_
      rintro s₂ - ⟨rfl, hs₂⟩
      refine (ih hs₂).bind ?_
      rintro s₃ - ⟨rfl, hs₃⟩
      exact ⟨rfl, hs₃⟩

/-! ### Storing -/

theorem mapOf_set {key value : Bytes} (i : Item) (hi : i.pair = (key, value)) :
    mapOf (items.set (keyHash key) i) = (mapOf items).store key value := by
  rw [mapOf, Dict.map_set, hi]
  rfl

theorem does_storeEntry (hW : 10 ≤ W) (hs : Views s live h) (hst : IsStore index h t items)
    {idOpt : Option U64} {key value : Bytes} (hid : idOpt = (items.get (keyHash key)).map Item.id)
    (hfits : Fits W (16 + key.length + value.length)) (hsize : items.size + 1 < 2 ^ 64) :
    Does (Paged.storeEntry index idOpt key value) (fun s' _ =>
      Leaves index live h (pagesOf index t items.entries) ((mapOf items).store key value) s') s := by
  cases hget : items.get (keyHash key) with
  | some i =>
      -- the blob of the entry is written over
      rw [hget] at hid
      rw [hid]
      obtain ⟨front, rest, hentries, hset, -⟩ := Dict.entries_of_get hget
      have hi := hst.stored _ (Dict.get_eq_some.mp hget)
      have hlaid := hst.toLaid
      rw [hentries] at hlaid ⊢
      refine (does_writeEntry (by omega) hs hi.entry.stored hi.head hfits).mono ?_
      rintro s₁ - ⟨live₁, h₁, b, hs₁, hentry, hhead, hr⟩
      obtain ⟨hlaid₁, hr₁⟩ := Laid.replaceBlobs front [_] [(keyHash key, ⟨i.id, b, key, value⟩)] rest hlaid hs
        (by rw [blobPages_singleton, blobPages_singleton]; exact hr) (List.forall_mem_singleton.mpr ⟨hentry, hhead⟩)
        (by rw [blobPages_singleton]; exact hentry.stored.chain.nodup)
      have htree : t.entries = ((items.set (keyHash key) ⟨i.id, b, key, value⟩).map Item.id).entries := by
        change _ = ((items.set _ _).entries.map fun e => (e.1, e.2.id))
        rw [hst.entries, hset]
        change items.entries.map (fun e => (e.1, e.2.id)) = _
        rw [hentries, List.map_append, List.map_append]
        rfl
      refine ⟨live₁, h₁, _, hs₁, ⟨items.set (keyHash key) ⟨i.id, b, key, value⟩, n, t, ⟨?_, htree⟩,
        mapOf_set _ rfl, rfl⟩, ?_⟩
      · rw [hset]
        exact hlaid₁
      · rw [hset]
        exact hr₁
  | none =>
      -- a new blob is allocated, written, and entered into the index
      rw [hget] at hid
      rw [hid]
      obtain ⟨front, rest, hentries, hset⟩ := Dict.entries_of_get_eq_none hget
      have hlaid := hst.toLaid
      rw [hentries] at hlaid ⊢
      refine (does_allocBlob (by omega) hs (by rw [Fits] at hfits ⊢; omega)).bind ?_
      rintro s₁ id ⟨live₁, h₁, b, hs₁, hb, hhead, -, hr₁⟩
      refine (does_writeEntry (by omega) hs₁ hb hhead hfits).bind ?_
      rintro s₂ - ⟨live₂, h₂, b', hs₂, hentry, hhead', hr₂⟩
      obtain ⟨hlaid₂, hr₃⟩ := Laid.replaceBlobs front [] [(keyHash key, ⟨id, b', key, value⟩)] rest hlaid hs
        (by rw [blobPages_singleton]; exact hr₁.trans hr₂) (List.forall_mem_singleton.mpr ⟨hentry, hhead'⟩)
        (by rw [blobPages_singleton]; exact hentry.stored.chain.nodup)
      obtain ⟨hleaf, hinternal⟩ := capacities hW
      have hlen : t.entries.length = items.size := by rw [hst.entries]; exact Dict.size_map
      refine PageProgram.ensures_bind.mpr (BTree.does_insertImpl (Blob.heapRules (show 0 < W by omega))
        (BTree.wordLayout_lawful (by omega)) hleaf hinternal (show 8 < 2 ^ 16 by decide) hs₂ hlaid₂.tree
        (by rw [hlen]; exact hsize) fun s₃ live₃ h₃ m t' hs₃ ht' hinserted hr₄ => ?_)
      obtain ⟨hlaid₃, hr₅⟩ := hlaid₂.replaceTree hs₂ ht' hr₄
      have htree : t'.entries = ((items.set (keyHash key) ⟨id, b', key, value⟩).map Item.id).entries := by
        rw [hinserted, hst.entries, Dict.map_set]
        rfl
      refine ⟨live₃, h₃, _, hs₃, ⟨items.set (keyHash key) ⟨id, b', key, value⟩, m, t', ⟨?_, htree⟩,
        mapOf_set _ rfl, rfl⟩, ?_⟩
      · rw [hset]
        exact hlaid₃
      · rw [hset]
        exact hr₃.trans hr₅

/-! ### Deleting -/

theorem does_deleteEntry (hW : 10 ≤ W) (hpage : 8 * W < 2 ^ 16) (hs : Views s live h) (hst : IsStore index h t items)
    {i : Item} {key : Bytes} (hget : items.get (keyHash key) = some i) {β : Type} {f : BlobProgram W β}
    {Q : Sys W → β → Prop}
    (hQ : ∀ s', Leaves index live h (pagesOf index t items.entries) ((mapOf items).delete key) s' → Does f Q s') :
    Does (Paged.freeBlob i.id >>= fun _ =>
      BTree.removeImpl (wordLayout W) index (hashString key).toFin >>= fun _ => f) Q s := by
  obtain ⟨front, rest, hentries, -, herase⟩ := Dict.entries_of_get hget
  have hi := hst.stored _ (Dict.get_eq_some.mp hget)
  have hlaid := hst.toLaid
  rw [hentries] at hlaid hQ
  refine (does_freeBlob (by omega) hs hi.entry.stored hi.head).bind ?_
  rintro s₁ - hs₁
  obtain ⟨hlaid₁, hr₁⟩ := Laid.replaceBlobs front [_] [] rest hlaid hs
    (by rw [blobPages_singleton]; exact Blob.replaced_without live h i.blob.pages)
    (fun _ he => absurd he List.not_mem_nil) List.nodup_nil
  obtain ⟨hleaf, hinternal⟩ := capacities hW
  refine PageProgram.ensures_bind.mpr (BTree.does_removeImpl (Blob.heapRules (show 0 < W by omega))
    (BTree.wordLayout_lawful (by omega)) hpage hleaf hinternal hs₁ hlaid₁.tree
    fun s₂ live₂ h₂ m t' hs₂ ht' hremoved hr₂ => ?_)
  obtain ⟨hlaid₂, hr₃⟩ := hlaid₁.replaceTree hs₁ ht' hr₂
  have htree : t'.entries = ((items.erase (keyHash key)).map Item.id).entries := by
    rw [hremoved, hst.entries, Dict.map_erase]
    rfl
  refine hQ s₂ ⟨live₂, h₂, _, hs₂, ⟨items.erase (keyHash key), m, t', ⟨?_, htree⟩, Dict.map_erase, rfl⟩, ?_⟩
  · rw [herase]
    exact hlaid₂
  · rw [herase]
    exact hr₁.trans hr₃

theorem does_deleteKeys (hW : 10 ≤ W) (hpage : 8 * W < 2 ^ 16) (hs : Views s live h)
    (hd : Represents index h pages d) (count : Nat) (keys : List Bytes) :
    Does (Paged.deleteKeys index count keys) (fun s' out => out = count + d.deletions keys ∧
      Leaves index live h pages (d.deleteAll keys) s') s := by
  induction keys generalizing s live h pages d count with
  | nil => exact ⟨rfl, hd.leaves hs⟩
  | cons key keys ih =>
      obtain ⟨items, n, t, hst, rfl, rfl⟩ := hd
      refine (does_tfind hW hs hst key).bind ?_
      rintro s₁ - ⟨rfl, hs₁⟩
      have hcontains : (mapOf items).contains key = ((items.get (keyHash key)).map Item.id).isSome := contains_map key
      cases hget : items.get (keyHash key) with
      | none =>
          have hnone : (mapOf items).delete key = mapOf items :=
            Dict.erase_of_get_eq_none (by rw [mapOf, Dict.get_map, hget]; rfl)
          rw [hget] at hcontains
          refine (ih hs₁ ⟨items, n, t, hst, rfl, rfl⟩ count).mono ?_
          rintro s₂ out ⟨rfl, hleaves⟩
          rw [KvMap.deletions, hnone, hcontains]
          exact ⟨rfl, (congrArg (KvMap.deleteAll · keys) hnone).symm ▸ hleaves⟩
      | some i =>
          rw [hget] at hcontains
          refine does_deleteEntry hW hpage hs₁ hst hget fun s₂ hdel => ?_
          obtain ⟨live₂, h₂, pages₂, hs₂, hd₂, hr⟩ := hdel
          refine (ih hs₂ hd₂ (count + 1)).mono ?_
          rintro s₃ out ⟨rfl, hleaves⟩
          rw [KvMap.deletions, hcontains]
          exact ⟨by simp; omega, hleaves.trans hr⟩

/-! ### Storing several entries -/

theorem does_storePairs (hW : 10 ≤ W) (hs : Views s live h) (hd : Represents index h pages d)
    (pairs : List (Bytes × Bytes)) (hfits : ∀ p ∈ pairs, Fits W (16 + p.1.length + p.2.length))
    (hsize : d.size + pairs.length < 2 ^ 64) :
    Does (Paged.storePairs index pairs) (fun s' _ => Leaves index live h pages (d.storeAll pairs) s') s := by
  induction pairs generalizing s live h pages d with
  | nil => exact hd.leaves hs
  | cons p pairs ih =>
      obtain ⟨items, n, t, hst, rfl, rfl⟩ := hd
      rw [List.length_cons] at hsize
      have hlen : items.size = (mapOf items).size := Dict.size_map.symm
      refine (does_tfind hW hs hst p.1).bind ?_
      rintro s₁ - ⟨rfl, hs₁⟩
      refine (does_storeEntry hW hs₁ hst rfl (hfits p List.mem_cons_self) (by omega)).bind ?_
      rintro s₂ - ⟨live₂, h₂, pages₂, hs₂, hd₂, hr⟩
      have hgrown : ((mapOf items).store p.1 p.2).size ≤ (mapOf items).size + 1 := Dict.size_set_le
      refine (ih hs₂ hd₂ (fun q hq => hfits q (List.mem_cons_of_mem _ hq)) (by omega)).mono ?_
      rintro s₃ - hleaves
      exact hleaves.trans hr

end

end Plexdb.Kv
