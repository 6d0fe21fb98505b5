import Plexdb.BTreeRuns
import Plexdb.KvEntries
import Plexdb.KvMap

/-! The pages of a key-value store: the tree from the hash of a key to the first page of a blob, and the blobs. -/

namespace Plexdb.Kv

open Blob (BlobDynamicPaged Heap Views)
open BTree (U64 NodeRef Tree IsTree Replaced wordLayout)
open Pager (Sys)

variable {W : Nat}

/-! ### Entries -/

/-- An entry of the store: its blob, the first page of it, and what it holds. -/
structure Item where
  id : U64
  blob : BlobDynamicPaged
  key : Bytes
  value : Bytes

def Item.pair (i : Item) : Bytes × Bytes := (i.key, i.value)

structure Item.Stored (h : Heap W) (i : Item) : Prop where
  entry : EntryStored h i.blob i.key i.value
  head : i.blob.dataPages.head? = some i.id.val

theorem Item.Stored.congr {h h' : Heap W} {i : Item} (hi : i.Stored h) (heq : ∀ j ∈ i.blob.pages, h' j = h j) :
    i.Stored h' :=
  ⟨hi.entry.congr heq, hi.head⟩

def blobPages (es : List (U64 × Item)) : List Nat := es.flatMap (·.2.blob.pages)

@[simp] theorem blobPages_nil : blobPages [] = [] := rfl

@[simp] theorem blobPages_cons (e : U64 × Item) (es : List (U64 × Item)) :
    blobPages (e :: es) = e.2.blob.pages ++ blobPages es := rfl

@[simp] theorem blobPages_singleton (e : U64 × Item) : blobPages [e] = e.2.blob.pages := List.append_nil _

@[simp] theorem blobPages_append (es fs : List (U64 × Item)) : blobPages (es ++ fs) = blobPages es ++ blobPages fs :=
  List.flatMap_append

/-! ### The index and the blobs -/

section

variable {index : NodeRef} {n m : Nat} {t : Tree U64 U64 n} {t' : Tree U64 U64 m}
  {es : List (U64 × Item)}
  {s : Sys W} {live live' : Finset Nat} {h h' : Heap W}

/-- The pages of the index and of the blobs. -/
def pagesOf (index : NodeRef) (t : Tree U64 U64 n) (es : List (U64 × Item)) : List Nat :=
  (index :: t.refs) ++ blobPages es

/-- The tree of the index and the blobs of some entries, on pages of their own. -/
structure Laid (index : NodeRef) (h : Heap W) (t : Tree U64 U64 n) (es : List (U64 × Item)) : Prop where
  tree : IsTree (wordLayout W) (· < 2 ^ 64) (· < 2 ^ 64) index h t
  stored : ∀ e ∈ es, e.2.Stored h
  nodup : (pagesOf index t es).Nodup

theorem Laid.mem_live (hl : Laid index h t es) (hs : Views s live h) : ∀ i ∈ pagesOf index t es, i ∈ live := by
  intro i hi
  rcases List.mem_append.mp hi with hi | hi
  · rcases List.mem_cons.mp hi with rfl | hi
    · obtain ⟨p, hp, -⟩ := hl.tree.page
      exact (hs.page _ _ hp).1
    · obtain ⟨p, hp⟩ := hl.tree.sound.stored.exists_page hi
      exact (hs.page _ _ hp).1
  · obtain ⟨e, he, hi⟩ := List.mem_flatMap.mp hi
    exact (hl.stored e he).entry.stored.pages_live hs i hi

/-- Every page of the store has its content in the heap. -/
theorem Laid.exists_page (hl : Laid index h t es) : ∀ i ∈ pagesOf index t es, ∃ p, h i = some p := by
  intro i hi
  rcases List.mem_append.mp hi with hi | hi
  · rcases List.mem_cons.mp hi with rfl | hi
    · obtain ⟨p, hp, -⟩ := hl.tree.page
      exact ⟨p, hp⟩
    · exact hl.tree.sound.stored.exists_page hi
  · obtain ⟨e, he, hi⟩ := List.mem_flatMap.mp hi
    exact ((hl.stored e he).entry.stored.chain.stored i hi).2

theorem pagesOf_perm (index : NodeRef) (t : Tree U64 U64 n) (front mid rest : List (U64 × Item)) :
    (pagesOf index t (front ++ (mid ++ rest))).Perm (blobPages mid ++ pagesOf index t (front ++ rest)) := by
  unfold pagesOf
  rw [blobPages_append, blobPages_append, blobPages_append, ← List.append_assoc, ← List.append_assoc,
    List.append_assoc _ (blobPages mid), ← List.append_assoc (index :: t.refs)]
  exact (List.perm_append_comm_assoc _ _ _)

/-- The index was rewritten. -/
theorem Laid.replaceTree (hl : Laid index h t es) (hs : Views s live h)
    (ht' : IsTree (wordLayout W) (· < 2 ^ 64) (· < 2 ^ 64) index h' t')
    (hr : Replaced live live' h h' (index :: t.refs) (index :: t'.refs)) :
    Laid index h' t' es ∧ Replaced live live' h h' (pagesOf index t es) (pagesOf index t' es) := by
  have hlive : ∀ i ∈ blobPages es, i ∈ live := fun i hi => hl.mem_live hs i (List.mem_append_right _ hi)
  obtain ⟨hnodup, hsame, hreplaced⟩ :=
    hr.beside hlive hl.nodup (List.nodup_cons.mpr ⟨ht'.out, ht'.sound.nodup⟩)
  refine ⟨⟨ht', fun e he => ?_, hnodup⟩, hreplaced⟩
  exact (hl.stored e he).congr fun i hi => hsame i (List.mem_flatMap_of_mem he hi)

/-- Some of the blobs were rewritten, allocated or freed. -/
theorem Laid.replaceBlobs (front old new rest : List (U64 × Item)) (hl : Laid index h t (front ++ (old ++ rest)))
    (hs : Views s live h)
    (hr : Replaced live live' h h' (blobPages old) (blobPages new)) (hnew : ∀ e ∈ new, e.2.Stored h')
    (hnodup : (blobPages new).Nodup) :
    Laid index h' t (front ++ (new ++ rest)) ∧
      Replaced live live' h h' (pagesOf index t (front ++ (old ++ rest)))
        (pagesOf index t (front ++ (new ++ rest))) := by
  have hperm := pagesOf_perm index t front old rest
  have hperm' := pagesOf_perm index t front new rest
  have hlive : ∀ i ∈ pagesOf index t (front ++ rest), i ∈ live := fun i hi =>
    hl.mem_live hs i (hperm.mem_iff.mpr (List.mem_append_right _ hi))
  obtain ⟨hnodup', hsame, hreplaced⟩ := hr.beside hlive (hperm.nodup_iff.mp hl.nodup) hnodup
  refine ⟨⟨hl.tree.congr fun i hi => hsame i (List.mem_append_left _ hi), fun e he => ?_,
    hperm'.nodup_iff.mpr hnodup'⟩, hreplaced.congr (fun i => hperm.mem_iff) fun i => hperm'.mem_iff⟩
  have hother : e ∈ front ++ rest → e.2.Stored h' := fun hmem => by
    refine (hl.stored e ?_).congr fun i hi =>
      hsame i (List.mem_append_right _ (List.mem_flatMap_of_mem hmem hi))
    rcases List.mem_append.mp hmem with hmem | hmem
    · exact List.mem_append_left _ hmem
    · exact List.mem_append_right _ (List.mem_append_right _ hmem)
  rcases List.mem_append.mp he with he | he
  · exact hother (List.mem_append_left _ he)
  · rcases List.mem_append.mp he with he | he
    · exact hnew e he
    · exact hother (List.mem_append_right _ he)

end

end Plexdb.Kv
