import Plexdb.BTreeAccess
import Plexdb.BlobAccess
import Plexdb.KvPaged

/-! The blob of one entry of the key-value store: what is written to it is read back, and nothing but its own pages is
touched. -/

namespace Plexdb

open BTree (Replaced)
open Pager (Sys)

variable {W : Nat}

/-! ### What blobs own -/

namespace Blob

variable {s : Sys W} {live live' : Finset Nat} {h h' : Heap W} {b b' : BlobDynamicPaged}

theorem Stored.congr (hb : Stored h b) (heq : ∀ i ∈ b.pages, h' i = h i) : Stored h' b where
  fits := hb.fits
  data := hb.data
  header := hb.header
  chain := hb.chain.congr heq
  size dp hdp := (hb.size dp hdp).congr (heq dp (List.mem_append_left _ (mem_of_head? hdp)))

theorem byteAt_congr (heq : ∀ i ∈ b.pages, h' i = h i) (offset : Nat) : byteAt h' b offset = byteAt h b offset := by
  unfold byteAt
  cases hpage : b.dataPages[address W offset / (8 * W)]? with
  | none => rfl
  | some page =>
      rw [Option.bind_some, Option.bind_some, heq page (List.mem_append_left _ (List.mem_of_getElem? hpage))]

theorem Stored.pages_live (hb : Stored h b) (hs : Views s live h) : ∀ i ∈ b.pages, i ∈ live :=
  fun _ hi => hs.mem_live hb.chain hi

theorem Resized.replaced {n : Nat} {s' : Sys W} (hr : Resized live h b n s' live' h' b') :
    Replaced live live' h h' b.pages b'.pages where
  live_eq := hr.live_eq
  owned i hi := by
    by_cases hmem : i ∈ b.pages
    · exact .inl hmem
    · exact .inr (hr.fresh i hi hmem)
  frame := hr.frame

/-- The first page of a blob stays. -/
theorem Resized.head?_eq {n : Nat} {s' : Sys W} (hb : Stored h b) (hr : Resized live h b n s' live' h' b') :
    b'.dataPages.head? = b.dataPages.head? := by
  obtain ⟨dp, rest, hlist⟩ := hb.exists_first
  obtain ⟨dp', rest', hlist'⟩ := hr.stored.exists_first
  rcases hr.lists with ⟨⟨tail, heq⟩, -⟩ | ⟨⟨tail, heq⟩, -⟩
  · rw [hlist] at heq
    rw [← heq, hlist]
    rfl
  · rw [hlist'] at heq
    rw [← heq, hlist']
    rfl

theorem Written.replaced {offset : Nat} {value : Bytes} (hs : Views s live h) (hb : Stored h b)
    (hw : Written h b offset value h') : Replaced live live h h' b.pages b.pages where
  live_eq := (Finset.sdiff_union_of_subset (hs.pages_subset hb)).symm
  owned _ hi := .inl hi
  frame i _ hi := hw.frame i hi

theorem Created.replaced {n : Nat} {s' : Sys W} (hc : Created live h n s' live' h' b) :
    Replaced live live' h h' [] b.pages where
  live_eq := by
    rw [hc.live_eq, List.toFinset_nil, Finset.sdiff_empty]
  owned i hi := .inr (hc.fresh i hi)
  frame i hi _ := hc.frame i hi

theorem replaced_without (live : Finset Nat) (h : Heap W) (pages : List Nat) :
    Replaced live (live \ pages.toFinset) h (h.without pages) pages [] where
  live_eq := by
    rw [List.toFinset_nil, Finset.union_empty]
  owned _ hi := absurd hi List.not_mem_nil
  frame _ _ hi := Heap.without_of_not_mem hi

end Blob

namespace Kv

open Blob Wire

/-! ### One entry -/

def entryBytes (key value : Bytes) : Bytes :=
  leBytes 8 key.length ++ (key ++ (leBytes 8 value.length ++ value))

/-- The blob holds the key and the value. -/
structure EntryStored (h : Heap W) (b : BlobDynamicPaged) (key value : Bytes) : Prop where
  stored : Stored h b
  size : b.sizeBytes = (entryBytes key value).length
  bytes : ∀ i < b.sizeBytes, byteAt h b i = (entryBytes key value)[i]?

variable {s : Sys W} {live live' : Finset Nat} {h h' : Heap W} {b : BlobDynamicPaged} {key value : Bytes}

theorem length_entryBytes (key value : Bytes) : (entryBytes key value).length = 16 + key.length + value.length := by
  simp only [entryBytes, List.length_append, length_leBytes]
  omega

theorem EntryStored.congr (he : EntryStored h b key value) (heq : ∀ i ∈ b.pages, h' i = h i) :
    EntryStored h' b key value where
  stored := he.stored.congr heq
  size := he.size
  bytes i hi := (byteAt_congr heq i).trans (he.bytes i hi)

theorem EntryStored.lt (he : EntryStored h b key value) : 16 + key.length + value.length < 2 ^ 64 := by
  have hfits := he.stored.fits
  rw [Fits, he.size, length_entryBytes] at hfits
  omega

/-- A part of the entry is read. -/
theorem does_getPart (hW : 2 < W) (hs : Views s live h) (front part back : Bytes) (he : EntryStored h b key value)
    (hparts : entryBytes key value = front ++ (part ++ back)) :
    Does (get b part.length front.length) (fun s' out => out = part ∧ Views s' live h) s := by
  have hsize : b.sizeBytes = front.length + (part.length + back.length) := by
    rw [he.size, hparts, List.length_append, List.length_append]
  refine (does_get hW hs he.stored (by omega)).mono ?_
  rintro s' out ⟨hs', hlen, hbytes⟩
  refine ⟨List.ext_getElem? fun i => ?_, hs'⟩
  by_cases hi : i < part.length
  · rw [← hbytes i hi, he.bytes _ (by omega), hparts, List.getElem?_append_right (by omega), Nat.add_sub_cancel_left,
      List.getElem?_append_left hi]
  · rw [List.getElem?_eq_none (by omega), List.getElem?_eq_none (by omega)]

theorem does_blobReadKey (hW : 2 < W) (hs : Views s live h) (he : EntryStored h b key value) :
    Does (Paged.blobReadKey b) (fun s' out => out = key ∧ Views s' live h) s := by
  have hlt := he.lt
  have hlen := does_getPart hW hs [] (leBytes 8 key.length) _ he rfl
  rw [length_leBytes] at hlen
  refine hlen.bind ?_
  rintro s₁ - ⟨rfl, hs₁⟩
  have hkey := does_getPart hW hs₁ (leBytes 8 key.length) key _ he rfl
  rw [length_leBytes] at hkey
  rw [leValue_leBytes 8 _ (by omega)]
  exact hkey

theorem does_blobReadValue (hW : 2 < W) (hs : Views s live h) (he : EntryStored h b key value) :
    Does (Paged.blobReadValue b) (fun s' out => out = value ∧ Views s' live h) s := by
  have hlt := he.lt
  have hlen := does_getPart hW hs [] (leBytes 8 key.length) _ he rfl
  rw [length_leBytes] at hlen
  refine hlen.bind ?_
  rintro s₁ - ⟨rfl, hs₁⟩
  rw [leValue_leBytes 8 _ (by omega), u64_of_lt (by omega), u64_of_lt (by omega)]
  have hvalueLen := does_getPart hW hs₁ (leBytes 8 key.length ++ key) (leBytes 8 value.length) value he
    (by simp [entryBytes])
  rw [List.length_append, length_leBytes, length_leBytes] at hvalueLen
  refine hvalueLen.bind ?_
  rintro s₂ - ⟨rfl, hs₂⟩
  rw [leValue_leBytes 8 _ (by omega)]
  have hvalue := does_getPart hW hs₂ (leBytes 8 key.length ++ (key ++ leBytes 8 value.length)) value [] he
    (by simp [entryBytes])
  rw [List.length_append, List.length_append, length_leBytes, length_leBytes, ← Nat.add_assoc] at hvalue
  exact hvalue

theorem does_readKey (hW : 2 < W) (hs : Views s live h) (he : EntryStored h b key value) {id : BTree.U64}
    (hid : b.dataPages.head? = some id.val) :
    Does (Paged.readKey id) (fun s' out => out = key ∧ Views s' live h) s := by
  refine (does_load hW hs he.stored hid).bind ?_
  rintro s₁ b ⟨rfl, hs₁⟩
  exact does_blobReadKey hW hs₁ he

theorem does_readValue (hW : 2 < W) (hs : Views s live h) (he : EntryStored h b key value) {id : BTree.U64}
    (hid : b.dataPages.head? = some id.val) :
    Does (Paged.readValue id) (fun s' out => out = value ∧ Views s' live h) s := by
  refine (does_load hW hs he.stored hid).bind ?_
  rintro s₁ b ⟨rfl, hs₁⟩
  exact does_blobReadValue hW hs₁ he

/-- The blob is written over, at the size of the new entry, on the same first page. -/
theorem does_writeEntry (hW : 2 < W) (hs : Views s live h) (hb : Stored h b) {id : BTree.U64}
    (hid : b.dataPages.head? = some id.val) (hfits : Fits W (16 + key.length + value.length)) :
    Does (Paged.writeEntry id key value) (fun s' _ => ∃ live' h' b', Views s' live' h' ∧
      EntryStored h' b' key value ∧ b'.dataPages.head? = some id.val ∧
      Replaced live live' h h' b.pages b'.pages) s := by
  have hlt : 16 + key.length + value.length < 2 ^ 64 := by
    rw [Fits] at hfits
    omega
  refine (does_load hW hs hb hid).bind ?_
  rintro s₀ b ⟨rfl, hs₀⟩
  unfold Paged.writeBlob
  rw [u64_of_lt hlt, u64_of_lt (by omega), u64_of_lt (by omega)]
  refine (does_resizeImpl hW hs₀ hb hfits).bind ?_
  rintro s₁ b' ⟨live', h₁, hr⟩
  have hsize := hr.size
  refine (does_update hW hr.views hr.stored (by rw [length_leBytes]; omega)).bind ?_
  rintro s₂ - ⟨h₂, hs₂, hw₂⟩
  refine (does_update hW hs₂ hw₂.stored (by omega)).bind ?_
  rintro s₃ - ⟨h₃, hs₃, hw₃⟩
  refine (does_update hW hs₃ hw₃.stored (by rw [length_leBytes]; omega)).bind ?_
  rintro s₄ - ⟨h₄, hs₄, hw₄⟩
  refine (does_update hW hs₄ hw₄.stored (by omega)).mono ?_
  rintro s₅ - ⟨h₅, hs₅, hw₅⟩
  -- the four writes are one, of the whole entry
  have hall : Written h₁ b' 0 (entryBytes key value) h₅ := by
    have h₃₅ : Written h₃ b' (8 + key.length) (leBytes 8 value.length ++ value) h₅ :=
      hw₄.append (by rw [length_leBytes]; exact hw₅)
    have h₂₅ : Written h₂ b' 8 (key ++ (leBytes 8 value.length ++ value)) h₅ := hw₃.append h₃₅
    exact hw₂.append (by rw [length_leBytes, Nat.zero_add]; exact h₂₅)
  have hlen : b'.sizeBytes = (entryBytes key value).length := by rw [hsize, length_entryBytes]
  refine ⟨live', h₅, b', hs₅, ⟨hall.stored, hlen, fun i hi => ?_⟩, (hr.head?_eq hb).trans hid,
    hr.replaced.trans (hall.replaced hr.views hr.stored)⟩
  rw [hall.bytes i hi, if_pos (by omega), Nat.sub_zero, List.getD_eq_getElem?_getD,
    List.getElem?_eq_getElem (by omega)]
  rfl

/-- A new blob has one page of its own. -/
theorem does_allocBlob (hW : 2 < W) (hs : Views s live h) (hfits : Fits W 0) :
    Does Paged.allocBlob (fun s' id => ∃ live' h' b', Views s' live' h' ∧ Stored h' b' ∧
      b'.dataPages.head? = some id.val ∧ b'.pages.Nodup ∧ Replaced live live' h h' [] b'.pages) s := by
  refine (does_createPagedDynamic hW hs hfits).bind ?_
  rintro s₁ page ⟨live', h', b', hpage, hcreated⟩
  have hlt : page < 2 ^ 64 := by
    have := (hcreated.stored.chain.stored page (List.mem_append_left _ (mem_of_head? hpage))).1
    omega
  refine ⟨live', h', b', hcreated.views, hcreated.stored, ?_, hcreated.stored.chain.nodup, hcreated.replaced⟩
  exact hpage.trans (congrArg some (Nat.mod_eq_of_lt hlt).symm)

theorem does_freeBlob (hW : 2 < W) (hs : Views s live h) (hb : Stored h b) {id : BTree.U64}
    (hid : b.dataPages.head? = some id.val) :
    Does (Paged.freeBlob id) (fun s' _ => Views s' (live \ b.pages.toFinset) (h.without b.pages)) s := by
  refine (does_load hW hs hb hid).bind ?_
  rintro s₁ b ⟨rfl, hs₁⟩
  exact does_removeImpl hs₁ hb

end Kv

end Plexdb
