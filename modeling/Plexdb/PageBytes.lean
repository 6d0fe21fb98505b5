import Plexdb.Page

/-! Pages as bytes. Words are little-endian: byte `i` of a page is byte `i % 8` of word `i / 8`. -/

namespace Plexdb.Page

variable {W : Nat}

/-- Byte `k` of a word. -/
def wordByte (x : BitVec 64) (k : Nat) : UInt8 := UInt8.ofBitVec (x.extractLsb' (8 * k) 8)

def ofWordBytes (f : Nat → UInt8) : BitVec 64 :=
  (f 7).toBitVec ++ (f 6).toBitVec ++ (f 5).toBitVec ++ (f 4).toBitVec ++
    (f 3).toBitVec ++ (f 2).toBitVec ++ (f 1).toBitVec ++ (f 0).toBitVec

def byte (page : Page W) (i : Nat) : UInt8 := wordByte (page.word (i / 8)) (i % 8)

/-- `memory_copy` of `bytes` into the page at `offset`. -/
def setBytes (page : Page W) (offset : Nat) (bytes : Bytes) : Page W := fun e =>
  ofWordBytes fun k =>
    if offset ≤ 8 * e.val + k ∧ 8 * e.val + k < offset + bytes.length then
      bytes.getD (8 * e.val + k - offset) 0
    else wordByte (page e) k

/-- `length` bytes of the page from `offset` on. -/
def getBytes (page : Page W) (offset length : Nat) : Bytes :=
  (List.range length).map fun i => page.byte (offset + i)

theorem getLsbD_eq_wordByte (x : BitVec 64) (i : Nat) :
    x.getLsbD i = (wordByte x (i / 8)).toBitVec.getLsbD (i % 8) := by
  rw [wordByte, UInt8.toBitVec_ofBitVec, BitVec.getLsbD_extractLsb', decide_eq_true (by omega),
    Bool.true_and, Nat.div_add_mod]

theorem word_eq_of_wordByte {x y : BitVec 64} (h : ∀ k < 8, wordByte x k = wordByte y k) : x = y := by
  refine BitVec.eq_of_getLsbD_eq fun i hi => ?_
  rw [getLsbD_eq_wordByte x, getLsbD_eq_wordByte y, h _ (by omega)]

theorem wordByte_ofWordBytes (f : Nat → UInt8) {k : Nat} (hk : k < 8) :
    wordByte (ofWordBytes f) k = f k := by
  rw [wordByte, ofWordBytes]
  refine UInt8.toBitVec_inj.mp (BitVec.eq_of_getLsbD_eq fun i hi => ?_)
  rw [UInt8.toBitVec_ofBitVec, BitVec.getLsbD_extractLsb', decide_eq_true hi, Bool.true_and]
  simp only [BitVec.getLsbD_append]
  interval_cases k <;> simp (disch := omega) only [if_pos, if_neg] <;> congr 1 <;> omega

theorem byte_setBytes (page : Page W) (offset : Nat) (bytes : Bytes) {i : Nat} (hi : i < 8 * W) :
    (page.setBytes offset bytes).byte i =
      if offset ≤ i ∧ i < offset + bytes.length then bytes.getD (i - offset) 0 else page.byte i := by
  have hword : i / 8 < W := by omega
  rw [byte, word, dif_pos hword, setBytes, wordByte_ofWordBytes _ (by omega)]
  rw [show 8 * (i / 8) + i % 8 = i by omega, byte, word, dif_pos hword]

/-- A word none of whose bytes is written stays. -/
theorem word_setBytes (page : Page W) {offset e : Nat} {bytes : Bytes}
    (h : 8 * e + 8 ≤ offset ∨ offset + bytes.length ≤ 8 * e) :
    (page.setBytes offset bytes).word e = page.word e := by
  by_cases he : e < W
  · rw [word, dif_pos he, word, dif_pos he]
    refine word_eq_of_wordByte fun k hk => ?_
    rw [setBytes, wordByte_ofWordBytes _ hk, if_neg (by dsimp only; omega)]
  · rw [word, dif_neg he, word, dif_neg he]

theorem byte_modifyWord (page : Page W) {e i : Nat} (f : BitVec 64 → BitVec 64) (h : i / 8 ≠ e) :
    (page.modifyWord e f).byte i = page.byte i := by
  by_cases hi : i / 8 < W
  · rw [byte, word_modifyWord page e f hi, if_neg h, byte]
  · rw [byte, word, dif_neg hi, byte, word, dif_neg hi]

end Plexdb.Page
