import Plexdb.Bytes

/-! Pages as words, and pages as bitsets. A page of `page_size` bytes holds `W = page_size / 8`
words; bit `j` of a bitset page is bit `j % 64` of word `j / 64`. -/

namespace Plexdb

abbrev Page (W : Nat) := Fin W → BitVec 64

namespace Page

variable {W : Nat}

def zero : Page W := fun _ => 0

/-- The word at `e`, zero past the end. -/
def word (page : Page W) (e : Nat) : BitVec 64 := if h : e < W then page ⟨e, h⟩ else 0

def modifyWord (page : Page W) (e : Nat) (f : BitVec 64 → BitVec 64) : Page W := fun i =>
  if i.val = e then f (page i) else page i

def bit (page : Page W) (j : Nat) : Bool := (page.word (j / 64)).getLsbD (j % 64)

def setBit (page : Page W) (j : Nat) : Page W :=
  page.modifyWord (j / 64) (· ||| (1#64 <<< (j % 64)))

def clearBit (page : Page W) (j : Nat) : Page W :=
  page.modifyWord (j / 64) (· &&& ~~~(1#64 <<< (j % 64)))

/-- `bit_count_trailing_zeros`. -/
def countTrailingZeros (x : BitVec 64) : Nat := (List.range 64).findIdx x.getLsbD

/-- `64 - bit_count_leading_zeros`: one more than the highest set bit, zero for zero. -/
def occupiedCount (x : BitVec 64) : Nat := 64 - (List.range 64).findIdx fun i => x.getLsbD (63 - i)

/-- The entry loop of `new_page`: the first entry from `e` on, `n` of them left, with a clear bit,
and its lowest clear bit. -/
def firstFree (page : Page W) : (n e : Nat) → Option Nat
  | 0, _ => none
  | n + 1, e =>
      if ~~~ page.word e ≠ 0 then some (64 * e + countTrailingZeros (~~~ page.word e))
      else firstFree page n (e + 1)

/-- The entry loop of `delete_page`, downwards from `e`: the bits in use up to the last set bit,
or none. -/
def occupied (page : Page W) : Nat → Option Nat
  | 0 => if page.word 0 ≠ 0 then some (occupiedCount (page.word 0)) else none
  | e + 1 =>
      if page.word (e + 1) ≠ 0 then some (64 * (e + 1) + occupiedCount (page.word (e + 1)))
      else occupied page e

/-! ### Single bits -/

@[simp] theorem bit_zero (j : Nat) : (zero : Page W).bit j = false := by
  unfold bit word zero
  split <;> simp

theorem bit_of_ge (page : Page W) {j : Nat} (h : 64 * W ≤ j) : page.bit j = false := by
  rw [bit, word, dif_neg (by omega)]
  simp

theorem lt_of_bit {page : Page W} {j : Nat} (h : page.bit j = true) : j < 64 * W := by
  by_contra hge
  rw [bit_of_ge page (by omega)] at h
  cases h

theorem word_modifyWord (page : Page W) (e : Nat) (f : BitVec 64 → BitVec 64) {i : Nat} (hi : i < W) :
    (page.modifyWord e f).word i = if i = e then f (page.word i) else page.word i := by
  rw [word, dif_pos hi, word, dif_pos hi]
  rfl

theorem bit_setBit (page : Page W) {j : Nat} (hj : j < 64 * W) (i : Nat) :
    (page.setBit j).bit i = (page.bit i || decide (i = j)) := by
  by_cases hi : i < 64 * W
  · rw [bit, setBit, word_modifyWord _ _ _ (by omega), bit]
    by_cases hword : i / 64 = j / 64
    · rw [if_pos hword, BitVec.getLsbD_or, BitVec.getLsbD_shiftLeft, BitVec.getLsbD_one]
      congr 1
      rw [Bool.eq_iff_iff]
      simp
      omega
    · have : i ≠ j := fun h => hword (by rw [h])
      rw [if_neg hword]
      simp [this]
  · have : i ≠ j := by omega
    rw [bit_of_ge _ (by omega), bit_of_ge _ (by omega)]
    simp [this]

theorem bit_clearBit (page : Page W) (j i : Nat) :
    (page.clearBit j).bit i = (page.bit i && !decide (i = j)) := by
  by_cases hi : i < 64 * W
  · rw [bit, clearBit, word_modifyWord _ _ _ (by omega), bit]
    by_cases hword : i / 64 = j / 64
    · rw [if_pos hword, BitVec.getLsbD_and, BitVec.getLsbD_not, BitVec.getLsbD_shiftLeft,
        BitVec.getLsbD_one]
      congr 1
      rw [Bool.eq_iff_iff]
      simp
      omega
    · have : i ≠ j := fun h => hword (by rw [h])
      rw [if_neg hword]
      simp [this]
  · rw [bit_of_ge _ (by omega), bit_of_ge _ (by omega)]
    rfl

/-! ### Searching a bitset -/

theorem exists_bit_of_ne_zero {x : BitVec 64} (h : x ≠ 0) : ∃ i < 64, x.getLsbD i = true := by
  by_contra hall
  push Not at hall
  refine h (BitVec.eq_of_getLsbD_eq fun i hi => ?_)
  simpa using hall i hi

theorem countTrailingZeros_spec {x : BitVec 64} (h : x ≠ 0) :
    countTrailingZeros x < 64 ∧ x.getLsbD (countTrailingZeros x) = true ∧
      ∀ i < countTrailingZeros x, x.getLsbD i = false := by
  obtain ⟨i, hi, hbit⟩ := exists_bit_of_ne_zero h
  have hlt : (List.range 64).findIdx x.getLsbD < (List.range 64).length :=
    List.findIdx_lt_length_of_exists ⟨i, by simpa using hi, hbit⟩
  refine ⟨by simpa [countTrailingZeros] using hlt, ?_, fun i hi => ?_⟩
  · simpa [countTrailingZeros] using List.findIdx_getElem (w := hlt)
  · simpa [countTrailingZeros] using List.not_of_lt_findIdx hi

theorem occupiedCount_spec {x : BitVec 64} (h : x ≠ 0) :
    ∃ top < 64, occupiedCount x = top + 1 ∧ x.getLsbD top = true ∧
      ∀ i < 64, top < i → x.getLsbD i = false := by
  obtain ⟨i, hi, hbit⟩ := exists_bit_of_ne_zero h
  have hlt : (List.range 64).findIdx (fun i => x.getLsbD (63 - i)) < (List.range 64).length :=
    List.findIdx_lt_length_of_exists
      ⟨63 - i, by simp; omega, by rwa [show 63 - (63 - i) = i by omega]⟩
  have hset := List.findIdx_getElem (w := hlt)
  have hclear : ∀ k < (List.range 64).findIdx (fun i => x.getLsbD (63 - i)),
      x.getLsbD (63 - k) = false := fun k hk => by
    simpa using List.not_of_lt_findIdx hk
  rw [List.getElem_range] at hset
  rw [List.length_range] at hlt
  rw [occupiedCount]
  generalize (List.range 64).findIdx (fun i => x.getLsbD (63 - i)) = k at *
  refine ⟨63 - k, by omega, by omega, hset, fun i hi hlow => ?_⟩
  have := hclear (63 - i) (by omega)
  rwa [show 63 - (63 - i) = i by omega] at this

theorem bit_eq (page : Page W) {e k : Nat} (hk : k < 64) :
    page.bit (64 * e + k) = (page.word e).getLsbD k := by
  rw [bit, show (64 * e + k) / 64 = e by omega, show (64 * e + k) % 64 = k by omega]

theorem firstFree_some {page : Page W} {n e j : Nat} (h : page.firstFree n e = some j) :
    64 * e ≤ j ∧ j < 64 * (e + n) ∧ page.bit j = false ∧
      ∀ i, 64 * e ≤ i → i < j → page.bit i = true := by
  induction n generalizing e with
  | zero => cases h
  | succ n ih =>
      rw [firstFree] at h
      split at h
      · rename_i hword
        obtain ⟨hlt, hset, hclear⟩ := countTrailingZeros_spec hword
        cases h
        refine ⟨by omega, by omega, ?_, fun i hle hi => ?_⟩
        · rw [bit_eq _ hlt]
          simpa [hlt] using hset
        · obtain ⟨k, rfl⟩ := Nat.exists_eq_add_of_le hle
          have hk : k < countTrailingZeros (~~~ page.word e) := by omega
          have := hclear k hk
          rw [BitVec.getLsbD_not] at this
          rw [bit_eq _ (by omega)]
          simpa [show k < 64 by omega] using this
      · rename_i hword
        rw [ne_eq, not_not] at hword
        obtain ⟨hle, hlt, hbit, hall⟩ := ih h
        refine ⟨by omega, by omega, hbit, fun i hi hij => ?_⟩
        by_cases hnext : 64 * (e + 1) ≤ i
        · exact hall i hnext hij
        · obtain ⟨k, rfl⟩ := Nat.exists_eq_add_of_le hi
          have hk : k < 64 := by omega
          have := congrArg (fun x => x.getLsbD k) hword
          rw [bit_eq _ hk]
          simpa [hk] using this

theorem firstFree_none {page : Page W} {n e : Nat} (h : page.firstFree n e = none) (i : Nat)
    (hi : 64 * e ≤ i) (hn : i < 64 * (e + n)) : page.bit i = true := by
  induction n generalizing e with
  | zero => omega
  | succ n ih =>
      rw [firstFree] at h
      split at h
      · cases h
      · rename_i hword
        rw [ne_eq, not_not] at hword
        by_cases hnext : 64 * (e + 1) ≤ i
        · exact ih h hnext (by omega)
        · obtain ⟨k, rfl⟩ := Nat.exists_eq_add_of_le hi
          have hk : k < 64 := by omega
          have := congrArg (fun x => x.getLsbD k) hword
          rw [bit_eq _ hk]
          simpa [hk] using this

theorem occupied_some {page : Page W} {e n : Nat} (h : page.occupied e = some n) :
    ∃ top, n = top + 1 ∧ top < 64 * (e + 1) ∧ page.bit top = true ∧
      ∀ i, top < i → i < 64 * (e + 1) → page.bit i = false := by
  have here : ∀ e, page.word e ≠ 0 →
      ∃ top, 64 * e + occupiedCount (page.word e) = top + 1 ∧ top < 64 * (e + 1) ∧
        page.bit top = true ∧ ∀ i, top < i → i < 64 * (e + 1) → page.bit i = false := by
    intro e hword
    obtain ⟨top, htop, hcount, hset, hclear⟩ := occupiedCount_spec hword
    refine ⟨64 * e + top, by omega, by omega, by rwa [bit_eq _ htop], fun i hi hlt => ?_⟩
    obtain ⟨k, rfl⟩ := Nat.exists_eq_add_of_le (show 64 * e ≤ i by omega)
    rw [bit_eq _ (by omega)]
    exact hclear k (by omega) (by omega)
  induction e with
  | zero =>
      rw [occupied] at h
      split at h
      · rename_i hword
        cases h
        simpa using here 0 hword
      · cases h
  | succ e ih =>
      rw [occupied] at h
      split at h
      · rename_i hword
        cases h
        exact here (e + 1) hword
      · rename_i hword
        rw [ne_eq, not_not] at hword
        obtain ⟨top, hn, htop, hset, hclear⟩ := ih h
        refine ⟨top, hn, by omega, hset, fun i hi hlt => ?_⟩
        by_cases hnext : i < 64 * (e + 1)
        · exact hclear i hi hnext
        · obtain ⟨k, rfl⟩ := Nat.exists_eq_add_of_le (show 64 * (e + 1) ≤ i by omega)
          rw [bit_eq _ (by omega), hword]
          simp

theorem occupied_none {page : Page W} {e : Nat} (h : page.occupied e = none) (i : Nat)
    (hi : i < 64 * (e + 1)) : page.bit i = false := by
  induction e with
  | zero =>
      rw [occupied] at h
      split at h
      · cases h
      · rename_i hword
        rw [ne_eq, not_not] at hword
        have := bit_eq page (e := 0) (k := i) (by omega)
        rw [Nat.mul_zero, Nat.zero_add] at this
        rw [this, hword]
        simp
  | succ e ih =>
      rw [occupied] at h
      split at h
      · cases h
      · rename_i hword
        rw [ne_eq, not_not] at hword
        by_cases hnext : i < 64 * (e + 1)
        · exact ih h hnext
        · obtain ⟨k, rfl⟩ := Nat.exists_eq_add_of_le (show 64 * (e + 1) ≤ i by omega)
          rw [bit_eq _ (by omega), hword]
          simp

end Page

end Plexdb
