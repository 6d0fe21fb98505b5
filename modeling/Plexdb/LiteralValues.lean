import Plexdb.LiteralText

/-! The values of literals: a string is its text, an integer and a duration are the number that is written where it
fits. -/

namespace Plexdb.Cql.LiteralText

open Arithmetic (inS64)

/-! ### Strings -/

/-- The text of a string between its quotes. -/
def doubled (s : Bytes) : Bytes := s.flatMap fun b => if b = quote then [quote, quote] else [b]

theorem doubled_cons_quote (s : Bytes) : doubled (quote :: s) = quote :: quote :: doubled s := rfl

theorem doubled_cons_of_ne {b : UInt8} (h : b ≠ quote) (s : Bytes) : doubled (b :: s) = b :: doubled s := by
  rw [doubled, List.flatMap_cons, if_neg h]
  rfl

theorem unescape_doubled (s : Bytes) : unescape (doubled s) = s := by
  induction s with
  | nil => rfl
  | cons b s ih =>
      by_cases hb : b = quote
      · subst hb
        rw [doubled_cons_quote, unescape, if_pos ⟨rfl, rfl⟩, ih]
      · rw [doubled_cons_of_ne hb]
        cases hs : doubled s with
        | nil =>
            rw [hs] at ih
            rw [← ih]
            rfl
        | cons d rest =>
            rw [hs] at ih
            rw [unescape, if_neg fun h => hb h.1, ih]

variable {codePoint : UInt8 → Bool}

theorem whileContent_quotes (s : Bytes) : whileContent codePoint (quote :: quote :: s) =
    (quote :: quote :: (whileContent codePoint s).1, (whileContent codePoint s).2) := by
  rw [whileContent.eq_def]
  rfl

theorem whileContent_codePoint {c : UInt8} (hc : c ≠ quote) (h : codePoint c = true) (s : Bytes) :
    whileContent codePoint (c :: s) = (c :: (whileContent codePoint s).1, (whileContent codePoint s).2) := by
  rw [whileContent.eq_def]
  simp only [if_neg hc, if_pos h]

/-- The loop stops at a quote that is not doubled. -/
theorem whileContent_stop {rest : Bytes} (h : rest.head? ≠ some quote) :
    whileContent codePoint (quote :: rest) = ([], quote :: rest) := by
  rw [whileContent.eq_def]
  cases rest with
  | nil => rfl
  | cons d rest => exact if_neg fun hd => h (congrArg some hd)

theorem whileContent_doubled {s rest : Bytes} (hs : ∀ b ∈ s, b ≠ quote → codePoint b = true)
    (h : rest.head? ≠ some quote) :
    whileContent codePoint (doubled s ++ quote :: rest) = (doubled s, quote :: rest) := by
  induction s with
  | nil => exact whileContent_stop h
  | cons b s ih =>
      have hstep := ih fun c hc => hs c (List.mem_cons_of_mem b hc)
      by_cases hb : b = quote
      · subst hb
        rw [doubled_cons_quote, List.cons_append, List.cons_append, whileContent_quotes, hstep]
      · rw [doubled_cons_of_ne hb, List.cons_append, whileContent_codePoint hb (hs b List.mem_cons_self hb), hstep]

/-- The loop stops at a byte that is no code point. -/
theorem whileContent_stuck {s : Bytes} (rest : Bytes) (hs : ∃ b ∈ s, b ≠ quote ∧ codePoint b = false) :
    ∃ b, b ≠ quote ∧ ∃ left, (whileContent codePoint (doubled s ++ rest)).2 = b :: left := by
  induction s with
  | nil =>
      obtain ⟨b, hb, -⟩ := hs
      cases hb
  | cons c s ih =>
      by_cases hc : c = quote
      · subst hc
        obtain ⟨b, hb, hne, hcode⟩ := hs
        rcases List.mem_cons.mp hb with rfl | hb
        · exact absurd rfl hne
        · rw [doubled_cons_quote, List.cons_append, List.cons_append, whileContent_quotes]
          exact ih ⟨b, hb, hne, hcode⟩
      · rw [doubled_cons_of_ne hc, List.cons_append]
        cases hcode : codePoint c with
        | false =>
            refine ⟨c, hc, doubled s ++ rest, ?_⟩
            have hnot : ¬ codePoint c = true := by rw [hcode]; decide
            rw [whileContent.eq_def]
            simp only [if_neg hc, if_neg hnot]
        | true =>
            obtain ⟨b, hb, hne, hcode'⟩ := hs
            rcases List.mem_cons.mp hb with rfl | hb
            · rw [hcode] at hcode'
              cases hcode'
            · rw [whileContent_codePoint hc hcode]
              exact ih ⟨b, hb, hne, hcode'⟩

/-- A string is its text when all of it are code points. -/
theorem stringLiteral_iff (s : Bytes) {rest : Bytes} (hrest : rest.head? ≠ some quote) :
    stringLiteral codePoint (quote :: (doubled s ++ quote :: rest)) = .value s rest ↔
      ∀ b ∈ s, b ≠ quote → codePoint b = true := by
  rw [stringLiteral, if_pos rfl]
  constructor
  · intro h
    by_contra hnot
    push Not at hnot
    obtain ⟨b, hb, hne, hcode⟩ := hnot
    obtain ⟨c, hc, left, hleft⟩ := whileContent_stuck (quote :: rest) ⟨b, hb, hne, Bool.eq_false_iff.mpr hcode⟩
    have hpair : whileContent codePoint (doubled s ++ quote :: rest) =
        ((whileContent codePoint (doubled s ++ quote :: rest)).1, c :: left) := Prod.ext rfl hleft
    rw [hpair] at h
    simp only [if_neg hc] at h
    cases h
  · intro hs
    rw [whileContent_doubled hs hrest]
    simp only [if_pos, unescape_doubled]

/-! ### Integers -/

/-- A text of decimal digits. -/
structure Numeral where
  digits : Bytes
  nonempty : digits ≠ []
  isDigit : ∀ b ∈ digits, isDigit b = true

def Numeral.value (n : Numeral) : Nat := decimalValue n.digits

inductive Sign where
  | none | plus | minus
  deriving DecidableEq

def Sign.text : Sign → Bytes
  | .none => []
  | .plus => [43]
  | .minus => [45]

/-- The number that is written. -/
def Sign.apply (sign : Sign) (n : Nat) : Int := if sign = .minus then -n else n

/-- The value is the number that is written if it fits, and there is none otherwise. -/
def IntegerExact (sign : Sign) (n : Numeral) (rest : Bytes) : Prop :=
  integerLiteral (sign.text ++ n.digits ++ rest) =
    if inS64 (sign.apply n.value) then .value (BitVec.ofInt 64 (sign.apply n.value)) rest else .rejected

theorem Numeral.head (n : Numeral) : ∃ c s, n.digits = c :: s ∧ LiteralText.isDigit c = true := by
  obtain ⟨digits, hne, hdigits⟩ := n
  cases digits with
  | nil => exact absurd rfl hne
  | cons c s => exact ⟨c, s, rfl, hdigits c List.mem_cons_self⟩

theorem not_sign {c : UInt8} (h : isDigit c = true) : ¬ (c = 45 ∨ c = 43) := by
  rintro (rfl | rfl)
  · exact absurd h (by decide)
  · exact absurd h (by decide)

theorem splitSign_numeral (sign : Sign) (n : Numeral) (rest : Bytes) :
    splitSign (sign.text ++ n.digits ++ rest) = (sign.text, n.digits ++ rest) := by
  cases sign with
  | none =>
      obtain ⟨c, s, hs, hc⟩ := n.head
      rw [hs]
      exact if_neg (not_sign hc)
  | plus => rfl
  | minus => rfl

theorem takeWhile_numeral (n : Numeral) {rest : Bytes} (h : rest.head?.any isDigit = false) :
    (n.digits ++ rest).takeWhile isDigit = n.digits ∧ (n.digits ++ rest).dropWhile isDigit = rest := by
  have hrest : rest.takeWhile isDigit = [] ∧ rest.dropWhile isDigit = rest := by
    cases rest with
    | nil => exact ⟨rfl, rfl⟩
    | cons c rest =>
        have hc : isDigit c = false := h
        rw [List.takeWhile_cons, List.dropWhile_cons, hc]
        exact ⟨rfl, rfl⟩
  rw [List.takeWhile_append_of_pos n.isDigit, List.dropWhile_append_of_pos n.isDigit, hrest.1, hrest.2, List.append_nil]
  exact ⟨rfl, rfl⟩

/-- The magnitude that is collected, modulo the word. -/
theorem foldl_magnitude (digits : Bytes) (val : Nat) :
    digits.foldl (fun (val : BitVec 64) c => val * 10 + BitVec.ofNat 64 (c.toNat - 48)) (BitVec.ofNat 64 val) =
      BitVec.ofNat 64 (digits.foldl (fun n c => n * 10 + (c.toNat - 48)) val) := by
  induction digits generalizing val with
  | nil => rfl
  | cons c digits ih =>
      rw [List.foldl_cons, List.foldl_cons, ← ih, BitVec.ofNat_add, BitVec.ofNat_mul]
      rfl

theorem integerValue_numeral (sign : Sign) (n : Numeral) :
    integerValue (sign.text ++ n.digits) = BitVec.ofInt 64 (sign.apply n.value) := by
  have hsplit := splitSign_numeral sign n []
  rw [List.append_nil, List.append_nil] at hsplit
  have hmagnitude : n.digits.foldl (fun (val : BitVec 64) c => val * 10 + BitVec.ofNat 64 (c.toNat - 48)) 0 =
      BitVec.ofInt 64 n.value := by
    rw [BitVec.ofInt_natCast]
    exact foldl_magnitude n.digits 0
  rw [integerValue, hsplit]
  simp only [hmagnitude]
  cases sign with
  | none => rfl
  | plus => rfl
  | minus =>
      have htext : Sign.minus.text = [45] := rfl
      rw [if_pos htext, Sign.apply, if_pos rfl, BitVec.ofInt_neg]
      -- the least value is its own negation
      split_ifs with hmin
      · rw [hmin]
        decide
      · rfl

/-- The literal is never rejected, so it is exact when its number fits. -/
theorem integerExact_iff (sign : Sign) (n : Numeral) {rest : Bytes} (hrest : rest.head?.any isDigit = false) :
    IntegerExact sign n rest ↔ inS64 (sign.apply n.value) := by
  have hliteral : integerLiteral (sign.text ++ n.digits ++ rest) =
      .value (BitVec.ofInt 64 (sign.apply n.value)) rest := by
    obtain ⟨htake, hdrop⟩ := takeWhile_numeral n hrest
    rw [integerLiteral, splitSign_numeral]
    simp only [htake, hdrop]
    rw [if_neg n.nonempty, integerValue_numeral]
  rw [IntegerExact, hliteral]
  by_cases hfits : inS64 (sign.apply n.value)
  · rw [if_pos hfits]
    exact iff_of_true rfl hfits
  · rw [if_neg hfits]
    exact iff_of_false nofun hfits

end Plexdb.Cql.LiteralText
