import Plexdb.RespParse

/-! Prefixes of well-formed commands. A command is a RESP array of bulk strings or an inline line
with at least one token. On a whole command, whatever follows it, the parser consumes exactly the
command; a proper prefix is incomplete, unless it ends right before the `$` of an element, where
the parser reports a protocol error. -/

namespace Plexdb.Resp

open Kv

/-! ### Decimal texts -/

def decimalValue (value : Nat) : Bytes → Nat
  | [] => value
  | c :: cs => decimalValue (value * 10 + (c.toNat - 48)) cs

/-- A nonempty text of decimal digits (leading zeros allowed) denoting `value`. -/
structure IsDecimal (text : Bytes) (value : Nat) : Prop where
  nonempty : text ≠ []
  digits : ∀ c ∈ text, isDigit c
  value_eq : decimalValue 0 text = value

theorem le_decimalValue (text : Bytes) (value : Nat) : value ≤ decimalValue value text := by
  induction text generalizing value with
  | nil => exact le_refl value
  | cons c cs ih => exact le_trans (by omega) (ih (value * 10 + (c.toNat - 48)))

theorem s64_of_lt {x : Int} (h0 : 0 ≤ x) (h : x < 2 ^ 63) : s64 x = x := by
  unfold s64
  rw [Int.bmod_eq_of_le] <;> omega

theorem isDigit_iff (c : UInt8) : isDigit c = true ↔ 48 ≤ c.toNat ∧ c.toNat ≤ 57 := by
  simp [isDigit, UInt8.le_iff_toNat_le]

theorem parseDigits_eq (text : Bytes) (value : Nat) (hdigits : ∀ c ∈ text, isDigit c)
    (hfits : decimalValue value text < 2 ^ 63) :
    parseDigits value text = some (decimalValue value text : Int) := by
  induction text generalizing value with
  | nil => rfl
  | cons c cs ih =>
      obtain ⟨hlow, hhigh⟩ := (isDigit_iff c).mp (hdigits c List.mem_cons_self)
      have hrange : ¬ (c < 48 ∨ 57 < c) := by
        simp only [UInt8.lt_iff_toNat_lt, UInt8.reduceToNat]
        omega
      have hstep : s64 ((value : Int) * 10 + ((c.toNat : Int) - 48)) =
          ((value * 10 + (c.toNat - 48) : Nat) : Int) := by
        have hle := le_decimalValue cs (value * 10 + (c.toNat - 48))
        have hlt : value * 10 + (c.toNat - 48) < 2 ^ 63 := lt_of_le_of_lt hle hfits
        rw [s64_of_lt (by omega) (by omega)]
        omega
      rw [parseDigits, if_neg (by simpa using hrange), hstep]
      exact ih _ (fun d hd => hdigits d (List.mem_cons_of_mem c hd)) hfits

theorem parseDecimal_eq {text : Bytes} {value : Nat} (h : IsDecimal text value)
    (hfits : value < 2 ^ 63) : parseDecimal text = some (value : Int) := by
  obtain ⟨hne, hdigits, rfl⟩ := h
  have hparse := parseDigits_eq text 0 hdigits hfits
  match text, hne with
  | c :: cs, _ =>
      have hc := (isDigit_iff c).mp (hdigits c List.mem_cons_self)
      have hminus : c ≠ 45 := by
        rintro rfl
        exact absurd hc.1 (by decide)
      rw [parseDecimal]
      · exact hparse
      · simp
      · rintro h
        exact absurd (List.cons.inj h).1 hminus
      · rintro digits h
        exact absurd (List.cons.inj h).1 hminus

/-! ### Line ends -/

def crlf : Bytes := [13, 10]

theorem findCrlf_cons {a : UInt8} {rest : Bytes} (h : ¬ crlf <+: a :: rest) :
    findCrlf (a :: rest) = (findCrlf rest).map fun (line, rest) => (a :: line, rest) := by
  cases rest with
  | nil => rfl
  | cons b rest =>
      have hne : (a == 13 && b == 10) = false := by
        by_contra hcon
        simp only [Bool.not_eq_false, Bool.and_eq_true, beq_iff_eq] at hcon
        exact h ⟨rest, by simp [crlf, hcon.1, hcon.2]⟩
      rw [findCrlf, if_neg (by simp [hne])]

/-- The line that is found ends at the first CRLF. -/
theorem findCrlf_eq_some {p line rest : Bytes} (h : findCrlf p = some (line, rest)) :
    p = line ++ crlf ++ rest ∧ ¬ crlf <:+: line := by
  induction p generalizing line with
  | nil => cases h
  | cons a p ih =>
      by_cases hcrlf : crlf <+: a :: p
      · obtain ⟨t, ht⟩ := hcrlf
        rw [← ht] at h
        have hline : ([], t) = (line, rest) := Option.some.inj h
        obtain ⟨rfl, rfl⟩ := Prod.mk.inj hline
        exact ⟨ht.symm, fun hin => absurd (List.infix_nil.mp hin) (by decide)⟩
      · rw [findCrlf_cons hcrlf] at h
        obtain ⟨⟨line', rest'⟩, hfind, heq⟩ := Option.map_eq_some_iff.mp h
        obtain ⟨rfl, rfl⟩ := Prod.mk.inj heq
        obtain ⟨rfl, hno⟩ := ih hfind
        refine ⟨rfl, fun hin => ?_⟩
        rcases List.infix_cons_iff.mp hin with hpre | hin
        · refine hcrlf (hpre.trans ⟨crlf ++ rest', ?_⟩)
          rw [List.cons_append, List.append_assoc]
        · exact hno hin

/-- The first line end of a line without one and its terminator is the terminator. -/
theorem findCrlf_append {line : Bytes} (h : ¬ crlf <:+: line) (rest : Bytes) :
    findCrlf (line ++ crlf ++ rest) = some (line, rest) := by
  induction line with
  | nil => rfl
  | cons a line ih =>
      have htail : ¬ crlf <:+: line := fun hin => h (hin.trans (List.suffix_cons a line).isInfix)
      have hhead : ¬ crlf <+: a :: (line ++ crlf ++ rest) := by
        rintro ⟨t, ht⟩
        cases line with
        | nil =>
            simp only [crlf, List.cons_append, List.nil_append, List.cons.injEq] at ht
            exact absurd ht.2.1 (by decide)
        | cons b line =>
            refine h ⟨[], line, ?_⟩
            simp only [crlf, List.cons_append, List.nil_append, List.cons.injEq] at ht ⊢
            exact ⟨ht.1, ht.2.1, trivial⟩
      have := ih htail
      simp only [List.cons_append] at hhead ⊢
      rw [findCrlf_cons hhead, this]
      rfl

theorem findCrlf_eq_none {p : Bytes} (h : ¬ crlf <:+: p) : findCrlf p = none := by
  induction p with
  | nil => rfl
  | cons a p ih =>
      have htail : ¬ crlf <:+: p := fun hin => h (hin.trans (List.suffix_cons a p).isInfix)
      rw [findCrlf_cons (fun hpre => h hpre.isInfix), ih htail]
      rfl

/-- Cutting a terminated line anywhere before its end loses the line end. -/
theorem not_crlf_infix_of_cut {line p : Bytes} (h : ¬ crlf <:+: line) (hp : p <+: line ++ crlf)
    (hne : p ≠ line ++ crlf) : ¬ crlf <:+: p := by
  have hshort : p <+: line ++ [13] := by
    have hp' : p <+: line ++ [13] ++ [10] := by simpa [crlf] using hp
    rcases List.prefix_concat_iff.mp hp' with heq | hpre
    · exact absurd (by simpa [crlf] using heq) hne
    · exact hpre
  intro hin
  rcases List.infix_concat_iff.mp (hin.trans hshort.isInfix) with hsuffix | hinfix
  · obtain ⟨t, ht⟩ := hsuffix
    have hlast := congrArg List.getLast? ht
    simp [crlf] at hlast
  · exact h hinfix

theorem not_crlf_infix_of_decimal {text : Bytes} {value : Nat} (h : IsDecimal text value) :
    ¬ crlf <:+: text := by
  intro hin
  have hmem : (13 : UInt8) ∈ text := hin.subset (by simp [crlf])
  exact absurd (h.digits 13 hmem) (by decide)

/-! ### Well-formed commands -/

/-- A bulk string: the text of its length, and its bytes. Its length fits the `S64` the parser
counts with. -/
structure BulkString where
  lengthText : Bytes
  body : Bytes
  isLength : IsDecimal lengthText body.length
  fits : body.length < 2 ^ 63

def BulkString.bytes (b : BulkString) : Bytes :=
  36 :: (b.lengthText ++ crlf ++ (b.body ++ crlf))

structure RespArray where
  countText : Bytes
  elements : List BulkString
  isCount : IsDecimal countText elements.length
  fits : elements.length < 2 ^ 63

def RespArray.header (a : RespArray) : Bytes := 42 :: (a.countText ++ crlf)

def RespArray.bytes (a : RespArray) : Bytes :=
  a.header ++ a.elements.flatMap BulkString.bytes

/-- An inline line, without its CRLF. -/
structure InlineLine where
  line : Bytes
  noCrlf : ¬ crlf <:+: line
  notArray : line.head? ≠ some 42
  hasToken : tokens [] line ≠ []

inductive Command where
  | array (a : RespArray)
  | inline (l : InlineLine)

def Command.bytes : Command → Bytes
  | .array a => a.bytes
  | .inline l => l.line ++ crlf

def Command.args : Command → List Bytes
  | .array a => a.elements.map BulkString.body
  | .inline l => tokens [] l.line

/-- The prefix ends where an element of the array is about to start. -/
def Command.CutAtElement : Command → Bytes → Prop
  | .array a, p => ∃ k < a.elements.length,
      p = a.header ++ (a.elements.take k).flatMap BulkString.bytes
  | .inline _, _ => False

/-! ### Elements -/

theorem parseElements_cons (b : BulkString) (n : Nat) (args : List Bytes) (rest : Bytes) :
    parseElements (n + 1) args (b.bytes ++ rest) = parseElements n (args ++ [b.body]) rest := by
  have hline := findCrlf_append (not_crlf_infix_of_decimal b.isLength) (b.body ++ crlf ++ rest)
  have hlen : ¬ (b.body ++ crlf ++ rest).length < b.body.length + 2 := by
    simp only [List.length_append, crlf, List.length_cons, List.length_nil]
    omega
  have htake : (b.body ++ crlf ++ rest).take b.body.length = b.body := by
    rw [List.append_assoc, List.take_left]
  have hdrop : (b.body ++ crlf ++ rest).drop (b.body.length + 2) = rest :=
    List.drop_left' (by simp [crlf])
  rw [BulkString.bytes, List.cons_append, List.append_assoc _ _ rest, parseElements, hline]
  simp only [parseDecimal_eq b.isLength b.fits, Int.toNat_natCast]
  rw [if_neg (by omega), if_neg hlen, htake, hdrop]

theorem parseElements_flatMap (bs : List BulkString) (n : Nat) (args : List Bytes)
    (rest : Bytes) :
    parseElements (bs.length + n) args (bs.flatMap BulkString.bytes ++ rest) =
      parseElements n (args ++ bs.map BulkString.body) rest := by
  induction bs generalizing args with
  | nil => simp
  | cons b bs ih =>
      rw [List.flatMap_cons, List.append_assoc, List.length_cons, Nat.add_right_comm,
        parseElements_cons, ih, List.map_cons, List.append_assoc, List.singleton_append]

/-- The defect: with elements still expected and no byte left, the loop reports an error. -/
theorem parseElements_cut (bs : List BulkString) (args : List Bytes) {k : Nat}
    (hk : k < bs.length) :
    parseElements bs.length args ((bs.take k).flatMap BulkString.bytes) = .error := by
  obtain ⟨n, hn⟩ : ∃ n, bs.length = (bs.take k).length + (n + 1) :=
    ⟨bs.length - k - 1, by rw [List.length_take]; omega⟩
  have h := parseElements_flatMap (bs.take k) (n + 1) args []
  rw [List.append_nil] at h
  rw [hn, h]
  rfl

theorem parseElements_inside (b : BulkString) (n : Nat) (args : List Bytes) {p : Bytes}
    (hp : p <+: b.bytes) (hne : p ≠ b.bytes) (hnil : p ≠ []) :
    parseElements (n + 1) args p = .incomplete := by
  obtain ⟨c, q, rfl⟩ := List.exists_cons_of_ne_nil hnil
  obtain ⟨rfl, hq⟩ := List.cons_prefix_cons.mp hp
  replace hne : q ≠ b.lengthText ++ crlf ++ (b.body ++ crlf) := fun h => hne (by rw [h]; rfl)
  rcases prefix_append_cases hq with ⟨hline, hcut⟩ | ⟨r, rfl, hr⟩
  · have hnone := findCrlf_eq_none
      (not_crlf_infix_of_cut (not_crlf_infix_of_decimal b.isLength) hline hcut)
    rw [parseElements, hnone]
  · have hshort : r.length < b.body.length + 2 := by
      have hlt : r.length < (b.body ++ crlf).length :=
        lt_of_le_of_ne hr.length_le fun hlen => hne (by rw [hr.eq_of_length hlen])
      simpa [crlf] using hlt
    rw [parseElements, findCrlf_append (not_crlf_infix_of_decimal b.isLength)]
    simp only [parseDecimal_eq b.isLength b.fits, Int.toNat_natCast]
    rw [if_neg (by omega), if_pos hshort]

theorem parseElements_prefix (bs : List BulkString) (args : List Bytes) {p : Bytes}
    (hp : p <+: bs.flatMap BulkString.bytes) (hne : p ≠ bs.flatMap BulkString.bytes)
    (hcut : ∀ k < bs.length, p ≠ (bs.take k).flatMap BulkString.bytes) :
    parseElements bs.length args p = .incomplete := by
  induction bs generalizing args p with
  | nil => exact absurd (List.prefix_nil.mp hp) hne
  | cons b bs ih =>
      rw [List.flatMap_cons] at hp hne
      rcases prefix_append_cases hp with ⟨hin, hin'⟩ | ⟨r, rfl, hr⟩
      · exact parseElements_inside b bs.length args hin hin' (hcut 0 (by simp))
      · rw [List.length_cons, parseElements_cons]
        refine ih _ hr (fun h => hne (by rw [h])) fun k hk heq => ?_
        exact hcut (k + 1) (by simpa using hk) (by rw [heq, List.take_succ_cons, List.flatMap_cons])

/-! ### Whole commands and their prefixes -/

theorem RespArray.parse_header (a : RespArray) (rest : Bytes) :
    parse (a.header ++ rest) =
      match parseElements a.elements.length [] rest with
      | .done args tail => finish (a.header ++ rest) tail args
      | .incomplete => .incomplete
      | .error => .error := by
  have hline := findCrlf_append (not_crlf_infix_of_decimal a.isCount) rest
  simp only [RespArray.header, List.cons_append] at hline ⊢
  rw [parse, parseRespArray, List.tail_cons, hline]
  simp only [parseDecimal_eq a.isCount a.fits, Int.toNat_natCast]
  refine (if_neg (by omega)).trans ?_
  cases parseElements a.elements.length [] rest <;> rfl

theorem parse_eq_inline {data : Bytes} (hne : data ≠ []) (h : data.head? ≠ some 42) :
    parse data = parseInline data := by
  obtain ⟨c, cs, rfl⟩ := List.exists_cons_of_ne_nil hne
  rw [parse]
  · simp
  · rintro rest heq
    exact h (by rw [heq]; rfl)

theorem InlineLine.ne_nil (l : InlineLine) : l.line ≠ [] := by
  intro h
  exact l.hasToken (by rw [h]; rfl)

theorem Command.finish_args (m : Command) (s : Bytes) : 
    parse (m.bytes ++ s) = finish (m.bytes ++ s) s m.args := by
  cases m with
  | array a =>
      have h := parseElements_flatMap a.elements 0 [] s
      rw [Nat.add_zero, List.nil_append] at h
      simp only [Command.bytes, RespArray.bytes, List.append_assoc]
      rw [RespArray.parse_header, h]
      rfl
  | inline l =>
      have hhead : (l.line ++ crlf ++ s).head? ≠ some 42 := by
        rw [List.append_assoc, List.head?_append_of_ne_nil _ l.ne_nil]
        exact l.notArray
      simp only [Command.bytes, Command.args]
      rw [parse_eq_inline (by simp [crlf]) hhead, parseInline, findCrlf_append l.noCrlf]
      simp only
      split
      · rename_i h
        exact absurd h l.hasToken
      · rfl

/-- Whatever follows a command, parsing consumes exactly the command and yields its statement. -/
theorem Command.parse_append (m : Command) (s : Bytes) {stmt : Statement}
    (h : buildFromArgs m.args = some stmt) :
    parse (m.bytes ++ s) = .ok stmt m.bytes.length := by
  rw [m.finish_args s, finish, h]
  simp

theorem Command.parse_cut (m : Command) {p : Bytes} (h : m.CutAtElement p) :
    parse p = .error := by
  cases m with
  | array a =>
      obtain ⟨k, hk, rfl⟩ := h
      rw [RespArray.parse_header, parseElements_cut _ _ hk]
  | inline l => exact h.elim

theorem Command.parse_incomplete (m : Command) {p : Bytes} (hp : p <+: m.bytes) (hne : p ≠ m.bytes)
    (hcut : ¬ m.CutAtElement p) : parse p = .incomplete := by
  cases m with
  | array a =>
      rcases prefix_append_cases hp with ⟨hin, hin'⟩ | ⟨r, rfl, hr⟩
      · cases p with
        | nil => rfl
        | cons c q =>
            obtain ⟨rfl, hq⟩ := List.cons_prefix_cons.mp hin
            have hnone := findCrlf_eq_none (not_crlf_infix_of_cut
              (not_crlf_infix_of_decimal a.isCount) hq fun h => hin' (by rw [h]; rfl))
            rw [parse, parseRespArray, List.tail_cons, hnone]
      · rw [RespArray.parse_header, parseElements_prefix _ _ hr]
        · exact fun h => hne (by rw [h]; rfl)
        · exact fun k hk heq => hcut ⟨k, hk, by rw [heq]⟩
  | inline l =>
      cases p with
      | nil => rfl
      | cons c q =>
          have hhead : (c :: q).head? ≠ some 42 := by
            obtain ⟨t, ht⟩ := hp
            have := congrArg List.head? ht
            simp only [Command.bytes] at this
            rw [List.head?_append_of_ne_nil _ l.ne_nil] at this
            rw [List.cons_append] at this
            exact fun h => l.notArray (this.symm.trans h)
          rw [parse_eq_inline (by simp) hhead, parseInline,
            findCrlf_eq_none (not_crlf_infix_of_cut l.noCrlf hp hne)]

end Plexdb.Resp
