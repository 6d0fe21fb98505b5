import Plexdb.NativeConnection
import Plexdb.XxHash

/-! The equality operators of `String8`, `AutoString8` and C strings (`core/base/string.cpp`), which of them a
comparison uses, and the options of `STARTUP` that are compared with literals. A `String8` is the bytes it points to. -/

namespace Plexdb.Strings

/-! ### Representations -/

/-- A C string: the bytes in front of its NUL. -/
structure CString where
  bytes : Bytes
  noNul : 0 ∉ bytes

def CString.data (s : CString) : Bytes := s.bytes ++ [0]

/-- An `AutoString8` owns no buffer, as after its default constructor, or one with a NUL behind the bytes. -/
inductive AutoString8 where
  | empty
  | owned (bytes : Bytes)
  deriving DecidableEq

namespace AutoString8

def bytes : AutoString8 → Bytes
  | empty => []
  | owned bytes => bytes

/-- `c_str`, or a null pointer. -/
def cStr : AutoString8 → Option Bytes
  | empty => none
  | owned bytes => some (bytes ++ [0])

def length (s : AutoString8) : Nat := s.bytes.length

end AutoString8

/-! ### Operators -/

/-- The loop over the first `n` bytes of two buffers. -/
def sameBytes (n : Nat) (a b : Bytes) : Bool := (List.range n).all fun i => a[i]? == b[i]?

/-- `operator==(const String8&, const String8&)`. -/
def string8Eq (a b : Bytes) : Bool := if a.length ≠ b.length then false else sameBytes b.length a b

/-- The loop of `operator==(const char*, const String8&)`, over what is left of the two. -/
def cStringLoop : Bytes → Bytes → Bool
  | c :: a, d :: b => if c = 0 then false else if c ≠ d then false else cStringLoop a b
  | _, [] => true
  | [], _ :: _ => false

/-- `operator==(const char*, const String8&)`. -/
def cStringEq (a : CString) (b : Bytes) : Bool := cStringLoop a.data b

/-- `AutoString8::operator==(const String8&)`. -/
def AutoString8.eqString8 (a : AutoString8) (b : Bytes) : Bool :=
  if a.length ≠ b.length then false else sameBytes b.length b (a.cStr.getD [])

/-- `AutoString8::operator==(const AutoString8&)`. -/
def AutoString8.eqAuto (a b : AutoString8) : Bool :=
  if a.length ≠ b.length then false else sameBytes a.length (a.cStr.getD []) (b.cStr.getD [])

/-- `strcmp`: the difference of the first bytes that differ, up to a NUL. -/
def strcmp : Bytes → Bytes → Int
  | c :: a, d :: b => if c ≠ d then c.toNat - d.toNat else if c = 0 then 0 else strcmp a b
  | _, _ => 0

/-- `AutoString8::operator==(const char*)`; `none` where `strcmp` is given a null pointer. -/
def AutoString8.eqCString (a : AutoString8) (b : CString) : Option Bool :=
  a.cStr.map fun p => strcmp p b.data == 0

/-! ### Comparisons -/

/-- A string as an operand. -/
inductive Held where
  | string8 (bytes : Bytes)
  | auto (s : AutoString8)
  | cString (s : CString)

def Held.bytes : Held → Bytes
  | string8 bytes => bytes
  | auto s => s.bytes
  | cString s => s.bytes

/-- `hash(String8)` and `hash(const AutoString8&)`. -/
def Held.hash (s : Held) : UInt64 := hashString s.bytes

/-- The operator that overload resolution chooses, with its operands reversed where they fit only so. The language
compares two C strings as pointers, which says nothing about their bytes. -/
def equals : Held → Held → Option Bool
  | .string8 a, .string8 b => some (string8Eq a b)
  | .string8 a, .auto b => some (b.eqString8 a)
  | .string8 a, .cString b => some (cStringEq b a)
  | .auto a, .string8 b => some (a.eqString8 b)
  | .auto a, .auto b => some (a.eqAuto b)
  | .auto a, .cString b => a.eqCString b
  | .cString a, .string8 b => some (cStringEq a b)
  | .cString a, .auto b => b.eqCString a
  | .cString _, .cString _ => none

/-- A `String8` is not compared with a C string that it is a proper prefix of. -/
def NotProperPrefix (a : Bytes) (b : CString) : Prop := a <+: b.bytes → a = b.bytes

/-- An `AutoString8` is compared with a C string only if it has a buffer, and not one that goes on behind a NUL in
front of which it has the bytes of the C string. -/
def NotCutAtNul (a : AutoString8) (b : CString) : Prop :=
  a ≠ .empty ∧ (0 ∈ a.bytes → a.bytes.takeWhile (· != 0) ≠ b.bytes)

def Comparable : Held → Held → Prop
  | .string8 a, .cString b => NotProperPrefix a b
  | .auto a, .cString b => NotCutAtNul a b
  | .cString a, .string8 b => NotProperPrefix b a
  | .cString a, .auto b => NotCutAtNul b a
  | .cString _, .cString _ => False
  | .string8 _, .string8 _ => True
  | .string8 _, .auto _ => True
  | .auto _, .string8 _ => True
  | .auto _, .auto _ => True

/-! ### What the operators compute -/

theorem sameBytes_iff {n : Nat} {a b : Bytes} : sameBytes n a b = true ↔ a.take n = b.take n := by
  rw [sameBytes, List.all_eq_true]
  constructor
  · intro h
    apply List.ext_getElem?
    intro i
    by_cases hi : i < n
    · rw [List.getElem?_take_of_lt hi, List.getElem?_take_of_lt hi]
      exact beq_iff_eq.mp (h i (List.mem_range.mpr hi))
    · rw [List.getElem?_eq_none (by rw [List.length_take]; omega),
        List.getElem?_eq_none (by rw [List.length_take]; omega)]
  · intro h i hi
    have hi' := List.mem_range.mp hi
    rw [beq_iff_eq, ← List.getElem?_take_of_lt hi', h, List.getElem?_take_of_lt hi']

theorem string8Eq_eq (a b : Bytes) : string8Eq a b = decide (a = b) := by
  rw [Bool.eq_iff_iff, decide_eq_true_iff, string8Eq]
  by_cases hlength : a.length = b.length
  · rw [if_neg (not_not.mpr hlength), sameBytes_iff, List.take_length, ← hlength, List.take_length]
  · rw [if_pos hlength]
    exact ⟨nofun, fun h => absurd (congrArg List.length h) hlength⟩

theorem AutoString8.take_cStr (a : AutoString8) : (a.cStr.getD []).take a.length = a.bytes := by
  cases a with
  | empty => rfl
  | owned bytes => exact List.take_left

theorem AutoString8.eqString8_eq (a : AutoString8) (b : Bytes) : a.eqString8 b = decide (a.bytes = b) := by
  rw [Bool.eq_iff_iff, decide_eq_true_iff, eqString8]
  by_cases hlength : a.length = b.length
  · rw [if_neg (not_not.mpr hlength), sameBytes_iff, List.take_length, ← hlength, take_cStr]
    exact eq_comm
  · rw [if_pos hlength]
    exact ⟨nofun, fun h => absurd (congrArg List.length h) hlength⟩

theorem AutoString8.eqAuto_eq (a b : AutoString8) : a.eqAuto b = decide (a.bytes = b.bytes) := by
  rw [Bool.eq_iff_iff, decide_eq_true_iff, eqAuto]
  by_cases hlength : a.length = b.length
  · rw [if_neg (not_not.mpr hlength), sameBytes_iff, take_cStr, hlength, take_cStr]
  · rw [if_pos hlength]
    exact ⟨nofun, fun h => absurd (congrArg List.length h) hlength⟩

theorem cStringLoop_eq {a : Bytes} (hnul : 0 ∉ a) (b : Bytes) : cStringLoop (a ++ [0]) b = b.isPrefixOf a := by
  induction a generalizing b with
  | nil => cases b <;> rfl
  | cons c a ih =>
      cases b with
      | nil => rfl
      | cons d b =>
          have hc : c ≠ 0 := fun h => hnul (h ▸ List.mem_cons_self)
          rw [List.cons_append, cStringLoop, if_neg hc, ih (fun h => hnul (List.mem_cons_of_mem c h)),
            List.isPrefixOf_cons_cons]
          by_cases hcd : c = d
          · rw [if_neg (not_not.mpr hcd), hcd, beq_self_eq_true, Bool.true_and]
          · rw [if_pos hcd, beq_false_of_ne (Ne.symm hcd), Bool.false_and]

/-- A C string equals every `String8` that is a prefix of it. -/
theorem cStringEq_eq (a : CString) (b : Bytes) : cStringEq a b = b.isPrefixOf a.bytes :=
  cStringLoop_eq a.noNul b

theorem toNat_sub_eq_zero_iff {c d : UInt8} : (c.toNat : Int) - d.toNat = 0 ↔ c = d := by
  rw [Int.sub_eq_zero, Int.natCast_inj, UInt8.toNat_inj]

theorem strcmp_eq_zero_iff {a b : Bytes} (hnul : 0 ∉ b) :
    strcmp (a ++ [0]) (b ++ [0]) = 0 ↔ a.takeWhile (· != 0) = b := by
  induction a generalizing b with
  | nil =>
      cases b with
      | nil => exact iff_of_true rfl rfl
      | cons d b =>
          have hd : (0 : UInt8) ≠ d := fun h => hnul (h ▸ List.mem_cons_self)
          rw [List.nil_append, List.cons_append, strcmp, if_pos hd, toNat_sub_eq_zero_iff]
          exact iff_of_false hd nofun
  | cons c a ih =>
      cases b with
      | nil =>
          rw [List.nil_append, List.cons_append, strcmp, List.takeWhile_cons]
          by_cases hc : c = 0
          · simp [hc]
          · rw [if_pos hc, toNat_sub_eq_zero_iff, if_pos (bne_iff_ne.mpr hc)]
            exact iff_of_false hc nofun
      | cons d b =>
          have hd : d ≠ 0 := fun h => hnul (h ▸ List.mem_cons_self)
          rw [List.cons_append, List.cons_append, strcmp, List.takeWhile_cons]
          by_cases hcd : c = d
          · rw [if_neg (not_not.mpr hcd), hcd, if_neg hd, if_pos (bne_iff_ne.mpr hd),
              ih fun h => hnul (List.mem_cons_of_mem d h), List.cons_inj_right]
          · rw [if_pos hcd, toNat_sub_eq_zero_iff]
            refine iff_of_false hcd fun h => ?_
            split at h
            · exact hcd (List.cons.inj h).1
            · cases h

theorem AutoString8.eqCString_owned (bytes : Bytes) (b : CString) :
    (AutoString8.owned bytes).eqCString b = some (decide (bytes.takeWhile (· != 0) = b.bytes)) := by
  have hzero : (strcmp (bytes ++ [0]) b.data == 0) = decide (bytes.takeWhile (· != 0) = b.bytes) := by
    rw [Bool.eq_iff_iff, beq_iff_eq, decide_eq_true_iff]
    exact strcmp_eq_zero_iff b.noNul
  exact congrArg some hzero

/-! ### When a comparison compares the bytes -/

theorem compares_cString_string8_iff (a : CString) (b : Bytes) :
    cStringEq a b = decide (b = a.bytes) ↔ NotProperPrefix b a := by
  rw [cStringEq_eq, Bool.eq_iff_iff, List.isPrefixOf_iff_prefix, decide_eq_true_iff]
  exact ⟨fun h => h.mp, fun h => ⟨h, fun heq => heq ▸ List.prefix_rfl⟩⟩

theorem takeWhile_eq_self_of_notMem {a : Bytes} (h : 0 ∉ a) : a.takeWhile (· != 0) = a :=
  List.takeWhile_eq_self_iff.mpr fun _ hc => bne_iff_ne.mpr fun hzero => h (hzero ▸ hc)

theorem compares_auto_cString_iff (a : AutoString8) (b : CString) :
    a.eqCString b = some (decide (a.bytes = b.bytes)) ↔ NotCutAtNul a b := by
  cases a with
  | empty => exact iff_of_false nofun fun h => h.1 rfl
  | owned bytes =>
      rw [AutoString8.eqCString_owned, Option.some_inj, decide_eq_decide]
      constructor
      · exact fun h => ⟨nofun, fun hnul htake => b.noNul (h.mp htake ▸ hnul)⟩
      · rintro ⟨-, h⟩
        by_cases hnul : 0 ∈ bytes
        · exact iff_of_false (h hnul) fun heq => b.noNul (heq ▸ hnul)
        · rw [takeWhile_eq_self_of_notMem hnul]
          rfl

/-- Every comparison of two strings compares their bytes, exactly but for the two that involve a C string. -/
theorem equals_iff (x y : Held) : equals x y = some (decide (x.bytes = y.bytes)) ↔ Comparable x y := by
  cases x with
  | string8 a =>
      cases y with
      | string8 b => exact iff_of_true (congrArg some (string8Eq_eq a b)) trivial
      | auto b =>
          refine iff_of_true (congrArg some ((b.eqString8_eq a).trans ?_)) trivial
          exact decide_eq_decide.mpr eq_comm
      | cString b => exact Option.some_inj.trans (compares_cString_string8_iff b a)
  | auto a =>
      cases y with
      | string8 b => exact iff_of_true (congrArg some (a.eqString8_eq b)) trivial
      | auto b => exact iff_of_true (congrArg some (a.eqAuto_eq b)) trivial
      | cString b => exact compares_auto_cString_iff a b
  | cString a =>
      cases y with
      | string8 b =>
          rw [show decide ((Held.cString a).bytes = (Held.string8 b).bytes) = decide (b = a.bytes) from
            decide_eq_decide.mpr eq_comm]
          exact Option.some_inj.trans (compares_cString_string8_iff a b)
      | auto b =>
          rw [show decide ((Held.cString a).bytes = (Held.auto b).bytes) = decide (b.bytes = a.bytes) from
            decide_eq_decide.mpr eq_comm]
          exact compares_auto_cString_iff b a
      | cString b => exact iff_of_false nofun id

/-- Either order of the operands gives the same answer. -/
theorem equals_comm (x y : Held) : equals x y = equals y x := by
  cases x with
  | string8 a =>
      cases y with
      | string8 b => exact congrArg some (by rw [string8Eq_eq, string8Eq_eq]; exact decide_eq_decide.mpr eq_comm)
      | auto b => rfl
      | cString b => rfl
  | auto a =>
      cases y with
      | string8 b => rfl
      | auto b => exact congrArg some (by rw [a.eqAuto_eq, b.eqAuto_eq]; exact decide_eq_decide.mpr eq_comm)
      | cString b => rfl
  | cString a => cases y <;> rfl

theorem bytes_eq_of_equals {x y : Held} (h : Comparable x y) (heq : equals x y = some true) : x.bytes = y.bytes := by
  rw [(equals_iff x y).mpr h, Option.some_inj] at heq
  exact of_decide_eq_true heq

/-! ### The options of `STARTUP` -/

open Cql.Native

/-- The options that the loop reads, while there are bytes left. -/
def startupPairs : Nat → Bytes → Option (List (Bytes × Bytes))
  | 0, _ => some []
  | n + 1, p =>
      if p.isEmpty then some []
      else do
        let (key, p) ← readCqlString p
        let (value, p) ← readCqlString p
        let rest ← startupPairs n p
        some ((key, value) :: rest)

def startupMap (body : Bytes) : Option (List (Bytes × Bytes)) :=
  if body.length < 2 then some [] else startupPairs (readBeU16 body) (body.drop 2)

def compressionLiteral : CString := ⟨ascii "COMPRESSION", by decide⟩

def lz4Literal : CString := ⟨ascii "lz4", by decide⟩

/-- `key == "COMPRESSION" && val == "lz4"`. -/
def asksForLz4 (pair : Bytes × Bytes) : Bool :=
  equals (.string8 pair.1) (.cString compressionLiteral) == some true &&
    equals (.string8 pair.2) (.cString lz4Literal) == some true

theorem equals_literal (s : Bytes) (literal : CString) :
    (equals (.string8 s) (.cString literal) == some true) = s.isPrefixOf literal.bytes := by
  rw [equals, cStringEq_eq]
  cases s.isPrefixOf literal.bytes <;> rfl

theorem asksForLz4_eq (pair : Bytes × Bytes) :
    asksForLz4 pair = (pair.1.isPrefixOf (ascii "COMPRESSION") && pair.2.isPrefixOf (ascii "lz4")) := by
  rw [asksForLz4, equals_literal, equals_literal]
  rfl

theorem asksForLz4_iff (pair : Bytes × Bytes) :
    asksForLz4 pair = true ↔ pair.1 <+: ascii "COMPRESSION" ∧ pair.2 <+: ascii "lz4" := by
  rw [asksForLz4_eq, Bool.and_eq_true, List.isPrefixOf_iff_prefix, List.isPrefixOf_iff_prefix]

/-- The loop of the negotiation looks for an option of the map that its two comparisons accept. -/
theorem wantsLz4_eq (n : Nat) (p : Bytes) : wantsLz4 n p = (startupPairs n p).map (·.any asksForLz4) := by
  induction n generalizing p with
  | zero => rfl
  | succ n ih =>
      rw [wantsLz4, startupPairs]
      by_cases hempty : p.isEmpty = true
      · rw [if_pos hempty, if_pos hempty]
        rfl
      · rw [if_neg hempty, if_neg hempty]
        cases readCqlString p with
        | none => rfl
        | some key =>
            cases hvalue : readCqlString key.2 with
            | none => simp [hvalue]
            | some value =>
                have hrest := ih value.2
                cases hpairs : startupPairs n value.2 with
                | none =>
                    rw [hpairs] at hrest
                    simp [hvalue, hpairs, hrest]
                | some pairs =>
                    rw [hpairs] at hrest
                    simp [hvalue, hpairs, hrest, asksForLz4_eq]

theorem startupOptions_eq (body : Bytes) : startupOptions body = (startupMap body).map (·.any asksForLz4) := by
  rw [startupOptions, startupMap]
  split
  · rfl
  · exact wantsLz4_eq _ _

/-- Compression is negotiated only if the map holds the pair `COMPRESSION`, `lz4`. -/
def CompressesOnlyIfAsked (e : Envelope) : Prop :=
  ∀ protocol, negotiateAnswer e = .ready protocol → protocol.compressed = true →
    ∃ pairs, startupMap e.body = some pairs ∧ (ascii "COMPRESSION", ascii "lz4") ∈ pairs

/-- No option of a version 5 `STARTUP` has a prefix of `COMPRESSION` as its key and a prefix of `lz4` as its value,
but beside the pair itself. -/
def NoPrefixOption (e : Envelope) : Prop :=
  e.header.getD 4 0 = opStartup → (e.header.getD 0 0).toNat &&& 0x7F = 5 →
    ∀ pairs, startupMap e.body = some pairs →
      (∃ pair ∈ pairs, pair.1 <+: ascii "COMPRESSION" ∧ pair.2 <+: ascii "lz4") →
        (ascii "COMPRESSION", ascii "lz4") ∈ pairs

/-- The answer to a version 5 `STARTUP` with a readable map. -/
theorem negotiateAnswer_startup {e : Envelope} {pairs : List (Bytes × Bytes)} (hop : e.header.getD 4 0 = opStartup)
    (hversion : (e.header.getD 0 0).toNat &&& 0x7F = 5) (hpairs : startupMap e.body = some pairs) :
    negotiateAnswer e = .ready ⟨5, pairs.any asksForLz4⟩ := by
  rw [negotiateAnswer, hop, hversion, startupOptions_eq, hpairs]
  rfl

theorem negotiateAnswer_compressed {e : Envelope} {protocol : NegotiatedProtocol}
    (h : negotiateAnswer e = .ready protocol) (hcompressed : protocol.compressed = true) :
    e.header.getD 4 0 = opStartup ∧ (e.header.getD 0 0).toNat &&& 0x7F = 5 ∧
      ∃ pairs, startupMap e.body = some pairs ∧ pairs.any asksForLz4 = true := by
  rw [negotiateAnswer, startupOptions_eq] at h
  by_cases hoptions : e.header.getD 4 0 = opOptions
  · rw [if_pos hoptions] at h
    cases h
  by_cases hop : e.header.getD 4 0 = opStartup
  · rw [if_neg hoptions, if_pos hop] at h
    by_cases hversion : (e.header.getD 0 0).toNat &&& 0x7F < 3 ∨ (e.header.getD 0 0).toNat &&& 0x7F > 5
    · rw [if_pos hversion] at h
      cases h
    rw [if_neg hversion] at h
    cases hpairs : startupMap e.body with
    | none =>
        rw [hpairs] at h
        cases h
    | some pairs =>
        rw [hpairs] at h
        cases h
        obtain ⟨hfive, hany⟩ := Bool.and_eq_true_iff.mp hcompressed
        have hle := of_decide_eq_true hfive
        exact ⟨hop, by omega, pairs, rfl, hany⟩
  · rw [if_neg hoptions, if_neg hop] at h
    cases h

theorem compressesOnlyIfAsked_iff (e : Envelope) : CompressesOnlyIfAsked e ↔ NoPrefixOption e := by
  constructor
  · intro h hop hversion pairs hpairs hprefix
    have hany : pairs.any asksForLz4 = true := by
      obtain ⟨pair, hmem, hpair⟩ := hprefix
      exact List.any_eq_true.mpr ⟨pair, hmem, (asksForLz4_iff pair).mpr hpair⟩
    obtain ⟨pairs', hpairs', hmem⟩ := h _ (negotiateAnswer_startup hop hversion hpairs) hany
    rw [hpairs, Option.some_inj] at hpairs'
    rwa [hpairs']
  · intro h protocol hanswer hcompressed
    obtain ⟨hop, hversion, pairs, hpairs, hany⟩ := negotiateAnswer_compressed hanswer hcompressed
    obtain ⟨pair, hmem, hpair⟩ := List.any_eq_true.mp hany
    exact ⟨pairs, hpairs, h hop hversion pairs hpairs ⟨pair, hmem, (asksForLz4_iff pair).mp hpair⟩⟩

/-- When equality is byte equality; then it is an equivalence that `hash` respects. And when compression is negotiated
only if it is asked for. -/
theorem string_equality_iff (x y z : Held) (e : Envelope) :
    (equals x y = some (decide (x.bytes = y.bytes)) ↔ Comparable x y) ∧
      (Comparable x x → equals x x = some true) ∧
      equals x y = equals y x ∧
      (Comparable x y → Comparable y z → Comparable x z →
        equals x y = some true → equals y z = some true → equals x z = some true) ∧
      (Comparable x y → equals x y = some true → x.hash = y.hash) ∧
      (CompressesOnlyIfAsked e ↔ NoPrefixOption e) := by
  refine ⟨equals_iff x y, fun hx => ?_, equals_comm x y, fun hxy hyz hxz hxy' hyz' => ?_, fun hxy hxy' => ?_,
    compressesOnlyIfAsked_iff e⟩
  · rw [(equals_iff x x).mpr hx, decide_eq_true rfl]
  · have heq := (bytes_eq_of_equals hxy hxy').trans (bytes_eq_of_equals hyz hyz')
    rw [(equals_iff x z).mpr hxz, decide_eq_true heq]
  · rw [Held.hash, Held.hash, bytes_eq_of_equals hxy hxy']

/-- The empty `String8` equals the literal `lz4`, and a `STARTUP` with one option of two empty strings negotiates
compression. -/
theorem empty_equals_literal :
    equals (.string8 []) (.cString lz4Literal) ≠
        some (decide ((Held.string8 []).bytes = (Held.cString lz4Literal).bytes)) ∧
      ¬ CompressesOnlyIfAsked ⟨[5, 0, 0, 0, 1, 0, 0, 0, 6], 6, [0, 1, 0, 0, 0, 0]⟩ := by
  refine ⟨by decide, fun h => ?_⟩
  obtain ⟨pairs, hpairs, hmem⟩ := h ⟨5, true⟩ (by decide) rfl
  have hempty : startupMap [0, 1, 0, 0, 0, 0] = some [([], [])] := by decide
  rw [hempty, Option.some_inj] at hpairs
  rw [← hpairs] at hmem
  exact absurd hmem (by decide)

end Plexdb.Strings
