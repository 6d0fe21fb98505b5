import Mathlib

/-! Byte strings. Every buffer of the source (`String8`, `AutoString8`, `DynamicArray<U8>`, a page)
is a list of bytes here; a pointer into a buffer together with its end is the suffix it delimits. -/

namespace Plexdb

abbrev Bytes := List UInt8

/-- The bytes of an ASCII literal. -/
def ascii (s : String) : Bytes := s.toList.map fun c => c.toNat.toUInt8

/-- A prefix of two pieces is cut inside the first or reaches into the second. -/
theorem prefix_append_cases {α : Type*} {p a b : List α} (h : p <+: a ++ b) :
    (p <+: a ∧ p ≠ a) ∨ ∃ r, p = a ++ r ∧ r <+: b := by
  rcases List.prefix_or_prefix_of_prefix h (List.prefix_append a b) with hpa | ⟨r, rfl⟩
  · by_cases heq : p = a
    · exact Or.inr ⟨[], by simp [heq], List.nil_prefix⟩
    · exact Or.inl ⟨hpa, heq⟩
  · exact Or.inr ⟨r, rfl, (List.prefix_append_right_inj a).mp h⟩

end Plexdb
