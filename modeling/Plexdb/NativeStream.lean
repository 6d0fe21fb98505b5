import Plexdb.Bytes

/-! A connection as its reader sees it: the bytes it has buffered and the byte strings that the TCP
reads to come deliver. What a reader gets depends on the concatenation alone, as long as it only
fills its buffer and consumes from its front. -/

namespace Plexdb.Cql.Native

/-- A read buffer, and the reads still to come; after the last of them reading fails. -/
structure Stream where
  buf : Bytes
  reads : List Bytes

namespace Stream

/-- All bytes that are not consumed yet. -/
def bytes (s : Stream) : Bytes := s.buf ++ s.reads.flatten

/-- The fill loop on a buffer: appends reads (`try_append_tcp_read`) until it holds `n` bytes, and
fails when a read does. -/
def fill (n : Nat) (buf : Bytes) : List Bytes → Option Stream
  | [] => if buf.length < n then none else some ⟨buf, []⟩
  | r :: reads => if buf.length < n then fill n (buf ++ r) reads else some ⟨buf, r :: reads⟩

def fillTo (n : Nat) (s : Stream) : Option Stream := fill n s.buf s.reads

/-- `consume_front`. -/
def consumeFront (n : Nat) (s : Stream) : Stream := { s with buf := s.buf.drop n }

/-! ### Filling loses nothing -/

theorem fill_eq_some {n : Nat} {buf : Bytes} {reads : List Bytes} {s : Stream} (h : fill n buf reads = some s) :
    s.bytes = buf ++ reads.flatten ∧ n ≤ s.buf.length := by
  induction reads generalizing buf with
  | nil =>
      rw [fill] at h
      split_ifs at h with hn
      obtain rfl := Option.some.inj h
      exact ⟨rfl, Nat.le_of_not_lt hn⟩
  | cons r reads ih =>
      rw [fill] at h
      split_ifs at h with hn
      · obtain ⟨hbytes, hle⟩ := ih h
        rw [hbytes, List.flatten_cons, List.append_assoc]
        exact ⟨rfl, hle⟩
      · obtain rfl := Option.some.inj h
        exact ⟨rfl, Nat.le_of_not_lt hn⟩

theorem fill_eq_none {n : Nat} {buf : Bytes} {reads : List Bytes} (h : fill n buf reads = none) :
    (buf ++ reads.flatten).length < n := by
  induction reads generalizing buf with
  | nil =>
      rw [fill] at h
      split_ifs at h with hn
      simpa using hn
  | cons r reads ih =>
      rw [fill] at h
      split_ifs at h with hn
      rw [List.flatten_cons, ← List.append_assoc]
      exact ih h

theorem fillTo_eq_some {n : Nat} {s s' : Stream} (h : s.fillTo n = some s') :
    s'.bytes = s.bytes ∧ n ≤ s'.buf.length :=
  fill_eq_some h

theorem fillTo_eq_none {n : Nat} {s : Stream} : s.fillTo n = none ↔ s.bytes.length < n := by
  refine ⟨fill_eq_none, fun hlt => ?_⟩
  cases hfill : s.fillTo n with
  | none => rfl
  | some s' =>
      obtain ⟨hbytes, hle⟩ := fillTo_eq_some hfill
      have := congrArg List.length hbytes
      rw [bytes, List.length_append] at this
      omega

/-- With enough bytes to come, filling succeeds. -/
theorem fillTo_isSome {n : Nat} {s : Stream} (h : n ≤ s.bytes.length) : ∃ s', s.fillTo n = some s' := by
  refine Option.ne_none_iff_exists'.mp fun hnone => ?_
  have := fillTo_eq_none.mp hnone
  omega

/-- The front of the buffer is the front of the stream. -/
theorem take_buf {n : Nat} {s : Stream} (h : n ≤ s.buf.length) : s.buf.take n = s.bytes.take n := by
  rw [bytes, List.take_append_of_le_length h]

theorem bytes_consumeFront {n : Nat} {s : Stream} (h : n ≤ s.buf.length) :
    (s.consumeFront n).bytes = s.bytes.drop n := by
  rw [bytes, bytes, List.drop_append_of_le_length h, consumeFront]

/-! ### Cuts -/

end Stream

end Plexdb.Cql.Native
