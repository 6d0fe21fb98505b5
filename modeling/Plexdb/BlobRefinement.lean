import Plexdb.BlobAccess
import Plexdb.Runs

/-! A dynamic blob over whole runs, next to the byte array it stands for. -/

namespace Plexdb.Blob

open Pager (Sys)

variable {W : Nat}

/-- A byte array as its user knows it: its size, and the last byte written at each offset, unless a
resize has cut it off since. -/
structure Contents where
  size : Nat
  byte : Nat → Option UInt8

namespace Contents

def empty : Contents := ⟨0, fun _ => none⟩

def resize (c : Contents) (n : Nat) : Contents := ⟨n, fun i => if i < n then c.byte i else none⟩

def write (c : Contents) (offset : Nat) (value : Bytes) : Contents :=
  ⟨c.size, fun i => if offset ≤ i ∧ i < offset + value.length then value[i - offset]? else c.byte i⟩

end Contents

inductive BlobOp where
  | create (initialSize : Nat)
  | load
  | resize (newSize : Nat)
  | update (value : Bytes) (offset : Nat)
  | append (value : Bytes)
  | get (size offset : Nat)
  | remove

/-- A pager inside a transaction, the blob as it was last loaded, and what it should contain. -/
structure BlobSys (W : Nat) where
  sys : Sys W
  blob : Option BlobDynamicPaged
  contents : Contents

namespace BlobOp

/-- The program of an operation, with the blob it leaves. A blob is created where there is none, and
every other operation needs one. -/
def program (op : BlobOp) (blob : Option BlobDynamicPaged) : BlobProgram W (Option BlobDynamicPaged) :=
  match blob, op with
  | none, .create initialSize => do
      let page ← createPagedDynamic initialSize
      let b ← Blob.load page
      pure (some b)
  | some b, .load => do
      let page ← PageProgram.ofOption b.dataPages.head?
      let b ← Blob.load page
      pure (some b)
  | some b, .resize newSize => do
      let b ← resizeImpl b newSize
      pure (some b)
  | some b, .update value offset => do
      Blob.update b value offset
      pure (some b)
  | some b, .append value => do
      let b ← Blob.append b value
      pure (some b)
  | some b, .get size offset => do
      let _ ← Blob.get b size offset
      pure (some b)
  | some b, .remove => do
      removeImpl b
      pure none
  | _, _ => .fail

def contents (op : BlobOp) (c : Contents) : Contents :=
  match op with
  | .create initialSize => Contents.empty.resize initialSize
  | .resize newSize => c.resize newSize
  | .update value offset => c.write offset value
  | .append value => (c.resize (c.size + value.length)).write c.size value
  | .load | .get _ _ => c
  | .remove => Contents.empty

/-- No size or offset of the operation leaves 64 bits. -/
def InBounds (W : Nat) (op : BlobOp) (c : Contents) : Prop :=
  match op with
  | .create initialSize => Fits W initialSize
  | .resize newSize => Fits W newSize
  | .append value => Fits W (c.size + value.length)
  | .update value offset => offset + value.length < 2 ^ 64
  | .get size offset => offset + size < 2 ^ 64
  | .load | .remove => True

end BlobOp

namespace BlobSys

def step (t : BlobSys W) (op : BlobOp) : Option (BlobSys W) :=
  ((op.program t.blob).run store t.sys).map fun r => ⟨r.1, r.2, op.contents t.contents⟩

/-- The operation stays in bounds, and each of its allocations finds what it must. -/
def Safe (t : BlobSys W) (op : BlobOp) : Prop :=
  op.InBounds W t.contents ∧ (op.program t.blob).Meets store Allocates t.sys

end BlobSys

/-- `b` became `b'`, of `n` bytes: it has the pages `n` bytes need, one pair of page lists is a prefix of
the other, and exactly the difference was allocated or freed. -/
structure Exchanged (W : Nat) (live : Finset Nat) (b : BlobDynamicPaged) (n : Nat)
    (live' : Finset Nat) (b' : BlobDynamicPaged) : Prop where
  size : b'.sizeBytes = n
  data : b'.dataPages.length = dataCount W n
  header : b'.headerPages.length = headerCount W (dataCount W n)
  lists : (b.dataPages <+: b'.dataPages ∧ b.headerPages <+: b'.headerPages) ∨
    (b'.dataPages <+: b.dataPages ∧ b'.headerPages <+: b.headerPages)
  nodup : b'.pages.Nodup
  fresh : ∀ i ∈ b'.pages, i ∉ b.pages → i ∉ live
  live_eq : live' = live \ b.pages.toFinset ∪ b'.pages.toFinset

/-- Inside a transaction whose live pages are all marked, over files that agree with the WAL index. -/
structure Ready (s : Sys W) : Prop where
  active : s.pager.transactionActive = true
  ok : s.pager.StorageOk
  covers : Pager.Covers s.pager.content s.pager.header.pageCount s.live

/-- Every pager that the allocation law has held for so far is ready inside a transaction. -/
theorem ready_of_run (hW : 0 < W) {salt : BitVec 64} {withWal : Bool} {checkpointInterval : Nat}
    {ops : List (Pager.Op W)} {s : Sys W}
    (hrun : Sys.Run Sys.KeepsBitsets (Sys.create salt withWal checkpointInterval) ops s)
    (hactive : s.pager.transactionActive = true) : Ready s := by
  have hs : s.Lawful := hrun.invariant (fun _ _ _ hs hcond hstep => hs.step hW hcond hstep)
    (Pager.Sys.lawful_create salt withWal checkpointInterval)
  exact ⟨hactive, hs.ok, hs.law.covers⟩

structure Holds (h : Heap W) (b : BlobDynamicPaged) (c : Contents) : Prop where
  stored : Stored h b
  size : c.size = b.sizeBytes
  byte : ∀ i v, c.byte i = some v → i < c.size ∧ byteAt h b i = some v

theorem Holds.empty {h : Heap W} {b : BlobDynamicPaged} {n : Nat} (hb : Stored h b)
    (hn : b.sizeBytes = n) : Holds h b (Contents.empty.resize n) := by
  refine ⟨hb, hn.symm, fun i v hv => ?_⟩
  have hv : (if i < n then none else none) = some v := hv
  rw [ite_self] at hv
  cases hv

theorem Holds.resize (hW : 2 < W) {h h' : Heap W} {b b' : BlobDynamicPaged} {c : Contents}
    (hb : Holds h b c) {n : Nat} {live live' : Finset Nat} {s' : Sys W}
    (hr : Resized live h b n s' live' h' b') : Holds h' b' (c.resize n) := by
  refine ⟨hr.stored, hr.size.symm, fun i v hv => ?_⟩
  have hv : (if i < n then c.byte i else none) = some v := hv
  split at hv
  · rename_i hi
    obtain ⟨hlt, hbyte⟩ := hb.byte i v hv
    exact ⟨hi, (hr.byteAt_kept hW hb.stored (hb.size ▸ hlt) hi).trans hbyte⟩
  · cases hv

theorem Holds.write {h h' : Heap W} {b : BlobDynamicPaged} {c : Contents} (hb : Holds h b c)
    {offset : Nat} {value : Bytes} (hle : offset + value.length ≤ c.size)
    (hw : Written h b offset value h') : Holds h' b (c.write offset value) := by
  refine ⟨hw.stored, hb.size, fun i v hv => ?_⟩
  have hv : (if offset ≤ i ∧ i < offset + value.length then value[i - offset]? else c.byte i) =
    some v := hv
  have hsize := hb.size
  split at hv
  · rename_i hin
    refine ⟨show i < c.size by omega, ?_⟩
    rw [hw.bytes i (by omega), if_pos hin, List.getD_eq_getElem?_getD, hv, Option.getD_some]
  · rename_i hout
    obtain ⟨hlt, hbyte⟩ := hb.byte i v hv
    exact ⟨hlt, by rw [hw.bytes i (by omega), if_neg hout, hbyte]⟩

theorem Resized.exchanged {live live' : Finset Nat} {h h' : Heap W} {b b' : BlobDynamicPaged} {n : Nat}
    {s' : Sys W} (hr : Resized live h b n s' live' h' b') : Exchanged W live b n live' b' where
  size := hr.size
  data := by rw [hr.stored.data, hr.size]
  header := by rw [hr.stored.header, hr.stored.data, hr.size]
  lists := hr.lists
  nodup := hr.stored.chain.nodup
  fresh := hr.fresh
  live_eq := hr.live_eq

theorem Created.exchanged {live live' : Finset Nat} {h h' : Heap W} {b : BlobDynamicPaged} {n : Nat}
    {s' : Sys W} (hc : Created live h n s' live' h' b) : Exchanged W live ⟨0, [], []⟩ n live' b where
  size := hc.size
  data := by rw [hc.stored.data, hc.size]
  header := by rw [hc.stored.header, hc.stored.data, hc.size]
  lists := .inl ⟨List.nil_prefix, List.nil_prefix⟩
  nodup := hc.stored.chain.nodup
  fresh i hi _ := hc.fresh i hi
  live_eq := by
    rw [hc.live_eq]
    simp [BlobDynamicPaged.pages]

/-- The invariant of a run. -/
def BlobSys.Refines (t : BlobSys W) : Prop :=
  ∃ live h, Views t.sys live h ∧ ∀ b, t.blob = some b → Holds h b t.contents

section

variable {s : Sys W} {live : Finset Nat} {h : Heap W} {b : BlobDynamicPaged} {c : Contents}

theorem does_append (hW : 2 < W) (hs : Views s live h) (hb : Holds h b c) {value : Bytes}
    (hn : Fits W (c.size + value.length)) :
    Does (append b value) (fun s' b' => ∃ live' h', Views s' live' h' ∧
      Holds h' b' ((c.resize (c.size + value.length)).write c.size value) ∧
      Exchanged W live b (c.size + value.length) live' b') s := by
  have hsmall : u64 (b.sizeBytes + value.length) = c.size + value.length := by
    rw [Fits] at hn
    rw [← hb.size, u64_of_lt (by omega)]
  rw [append, hsmall]
  refine (does_resizeImpl hW hs hb.stored hn).bind ?_
  rintro s₁ b' ⟨live', h', hr⟩
  have hb' := hb.resize hW hr
  have hle : b.sizeBytes + value.length ≤ b'.sizeBytes := by
    rw [hr.size, hb.size]
  refine (does_update hW hr.views hr.stored hle).bind ?_
  rintro s₂ - ⟨h'', hs₂, hw⟩
  rw [← hb.size] at hw
  exact ⟨live', h'', hs₂, hb'.write (by rw [hb'.size, hr.size]) hw, hr.exchanged⟩

/-- A run of `assert` and what follows it shows that the assertion holds. -/
theorem assertion_of_run {α β : Type} {p : Prop} [Decidable p] {next : Unit → BlobProgram W α}
    {f : α → BlobProgram W β} {r : Sys W × β}
    (h : ((PageProgram.assert p >>= next) >>= f).run store s = some r) : p := by
  obtain ⟨_, _, h⟩ := PageProgram.exists_run_of_bind h
  obtain ⟨_, _, h⟩ := PageProgram.exists_run_of_bind h
  exact PageProgram.of_run_assert h

/-- What an operation leaves. -/
def Leaves (c : Contents) (s' : Sys W) (blob : Option BlobDynamicPaged) : Prop :=
  ∃ live' h', Views s' live' h' ∧ ∀ b, blob = some b → Holds h' b c

theorem Leaves.some {s' : Sys W} (hs : Views s' live h) (hb : Holds h b c) :
    Leaves c s' (some b) :=
  ⟨live, h, hs, fun _ heq => Option.some.inj heq ▸ hb⟩

/-- After an operation in bounds the blob stands for the new contents. -/
theorem refines_of_run (hW : 2 < W) {blob : Option BlobDynamicPaged} (hs : Views s live h)
    (hb : ∀ b, blob = some b → Holds h b c) {op : BlobOp} (hbounds : op.InBounds W c)
    {s' : Sys W} {blob' : Option BlobDynamicPaged}
    (hmeets : (op.program blob).Meets store Allocates s)
    (hrun : (op.program blob).run store s = some (s', blob')) : Leaves (op.contents c) s' blob' := by
  cases blob with
  | none =>
      cases op with
      | create n =>
          refine PageProgram.Ensures.of_run (Q := Leaves _) ?_ hmeets hrun
          refine (does_createPagedDynamic hW hs hbounds).bind ?_
          rintro s₁ page ⟨live', h', b', hpage, hcreated⟩
          refine (does_load hW hcreated.views hcreated.stored hpage).bind ?_
          rintro s₂ b' ⟨rfl, hs₂⟩
          exact .some hs₂ (.empty hcreated.stored hcreated.size)
      | _ => cases hrun
  | some b =>
      have hb := hb b rfl
      have hfits := hb.stored.fits
      have hsize := hb.size
      rw [Fits] at hfits
      cases op with
      | create n => cases hrun
      | load =>
          obtain ⟨dp, rest, hlist⟩ := hb.stored.exists_first
          have hdp : b.dataPages.head? = some dp := by
            rw [hlist]
            rfl
          refine PageProgram.Ensures.of_run (Q := Leaves _) ?_ hmeets hrun
          refine PageProgram.ensures_bind.mpr (PageProgram.ensures_ofOption hdp ?_)
          refine (does_load hW hs hb.stored hdp).bind ?_
          rintro s₂ b' ⟨rfl, hs₂⟩
          exact .some hs₂ hb
      | resize n =>
          refine PageProgram.Ensures.of_run (Q := Leaves _) ?_ hmeets hrun
          refine (does_resizeImpl hW hs hb.stored hbounds).bind ?_
          rintro s₁ b' ⟨live', h', hr⟩
          exact .some hr.views (hb.resize hW hr)
      | update value offset =>
          have hbounds : offset + value.length < 2 ^ 64 := hbounds
          have hle := assertion_of_run hrun
          rw [u64_of_lt hbounds] at hle
          refine PageProgram.Ensures.of_run (Q := Leaves _) ?_ hmeets hrun
          refine (does_update hW hs hb.stored hle).bind ?_
          rintro s₁ - ⟨h', hs₁, hw⟩
          exact .some hs₁ (hb.write (by omega) hw)
      | append value =>
          refine PageProgram.Ensures.of_run (Q := Leaves _) ?_ hmeets hrun
          refine (does_append hW hs hb hbounds).bind ?_
          rintro s₁ b' ⟨live', h', hs₁, hb', -⟩
          exact .some hs₁ hb'
      | get size offset =>
          have hbounds : offset + size < 2 ^ 64 := hbounds
          have hle := assertion_of_run hrun
          rw [u64_of_lt hbounds] at hle
          refine PageProgram.Ensures.of_run (Q := Leaves _) ?_ hmeets hrun
          refine (does_get hW hs hb.stored hle).bind ?_
          rintro s₁ - ⟨hs₁, -⟩
          exact .some hs₁ hb
      | remove =>
          refine PageProgram.Ensures.of_run (Q := Leaves _) ?_ hmeets hrun
          refine (does_removeImpl hs hb.stored).bind ?_
          rintro s₁ - hs₁
          exact ⟨_, _, hs₁, fun b hb => (by cases hb)⟩

theorem BlobSys.Refines.step (hW : 2 < W) {t t' : BlobSys W} {op : BlobOp} (ht : t.Refines)
    (hsafe : t.Safe op) (hstep : t.step op = some t') : t'.Refines := by
  obtain ⟨live, h, hs, hb⟩ := ht
  obtain ⟨⟨s', blob'⟩, hrun, rfl⟩ := Option.map_eq_some_iff.mp hstep
  exact refines_of_run hW hs hb hsafe.1 hsafe.2 hrun

end

end Plexdb.Blob
