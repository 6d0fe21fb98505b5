import Mathlib

/-! A map in a fixed number of slots with linear probing. A probe looks at all slots but one and fails when none of
them is free. A removal leaves the slot free, so it keeps the map only when no other key's way leads over that
slot. -/

namespace Plexdb.SentinelMap

variable {κ α : Type _} [DecidableEq κ] (hash : κ → Nat) (count : Nat)

abbrev Slots (κ α : Type _) := Nat → Option (κ × α)

/-- Where a probe ends. -/
inductive Probe where
  | full
  | free (slot : Nat)
  | held (slot : Nat)
  deriving DecidableEq

/-- The probe from a position on, over some slots. -/
def probeFrom (slots : Slots κ α) (key : κ) : (slotsLeft : Nat) → (position : Nat) → Probe
  | 0, _ => .full
  | slotsLeft + 1, position =>
      match slots (position % count) with
      | none => .free (position % count)
      | some (key', _) =>
          if key' = key then .held (position % count) else probeFrom slots key slotsLeft (position + 1)

def probe (slots : Slots κ α) (key : κ) : Probe := probeFrom count slots key (count - 1) (hash key)

/-- The slot that an insertion takes: it does not look at keys. -/
def freeFrom (slots : Slots κ α) : (slotsLeft : Nat) → (position : Nat) → Option Nat
  | 0, _ => none
  | slotsLeft + 1, position =>
      if slots (position % count) = none then some (position % count) else freeFrom slots slotsLeft (position + 1)

def freeSlot (slots : Slots κ α) (key : κ) : Option Nat := freeFrom count slots (count - 1) (hash key)

/-- How many slots the probe of a key passes before this one. -/
def offset (key : κ) (slot : Nat) : Nat := (slot + (count - hash key % count)) % count

/-- No other key's way leads over the slot of this one. -/
def Spares (slots : Slots κ α) (key : κ) : Prop :=
  ∀ slot v, slots slot = some (key, v) → ∀ slot' key' v', slots slot' = some (key', v') → key' ≠ key →
    offset hash count key' slot' ≤ offset hash count key' slot

/-- The entries in the order of an iteration. -/
def entries (slots : Slots κ α) : List (κ × α) := (List.range count).filterMap slots

/-! ### What a probe finds -/

section

variable {hash count} {slots : Slots κ α} {key : κ} {slotsLeft position slot : Nat}

theorem probeFrom_held (h : probeFrom count slots key slotsLeft position = .held slot) :
    ∃ v, slots slot = some (key, v) := by
  induction slotsLeft generalizing position with
  | zero => cases h
  | succ n ih =>
      rw [probeFrom] at h
      cases hslot : slots (position % count) with
      | none => rw [hslot] at h; cases h
      | some e =>
          rw [hslot] at h
          dsimp only at h
          split_ifs at h with hkey
          · obtain rfl := Probe.held.inj h
            exact ⟨e.2, hkey ▸ hslot⟩
          · exact ih h

/-- Behind the slots that were passed, the free one is the one an insertion takes. -/
theorem probeFrom_free (h : probeFrom count slots key slotsLeft position = .free slot) :
    freeFrom count slots slotsLeft position = some slot ∧ slots slot = none ∧
      ∃ d < slotsLeft, (position + d) % count = slot ∧
        ∀ e < d, ∃ k v, k ≠ key ∧ slots ((position + e) % count) = some (k, v) := by
  induction slotsLeft generalizing position with
  | zero => cases h
  | succ n ih =>
      rw [probeFrom] at h
      rw [freeFrom]
      cases hslot : slots (position % count) with
      | none =>
          rw [hslot] at h
          obtain rfl := Probe.free.inj h
          exact ⟨if_pos rfl, hslot, 0, Nat.succ_pos n, rfl, fun e he => absurd he (Nat.not_lt_zero e)⟩
      | some e =>
          rw [hslot] at h
          dsimp only at h
          split_ifs at h with hkey
          obtain ⟨hfree, hnone, d, hd, hpos, hpath⟩ := ih h
          refine ⟨(if_neg (Option.some_ne_none e)).trans hfree, hnone, d + 1, Nat.succ_lt_succ hd, ?_, ?_⟩
          · rw [← hpos, Nat.add_right_comm, Nat.add_assoc]
          · intro i hi
            cases i with
            | zero => exact ⟨e.1, e.2, hkey, hslot⟩
            | succ i =>
                have := hpath i (Nat.lt_of_succ_lt_succ hi)
                rwa [Nat.add_right_comm, Nat.add_assoc] at this

/-- A probe reaches a slot when it passes only other keys before. -/
theorem probeFrom_of_path {d : Nat} (hd : d < slotsLeft)
    (hpath : ∀ e < d, ∃ k v, k ≠ key ∧ slots ((position + e) % count) = some (k, v)) :
    probeFrom count slots key slotsLeft position = match slots ((position + d) % count) with
      | none => .free ((position + d) % count)
      | some (k, _) => if k = key then .held ((position + d) % count)
          else probeFrom count slots key (slotsLeft - d - 1) (position + d + 1) := by
  induction d generalizing slotsLeft position with
  | zero =>
      obtain ⟨n, rfl⟩ := Nat.exists_eq_succ_of_ne_zero (Nat.ne_of_gt hd)
      rfl
  | succ d ih =>
      obtain ⟨n, rfl⟩ := Nat.exists_eq_succ_of_ne_zero (Nat.ne_of_gt (Nat.zero_lt_of_lt hd))
      obtain ⟨k, v, hne, hslot⟩ := hpath 0 (Nat.succ_pos d)
      rw [Nat.add_zero] at hslot
      rw [probeFrom, hslot]
      dsimp only
      rw [if_neg hne, ih (Nat.lt_of_succ_lt_succ hd) fun e he => ?_]
      · rw [show position + 1 + d = position + (d + 1) by omega, show n - d - 1 = n + 1 - (d + 1) - 1 by omega]
      · have := hpath (e + 1) (Nat.succ_lt_succ he)
        rwa [show position + 1 + e = position + (e + 1) by omega]

/-! ### The invariant -/

variable (hash count) in
/-- Each key stands in one slot, and all slots on its way are taken. -/
structure Probed (slots : Slots κ α) : Prop where
  path : ∀ slot key v, slots slot = some (key, v) → ∃ d < count - 1, (hash key + d) % count = slot ∧
    ∀ e < d, slots ((hash key + e) % count) ≠ none
  unique : ∀ slot slot' key v v', slots slot = some (key, v) → slots slot' = some (key, v') → slot = slot'

omit [DecidableEq κ] in
theorem probed_empty : Probed hash count (fun _ => none : Slots κ α) where
  path _ _ _ h := by cases h
  unique _ _ _ _ _ h := by cases h

theorem Probed.probe_of_held (h : Probed hash count slots) {v : α} (hslot : slots slot = some (key, v)) :
    probe hash count slots key = .held slot := by
  obtain ⟨d, hd, rfl, hpath⟩ := h.path _ _ _ hslot
  rw [probe, probeFrom_of_path hd fun e he => ?_, hslot]
  · exact if_pos rfl
  · obtain ⟨⟨k, w⟩, hkw⟩ := Option.ne_none_iff_exists'.mp (hpath e he)
    refine ⟨k, w, ?_, hkw⟩
    rintro rfl
    have hmod : (hash k + e) % count = (hash k + d) % count := h.unique _ _ _ _ _ hkw hslot
    have hmod : e % count = d % count := Nat.ModEq.add_left_cancel' (hash k) hmod
    rw [Nat.mod_eq_of_lt (by omega), Nat.mod_eq_of_lt (by omega)] at hmod
    exact he.ne hmod

theorem Probed.absent_of_free (h : Probed hash count slots) (hprobe : probe hash count slots key = .free slot)
    {slot' : Nat} {v : α} : slots slot' ≠ some (key, v) := by
  intro hslot
  cases hprobe.symm.trans (h.probe_of_held hslot)

theorem exists_of_probe_held (h : probe hash count slots key = .held slot) : ∃ v, slots slot = some (key, v) :=
  probeFrom_held h

theorem freeSlot_of_probe (h : probe hash count slots key = .free slot) : freeSlot hash count slots key = some slot :=
  (probeFrom_free h).1

theorem Probed.insert (h : Probed hash count slots) (hprobe : probe hash count slots key = .free slot) (v : α) :
    Probed hash count (Function.update slots slot (some (key, v))) := by
  obtain ⟨-, hnone, d, hd, hpos, hpath⟩ := probeFrom_free hprobe
  have hkept : ∀ i, slots i ≠ none → Function.update slots slot (some (key, v)) i ≠ none := by
    intro i hi
    rw [Function.update_apply]
    split_ifs
    · exact Option.some_ne_none _
    · exact hi
  constructor
  · intro i k w hi
    rw [Function.update_apply] at hi
    split_ifs at hi with heq
    · obtain ⟨rfl, rfl⟩ := Prod.mk.inj (Option.some.inj hi)
      refine ⟨d, hd, hpos.trans heq.symm, fun e he => hkept _ ?_⟩
      obtain ⟨k', w', -, hslot⟩ := hpath e he
      rw [hslot]
      exact Option.some_ne_none _
    · obtain ⟨d', hd', hpos', hpath'⟩ := h.path i k w hi
      exact ⟨d', hd', hpos', fun e he => hkept _ (hpath' e he)⟩
  · intro i j k w w' hi hj
    rw [Function.update_apply] at hi hj
    split_ifs at hi hj with hi' hj' hj'
    · rw [hi', hj']
    · obtain ⟨rfl, -⟩ := Prod.mk.inj (Option.some.inj hi)
      exact absurd hj (h.absent_of_free hprobe)
    · obtain ⟨rfl, -⟩ := Prod.mk.inj (Option.some.inj hj)
      exact absurd hi (h.absent_of_free hprobe)
    · exact h.unique i j k w w' hi hj

omit [DecidableEq κ] in
theorem Probed.modify (h : Probed hash count slots) {v : α} (hslot : slots slot = some (key, v)) (v' : α) :
    Probed hash count (Function.update slots slot (some (key, v'))) := by
  have hsame : ∀ i k w, Function.update slots slot (some (key, v')) i = some (k, w) → ∃ w', slots i = some (k, w') := by
    intro i k w hi
    rw [Function.update_apply] at hi
    split_ifs at hi with heq
    · obtain ⟨rfl, -⟩ := Prod.mk.inj (Option.some.inj hi)
      exact ⟨v, heq ▸ hslot⟩
    · exact ⟨w, hi⟩
  constructor
  · intro i k w hi
    obtain ⟨w', hi⟩ := hsame i k w hi
    obtain ⟨d, hd, hpos, hpath⟩ := h.path i k w' hi
    refine ⟨d, hd, hpos, fun e he => ?_⟩
    rw [Function.update_apply]
    split_ifs
    · exact Option.some_ne_none _
    · exact hpath e he
  · intro i j k w w' hi hj
    obtain ⟨u, hi⟩ := hsame i k w hi
    obtain ⟨u', hj⟩ := hsame j k w' hj
    exact h.unique i j k u u' hi hj

omit [DecidableEq κ] in
theorem offset_add {d : Nat} (hd : d < count) : offset hash count key ((hash key + d) % count) = d := by
  have hr := Nat.mod_lt (hash key) (Nat.zero_lt_of_lt hd)
  rw [offset, Nat.add_mod (hash key) d, Nat.mod_eq_of_lt hd]
  rcases Nat.lt_or_ge (hash key % count + d) count with hlt | hge
  · rw [Nat.mod_eq_of_lt hlt, show hash key % count + d + (count - hash key % count) = d + count by omega,
      Nat.add_mod_right, Nat.mod_eq_of_lt hd]
  · rw [Nat.mod_eq_sub_mod hge, Nat.mod_eq_of_lt (a := hash key % count + d - count) (by omega),
      show hash key % count + d - count + (count - hash key % count) = d by omega, Nat.mod_eq_of_lt hd]

omit [DecidableEq κ] in
theorem Probed.remove (h : Probed hash count slots) {v : α} (hslot : slots slot = some (key, v))
    (hspares : Spares hash count slots key) : Probed hash count (Function.update slots slot none) := by
  have hkept : ∀ i k w, Function.update slots slot none i = some (k, w) → slots i = some (k, w) ∧ i ≠ slot := by
    intro i k w hi
    rw [Function.update_apply] at hi
    split_ifs at hi with heq
    exact ⟨hi, heq⟩
  constructor
  · intro i k w hi
    obtain ⟨hold, hne⟩ := hkept i k w hi
    obtain ⟨d, hd, rfl, hpath⟩ := h.path i k w hold
    refine ⟨d, hd, rfl, fun e he => ?_⟩
    rw [Function.update_of_ne]
    · exact hpath e he
    · rintro rfl
      have hkey : k ≠ key := by
        rintro rfl
        exact hne (h.unique _ _ _ _ _ hold hslot)
      have hle := hspares _ v hslot _ k w hold hkey
      rw [offset_add (by omega), offset_add (by omega)] at hle
      omega
  · intro i j k w w' hi hj
    exact h.unique i j k w w' (hkept i k w hi).1 (hkept j k w' hj).1

omit [DecidableEq κ] in
theorem Probed.slot_lt (h : Probed hash count slots) {v : α} (hslot : slots slot = some (key, v)) : slot < count := by
  obtain ⟨d, hd, rfl, -⟩ := h.path _ _ _ hslot
  exact Nat.mod_lt _ (by omega)

omit [DecidableEq κ] in
/-- Fewer keys than a probe has slots leave one of its slots free. -/
theorem Probed.exists_free (h : Probed hash count slots) {keys : List κ}
    (hkeys : ∀ slot key v, slots slot = some (key, v) → key ∈ keys) (hroom : keys.length < count - 1)
    (position : Nat) : ∃ d < count - 1, slots ((position + d) % count) = none := by
  classical
  by_contra hall
  push Not at hall
  have hheld : ∀ d < count - 1, ∃ e, slots ((position + d) % count) = some e := fun d hd =>
    Option.ne_none_iff_exists'.mp (hall d hd)
  obtain ⟨e₀, -⟩ := hheld 0 (by omega)
  have : Nonempty (κ × α) := ⟨e₀⟩
  choose! held hheld using hheld
  have hinj : Set.InjOn (fun d => (held d).1) (Finset.range (count - 1) : Set Nat) := by
    intro d hd e he heq
    rw [Finset.coe_range, Set.mem_Iio] at hd he
    have hslot := h.unique _ _ (held d).1 (held d).2 (held e).2 (hheld d hd)
      ((hheld e he).trans (congrArg some (Prod.ext heq.symm rfl)))
    have hmod : d % count = e % count := Nat.ModEq.add_left_cancel' position hslot
    rwa [Nat.mod_eq_of_lt (by omega), Nat.mod_eq_of_lt (by omega)] at hmod
  have hmaps : Set.MapsTo (fun d => (held d).1) (Finset.range (count - 1) : Set Nat) (keys.toFinset : Set κ) := by
    intro d hd
    rw [Finset.coe_range, Set.mem_Iio] at hd
    exact List.mem_toFinset.mpr (hkeys _ _ (held d).2 (hheld d hd))
  have hcard := Finset.card_le_card_of_injOn _ hmaps hinj
  rw [Finset.card_range] at hcard
  have := List.toFinset_card_le keys
  omega

/-- A probe does not fail when one of its slots is free. -/
theorem probeFrom_ne_full {d : Nat} (hd : d < slotsLeft) (hfree : slots ((position + d) % count) = none) :
    probeFrom count slots key slotsLeft position ≠ .full := by
  induction slotsLeft generalizing position d with
  | zero => exact absurd hd (Nat.not_lt_zero d)
  | succ n ih =>
      rw [probeFrom]
      cases hslot : slots (position % count) with
      | none => exact Probe.noConfusion
      | some e =>
          dsimp only
          split_ifs
          · exact Probe.noConfusion
          · cases d with
            | zero => cases hslot.symm.trans hfree
            | succ d =>
                rw [show position + (d + 1) = position + 1 + d by omega] at hfree
                exact ih (Nat.lt_of_succ_lt_succ hd) hfree

theorem probe_of_absent (habsent : ∀ slot v, slots slot ≠ some (key, v)) {d : Nat} (hd : d < count - 1)
    (hfree : slots ((hash key + d) % count) = none) : ∃ slot, probe hash count slots key = .free slot := by
  cases hprobe : probe hash count slots key with
  | full => exact absurd hprobe (probeFrom_ne_full hd hfree)
  | free slot => exact ⟨slot, rfl⟩
  | held slot =>
      obtain ⟨v, hslot⟩ := probeFrom_held hprobe
      exact absurd hslot (habsent slot v)

/-! ### The entries -/

omit [DecidableEq κ] in
theorem Probed.mem_entries_iff (h : Probed hash count slots) {e : κ × α} :
    e ∈ entries count slots ↔ ∃ slot, slots slot = some e := by
  rw [entries, List.mem_filterMap]
  constructor
  · rintro ⟨slot, -, hslot⟩
    exact ⟨slot, hslot⟩
  · rintro ⟨slot, hslot⟩
    exact ⟨slot, List.mem_range.mpr (h.slot_lt hslot), hslot⟩

omit [DecidableEq κ] in
theorem Probed.nodup_keys (h : Probed hash count slots) : ((entries count slots).map Prod.fst).Nodup := by
  rw [entries, List.map_filterMap]
  refine List.Nodup.filterMap (fun i j k hi hj => ?_) List.nodup_range
  rw [Option.mem_def, Option.map_eq_some_iff] at hi hj
  obtain ⟨⟨k₁, v₁⟩, hi, rfl⟩ := hi
  obtain ⟨⟨k₂, v₂⟩, hj, rfl⟩ := hj
  exact h.unique i j k₂ v₁ v₂ hi hj

end

end Plexdb.SentinelMap
