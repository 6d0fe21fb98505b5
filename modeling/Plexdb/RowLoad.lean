import Plexdb.RowWalk

/-! What the iterator can give at all: a dereferenced value is null, the value of a key column, or a value that was
read under the type of its column; and what `load` makes of the blobs of a partition. -/

namespace Plexdb.Cql

open Wire

/-! ### Values of a walk -/

/-- A value of the variants that the reader of column `ci` builds. -/
def ReadAt (tbl : TableView) (ci : Nat) (v : ColumnValue) : Prop := ∃ t, tbl.columnType ci = some t ∧ StoredAs t v

namespace ColumnIterator

/-- The two iterators are at one column of one row. -/
structure SameRow (it it' : ColumnIterator) : Prop where
  count : it'.rowColumnCount = it.rowColumnCount
  pk : it'.injectedPkValues = it.injectedPkValues
  ck : it'.injectedCkValues = it.injectedCkValues

theorem SameRow.refl (it : ColumnIterator) : SameRow it it := ⟨rfl, rfl, rfl⟩

theorem SameRow.trans {it it' it'' : ColumnIterator} (h : SameRow it it') (h' : SameRow it' it'') :
    SameRow it it'' :=
  ⟨h'.count.trans h.count, h'.pk.trans h.pk, h'.ck.trans h.ck⟩

theorem SameRow.injected {it it' : ColumnIterator} (h : SameRow it it') (col : Schema.Column) :
    it'.injected col = it.injected col := by
  rw [ColumnIterator.injected, ColumnIterator.injected, h.pk, h.ck]

theorem sameRow_withCurrent (it : ColumnIterator) (col : Schema.Column) (cells : CellSection) :
    SameRow it (it.withCurrent col cells) ∧ (it.withCurrent col cells).currentColumnIdx = it.currentColumnIdx := by
  rw [withCurrent]
  split
  · exact ⟨⟨rfl, rfl, rfl⟩, rfl⟩
  · exact ⟨⟨rfl, rfl, rfl⟩, rfl⟩

variable {tbl : TableView}

/-- A value that a dereference at column `ci` can give. -/
def Gives (tbl : TableView) (it : ColumnIterator) (ci : Nat) (v : ColumnValue) : Prop :=
  v = .null ∨ ci < it.rowColumnCount ∧ ∃ col, tbl.cols[ci]? = some col ∧ (it.injected col = some v ∨ ReadAt tbl ci v)

theorem SameRow.gives {it it' : ColumnIterator} (h : SameRow it it') {ci : Nat} {v : ColumnValue}
    (hv : Gives tbl it' ci v) : Gives tbl it ci v := by
  refine hv.imp_right fun ⟨hlt, col, hcol, hv⟩ => ⟨h.count ▸ hlt, col, hcol, ?_⟩
  rwa [h.injected] at hv

theorem deref_gives {it it' : ColumnIterator} {v : ColumnValue} (h : it.deref tbl = some (v, it')) :
    SameRow it it' ∧ it'.currentColumnIdx = it.currentColumnIdx ∧ Gives tbl it it.currentColumnIdx v := by
  rw [deref] at h
  split_ifs at h with hlive hend
  · obtain ⟨rfl, rfl⟩ := Prod.mk.inj (Option.some.inj h)
    exact ⟨⟨rfl, rfl, rfl⟩, rfl, .inl rfl⟩
  obtain ⟨col, hcol, h⟩ := Option.bind_eq_some_iff.mp h
  split_ifs at h with hnull
  · rw [derefNull] at h
    cases hinjected : it.injected col with
    | none =>
        rw [hinjected] at h
        obtain ⟨rfl, rfl⟩ := Prod.mk.inj (Option.some.inj h)
        exact ⟨⟨rfl, rfl, rfl⟩, rfl, .inl rfl⟩
    | some w =>
        rw [hinjected] at h
        obtain ⟨rfl, rfl⟩ := Prod.mk.inj (Option.some.inj h)
        exact ⟨⟨rfl, rfl, rfl⟩, rfl, .inr ⟨Nat.lt_of_not_le hend, col, hcol, .inl hinjected⟩⟩
  · obtain ⟨⟨cellMetadata, s⟩, -, h⟩ := Option.bind_eq_some_iff.mp h
    obtain ⟨t, ht, h⟩ := Option.bind_eq_some_iff.mp h
    obtain ⟨⟨w, s⟩, hread, h⟩ := Option.bind_eq_some_iff.mp h
    obtain ⟨rfl, rfl⟩ := Prod.mk.inj (Option.some.inj h)
    obtain ⟨hsame, hidx⟩ := sameRow_withCurrent it col { it.current col with cursor := s }
    exact ⟨⟨hsame.count, hsame.pk, hsame.ck⟩, hidx,
      .inr ⟨Nat.lt_of_not_le hend, col, hcol, .inr ⟨t, ht, storedAs_of_read t hread⟩⟩⟩

theorem visit_gives {it it' : ColumnIterator} {d : Bool} {out : Option (ColumnValue × CellMetadata)}
    (h : it.visit tbl d = some (out, it')) :
    SameRow it it' ∧ it'.currentColumnIdx = it.currentColumnIdx ∧
      ∀ v m, out = some (v, m) → Gives tbl it it.currentColumnIdx v := by
  rw [visit] at h
  split at h
  · obtain ⟨⟨v, it₁⟩, hderef, h⟩ := Option.bind_eq_some_iff.mp h
    obtain ⟨rfl, rfl⟩ := Prod.mk.inj (Option.some.inj h)
    obtain ⟨hsame, hidx, hv⟩ := deref_gives hderef
    refine ⟨hsame, hidx, fun w m hw => ?_⟩
    rwa [← (Prod.mk.inj (Option.some.inj hw)).1]
  · obtain ⟨rfl, rfl⟩ := Prod.mk.inj (Option.some.inj h)
    exact ⟨SameRow.refl _, rfl, fun v m hv => by cases hv⟩

/-- The iterator ends, or moves on by one column. -/
theorem advance_moves {it it' : ColumnIterator} (h : it.advance tbl = some it') :
    it'.live = false ∨ SameRow it it' ∧ it'.currentColumnIdx = it.currentColumnIdx + 1 := by
  rw [advance] at h
  split_ifs at h with hlive hend
  · obtain rfl := Option.some.inj h
    exact .inl rfl
  obtain ⟨col, hcol, h⟩ := Option.bind_eq_some_iff.mp h
  obtain ⟨it₁, hskip, h⟩ := Option.bind_eq_some_iff.mp h
  obtain rfl := Option.some.inj h
  right
  rw [skipCell] at hskip
  split_ifs at hskip with hcell
  · obtain ⟨s, -, hskip⟩ := Option.bind_eq_some_iff.mp hskip
    obtain ⟨t, -, hskip⟩ := Option.bind_eq_some_iff.mp hskip
    obtain ⟨s, -, hskip⟩ := Option.bind_eq_some_iff.mp hskip
    obtain rfl := Option.some.inj hskip
    obtain ⟨hsame, hidx⟩ := sameRow_withCurrent it col { it.current col with cursor := s }
    exact ⟨⟨hsame.count, hsame.pk, hsame.ck⟩, congrArg (· + 1) hidx⟩
  · obtain rfl := Option.some.inj hskip
    exact ⟨⟨rfl, rfl, rfl⟩, rfl⟩

/-- Whatever the cursors read, every value of a walk is null, a key value, or read under the type of its column. -/
theorem walk_gives (ds : List Bool) : ∀ {it : ColumnIterator} {outs : List (Option (ColumnValue × CellMetadata))},
    it.walk tbl ds = some outs → ∀ (k : Nat) (v : ColumnValue) (m : CellMetadata), outs[k]? = some (some (v, m)) →
      Gives tbl it (it.currentColumnIdx + k) v := by
  induction ds with
  | nil =>
      intro it outs h k v m hout
      rw [walk] at h
      obtain rfl := Option.some.inj h
      cases hout
  | cons d ds ih =>
      intro it outs h k v m hout
      cases hlive : it.live with
      | false =>
          rw [Sections.walk_end hlive] at h
          obtain rfl := Option.some.inj h
          rw [List.getElem?_map] at hout
          obtain ⟨d', -, hout⟩ := Option.map_eq_some_iff.mp hout
          split_ifs at hout
          exact .inl (Prod.mk.inj (Option.some.inj hout)).1.symm
      | true =>
          rw [walk, hlive, if_pos rfl] at h
          obtain ⟨⟨out, it₁⟩, hvisit, h⟩ := Option.bind_eq_some_iff.mp h
          obtain ⟨it₂, hadvance, h⟩ := Option.bind_eq_some_iff.mp h
          obtain ⟨outs, houts, h⟩ := Option.bind_eq_some_iff.mp h
          obtain rfl := Option.some.inj h
          obtain ⟨hsame, hidx, hgives⟩ := visit_gives hvisit
          cases k with
          | zero => exact hgives v m (Option.some.inj hout)
          | succ k =>
              rw [List.getElem?_cons_succ] at hout
              rcases advance_moves hadvance with hend | ⟨hsame', hidx'⟩
              · rw [Sections.walk_end hend] at houts
                obtain rfl := Option.some.inj houts
                rw [List.getElem?_map] at hout
                obtain ⟨d', -, hout⟩ := Option.map_eq_some_iff.mp hout
                split_ifs at hout
                exact .inl (Prod.mk.inj (Option.some.inj hout)).1.symm
              · have hv := ih houts k v m hout
                rw [hidx', hidx, Nat.add_assoc, Nat.add_comm 1 k] at hv
                exact (hsame.trans hsame').gives hv

end ColumnIterator

end Plexdb.Cql
