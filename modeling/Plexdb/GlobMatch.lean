import Plexdb.KvEngine

/-! Glob patterns: what a pattern means, and what the loop of `match` with its one saved star finds. -/

namespace Plexdb.Kv

/-! ### Patterns -/

/-- `key` matches `pattern`: `?` stands for any byte, `*` for a string that `Star` allows in front of the rest of the
key, and any other byte for itself. -/
inductive MatchesWith (Star : Bytes → Bytes → Prop) : Bytes → Bytes → Prop where
  | nil : MatchesWith Star [] []
  | star {pattern key : Bytes} (part : Bytes) (allowed : Star part key) (rest : MatchesWith Star pattern key) :
      MatchesWith Star (42 :: pattern) (part ++ key)
  | any {pattern key : Bytes} (c : UInt8) (rest : MatchesWith Star pattern key) :
      MatchesWith Star (63 :: pattern) (c :: key)
  | literal {pattern key : Bytes} (c : UInt8) (hstar : c ≠ 42) (hany : c ≠ 63)
      (rest : MatchesWith Star pattern key) : MatchesWith Star (c :: pattern) (c :: key)

/-- A star stands for any string. -/
abbrev Matches : Bytes → Bytes → Prop := MatchesWith fun _ _ => True

/-- A star that faces a `*` byte of the key stands for just that byte. -/
def TakesStarByte (part rest : Bytes) : Prop := (part ++ rest).head? = some 42 → part = [42]

/-- A match in which every star that faces a `*` byte of the key stands for just that byte. -/
abbrev MatchesStarBytes : Bytes → Bytes → Prop := MatchesWith TakesStarByte

theorem MatchesWith.mono {Star Star' : Bytes → Bytes → Prop} (hle : ∀ part rest, Star part rest → Star' part rest)
    {pattern key : Bytes} (h : MatchesWith Star pattern key) : MatchesWith Star' pattern key := by
  induction h with
  | nil => exact .nil
  | star part allowed _ ih => exact .star part (hle _ _ allowed) ih
  | any c _ ih => exact .any c ih
  | literal c hstar hany _ ih => exact .literal c hstar hany ih

theorem MatchesStarBytes.matches {pattern key : Bytes} (h : MatchesStarBytes pattern key) : Matches pattern key :=
  h.mono fun _ _ _ => trivial

/-- Without a `*` byte in the key there is nothing for a star to face. -/
theorem Matches.matchesStarBytes {pattern key : Bytes} (h : Matches pattern key) (hkey : 42 ∉ key) :
    MatchesStarBytes pattern key := by
  induction h with
  | nil => exact .nil
  | star part _ _ ih =>
      refine .star part (fun hhead => absurd (List.mem_of_mem_head? hhead) hkey) (ih fun hmem => hkey ?_)
      exact List.mem_append_right part hmem
  | any c _ ih => exact .any c (ih fun hmem => hkey (List.mem_cons_of_mem c hmem))
  | literal c hstar hany _ ih => exact .literal c hstar hany (ih fun hmem => hkey (List.mem_cons_of_mem c hmem))

theorem matches_star (key : Bytes) : Matches [42] key := by
  have h : Matches [42] (key ++ []) := .star key trivial .nil
  rwa [List.append_nil] at h

/-! ### One byte of the pattern -/

theorem matchesStarBytes_nil_iff {pattern : Bytes} :
    MatchesStarBytes pattern [] ↔ pattern.all (· == 42) = true := by
  constructor
  · intro h
    generalize hkey : ([] : Bytes) = key at h
    induction h with
    | nil => rfl
    | star part _ _ ih =>
        obtain ⟨-, hrest⟩ := List.append_eq_nil_iff.mp hkey.symm
        rw [List.all_cons, ih hrest.symm]
        rfl
    | any => cases hkey
    | literal => cases hkey
  · intro h
    induction pattern with
    | nil => exact .nil
    | cons c pattern ih =>
        rw [List.all_cons, Bool.and_eq_true, beq_iff_eq] at h
        obtain ⟨rfl, hrest⟩ := h
        exact .star [] (by nofun) (ih hrest)

theorem not_matchesStarBytes_nil_cons {c : UInt8} {key : Bytes} : ¬ MatchesStarBytes [] (c :: key) := by
  generalize hkey : c :: key = key'
  intro h
  cases h
  cases hkey

/-- A byte of the pattern that equals the byte of the key, or is `?`, takes that byte only. -/
theorem matchesStarBytes_cons_iff {p c : UInt8} {pattern key : Bytes} (h : p = 63 ∨ p = c) :
    MatchesStarBytes (p :: pattern) (c :: key) ↔ MatchesStarBytes pattern key := by
  constructor
  · generalize hpattern : p :: pattern = pattern'
    generalize hkey : c :: key = key'
    intro hmatch
    cases hmatch with
    | nil => cases hpattern
    | star part allowed rest =>
        cases hpattern
        have hc : c = 42 := (h.resolve_left (by decide)).symm
        have hpart : part = [42] := allowed (by rw [← hkey, hc]; rfl)
        rw [hpart, hc] at hkey
        cases hkey
        exact rest
    | any _ rest =>
        cases hpattern
        cases hkey
        exact rest
    | literal _ _ _ rest =>
        cases hpattern
        cases hkey
        exact rest
  · intro hrest
    by_cases hany : p = 63
    · rw [hany]
      exact .any c hrest
    · rw [h.resolve_left hany]
      by_cases hstar : c = 42
      · rw [hstar]
        exact .star [42] (fun _ => rfl) hrest
      · exact .literal c hstar (fun hc => hany ((h.resolve_left hany).trans hc)) hrest

theorem not_matchesStarBytes_cons {p c : UInt8} {pattern key : Bytes} (hany : p ≠ 63) (hne : p ≠ c)
    (hstar : p ≠ 42) : ¬ MatchesStarBytes (p :: pattern) (c :: key) := by
  generalize hpattern : p :: pattern = pattern'
  generalize hkey : c :: key = key'
  intro h
  cases h with
  | nil => cases hpattern
  | star => exact hstar (List.cons.inj hpattern).1
  | any => exact hany (List.cons.inj hpattern).1
  | literal => exact hne ((List.cons.inj hpattern).1.trans (List.cons.inj hkey).1.symm)

/-- What a star leaves of the key. -/
theorem MatchesStarBytes.of_star {pattern key : Bytes} (h : MatchesStarBytes (42 :: pattern) key) :
    ∃ n, MatchesStarBytes pattern (key.drop n) := by
  generalize hpattern : (42 :: pattern : Bytes) = pattern' at h
  cases h with
  | nil => cases hpattern
  | star part _ rest =>
      cases hpattern
      exact ⟨part.length, by rwa [List.drop_left]⟩
  | any => cases (List.cons.inj hpattern).1
  | literal c hstar => exact absurd (List.cons.inj hpattern).1.symm hstar

/-- A star that does not face a `*` byte stands for any string. -/
theorem matchesStarBytes_star_iff {pattern key : Bytes} (hhead : key.head? ≠ some 42) :
    MatchesStarBytes (42 :: pattern) key ↔ ∃ n, MatchesStarBytes pattern (key.drop n) := by
  refine ⟨MatchesStarBytes.of_star, fun ⟨n, hrest⟩ => ?_⟩
  rw [← List.take_append_drop n key]
  exact .star (key.take n) (fun h => absurd (by rwa [List.take_append_drop] at h) hhead) hrest

/-! ### What follows a saved star -/

/-- `part` of the pattern took `used` byte by byte. -/
abbrev Aligned : Bytes → Bytes → Prop := List.Forall₂ fun p c => p = 63 ∨ p = c

/-- A later match of the bytes behind the saved star reaches at least as far into the key. -/
theorem Aligned.reaches {part used : Bytes} (h : Aligned part used) {pattern key : Bytes} {k : Nat}
    (hmatch : MatchesStarBytes (part ++ pattern) ((used ++ key).drop k)) :
    ∃ k', MatchesStarBytes pattern (key.drop k') := by
  induction h generalizing k with
  | nil => exact ⟨k, hmatch⟩
  | @cons p c part used hpc _ ih =>
      cases k with
      | zero => exact ih (k := 0) ((matchesStarBytes_cons_iff hpc).mp hmatch)
      | succ k =>
          rw [List.cons_append, List.cons_append, List.drop_succ_cons] at hmatch
          by_cases hstar : p = 42
          · obtain ⟨n, hrest⟩ := MatchesStarBytes.of_star (hstar ▸ hmatch)
            rw [List.drop_drop] at hrest
            exact ih hrest
          · cases hkey : (used ++ key).drop k with
            | nil =>
                rw [hkey, matchesStarBytes_nil_iff, List.all_cons, Bool.and_eq_true, beq_iff_eq] at hmatch
                exact absurd hmatch.1 hstar
            | cons d rest =>
                rw [hkey] at hmatch
                have hpd : p = 63 ∨ p = d := by
                  by_contra hnot
                  exact not_matchesStarBytes_cons (fun h => hnot (.inl h)) (fun h => hnot (.inr h)) hstar hmatch
                have hrest := (matchesStarBytes_cons_iff hpd).mp hmatch
                have hdrop : rest = (used ++ key).drop (k + 1) := by
                  rw [← List.drop_drop, hkey, List.drop_one, List.tail_cons]
                exact ih (hdrop ▸ hrest)

/-! ### The loop -/

/-- The pattern behind the saved star took the key from `starKi` to `ki`. -/
def SinceStar (key pattern : Bytes) (pi ki : Nat) (star : Option Nat) (starKi : Nat) : Prop :=
  ∀ afterStar, star = some afterStar → ∃ part used, pattern.drop afterStar = part ++ pattern.drop pi ∧
    key.drop starKi = used ++ key.drop ki ∧ Aligned part used

/-- What is left to find: a match from here, or of the pattern behind the saved star from a later byte. -/
def Left (key pattern : Bytes) (pi ki : Nat) (star : Option Nat) (starKi : Nat) : Prop :=
  MatchesStarBytes (pattern.drop pi) (key.drop ki) ∨
    ∃ afterStar, star = some afterStar ∧ ∃ k, MatchesStarBytes (pattern.drop afterStar) (key.drop (starKi + 1 + k))

theorem SinceStar.reaches {key pattern : Bytes} {pi ki starKi afterStar : Nat} {star : Option Nat}
    (h : SinceStar key pattern pi ki star starKi) (hstar : star = some afterStar) {k : Nat}
    (hmatch : MatchesStarBytes (pattern.drop afterStar) (key.drop (starKi + k))) :
    ∃ k', MatchesStarBytes (pattern.drop pi) (key.drop (ki + k')) := by
  obtain ⟨part, used, hpattern, hkey, haligned⟩ := h afterStar hstar
  rw [hpattern, ← List.drop_drop, hkey] at hmatch
  obtain ⟨k', hk'⟩ := haligned.reaches hmatch
  exact ⟨k', by rwa [List.drop_drop] at hk'⟩

theorem SinceStar.step {key pattern : Bytes} {pi ki starKi : Nat} {star : Option Nat}
    (h : SinceStar key pattern pi ki star starKi) (hpi : pi < pattern.length) (hki : ki < key.length)
    (hpc : pattern[pi] = 63 ∨ pattern[pi] = key[ki]) : SinceStar key pattern (pi + 1) (ki + 1) star starKi := by
  intro afterStar hstar
  obtain ⟨part, used, hpattern, hkey, haligned⟩ := h afterStar hstar
  rw [List.drop_eq_getElem_cons hpi] at hpattern
  rw [List.drop_eq_getElem_cons hki] at hkey
  refine ⟨part ++ [pattern[pi]], used ++ [key[ki]], by rw [hpattern]; simp, by rw [hkey]; simp, ?_⟩
  exact List.rel_append haligned (.cons hpc .nil)

/-- Where neither branch of the loop applies, nothing matches from here. -/
theorem not_matches_here {key pattern : Bytes} {pi ki : Nat} (hki : ki < key.length)
    (hnot : ¬ (pi < pattern.length ∧ (pattern[pi]? = some 63 ∨ pattern[pi]? = key[ki]?)))
    (hstar : ¬ (pi < pattern.length ∧ pattern[pi]? = some 42)) :
    ¬ MatchesStarBytes (pattern.drop pi) (key.drop ki) := by
  rw [List.drop_eq_getElem_cons hki]
  by_cases hpi : pi < pattern.length
  · rw [List.getElem?_eq_getElem hpi, Option.some_inj, not_and] at hstar
    rw [List.getElem?_eq_getElem hpi, List.getElem?_eq_getElem hki, Option.some_inj, Option.some_inj, not_and,
      not_or] at hnot
    rw [List.drop_eq_getElem_cons hpi]
    exact not_matchesStarBytes_cons (hnot hpi).1 (hnot hpi).2 (hstar hpi)
  · rw [List.drop_of_length_le (by omega)]
    exact not_matchesStarBytes_nil_cons

theorem sinceStar_saved (key pattern : Bytes) (pi ki : Nat) : SinceStar key pattern pi ki (some pi) ki := by
  intro afterStar hstar
  cases hstar
  exact ⟨[], [], rfl, rfl, .nil⟩

/-- The byte of the pattern at `pi` takes the byte of the key at `ki`. -/
theorem takes_iff {key pattern : Bytes} {pi ki : Nat} (hpi : pi < pattern.length) (hki : ki < key.length) :
    pattern[pi]? = some 63 ∨ pattern[pi]? = key[ki]? ↔ pattern[pi] = 63 ∨ pattern[pi] = key[ki] := by
  rw [List.getElem?_eq_getElem hpi, List.getElem?_eq_getElem hki, Option.some_inj, Option.some_inj]

/-- Behind a restart, what the saved star still has to try. -/
theorem left_restart_iff {key pattern : Bytes} {starKi afterStar : Nat} :
    Left key pattern afterStar (starKi + 1) (some afterStar) (starKi + 1) ↔
      ∃ k, MatchesStarBytes (pattern.drop afterStar) (key.drop (starKi + 1 + k)) := by
  constructor
  · rintro (hmatch | ⟨_, hstar, k, hmatch⟩)
    · exact ⟨0, hmatch⟩
    · cases hstar
      exact ⟨k + 1, by rwa [Nat.add_assoc, Nat.add_comm 1 k] at hmatch⟩
  · rintro ⟨k, hmatch⟩
    cases k with
    | zero => exact Or.inl hmatch
    | succ k => exact Or.inr ⟨afterStar, rfl, k, by rwa [Nat.add_assoc (starKi + 1) 1 k, Nat.add_comm 1 k]⟩

/-- A star of the pattern at a byte it does not take is saved, and replaces the star that was saved before. -/
theorem left_saved_iff {key pattern : Bytes} {pi ki starKi : Nat} {star : Option Nat}
    (hsince : SinceStar key pattern pi ki star starKi) (hpi : pi < pattern.length) (hstar : pattern[pi] = 42)
    (hhead : (key.drop ki).head? ≠ some 42) :
    Left key pattern (pi + 1) ki (some (pi + 1)) ki ↔ Left key pattern pi ki star starKi := by
  have hdrop : pattern.drop pi = 42 :: pattern.drop (pi + 1) := by rw [List.drop_eq_getElem_cons hpi, hstar]
  have hsaved : Left key pattern (pi + 1) ki (some (pi + 1)) ki ↔
      ∃ n, MatchesStarBytes (pattern.drop (pi + 1)) (key.drop (ki + n)) := by
    constructor
    · rintro (hmatch | ⟨_, hsome, k, hmatch⟩)
      · exact ⟨0, hmatch⟩
      · cases hsome
        exact ⟨1 + k, by rwa [Nat.add_assoc] at hmatch⟩
    · rintro ⟨n, hmatch⟩
      cases n with
      | zero => exact Or.inl hmatch
      | succ n => exact Or.inr ⟨pi + 1, rfl, n, by rwa [Nat.add_assoc, Nat.add_comm 1 n]⟩
  rw [hsaved]
  constructor
  · rintro ⟨n, hmatch⟩
    left
    rw [hdrop]
    exact (matchesStarBytes_star_iff hhead).mpr ⟨n, by rwa [List.drop_drop]⟩
  · have hrest : ∀ k, MatchesStarBytes (pattern.drop pi) (key.drop (ki + k)) →
        ∃ n, MatchesStarBytes (pattern.drop (pi + 1)) (key.drop (ki + n)) := by
      intro k hmatch
      obtain ⟨n, hn⟩ := MatchesStarBytes.of_star (hdrop ▸ hmatch)
      exact ⟨k + n, by rwa [List.drop_drop, Nat.add_assoc] at hn⟩
    rintro (hmatch | ⟨afterStar, hsome, k, hmatch⟩)
    · exact hrest 0 hmatch
    · obtain ⟨k', hk'⟩ := hsince.reaches hsome (k := 1 + k) (by rwa [← Nat.add_assoc])
      exact hrest k' hk'

theorem globLoop_iff {key pattern : Bytes} {pi ki : Nat} {star : Option Nat} {starKi : Nat} (h : starKi ≤ ki)
    (hsince : SinceStar key pattern pi ki star starKi) :
    globLoop key pattern pi ki star starKi h = true ↔ Left key pattern pi ki star starKi := by
  induction pi, ki, star, starKi, h using globLoop.induct key pattern with
  | case1 pi ki star starKi h hki htake ih =>
      rw [globLoop.eq_def, dif_pos hki, if_pos htake]
      obtain ⟨hpi, htake⟩ := htake
      rw [takes_iff hpi hki] at htake
      rw [ih (hsince.step hpi hki htake), Left, Left, List.drop_eq_getElem_cons hpi, List.drop_eq_getElem_cons hki,
        matchesStarBytes_cons_iff htake]
  | case2 pi ki star starKi h hki hnot hstar ih =>
      rw [globLoop.eq_def, dif_pos hki, if_neg hnot, dif_pos hstar, ih (sinceStar_saved key pattern (pi + 1) ki)]
      obtain ⟨hpi, hstar⟩ := hstar
      rw [List.getElem?_eq_getElem hpi, Option.some_inj] at hstar
      refine left_saved_iff hsince hpi hstar fun hhead => hnot ⟨hpi, (takes_iff hpi hki).mpr (Or.inr ?_)⟩
      rw [List.drop_eq_getElem_cons hki, List.head?_cons, Option.some_inj] at hhead
      rw [hstar, hhead]
  | case3 pi ki starKi h hki hnot hstar afterStar ih =>
      rw [globLoop.eq_def, dif_pos hki, if_neg hnot, dif_neg hstar, ih (sinceStar_saved key pattern _ _),
        left_restart_iff, Left, or_iff_right (not_matches_here hki hnot hstar)]
      exact ⟨fun hk => ⟨afterStar, rfl, hk⟩, fun ⟨_, hsome, hk⟩ => by cases hsome; exact hk⟩
  | case4 pi ki starKi h hki hnot hstar =>
      rw [globLoop.eq_def, dif_pos hki, if_neg hnot, dif_neg hstar, Left,
        or_iff_right (not_matches_here hki hnot hstar)]
      exact ⟨nofun, fun ⟨_, hsome, _⟩ => nomatch hsome⟩
  | case5 pi ki star starKi h hki =>
      rw [globLoop.eq_def, dif_neg hki, ← matchesStarBytes_nil_iff, Left]
      have hend : ∀ k, key.drop (ki + k) = [] := fun k => List.drop_of_length_le (by omega)
      have hhere : key.drop ki = [] := hend 0
      rw [hhere]
      constructor
      · exact Or.inl
      · rintro (hmatch | ⟨afterStar, hsome, k, hmatch⟩)
        · exact hmatch
        · obtain ⟨k', hk'⟩ := hsince.reaches hsome (k := 1 + k) (by rwa [← Nat.add_assoc])
          rwa [hend k'] at hk'

theorem globMatch_iff (key pattern : Bytes) :
    globMatch key pattern = true ↔ pattern = ascii "*" ∨ MatchesStarBytes pattern key := by
  by_cases hall : pattern = ascii "*"
  · rw [globMatch, if_pos hall]
    exact ⟨fun _ => Or.inl hall, fun _ => rfl⟩
  · rw [globMatch, if_neg hall, or_iff_right hall, globLoop_iff (le_refl 0) (by nofun), Left]
    exact or_iff_left (fun ⟨_, hsome, _⟩ => nomatch hsome)

/-- What `match` accepts is a match. -/
theorem matches_of_globMatch {key pattern : Bytes} (h : globMatch key pattern = true) : Matches pattern key := by
  rcases (globMatch_iff key pattern).mp h with hall | hmatch
  · rw [hall]
    exact matches_star key
  · exact hmatch.matches

/-- `match` is right about a key without a `*` byte. -/
theorem globMatch_iff_of_notMem {key : Bytes} (pattern : Bytes) (hkey : 42 ∉ key) :
    globMatch key pattern = true ↔ Matches pattern key :=
  ⟨matches_of_globMatch, fun h => (globMatch_iff key pattern).mpr (Or.inr (h.matchesStarBytes hkey))⟩

theorem globMatch_iff_matches_iff (key pattern : Bytes) :
    (globMatch key pattern = true ↔ Matches pattern key) ↔
      (Matches pattern key → pattern = ascii "*" ∨ MatchesStarBytes pattern key) := by
  constructor
  · intro h hmatch
    exact (globMatch_iff key pattern).mp (h.mpr hmatch)
  · intro h
    exact ⟨matches_of_globMatch, fun hmatch => (globMatch_iff key pattern).mpr (h hmatch)⟩

/-- The star takes the `*` byte of the key as itself, and is not there to take the `x`. -/
theorem globMatch_star_byte :
    ¬ (globMatch (ascii "*xa") (ascii "*a") = true ↔ Matches (ascii "*a") (ascii "*xa")) := by
  intro h
  have hmatch : Matches (ascii "*a") (ascii "*xa") :=
    .star (ascii "*x") trivial (.literal 97 (by decide) (by decide) .nil)
  rcases (globMatch_iff _ _).mp (h.mpr hmatch) with hall | hmatch
  · exact absurd hall (by decide)
  · have hrest := (matchesStarBytes_cons_iff (Or.inr rfl)).mp hmatch
    exact not_matchesStarBytes_cons (by decide) (by decide) (by decide) hrest

end Plexdb.Kv
