import Ozymandias.LogQuery

/-!
What the patterns of a log query match. Each segment is looked for at its first
place behind the one before and no choice is taken back. That finds a match
whenever there is one: what follows an earlier place ends with what follows a
later one, and a `*` takes what is between.
-/
namespace Ozymandias.LogGlobs

open SeriesModel Substrings Utf8 LogQuery

/-- The strings that come from a pattern when each `*` is replaced by some string. -/
inductive Fits : GoString → GoString → Prop
  | nil : Fits [] []
  | byte {c pat s} (hc : c ≠ star) (h : Fits pat s) : Fits (c :: pat) (c :: s)
  | wild {pat s} (fill : GoString) (h : Fits pat s) : Fits (star :: pat) (fill ++ s)

variable {pat pat' seg s t : GoString} {segs : List GoString}

theorem fits_nil : Fits [] s ↔ s = [] :=
  ⟨fun h => by cases h; rfl, fun h => h ▸ .nil⟩

theorem fits_append : Fits (pat ++ pat') s ↔ ∃ a b, s = a ++ b ∧ Fits pat a ∧ Fits pat' b := by
  induction pat generalizing s with
  | nil => simp [fits_nil]
  | cons c pat ih =>
    constructor
    · intro h
      cases h with
      | byte hc h =>
        obtain ⟨a, b, rfl, ha, hb⟩ := ih.mp h
        exact ⟨c :: a, b, rfl, .byte hc ha, hb⟩
      | wild fill h =>
        obtain ⟨a, b, rfl, ha, hb⟩ := ih.mp h
        exact ⟨fill ++ a, b, (List.append_assoc ..).symm, .wild fill ha, hb⟩
    · rintro ⟨a, b, rfl, ha, hb⟩
      cases ha with
      | byte hc ha => exact .byte hc (ih.mpr ⟨_, b, rfl, ha, hb⟩)
      | wild fill ha =>
        rw [List.append_assoc]
        exact .wild fill (ih.mpr ⟨_, b, rfl, ha, hb⟩)

theorem fits_literal (hseg : star ∉ seg) : Fits seg s ↔ s = seg := by
  induction seg generalizing s with
  | nil => exact fits_nil
  | cons c seg ih =>
    obtain ⟨hc, hseg⟩ := List.ne_and_not_mem_of_not_mem_cons hseg
    constructor
    · intro h
      cases h with
      | byte _ h => rw [(ih hseg).mp h]
      | wild fill h => exact absurd rfl hc
    · rintro rfl
      exact .byte hc.symm ((ih hseg).mpr rfl)

theorem fits_wild : Fits (star :: pat) s ↔ ∃ t, t <:+ s ∧ Fits pat t := by
  constructor
  · intro h
    cases h with
    | byte hc _ => exact absurd rfl hc
    | wild fill h => exact ⟨_, List.suffix_append .., h⟩
  · rintro ⟨t, ⟨fill, rfl⟩, h⟩
    exact .wild fill h

theorem fits_any (s : GoString) : Fits [star] s := fits_wild.mpr ⟨[], List.nil_suffix, .nil⟩

/-- The segments of a pattern occur in what fits it. -/
theorem isInfix_of_fits (h : Fits pat s) (hseg : seg ∈ pat.splitOn star) : seg <:+: s := by
  induction pat using splitOn_induction generalizing s with
  | one pat hpat =>
    rw [List.splitOn_eq_singleton hpat] at hseg
    rw [List.mem_singleton.mp hseg, (fits_literal hpat).mp h]
  | join xs ys _ ihx ihy =>
    rw [List.splitOn_append_cons_self] at hseg
    obtain ⟨a, b, rfl, ha, hb⟩ := fits_append.mp h
    rcases List.mem_append.mp hseg with hseg | hseg
    · exact (ihx ha hseg).trans (List.prefix_append ..).isInfix
    · obtain ⟨t, ht, hfits⟩ := fits_wild.mp hb
      exact (ihy hfits hseg).trans (ht.trans (List.suffix_append ..)).isInfix

/-- The first place of a segment is as good as any. -/
theorem fits_first (hseg : star ∉ seg) : Fits (star :: (seg ++ star :: pat)) s ↔
    ∃ i, index seg s = some i ∧ Fits (star :: pat) (s.drop (i + seg.length)) := by
  constructor
  · intro h
    obtain ⟨t, ⟨before, rfl⟩, ht⟩ := fits_wild.mp h
    obtain ⟨a, rest, rfl, ha, hrest⟩ := fits_append.mp ht
    rw [(fits_literal hseg).mp ha]
    obtain ⟨i, hi, hindex⟩ := index_le before seg rest
    obtain ⟨u, hu, hfits⟩ := fits_wild.mp hrest
    have hsuf := List.drop_suffix_drop_left (before ++ (seg ++ rest))
      (Nat.add_le_add_right hi seg.length)
    rw [← List.drop_drop, List.drop_left, List.drop_left] at hsuf
    exact ⟨i, hindex, fits_wild.mpr ⟨u, hu.trans hsuf, hfits⟩⟩
  · rintro ⟨i, hi, h⟩
    obtain ⟨before, hs⟩ := index_spec hi
    rw [List.append_assoc] at hs
    exact fits_wild.mpr ⟨_, ⟨before, hs.symm⟩,
      fits_append.mpr ⟨seg, _, rfl, (fits_literal hseg).mpr rfl, h⟩⟩

theorem globRest_splitOn : globRest (pat.splitOn star) s = true ↔ Fits (star :: pat) s := by
  induction pat using splitOn_induction generalizing s with
  | one seg hseg =>
    rw [List.splitOn_eq_singleton hseg, globRest, List.isSuffixOf_iff_suffix, fits_wild]
    simp [fits_literal hseg]
  | join seg pat hseg _ ih =>
    rw [List.splitOn_append_cons_self_of_not_mem hseg, fits_first hseg, globRest]
    · cases index seg s with
      | none => simp
      | some i => simpa using ih
    · exact fun h => List.splitOn_ne_nil _ _ h

theorem globMatch_iff : globMatch pat s = true ↔ Fits pat s := by
  unfold globMatch
  split
  next hpat => rw [fits_literal hpat, decide_eq_true_eq, eq_comm]
  next hpat =>
    obtain ⟨first, rest, rfl, hfirst⟩ := List.eq_append_cons_of_mem (not_not.mp hpat)
    rw [List.splitOn_append_cons_self_of_not_mem hfirst, fits_append]
    simp only [Bool.and_eq_true, List.isPrefixOf_iff_prefix, globRest_splitOn, fits_literal hfirst]
    constructor
    · rintro ⟨⟨t, rfl⟩, h⟩
      rw [List.drop_left] at h
      exact ⟨first, t, rfl, rfl, h⟩
    · rintro ⟨_, t, rfl, rfl, h⟩
      rw [List.drop_left]
      exact ⟨List.prefix_append .., h⟩

theorem inOrder_splitOn :
    inOrder (pat.splitOn star) s = true ↔ Fits (star :: (pat ++ [star])) s := by
  induction pat using splitOn_induction generalizing s with
  | one seg hseg =>
    rw [List.splitOn_eq_singleton hseg, fits_first hseg, inOrder]
    cases index seg s with
    | none => simp
    | some i => simp [inOrder, fits_any]
  | join seg pat hseg _ ih =>
    rw [List.splitOn_append_cons_self_of_not_mem hseg, List.append_assoc, List.cons_append,
      fits_first hseg, inOrder]
    cases index seg s with
    | none => simp
    | some i => simpa using ih

/-- An empty segment is found at once. -/
theorem inOrder_filter : inOrder (segs.filter (· ≠ [])) s = inOrder segs s := by
  induction segs generalizing s with
  | nil => rfl
  | cons seg segs ih =>
    by_cases hseg : seg = []
    · have hindex : index seg s = some 0 := by cases s <;> simp [index, hseg]
      rw [List.filter_cons_of_neg (by simpa using hseg), ih, inOrder, hindex]
      simp [hseg]
    · rw [List.filter_cons_of_pos (by simpa using hseg), inOrder, inOrder]
      cases index seg s with
      | none => rfl
      | some i => exact ih

theorem inOrder_splitWild :
    inOrder (splitWild pat) s = true ↔ ∃ sub, sub <:+: s ∧ Fits pat sub := by
  rw [splitWild, inOrder_filter, inOrder_splitOn, fits_wild]
  constructor
  · rintro ⟨t, ht, h⟩
    obtain ⟨sub, rest, rfl, hsub, -⟩ := fits_append.mp h
    exact ⟨sub, (List.prefix_append ..).isInfix.trans ht.isInfix, hsub⟩
  · rintro ⟨sub, ⟨before, rest, hs⟩, h⟩
    rw [List.append_assoc] at hs
    exact ⟨sub ++ rest, ⟨before, hs⟩, fits_append.mpr ⟨sub, rest, rfl, h, fits_any rest⟩⟩

def lowered (cm : CaseMap) (rs : List ℕ) : GoString := rs.flatMap (fun r => encodeRune (cm.lower r))

/-- Globs match whole strings, and searches find them in lower case. -/
theorem globs_exact {F : Type} (lib : Lib F) : (∀ pat s, globMatch pat s = true ↔ Fits pat s) ∧
      ∀ pat text : { rs : List ℕ // ∀ r ∈ rs, IsRune r },
        containsWild lib (encode text) (splitWild (toLower lib.case (encode pat))) = true ↔
          ∃ sub, sub <:+: lowered lib.case text ∧ Fits (lowered lib.case pat) sub := by
  refine ⟨fun _ _ => globMatch_iff, fun pat text => ?_⟩
  rw [containsWild_eq, toLower_encode _ text.2, toLower_encode _ pat.2]
  exact inOrder_splitWild

end Ozymandias.LogGlobs
