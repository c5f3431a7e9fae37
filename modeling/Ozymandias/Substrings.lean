import Mathlib.Data.List.Infix

/-!
Searching in lists: the first place where a list occurs in another, and the
pieces between separators. Splitting commutes with concatenation at a
separator, and a piece of an image lies in the image of a piece.
-/

namespace Ozymandias.Substrings

variable {α β : Type} [DecidableEq α]

def index (needle : List α) : List α → Option ℕ
  | [] => if needle = [] then some 0 else none
  | a :: s =>
    if needle.isPrefixOf (a :: s) then some 0 else (index needle s).map (· + 1)

variable {c : α} {xs : List α} {i : ℕ} {needle s : List α} {d : β} {g : α → List β}

/-- Cut at the place found: the needle stands there, and what is left follows it. -/
theorem index_spec (h : index needle s = some i) :
    ∃ before, s = before ++ needle ++ s.drop (i + needle.length) := by
  induction s generalizing i with
  | nil =>
    unfold index at h
    obtain ⟨hnil, rfl⟩ := Option.ite_some_none_eq_some.mp h
    exact ⟨[], by simp [hnil]⟩
  | cons a s ih =>
    unfold index at h
    split at h
    next hpre =>
      obtain rfl := Option.some.inj h
      obtain ⟨rest, hrest⟩ := List.isPrefixOf_iff_prefix.mp hpre
      refine ⟨[], ?_⟩
      rw [← hrest, Nat.zero_add, List.drop_left, List.nil_append]
    next =>
      obtain ⟨j, hj, rfl⟩ := Option.map_eq_some_iff.mp h
      obtain ⟨before, hs⟩ := ih hj
      refine ⟨a :: before, ?_⟩
      have hdrop : (a :: s).drop (j + 1 + needle.length) = s.drop (j + needle.length) := by
        rw [Nat.add_right_comm]
        rfl
      rw [hdrop, List.cons_append, List.cons_append, ← hs]

/-- The place found is not behind any other. -/
theorem index_le (before needle rest : List α) :
    ∃ i ≤ before.length, index needle (before ++ (needle ++ rest)) = some i := by
  induction before with
  | nil =>
    refine ⟨0, le_rfl, ?_⟩
    cases hs : needle ++ rest with
    | nil => simp [index, (List.append_eq_nil_iff.mp hs).1]
    | cons a s =>
      have hpre : needle.isPrefixOf (a :: s) = true :=
        List.isPrefixOf_iff_prefix.mpr ⟨rest, hs⟩
      rw [List.nil_append, index, if_pos hpre]
  | cons a before ih =>
    obtain ⟨i, hi, hindex⟩ := ih
    rw [List.cons_append, index, hindex]
    split
    · exact ⟨0, Nat.zero_le _, rfl⟩
    · exact ⟨i + 1, Nat.succ_le_succ hi, rfl⟩

/-- A proof for lists without the separator, and one for two lists joined by it. -/
theorem splitOn_induction {motive : List α → Prop} (one : ∀ xs, c ∉ xs → motive xs)
    (join : ∀ xs ys, c ∉ xs → motive xs → motive ys → motive (xs ++ c :: ys)) (xs : List α) :
    motive xs := by
  induction hn : xs.length using Nat.strong_induction_on generalizing xs with
  | _ n ih =>
    by_cases hc : c ∈ xs
    · obtain ⟨s, t, rfl, hs⟩ := List.eq_append_cons_of_mem hc
      rw [List.length_append, List.length_cons] at hn
      exact join s t hs (ih s.length (by omega) s rfl) (ih t.length (by omega) t rfl)
    · exact one xs hc

theorem isInfix_of_mem_splitOn {piece : List α} (h : piece ∈ xs.splitOn c) :
    piece <:+: xs := by
  induction xs using splitOn_induction with
  | one xs hc =>
    rw [List.splitOn_eq_singleton hc] at h
    rw [List.mem_singleton.mp h]
  | join xs ys _ ihx ihy =>
    rw [List.splitOn_append_cons_self] at h
    rcases List.mem_append.mp h with h | h
    · exact (ihx h).trans (List.prefix_append _ _).isInfix
    · exact (ihy h).trans ⟨xs ++ [c], [], by simp⟩

variable [DecidableEq β]

/-- Splitting an image, when only the separator's image has the other separator in it. -/
theorem splitOn_flatMap (hc : g c = [d]) (hg : ∀ x ∈ xs, x ≠ c → d ∉ g x) :
    (xs.flatMap g).splitOn d = (xs.splitOn c).map (List.flatMap g) := by
  induction xs using splitOn_induction with
  | one xs hnot =>
    have hd : d ∉ xs.flatMap g := by
      intro hmem
      obtain ⟨x, hx, hdx⟩ := List.mem_flatMap.mp hmem
      exact hg x hx (fun heq => hnot (heq ▸ hx)) hdx
    rw [List.splitOn_eq_singleton hd, List.splitOn_eq_singleton hnot]
    rfl
  | join xs ys _ ihx ihy =>
    rw [List.flatMap_append, List.flatMap_cons, hc, List.singleton_append,
      List.splitOn_append_cons_self,
      List.splitOn_append_cons_self, List.map_append, ihx (fun x hx => hg x (by simp [hx])),
      ihy (fun x hx => hg x (by simp [hx]))]

/-- A piece of an image lies in the image of a piece. -/
theorem piece_of_flatMap (hc : g c = [d]) {piece : List β} (h : piece ∈ (xs.flatMap g).splitOn d) :
    ∃ part ∈ xs.splitOn c, piece <:+: part.flatMap g := by
  induction xs using splitOn_induction with
  | one xs hnot =>
    rw [List.splitOn_eq_singleton hnot]
    exact ⟨xs, List.mem_singleton.mpr rfl, isInfix_of_mem_splitOn h⟩
  | join xs ys _ ihx ihy =>
    rw [List.flatMap_append, List.flatMap_cons, hc, List.singleton_append,
      List.splitOn_append_cons_self] at h
    rw [List.splitOn_append_cons_self]
    rcases List.mem_append.mp h with h | h
    · obtain ⟨part, hpart, hin⟩ := ihx h
      exact ⟨part, List.mem_append_left _ hpart, hin⟩
    · obtain ⟨part, hpart, hin⟩ := ihy h
      exact ⟨part, List.mem_append_right _ hpart, hin⟩

section Spans

variable {α : Type} {p : α → Bool} {v r : List α}

theorem stop_cons {c : α} (h : p c = false) (r : List α) :
    ∀ d, (c :: r).head? = some d → p d = false := by
  intro d hd
  rw [← Option.some.inj hd]
  exact h

/-- A span ends where its piece does, if what follows is not of the kind. -/
theorem takeWhile_append_stop (hv : ∀ c ∈ v, p c = true)
    (hr : ∀ c, r.head? = some c → p c = false) :
    (v ++ r).takeWhile p = v := by
  rw [List.takeWhile_append_of_pos hv]
  cases r with
  | nil => rw [List.takeWhile_nil, List.append_nil]
  | cons c r => rw [List.takeWhile_cons_of_neg (by simp [hr c rfl]), List.append_nil]

theorem dropWhile_append_stop (hv : ∀ c ∈ v, p c = true)
    (hr : ∀ c, r.head? = some c → p c = false) :
    (v ++ r).dropWhile p = r := by
  rw [List.dropWhile_append_of_pos hv]
  cases r with
  | nil => rfl
  | cons c r => exact List.dropWhile_cons_of_neg (by simp [hr c rfl])

end Spans

end Ozymandias.Substrings
