import Mathlib.Data.List.Basic

/-!
First occurrences of a list. Two lists with the same first occurrences are the
same sequence up to repetitions; what is repeated later changes nothing.
Selecting elements commutes with taking first occurrences.
-/

namespace Ozymandias.FirstOccurrence

variable {α : Type} [DecidableEq α] {as bs : List α} {p : α → Bool}

theorem filter_eraseDups (p : α → Bool) (as : List α) :
    as.eraseDups.filter p = (as.filter p).eraseDups := by
  induction hn : as.length using Nat.strongRecOn generalizing as with
  | ind n ih =>
    cases as with
    | nil => rfl
    | cons a as =>
      have hlt : (as.filter (fun b => !b == a)).length < n := by
        rw [← hn]
        exact Nat.lt_succ_of_le (List.length_filter_le _ _)
      have hrec := ih _ hlt (as.filter (fun b => !b == a)) rfl
      rw [List.eraseDups_cons]
      cases hp : p a with
      | true =>
        rw [List.filter_cons_of_pos hp, List.filter_cons_of_pos hp, List.eraseDups_cons, hrec,
          List.filter_filter, List.filter_filter]
        simp only [Bool.and_comm]
      | false =>
        have hne : ¬ p a = true := by simp [hp]
        rw [List.filter_cons_of_neg hne, List.filter_cons_of_neg hne, hrec, List.filter_filter]
        congr 1
        apply List.filter_congr
        intro b _
        by_cases hb : b = a
        · simp [hb, hp]
        · simp [hb]

theorem eraseDups_append_eq (as bs : List α) :
    (as ++ bs).eraseDups = as.eraseDups ++ bs.eraseDups.filter (fun b => !as.contains b) := by
  rw [List.eraseDups_append, filter_eraseDups]
  rfl

/-- Repeating what was there already changes nothing. -/
theorem eraseDups_append_of_subset (h : ∀ b ∈ bs, b ∈ as) :
    (as ++ bs).eraseDups = as.eraseDups := by
  have hnone : bs.eraseDups.filter (fun b => !as.contains b) = [] := by
    apply List.filter_eq_nil_iff.mpr
    intro b hb
    simpa using h b (List.mem_eraseDups.mp hb)
  rw [eraseDups_append_eq, hnone, List.append_nil]

theorem eraseDups_append_congr (h : as.eraseDups = bs.eraseDups) (cs : List α) :
    (as ++ cs).eraseDups = (bs ++ cs).eraseDups := by
  rw [eraseDups_append_eq, eraseDups_append_eq]
  congr 1
  apply List.filter_congr
  intro c _
  have hmem : c ∈ as ↔ c ∈ bs := by rw [← List.mem_eraseDups, h, List.mem_eraseDups]
  simp [hmem]

/-- The same sequence up to repetitions, as far as `p` selects it. -/
def SameFirsts (p : α → Bool) (as bs : List α) : Prop :=
  (as.filter p).eraseDups = (bs.filter p).eraseDups

theorem SameFirsts.mem_iff (h : SameFirsts p as bs) (a : α) (ha : p a = true) :
    a ∈ as ↔ a ∈ bs := by
  have hmem : a ∈ (as.filter p).eraseDups ↔ a ∈ (bs.filter p).eraseDups := by rw [h]
  simpa [ha] using hmem

theorem SameFirsts.trans {cs : List α} (h : SameFirsts p as bs) (h' : SameFirsts p bs cs) :
    SameFirsts p as cs := Eq.trans h h'

theorem SameFirsts.append (h : SameFirsts p as bs) (cs : List α) :
    SameFirsts p (as ++ cs) (bs ++ cs) := by
  unfold SameFirsts
  rw [List.filter_append, List.filter_append]
  exact eraseDups_append_congr h _

/-- What was there already, or is not selected, can be added. -/
theorem sameFirsts_append_kept {more : List α} (h : ∀ x ∈ more, p x = true → x ∈ as) :
    SameFirsts p as (as ++ more) := by
  have hsub : ∀ x ∈ more.filter p, x ∈ as.filter p := by
    intro x hx
    obtain ⟨hmem, hp⟩ := List.mem_filter.mp hx
    exact List.mem_filter.mpr ⟨h x hmem hp, hp⟩
  unfold SameFirsts
  rw [List.filter_append, eraseDups_append_of_subset hsub]

/-- Copies behind the sequence are not seen. -/
theorem SameFirsts.append_subset {ds : List α} (h : SameFirsts p as bs) (hd : ∀ d ∈ ds, d ∈ bs) :
    SameFirsts p (as ++ ds) bs := by
  have hold : SameFirsts p as (as ++ ds) :=
    sameFirsts_append_kept (fun d hd' hp => (h.mem_iff d hp).mpr (hd d hd'))
  exact (Eq.symm hold).trans h

end Ozymandias.FirstOccurrence
