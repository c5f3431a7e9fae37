import Ozymandias.Peaks
import Mathlib.Data.List.Destutter
import Mathlib.Data.List.Sort

/-!
Merging sequences by time. A sequence is sorted by a stable sort and the first
element of every time is kept; the result is the ascending list of the elements
that no earlier one shares its time with. The single pass that keeps only what
is later than everything kept gives the same list exactly if nothing arrives
late at a time of its own.
-/

namespace Ozymandias.TimeMerge

open Peaks

variable {α τ : Type} [LinearOrder τ] (time : α → τ)

def sortBy (xs : List α) : List α := xs.insertionSort (Order.Preimage time (· ≤ ·))

def firsts (xs : List α) : List α := (sortBy time xs).destutter (fun a b => time a ≠ time b)

def firstAt (xs : List α) (t : τ) : Option α := xs.find? (fun y => decide (time y = t))

variable {time} {x : α} {xs : List α}

theorem ascending_ext {ys : List α} (hx : Ascending time xs) (hy : Ascending time ys)
    (h : ∀ x, x ∈ xs ↔ x ∈ ys) : xs = ys := by
  exact List.Pairwise.eq_of_mem_iff hx hy h

theorem eq_of_time_eq (h : Ascending time xs) {y : α} (hx : x ∈ xs) (hy : y ∈ xs)
    (ht : time x = time y) : x = y := by
  have hnodup : (xs.map time).Nodup :=
    List.pairwise_map.mpr (h.imp ne_of_lt)
  exact List.inj_on_of_nodup_map hnodup hx hy ht

theorem firstAt_time {t : τ} (h : firstAt time xs t = some x) : x ∈ xs ∧ time x = t :=
  ⟨List.mem_of_find?_eq_some h, by simpa using List.find?_some h⟩

variable (time) in
/-- Something at a time means a first one there. -/
theorem exists_firstAt (hx : x ∈ xs) :
    ∃ y, firstAt time xs (time x) = some y ∧ time y = time x := by
  cases hfirst : firstAt time xs (time x) with
  | none =>
    have hno := List.find?_eq_none.mp hfirst x hx
    simp at hno
  | some y => exact ⟨y, rfl, (firstAt_time hfirst).2⟩

theorem firstAt_filter (xs : List α) (t : τ) :
    firstAt time xs t = (xs.filter (fun y => decide (time y = t))).head? := by
  exact (List.head?_filter).symm

variable (time) in
theorem pairwise_sortBy (xs : List α) : (sortBy time xs).Pairwise (fun a b => time a ≤ time b) :=
  List.pairwise_insertionSort (Order.Preimage time (· ≤ ·)) xs

theorem mem_sortBy : x ∈ sortBy time xs ↔ x ∈ xs := List.mem_insertionSort _

theorem sortBy_of_ascending (h : Ascending time xs) : sortBy time xs = xs :=
  List.Pairwise.insertionSort_eq (h.imp (fun hlt => le_of_lt hlt))

/-- Elements of different times are sorted strictly. -/
theorem ascending_sortBy (h : (xs.map time).Nodup) :
    Ascending time (sortBy time xs) := by
  have hperm : ((sortBy time xs).map time).Perm (xs.map time) :=
    (List.perm_insertionSort _ xs).map time
  have hne : (sortBy time xs).Pairwise (fun a b => time a ≠ time b) :=
    List.pairwise_map.mp (hperm.nodup_iff.mpr h)
  exact (pairwise_sortBy time xs).imp₂ (fun _ _ hle hne => lt_of_le_of_ne hle hne) hne

/-- The sort is stable: the elements of one time are the same list. -/
theorem firstAt_sortBy (xs : List α) (t : τ) :
    firstAt time (sortBy time xs) t = firstAt time xs t := by
  have hperm : (sortBy time xs).Perm xs := List.perm_insertionSort _ xs
  have hpair : (xs.filter (fun y => decide (time y = t))).Pairwise
    (Order.Preimage time (· ≤ ·)) := by
    refine List.pairwise_of_forall_mem_list ?_
    intro a ha b hb
    have hat : time a = t := by simpa using (List.mem_filter.mp ha).2
    have hbt : time b = t := by simpa using (List.mem_filter.mp hb).2
    exact le_of_eq (hat.trans hbt.symm)
  have hsub : (xs.filter (fun y => decide (time y = t))).Sublist
      ((sortBy time xs).filter (fun y => decide (time y = t))) := by
    have hstable := (List.sublist_insertionSort hpair List.filter_sublist).filter
      (fun y => decide (time y = t))
    rwa [List.filter_filter, List.filter_congr (fun y _ => Bool.and_self _)] at hstable
  rw [firstAt_filter, firstAt_filter, hsub.eq_of_length (hperm.filter _).length_eq.symm]

/-- In a sorted list, the first of each run are the first elements of their times. -/
theorem mem_destutter_sorted {l : List α} {a : α}
    (h : (a :: l).Pairwise (fun a b => time a ≤ time b)) (x : α) :
    x ∈ l.destutter' (fun a b => time a ≠ time b) a ↔ firstAt time (a :: l) (time x) = some x := by
  induction l generalizing a with
  | nil =>
    rw [List.destutter'_nil, List.mem_singleton]
    unfold firstAt
    by_cases hax : time a = time x
    · simp [hax, eq_comm]
    · simp only [List.find?_cons, hax, decide_false, List.find?_nil, reduceCtorEq, iff_false]
      rintro rfl
      exact hax rfl
  | cons b l ih =>
    have hsorted := (List.pairwise_cons.mp h).2
    by_cases hab : time a ≠ time b
    · rw [List.destutter'_cons_pos l hab, List.mem_cons, ih hsorted]
      unfold firstAt
      by_cases hax : time a = time x
      · have hlater : List.find? (fun y => decide (time y = time x)) (b :: l) = none := by
          rw [List.find?_eq_none]
          intro y hy
          have hle : time b ≤ time y := by
            rcases List.mem_cons.mp hy with rfl | hy
            · exact le_rfl
            · exact (List.pairwise_cons.mp hsorted).1 y hy
          have hlt : time a < time b :=
            lt_of_le_of_ne ((List.pairwise_cons.mp h).1 b List.mem_cons_self) hab
          rw [← hax]
          simpa using ne_of_gt (lt_of_lt_of_le hlt hle)
        rw [hlater]
        simp [hax, eq_comm]
      · have hne : x ≠ a := by
          rintro rfl
          exact hax rfl
        simp [hne, hax]
    · have heq : time a = time b := not_not.mp hab
      have hskip : (a :: l).Pairwise (fun a b => time a ≤ time b) :=
        h.sublist (List.Sublist.cons_cons a (List.sublist_cons_self b l))
      rw [List.destutter'_cons_neg l hab, ih hskip]
      unfold firstAt
      by_cases hax : time a = time x
      · simp [hax]
      · have hbx : time b ≠ time x := heq ▸ hax
        simp [hbx]

theorem mem_firsts :
    x ∈ firsts time xs ↔ firstAt time xs (time x) = some x := by
  rw [← firstAt_sortBy]
  unfold firsts
  have hsorted := pairwise_sortBy time xs
  cases hs : sortBy time xs with
  | nil => simp [firstAt]
  | cons a l =>
    rw [hs] at hsorted
    exact mem_destutter_sorted hsorted x

theorem isChain_lt {l : List α} (hle : l.IsChain (fun a b => time a ≤ time b))
    (hne : l.IsChain (fun a b => time a ≠ time b)) : l.IsChain (fun a b => time a < time b) := by
  induction hle with
  | nil => exact .nil
  | singleton => exact .singleton _
  | cons_cons hab _ ih =>
    cases hne with
    | cons_cons hab' hne => exact .cons_cons (lt_of_le_of_ne hab hab') (ih hne)

variable (time) in
theorem ascending_firsts (xs : List α) : Ascending time (firsts time xs) := by
  have hle : (firsts time xs).Pairwise (fun a b => time a ≤ time b) :=
    (pairwise_sortBy time xs).sublist (List.destutter_sublist _ _)
  have hne : (firsts time xs).IsChain (fun a b => time a ≠ time b) := List.isChain_destutter _ _
  exact List.isChain_iff_pairwise.mp (isChain_lt hle.isChain hne)

theorem mem_of_mem_firsts (hx : x ∈ firsts time xs) : x ∈ xs :=
  (firstAt_time (mem_firsts.mp hx)).1

/-- Where equal times mean equal elements, nothing is lost. -/
theorem mem_firsts_of_consistent (h : ∀ x ∈ xs, ∀ y ∈ xs, time x = time y → x = y) :
    x ∈ firsts time xs ↔ x ∈ xs := by
  refine ⟨mem_of_mem_firsts, fun hx => ?_⟩
  obtain ⟨y, hy, hyt⟩ := exists_firstAt time hx
  rw [mem_firsts, hy, h y (firstAt_time hy).1 x hx hyt]

theorem firsts_of_ascending (h : Ascending time xs) : firsts time xs = xs :=
  ascending_ext (ascending_firsts time xs) h
    (fun _ => mem_firsts_of_consistent (fun _ hx _ hy ht => eq_of_time_eq h hx hy ht))

/-- A window on the times can be taken before or after. -/
theorem filter_firsts (p : τ → Bool) (xs : List α) :
    (firsts time xs).filter (fun x => p (time x)) = firsts time
      (xs.filter (fun x => p (time x))) := by
  refine ascending_ext ((ascending_firsts time xs).filter _) (ascending_firsts time _) ?_
  intro x
  rw [List.mem_filter, mem_firsts, mem_firsts, firstAt_filter, firstAt_filter, List.filter_filter]
  by_cases hp : p (time x) = true
  · have hsame : xs.filter (fun y => decide (time y = time x) && p (time y)) =
        xs.filter (fun y => decide (time y = time x)) := by
      refine List.filter_congr (fun y _ => ?_)
      by_cases ht : time y = time x <;> simp [ht, hp]
    rw [hsame]
    exact and_iff_left hp
  · have hnone : xs.filter (fun y => decide (time y = time x) && p (time y)) = [] := by
      rw [List.filter_eq_nil_iff]
      intro y _
      by_cases ht : time y = time x <;> simp [ht, hp]
    rw [hnone]
    simp [hp]

/-- Whatever arrives late comes at a time that was there before. -/
def NoneLate (time : α → τ) (xs : List α) : Prop :=
  ∀ before x after, xs = before ++ x :: after → Dominated time before x →
    ∃ y ∈ before, time y = time x

theorem firstAt_append (xs ys : List α) (t : τ) :
    firstAt time (xs ++ ys) t = (firstAt time xs t).or (firstAt time ys t) := List.find?_append ..

/-- A peak is the first of its time. -/
theorem mem_firsts_of_mem_peaks (hx : x ∈ peaks time xs) :
    x ∈ firsts time xs := by
  rw [mem_firsts]
  induction xs using List.reverseRecOn with
  | nil => cases hx
  | append_singleton xs y ih =>
    rw [firstAt_append]
    rw [peaks_append, List.foldl_cons] at hx
    by_cases hd : Dominated time (peaks time xs) y
    · rw [push_of_dominated (ascending_peaks time xs) hd] at hx
      rw [ih hx, Option.some_or]
    · rw [push_of_not_dominated hd] at hx
      rcases List.mem_append.mp hx with hx | hx
      · rw [ih hx, Option.some_or]
      · rw [List.mem_singleton.mp hx]
        have hnone : firstAt time xs (time y) = none := by
          unfold firstAt
          rw [List.find?_eq_none]
          intro z hz
          obtain ⟨p, hp, hle⟩ := dominated_peaks time hz
          have hlt := not_dominated.mp hd p hp
          simpa using ne_of_lt (lt_of_le_of_lt hle hlt)
        rw [hnone]
        simp [firstAt]

/-- The peaks miss exactly what arrives late at a time of its own. -/
theorem peaks_eq_firsts_iff (xs : List α) : peaks time xs = firsts time xs ↔ NoneLate time xs := by
  constructor
  · intro heq before x after hsplit hd
    by_contra hno
    have hfirst : x ∈ firsts time xs := by
      rw [mem_firsts, hsplit, firstAt_append]
      have hnone : firstAt time before (time x) = none := by
        unfold firstAt
        rw [List.find?_eq_none]
        intro y hy
        simpa using fun ht => hno ⟨y, hy, ht⟩
      rw [hnone]
      simp [firstAt]
    rw [← heq, hsplit, peaks_append, List.foldl_cons] at hfirst
    obtain ⟨y, hy, hle⟩ := hd
    obtain ⟨p, hp, hyp⟩ := dominated_peaks time hy
    have hdrop : Dominated time (peaks time before) x := ⟨p, hp, le_trans hle hyp⟩
    rw [push_of_dominated (ascending_peaks time before) hdrop] at hfirst
    obtain ⟨zs, hzs, hlater⟩ := foldl_push_eq (ascending_peaks time before) after
    rw [hzs] at hfirst
    rcases List.mem_append.mp hfirst with hx | hx
    · exact hno ⟨x, mem_of_mem_peaks hx, rfl⟩
    · exact absurd ((hlater x hx).2 p hp) (not_lt.mpr (le_trans hle hyp))
  · intro hlate
    refine ascending_ext (ascending_peaks time xs) (ascending_firsts time xs) ?_
    refine fun x => ⟨mem_firsts_of_mem_peaks, fun hx => ?_⟩
    have hfirst := mem_firsts.mp hx
    obtain ⟨before, after, hsplit, hbefore⟩ := List.find?_eq_some_iff_append.mp hfirst |>.2
    have hnew : ¬ Dominated time (peaks time before) x := by
      rintro ⟨p, hp, hle⟩
      obtain ⟨y, hy, ht⟩ := hlate before x after hsplit ⟨p, mem_of_mem_peaks hp, hle⟩
      have := hbefore y hy
      simp [ht] at this
    rw [hsplit, peaks_append, List.foldl_cons, push_of_not_dominated hnew]
    obtain ⟨zs, hzs, -⟩ := foldl_push_eq
      ((ascending_peaks time before).append_singleton (not_dominated.mp hnew)) after
    rw [hzs]
    simp

end Ozymandias.TimeMerge
