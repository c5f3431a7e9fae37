import Mathlib.Order.Lattice

/-!
The elements of a sequence that are later than all before them. An append-only
store that refuses what is not newer than its newest element holds exactly
these. What is dominated by an earlier element changes nothing, wherever it
stands, and refusing everything before a bound selects from the peaks.
-/

namespace Ozymandias.Peaks

variable {α τ : Type} [LinearOrder τ] (time : α → τ)

def Ascending (xs : List α) : Prop := xs.Pairwise (fun a b => time a < time b)

instance (xs : List α) : Decidable (Ascending time xs) :=
  inferInstanceAs (Decidable (xs.Pairwise _))

def push (xs : List α) (s : α) : List α :=
  match xs.getLast? with
  | some l => if time s ≤ time l then xs else xs ++ [s]
  | none => xs ++ [s]

def accept (m : τ) (xs : List α) (s : α) : List α := if time s < m then xs else push time xs s

def peaks (xs : List α) : List α := xs.foldl (push time) []

def Dominated (xs : List α) (s : α) : Prop := ∃ x ∈ xs, time s ≤ time x

variable {time} {m : τ} {s : α} {xs ys : List α}

theorem Ascending.le_last (h : Ascending time xs) {l : α} (hl : xs.getLast? = some l) :
    ∀ x ∈ xs, time x ≤ time l := by
  obtain ⟨front, rfl⟩ := List.getLast?_eq_some_iff.mp hl
  intro x hx
  rcases List.mem_append.mp hx with hx | hx
  · exact le_of_lt ((List.pairwise_append.mp h).2.2 x hx l (by simp))
  · rw [List.mem_singleton.mp hx]

theorem Ascending.head_le (h : Ascending time xs) {f : α} (hf : xs.head? = some f) :
    ∀ x ∈ xs, time f ≤ time x := by
  obtain ⟨rest, rfl⟩ := List.head?_eq_some_iff.mp hf
  intro x hx
  rcases List.mem_cons.mp hx with rfl | hx
  · exact le_rfl
  · exact le_of_lt ((List.pairwise_cons.mp h).1 x hx)

variable {χ : Type} {x : α}

/-- In a list of ascending pieces that ascends as a whole, every piece ascends. -/
theorem Ascending.of_mem_flatMap {items : χ → List α} {cs : List χ}
    (h : Ascending time (cs.flatMap items)) {c : χ} (hc : c ∈ cs) : Ascending time (items c) := by
  obtain ⟨before, after, rfl⟩ := List.append_of_mem hc
  rw [List.flatMap_append] at h
  exact (List.pairwise_append.mp (List.pairwise_append.mp h).2.1).1

/-- Reading a window piece by piece, without the pieces that lie outside it. -/
theorem flatMap_window (lo hi : χ → τ) (items : χ → List α) (cs : List χ)
    (hrange : ∀ c ∈ cs, ∀ x ∈ items c, lo c ≤ time x ∧ time x ≤ hi c) (start stop : τ) :
    (cs.filter (fun c => !(decide (hi c < start) || decide (stop < lo c)))).flatMap
        (fun c => (items c).filter (fun x => decide (start ≤ time x ∧ time x ≤ stop))) =
      (cs.flatMap items).filter (fun x => decide (start ≤ time x ∧ time x ≤ stop)) := by
  induction cs with
  | nil => rfl
  | cons c cs ih =>
    rw [List.flatMap_cons, List.filter_append, ← ih (List.forall_mem_cons.mp hrange).2]
    by_cases hout : hi c < start ∨ stop < lo c
    · have hnone : (items c).filter (fun x => decide (start ≤ time x ∧ time x ≤ stop)) = [] := by
        rw [List.filter_eq_nil_iff]
        intro x hx
        obtain ⟨hlo, hhi⟩ := hrange c List.mem_cons_self x hx
        simp only [decide_eq_true_eq, not_and, not_le]
        intro hstart
        rcases hout with h | h
        · exact absurd (le_trans hstart hhi) (not_le.mpr h)
        · exact lt_of_lt_of_le h hlo
      rw [List.filter_cons_of_neg (by rcases hout with h | h <;> simp [h]), hnone, List.nil_append]
    · rw [List.filter_cons_of_pos (by simpa using hout), List.flatMap_cons]

theorem push_of_dominated (h : Ascending time xs) (hd : Dominated time xs s) :
    push time xs s = xs := by
  obtain ⟨x, hx, hle⟩ := hd
  unfold push
  cases hlast : xs.getLast? with
  | none =>
    rw [List.getLast?_eq_none_iff.mp hlast] at hx
    cases hx
  | some l => exact if_pos (le_trans hle (h.le_last hlast x hx))

theorem push_of_not_dominated (hd : ¬ Dominated time xs s) :
    push time xs s = xs ++ [s] := by
  unfold push
  cases hlast : xs.getLast? with
  | none => rfl
  | some l => exact if_neg (fun hle => hd ⟨l, List.mem_of_getLast? hlast, hle⟩)

theorem not_dominated :
    ¬ Dominated time xs s ↔ ∀ x ∈ xs, time x < time s := by
  simp [Dominated]

theorem Ascending.append_singleton (h : Ascending time xs) (hs : ∀ x ∈ xs, time x < time s) :
    Ascending time (xs ++ [s]) := by
  refine List.pairwise_append.mpr ⟨h, List.pairwise_singleton _ _, ?_⟩
  intro x hx y hy
  rw [List.mem_singleton.mp hy]
  exact hs x hx

theorem ascending_concat_iff : Ascending time (xs ++ [s]) ↔
      Ascending time xs ∧ ∀ l, xs.getLast? = some l → time l < time s := by
  constructor
  · intro h
    obtain ⟨hxs, -, hlt⟩ := List.pairwise_append.mp h
    exact ⟨hxs, fun l hl => hlt l (List.mem_of_getLast? hl) s (by simp)⟩
  · rintro ⟨hxs, hlast⟩
    refine hxs.append_singleton (fun x hx => ?_)
    cases hl : xs.getLast? with
    | none =>
      rw [List.getLast?_eq_none_iff.mp hl] at hx
      cases hx
    | some l => exact lt_of_le_of_lt (hxs.le_last hl x hx) (hlast l hl)

theorem Ascending.push (h : Ascending time xs) (s : α) :
    Ascending time (push time xs s) := by
  by_cases hd : Dominated time xs s
  · rw [push_of_dominated h hd]
    exact h
  · rw [push_of_not_dominated hd]
    exact h.append_singleton (not_dominated.mp hd)

theorem Ascending.foldl_push (h : Ascending time xs) (ys : List α) :
    Ascending time (ys.foldl (Peaks.push time) xs) := by
  induction ys generalizing xs with
  | nil => exact h
  | cons y ys ih => exact ih (h.push y)

variable (time) in
theorem ascending_peaks (xs : List α) : Ascending time (peaks time xs) :=
  Ascending.foldl_push List.Pairwise.nil xs

theorem Ascending.filter (h : Ascending time xs) (p : α → Bool) :
    Ascending time (xs.filter p) := List.Pairwise.filter p h

/-- What is taken later is later than all there was, and was offered. -/
theorem foldl_push_eq (h : Ascending time xs) (ys : List α) :
    ∃ zs, ys.foldl (push time) xs = xs ++ zs ∧ ∀ z ∈ zs, z ∈ ys ∧ ∀ x ∈ xs, time x < time z := by
  induction ys generalizing xs with
  | nil => exact ⟨[], by simp, by simp⟩
  | cons y ys ih =>
    rw [List.foldl_cons]
    by_cases hd : Dominated time xs y
    · rw [push_of_dominated h hd]
      obtain ⟨zs, heq, hzs⟩ := ih h
      exact ⟨zs, heq, fun z hz => ⟨List.mem_cons_of_mem _ (hzs z hz).1, (hzs z hz).2⟩⟩
    · have hlt := not_dominated.mp hd
      rw [push_of_not_dominated hd]
      obtain ⟨zs, heq, hzs⟩ := ih (h.append_singleton hlt)
      refine ⟨y :: zs, by rw [heq]; simp, ?_⟩
      intro z hz
      rcases List.mem_cons.mp hz with rfl | hz
      · exact ⟨List.mem_cons_self, hlt⟩
      · exact ⟨List.mem_cons_of_mem _ (hzs z hz).1,
          fun x hx => (hzs z hz).2 x (List.mem_append_left _ hx)⟩

theorem peaks_append (xs ys : List α) :
    peaks time (xs ++ ys) = ys.foldl (push time) (peaks time xs) := by
  unfold peaks
  rw [List.foldl_append]

theorem peaks_grow (xs ys : List α) : peaks time xs <+: peaks time (xs ++ ys) := by
  obtain ⟨zs, heq, -⟩ := foldl_push_eq (ascending_peaks time xs) ys
  rw [peaks_append, heq]
  exact List.prefix_append _ _

theorem dominated_mono {zs : List α} (h : Dominated time xs s) :
    Dominated time (xs ++ zs) s := by
  obtain ⟨x, hx, hle⟩ := h
  exact ⟨x, List.mem_append_left _ hx, hle⟩

/-- Everything offered is dominated by what was taken. -/
theorem dominated_foldl_push (h : Ascending time xs) {y : α} (hy : y ∈ ys) :
    Dominated time (ys.foldl (push time) xs) y := by
  induction ys generalizing xs with
  | nil => cases hy
  | cons a ys ih =>
    rw [List.foldl_cons]
    rcases List.mem_cons.mp hy with rfl | hy
    · have htaken : Dominated time (push time xs y) y := by
        by_cases hd : Dominated time xs y
        · rwa [push_of_dominated h hd]
        · rw [push_of_not_dominated hd]
          exact ⟨y, by simp, le_rfl⟩
      obtain ⟨zs, heq, -⟩ := foldl_push_eq (h.push y) ys
      rw [heq]
      exact dominated_mono htaken
    · exact ih (h.push a) hy

variable (time) in
theorem dominated_peaks (hx : x ∈ xs) : Dominated time (peaks time xs) x :=
  dominated_foldl_push List.Pairwise.nil hx

theorem mem_of_mem_peaks (hx : x ∈ peaks time xs) : x ∈ xs := by
  have hnil : Ascending time ([] : List α) := List.Pairwise.nil
  obtain ⟨zs, heq, hzs⟩ := foldl_push_eq hnil xs
  have hx' : x ∈ zs := by
    rw [show peaks time xs = [] ++ zs from heq] at hx
    exact hx
  exact (hzs x hx').1

/-- Offering what is dominated changes nothing. -/
theorem foldl_push_of_dominated (h : Ascending time xs) (hd : ∀ y ∈ ys, Dominated time xs y) :
    ys.foldl (push time) xs = xs := by
  induction ys with
  | nil => rfl
  | cons y ys ih =>
    rw [List.foldl_cons, push_of_dominated h (hd y List.mem_cons_self)]
    exact ih (List.forall_mem_cons.mp hd).2

/-- Nothing offered is before the bound. -/
theorem foldl_accept_of_le (h : ∀ y ∈ ys, m ≤ time y) :
    ys.foldl (accept time m) xs = ys.foldl (push time) xs := by
  induction ys generalizing xs with
  | nil => rfl
  | cons y ys ih =>
    have hy : accept time m xs y = push time xs y :=
      if_neg (not_lt.mpr (h y List.mem_cons_self))
    rw [List.foldl_cons, List.foldl_cons, hy, ih (List.forall_mem_cons.mp h).2]

theorem accept_of_not_dominated (hm : m ≤ time s) (hd : ¬ Dominated time xs s) :
    accept time m xs s = xs ++ [s] := by
  unfold accept
  rw [if_neg (not_lt.mpr hm), push_of_not_dominated hd]

theorem accept_of_refused (h : Ascending time xs) (hs : ¬ (m ≤ time s ∧ ¬ Dominated time xs s)) :
    accept time m xs s = xs := by
  unfold accept
  split
  · rfl
  next hm =>
    exact push_of_dominated h (by_contra (fun hd => hs ⟨not_lt.mp hm, hd⟩))

/-- Refusing what is before a bound selects from what would be taken. -/
theorem filter_push (h : Ascending time xs) (m : τ) (s : α) :
    (push time xs s).filter (fun x => decide (m ≤ time x)) =
      accept time m (xs.filter (fun x => decide (m ≤ time x))) s := by
  unfold accept
  by_cases hm : time s < m
  · rw [if_pos hm]
    by_cases hd : Dominated time xs s
    · rw [push_of_dominated h hd]
    · rw [push_of_not_dominated hd]
      simp [not_le_of_gt hm]
  · rw [if_neg hm]
    by_cases hd : Dominated time xs s
    · have hd' : Dominated time (xs.filter (fun x => decide (m ≤ time x))) s := by
        obtain ⟨x, hx, hle⟩ := hd
        exact ⟨x, List.mem_filter.mpr ⟨hx, decide_eq_true (le_trans (not_lt.mp hm) hle)⟩, hle⟩
      rw [push_of_dominated h hd, push_of_dominated (h.filter _) hd']
    · have hd' : ¬ Dominated time (xs.filter (fun x => decide (m ≤ time x))) s := by
        rintro ⟨x, hx, hle⟩
        exact hd ⟨x, (List.mem_filter.mp hx).1, hle⟩
      rw [push_of_not_dominated hd, push_of_not_dominated hd']
      simp [not_lt.mp hm]

theorem filter_foldl_push (h : Ascending time xs) (m : τ) (ys : List α) :
    (ys.foldl (push time) xs).filter (fun x => decide (m ≤ time x)) =
      ys.foldl (accept time m) (xs.filter (fun x => decide (m ≤ time x))) := by
  induction ys generalizing xs with
  | nil => rfl
  | cons y ys ih => rw [List.foldl_cons, List.foldl_cons, ih (h.push y), filter_push h]

end Ozymandias.Peaks
