import Mathlib.Data.List.Nodup
import Mathlib.Data.Nat.Basic
import Mathlib.Order.Basic

/-!
A set of numbered files, kept as the ascending list a directory listing gives.
The order is part of the type. Writing a file replaces the one with its number
or goes between its neighbours; contents can be mapped, and every operation
commutes with that.
-/

namespace Ozymandias.NumberedFiles

@[ext]
structure Files (γ : Type) where
  entries : List (ℕ × γ)
  ordered : entries.Pairwise (fun a b => a.1 < b.1)

variable {γ δ : Type}

def Files.empty : Files γ := ⟨[], List.Pairwise.nil⟩

def Files.numbers (f : Files γ) : List ℕ := f.entries.map Prod.fst

def Files.contents (f : Files γ) : List γ := f.entries.map Prod.snd

def Files.find (n : ℕ) (f : Files γ) : Option γ :=
  (f.entries.find? (fun e => e.1 == n)).map Prod.snd

def Files.keep (p : ℕ → Bool) (f : Files γ) : Files γ :=
  ⟨f.entries.filter (fun e => p e.1), f.ordered.filter _⟩

def Files.put (n : ℕ) (c : γ) (f : Files γ) : Files γ where
  entries := f.entries.filter (fun e => e.1 < n) ++ (n, c) :: f.entries.filter (fun e => n < e.1)
  ordered := by
    rw [List.pairwise_append, List.pairwise_cons]
    refine ⟨f.ordered.filter _, ⟨?_, f.ordered.filter _⟩, ?_⟩
    · intro b hb
      exact of_decide_eq_true (List.mem_filter.mp hb).2
    · intro a ha b hb
      have han : a.1 < n := of_decide_eq_true (List.mem_filter.mp ha).2
      rcases List.mem_cons.mp hb with rfl | hb
      · exact han
      · exact Nat.lt_trans han (of_decide_eq_true (List.mem_filter.mp hb).2)

def Files.remove (n : ℕ) (f : Files γ) : Files γ := f.keep (fun m => m != n)

def Files.map (g : γ → δ) (f : Files γ) : Files δ where
  entries := f.entries.map (fun e => (e.1, g e.2))
  ordered := List.pairwise_map.mpr f.ordered

def Files.last (f : Files γ) : Option (ℕ × γ) := f.entries.getLast?

theorem Files.entries_keep (p : ℕ → Bool) (f : Files γ) :
    (f.keep p).entries = f.entries.filter (fun e => p e.1) := rfl

variable (g : γ → δ)

theorem Files.map_keep (p : ℕ → Bool) (f : Files γ) : (f.keep p).map g = (f.map g).keep p := by
  simp only [Files.map, Files.keep, List.filter_map]
  rfl

variable (n : ℕ) (f : Files γ)

theorem Files.map_remove : (f.remove n).map g = (f.map g).remove n := f.map_keep g _

theorem Files.map_put (c : γ) (f : Files γ) : (f.put n c).map g = (f.map g).put n (g c) := by
  simp only [Files.map, Files.put, List.filter_map, List.map_append]
  rfl

theorem Files.find_map : (f.map g).find n = (f.find n).map g := by
  simp only [Files.find, Files.map, List.find?_map, Option.map_map]
  rfl

theorem Files.last_map : (f.map g).last = f.last.map (fun e => (e.1, g e.2)) := by
  simp only [Files.last, Files.map, List.getLast?_map]

theorem Files.map_map {ε : Type} (k : δ → ε) (f : Files γ) :
    (f.map g).map k = f.map (fun c => k (g c)) := by
  simp [Files.map]

/-- Two files of one number are one file. -/
theorem Files.eq_of_mem {a b : ℕ × γ} (ha : a ∈ f.entries) (hb : b ∈ f.entries)
    (hn : a.1 = b.1) : a = b := by
  have hnodup : (f.entries.map Prod.fst).Nodup := List.pairwise_map.mpr (f.ordered.imp ne_of_lt)
  exact List.inj_on_of_nodup_map hnodup ha hb hn

theorem Files.find_eq_some_iff {n : ℕ} {c : γ} {f : Files γ} :
    f.find n = some c ↔ (n, c) ∈ f.entries := by
  unfold Files.find
  constructor
  · intro h
    obtain ⟨e, he, rfl⟩ := Option.map_eq_some_iff.mp h
    have hn : e.1 = n := by simpa using List.find?_some he
    subst hn
    exact List.mem_of_find?_eq_some he
  · intro h
    cases hf : f.entries.find? (fun e => e.1 == n) with
    | none => exact absurd (List.find?_eq_none.mp hf _ h) (by simp)
    | some e =>
      have hn : e.1 = n := by simpa using List.find?_some hf
      have hmem := List.mem_of_find?_eq_some hf
      rw [f.eq_of_mem hmem h hn]
      rfl

/-- No number passes a test that all of them fail. -/
theorem filter_none {P : ℕ → Prop} [DecidablePred P] {es : List (ℕ × γ)} (h : ∀ e ∈ es, ¬P e.1) :
    es.filter (fun e => decide (P e.1)) = [] :=
  List.filter_eq_nil_iff.mpr (fun e he => by simpa using h e he)

theorem filter_lt_gt (es : List (ℕ × γ)) :
    es.filter (fun e => decide (e.1 < n) && decide (n < e.1)) = [] := by
  apply List.filter_eq_nil_iff.mpr
  intro e _
  simp
  omega

theorem Files.put_put (a b : γ) (f : Files γ) : (f.put n a).put n b = f.put n b := by
  have hnone := filter_lt_gt n f.entries
  have hnone' : f.entries.filter (fun e => decide (n < e.1) && decide (e.1 < n)) = [] := by
    simp only [Bool.and_comm] at hnone ⊢
    exact hnone
  simp [Files.put, hnone, hnone']

/-- A file newer than all others goes to the end. -/
theorem Files.entries_put_newest (c : γ) (f : Files γ) (hn : ∀ e ∈ f.entries, e.1 < n) :
    (f.put n c).entries = f.entries ++ [(n, c)] := by
  have hbelow : f.entries.filter (fun e => decide (e.1 < n)) = f.entries :=
    List.filter_eq_self.mpr (fun e he => decide_eq_true (hn e he))
  have habove : f.entries.filter (fun e => decide (n < e.1)) = [] :=
    filter_none (fun e he => (hn e he).not_gt)
  simp only [Files.put, hbelow, habove]

/-- Rewriting a file changes its contents only. -/
theorem Files.entries_put_at (c old : γ) (f : Files γ) (front back : List (ℕ × γ))
    (hf : f.entries = front ++ (n, old) :: back) :
    (f.put n c).entries = front ++ (n, c) :: back := by
  have hord := f.ordered
  rw [hf, List.pairwise_append, List.pairwise_cons] at hord
  have hfront : ∀ e ∈ front, e.1 < n := fun e he => hord.2.2 e he (n, old) List.mem_cons_self
  have hback : ∀ e ∈ back, n < e.1 := hord.2.1.1
  have hbelow : front.filter (fun e => decide (e.1 < n)) = front ∧
      back.filter (fun e => decide (e.1 < n)) = [] := by
    refine ⟨List.filter_eq_self.mpr (fun e he => decide_eq_true (hfront e he)), ?_⟩
    exact filter_none (P := (· < n)) (fun e he => (hback e he).not_gt)
  have habove : front.filter (fun e => decide (n < e.1)) = [] ∧
      back.filter (fun e => decide (n < e.1)) = back := by
    refine ⟨?_, List.filter_eq_self.mpr (fun e he => decide_eq_true (hback e he))⟩
    exact filter_none (fun e he => (hfront e he).not_gt)
  simp only [Files.put, hf, List.filter_append, habove]
  simp [hbelow, habove]

theorem Files.entries_put_last {n : ℕ} {c old : γ} {f : Files γ} {front : List (ℕ × γ)}
    (hf : f.entries = front ++ [(n, old)]) : (f.put n c).entries = front ++ [(n, c)] :=
  f.entries_put_at n c old front [] hf

theorem Files.mem_keep {p : ℕ → Bool} {f : Files γ} {e : ℕ × γ} :
    e ∈ (f.keep p).entries ↔ e ∈ f.entries ∧ p e.1 = true :=
  List.mem_filter

theorem Files.keep_keep (p q : ℕ → Bool) (f : Files γ) :
    (f.keep p).keep q = f.keep (fun n => p n && q n) := by
  apply Files.ext
  simp only [Files.entries_keep, List.filter_filter]
  apply List.filter_congr
  intro e _
  exact Bool.and_comm _ _

theorem Files.mem_put {n : ℕ} {c : γ} {f : Files γ} {e : ℕ × γ} :
    e ∈ (f.put n c).entries ↔ e = (n, c) ∨ (e ∈ f.entries ∧ e.1 ≠ n) := by
  simp only [Files.put, List.mem_append, List.mem_cons, List.mem_filter, decide_eq_true_eq]
  constructor
  · rintro (⟨he, hlt⟩ | rfl | ⟨he, hlt⟩)
    · exact Or.inr ⟨he, by omega⟩
    · exact Or.inl rfl
    · exact Or.inr ⟨he, by omega⟩
  · rintro (rfl | ⟨he, hne⟩)
    · exact Or.inr (Or.inl rfl)
    · rcases Nat.lt_or_gt_of_ne hne with hlt | hlt
      · exact Or.inl ⟨he, hlt⟩
      · exact Or.inr (Or.inr ⟨he, hlt⟩)

/-- The listing is the files below a number and then the others. -/
theorem Files.entries_split : f.entries = (f.keep (fun m => decide (m < n))).entries ++
      (f.keep (fun m => decide (n ≤ m))).entries := by
  obtain ⟨entries, hord⟩ := f
  simp only [Files.entries_keep]
  induction entries with
  | nil => rfl
  | cons e rest ih =>
    rw [List.pairwise_cons] at hord
    by_cases hlt : e.1 < n
    · rw [List.filter_cons_of_pos (by simpa using hlt),
        List.filter_cons_of_neg (by simpa using hlt), List.cons_append, ← ih hord.2]
    · have hge : ∀ b ∈ rest, n ≤ b.1 := fun b hb => (not_lt.mp hlt).trans (hord.1 b hb).le
      have hbelow : rest.filter (fun e => decide (e.1 < n)) = [] :=
        filter_none (P := (· < n)) (fun b hb => (hge b hb).not_gt)
      have hfrom : rest.filter (fun e => decide (n ≤ e.1)) = rest :=
        List.filter_eq_self.mpr (fun b hb => decide_eq_true (hge b hb))
      rw [List.filter_cons_of_neg (by simpa using hlt),
        List.filter_cons_of_pos (by simpa using hlt), hbelow, hfrom]
      rfl

/-- A file that no other is newer than is listed last. -/
theorem Files.entries_of_newest {n : ℕ} {c : γ} (hmem : (n, c) ∈ f.entries)
    (hmax : ∀ e ∈ f.entries, e.1 ≤ n) :
    f.entries = (f.keep (fun m => decide (m < n))).entries ++ [(n, c)] := by
  have hlast : (f.keep (fun m => decide (n ≤ m))).entries = [(n, c)] := by
    obtain ⟨front, back, hsplit⟩ := List.append_of_mem hmem
    have hord := f.ordered
    rw [hsplit, List.pairwise_append, List.pairwise_cons] at hord
    have hback : back = [] := by
      apply List.eq_nil_iff_forall_not_mem.mpr
      intro e he
      have hgt := hord.2.1.1 e he
      have hle := hmax e (by rw [hsplit]; simp [he])
      omega
    have hfront : front.filter (fun e => decide (n ≤ e.1)) = [] :=
      filter_none (fun e he => (hord.2.2 e he (n, c) List.mem_cons_self).not_ge)
    rw [Files.entries_keep, hsplit, hback, List.filter_append, hfront]
    simp
  rw [← hlast]
  exact f.entries_split n

variable {n f} {c : γ} {older : List (ℕ × γ)}

theorem Files.lt_of_mem_older (hf : f.entries = older ++ [(n, c)]) (e : ℕ × γ) (he : e ∈ older) :
    e.1 < n := by
  have hord := f.ordered
  rw [hf, List.pairwise_append] at hord
  exact hord.2.2 e he (n, c) (List.mem_singleton.mpr rfl)

theorem Files.le_of_mem_entries (hf : f.entries = older ++ [(n, c)]) (e : ℕ × γ)
    (he : e ∈ f.entries) :
    e.1 ≤ n := by
  rw [hf] at he
  rcases List.mem_append.mp he with he | he
  · exact Nat.le_of_lt (lt_of_mem_older hf e he)
  · exact Nat.le_of_eq (congrArg Prod.fst (List.mem_singleton.mp he))

theorem Files.le_last (e : ℕ × γ) (he : e ∈ f.entries) : e.1 ≤ (f.last.map Prod.fst).getD 0 := by
  cases hlast : f.last with
  | none =>
    rw [List.getLast?_eq_none_iff.mp hlast] at he
    cases he
  | some l =>
    obtain ⟨older, hentries⟩ := List.getLast?_eq_some_iff.mp hlast
    exact le_of_mem_entries hentries e he

variable (hn : ∀ e ∈ f.entries, e.1 ≤ n)
include hn

theorem Files.le_of_mem_put (e : ℕ × γ) (he : e ∈ (f.put n c).entries) : e.1 ≤ n := by
  rcases Files.mem_put.mp he with rfl | ⟨he, -⟩
  · exact Nat.le_refl n
  · exact hn e he

theorem Files.lt_of_find_eq_none (hfind : f.find n = none) (e : ℕ × γ) (he : e ∈ f.entries) :
    e.1 < n := by
  refine Nat.lt_of_le_of_ne (hn e he) ?_
  rintro rfl
  rw [Files.find_eq_some_iff.mpr he] at hfind
  cases hfind

end Ozymandias.NumberedFiles
