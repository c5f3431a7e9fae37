import Mathlib.Algebra.Order.BigOperators.Group.List
import Mathlib.Algebra.Order.Ring.Nat

/-!
Set operations of the index on sorted lists of ids: intersection by galloping,
difference, and the union of any number of lists. A place in a list is the
rest of the list from there, so that advancing is dropping. On strictly
ascending lists each operation gives the strictly ascending list of the set.
-/
namespace Ozymandias.IndexSets

def Sorted (ids : List ℕ) : Prop := ids.Pairwise (· < ·)

def search (list : List ℕ) (target : ℕ) : ℕ := list.findIdx (fun x => decide (target ≤ x))

def gallopFrom (list : List ℕ) (target i step : ℕ) (hstep : 0 < step) : ℕ × ℕ :=
  match _h : list[i + step]? with
  | none => (i, step)
  | some x =>
    if x < target then gallopFrom list target (i + step) (step * 2) (by omega) else (i, step)
termination_by list.length - i
decreasing_by
  obtain ⟨hlt, -⟩ := List.getElem?_eq_some_iff.mp ‹list[i + step]? = some x›
  omega

def gallop (list : List ℕ) (target : ℕ) : ℕ :=
  let place := gallopFrom list target 0 1 Nat.one_pos
  let hi := min (place.1 + place.2 + 1) list.length
  place.1 + search ((list.drop place.1).take (hi - place.1)) target

variable {a b : List ℕ} {best : ℕ} {list : List ℕ} {lists : List (List ℕ)} {target x : ℕ}

/-- The gallop has only jumped to ids below the target. -/
theorem gallopFrom_spec (list : List ℕ) (target i step : ℕ) (hstep : 0 < step) :
    (gallopFrom list target i step hstep).1 = i ∨
      ∃ x, list[(gallopFrom list target i step hstep).1]? = some x ∧ x < target := by
  fun_induction gallopFrom list target i step hstep with
  | case1 i step hstep hnone => exact .inl rfl
  | case2 i step hstep x hx hlt ih =>
    refine .inr ?_
    rcases ih with heq | hbelow
    · exact ⟨x, by rw [heq]; exact hx, hlt⟩
    · exact hbelow
  | case3 i step hstep x hx hge => exact .inl rfl

theorem lt_of_lt_search {k : ℕ} (hk : k < search list target) :
    ∃ x, list[k]? = some x ∧ x < target := by
  have hlen : k < list.length := lt_of_lt_of_le hk List.findIdx_le_length
  refine ⟨list[k], List.getElem?_eq_getElem hlen, ?_⟩
  have hno := List.not_of_lt_findIdx hk
  simpa using hno

/-- Advancing from an id below the target moves on. -/
theorem gallop_pos (list : List ℕ) (hx : x < target) :
    0 < gallop (x :: list) target := by
  unfold gallop
  rcases Nat.eq_zero_or_pos (gallopFrom (x :: list) target 0 1 Nat.one_pos).1 with hzero | hpos
  · dsimp only
    rw [hzero, List.drop_zero, Nat.sub_zero]
    obtain ⟨m, hm⟩ : ∃ m, min (0 + (gallopFrom (x :: list) target 0 1 Nat.one_pos).2 + 1)
        (x :: list).length = m + 1 :=
      Nat.exists_eq_succ_of_ne_zero (lt_min (Nat.succ_pos _) (Nat.succ_pos _)).ne'
    rw [hm, List.take_succ_cons]
    unfold search
    rw [List.findIdx_cons, decide_eq_false (not_le.mpr hx)]
    exact Nat.succ_pos _
  · exact Nat.add_pos_left hpos _

/-- What is skipped is below the target. -/
theorem lt_of_mem_take_gallop (h : Sorted list) {y : ℕ} (hy : y ∈ list.take (gallop list target)) :
    y < target := by
  obtain ⟨k, hk, rfl⟩ := List.mem_iff_getElem.mp hy
  rw [List.length_take] at hk
  have hlen : k < list.length := lt_of_lt_of_le hk (min_le_right ..)
  have hgallop : k < gallop list target := lt_of_lt_of_le hk (min_le_left ..)
  rw [List.getElem_take]
  unfold gallop at hgallop
  dsimp only at hgallop
  set place := gallopFrom list target 0 1 Nat.one_pos with hplace
  rcases lt_or_ge k place.1 with hbefore | hafter
  · obtain hzero | ⟨x, hx, hlt⟩ := gallopFrom_spec list target 0 1 Nat.one_pos
    · rw [← hplace] at hzero
      omega
    · obtain ⟨hplen, rfl⟩ := List.getElem?_eq_some_iff.mp hx
      exact lt_trans (List.pairwise_iff_getElem.mp h k place.1 hlen hplen hbefore) hlt
  · have hwithin : k - place.1 < search ((list.drop place.1).take
        (min (place.1 + place.2 + 1) list.length - place.1)) target := by omega
    obtain ⟨x, hx, hlt⟩ := lt_of_lt_search hwithin
    rw [List.getElem?_take] at hx
    split at hx
    · rw [List.getElem?_drop, Nat.add_sub_cancel' hafter, List.getElem?_eq_getElem hlen] at hx
      cases hx
      exact hlt
    · cases hx

def intersect : List ℕ → List ℕ → List ℕ
  | x :: xs, y :: ys =>
    if x = y then x :: intersect xs ys
    else if _h : x < y then intersect ((x :: xs).drop (gallop (x :: xs) y)) (y :: ys)
    else intersect (x :: xs) ((y :: ys).drop (gallop (y :: ys) x))
  | _, _ => []
termination_by a b => a.length + b.length
decreasing_by
  · simp only [List.length_cons]
    omega
  · have hpos := gallop_pos xs ‹x < y›
    simp only [List.length_drop, List.length_cons]
    omega
  · have hpos := gallop_pos ys (by omega : y < x)
    simp only [List.length_drop, List.length_cons]
    omega

theorem Sorted.drop (h : Sorted list) (n : ℕ) : Sorted (list.drop n) :=
  List.Pairwise.sublist (List.drop_sublist n list) h

/-- Dropping what is below an id drops nothing at or above it. -/
theorem mem_drop_gallop (h : Sorted list) (hx : target ≤ x) :
    x ∈ list.drop (gallop list target) ↔ x ∈ list := by
  refine ⟨List.mem_of_mem_drop, fun hmem => ?_⟩
  rw [← List.take_append_drop (gallop list target) list] at hmem
  rcases List.mem_append.mp hmem with hmem | hmem
  · exact absurd (lt_of_mem_take_gallop h hmem) (not_lt.mpr hx)
  · exact hmem

theorem le_of_mem {y : ℕ} {xs : List ℕ} (h : Sorted (x :: xs)) (hy : y ∈ x :: xs) : x ≤ y := by
  rcases List.mem_cons.mp hy with rfl | hy
  · exact le_rfl
  · exact le_of_lt (List.rel_of_pairwise_cons h hy)

theorem mem_intersect (ha : Sorted a) (hb : Sorted b) (z : ℕ) :
    z ∈ intersect a b ↔ z ∈ a ∧ z ∈ b := by
  fun_induction intersect a b with
  | case1 x xs ys ih =>
    rw [List.mem_cons, ih ha.tail hb.tail, or_and_left, List.mem_cons, List.mem_cons]
  | case2 x xs y ys hne hlt ih =>
    rw [ih (ha.drop _) hb]
    exact and_congr_left (fun hy => mem_drop_gallop ha (le_of_mem hb hy))
  | case3 x xs y ys hne hge ih =>
    rw [ih ha (hb.drop _)]
    exact and_congr_right (fun hx => mem_drop_gallop hb (le_of_mem ha hx))
  | case4 a b hno =>
    cases a with
    | nil => simp
    | cons x xs =>
      cases b with
      | nil => simp
      | cons y ys => exact absurd rfl (hno x xs y ys rfl)

theorem sorted_intersect (ha : Sorted a) (hb : Sorted b) : Sorted (intersect a b) := by
  fun_induction intersect a b with
  | case1 x xs ys ih =>
    refine List.Pairwise.cons ?_ (ih ha.tail hb.tail)
    intro z hz
    exact List.rel_of_pairwise_cons ha ((mem_intersect ha.tail hb.tail z).mp hz).1
  | case2 x xs y ys hne hlt ih => exact ih (ha.drop _) hb
  | case3 x xs y ys hne hge ih => exact ih ha (hb.drop _)
  | case4 a b hno => exact List.Pairwise.nil

def subtractFrom : List ℕ → List ℕ → List ℕ
  | [], _ => []
  | id :: a, b =>
    let rest := b.dropWhile (fun y => decide (y < id))
    if rest.head? = some id then subtractFrom a rest else id :: subtractFrom a rest

def subtract (a b : List ℕ) : List ℕ := if b = [] then a else subtractFrom a b

theorem mem_dropWhile_below {id z : ℕ} (hz : id ≤ z) :
    z ∈ b.dropWhile (fun y => decide (y < id)) ↔ z ∈ b := by
  refine ⟨fun h => (List.dropWhile_sublist _).subset h, fun h => ?_⟩
  induction b with
  | nil => cases h
  | cons y b ih =>
    rw [List.dropWhile_cons]
    split
    next hlt =>
      rcases List.mem_cons.mp h with rfl | h
      · exact absurd (of_decide_eq_true hlt) (not_lt.mpr hz)
      · exact ih h
    · exact h

theorem head_dropWhile_iff (hb : Sorted b) (id : ℕ) :
    (b.dropWhile (fun y => decide (y < id))).head? = some id ↔ id ∈ b := by
  constructor
  · intro h
    exact (List.dropWhile_sublist _).subset (List.mem_of_head? h)
  · intro h
    have hmem := (mem_dropWhile_below (le_refl id)).mpr h
    have hsorted : Sorted (b.dropWhile (fun y => decide (y < id))) :=
      List.Pairwise.sublist (List.dropWhile_sublist _) hb
    cases hrest : b.dropWhile (fun y => decide (y < id)) with
    | nil =>
      rw [hrest] at hmem
      cases hmem
    | cons y rest =>
      rw [hrest] at hmem hsorted
      have hle := le_of_mem hsorted hmem
      have hge : ¬ y < id := by
        have hhead := List.head?_dropWhile_not (fun y => decide (y < id)) b
        rw [hrest] at hhead
        simpa using hhead
      rw [List.head?_cons, le_antisymm hle (not_lt.mp hge)]

theorem mem_subtractFrom (ha : Sorted a) (hb : Sorted b) (z : ℕ) :
    z ∈ subtractFrom a b ↔ z ∈ a ∧ z ∉ b := by
  induction a generalizing b with
  | nil => simp [subtractFrom]
  | cons id a ih =>
    have hrest : Sorted (b.dropWhile (fun y => decide (y < id))) :=
      List.Pairwise.sublist (List.dropWhile_sublist _) hb
    have hlater : z ∈ a → (z ∉ b.dropWhile (fun y => decide (y < id)) ↔ z ∉ b) := by
      intro hz
      rw [mem_dropWhile_below (le_of_lt (List.rel_of_pairwise_cons ha hz))]
    rw [subtractFrom]
    by_cases hid : id ∈ b
    · rw [if_pos ((head_dropWhile_iff hb id).mpr hid), ih ha.tail hrest, List.mem_cons]
      constructor
      · rintro ⟨hz, hno⟩
        exact ⟨.inr hz, (hlater hz).mp hno⟩
      · rintro ⟨rfl | hz, hno⟩
        · exact absurd hid hno
        · exact ⟨hz, (hlater hz).mpr hno⟩
    · rw [if_neg (fun h => hid ((head_dropWhile_iff hb id).mp h)), List.mem_cons,
        ih ha.tail hrest, List.mem_cons]
      constructor
      · rintro (rfl | ⟨hz, hno⟩)
        · exact ⟨.inl rfl, hid⟩
        · exact ⟨.inr hz, (hlater hz).mp hno⟩
      · rintro ⟨rfl | hz, hno⟩
        · exact .inl rfl
        · exact .inr ⟨hz, (hlater hz).mpr hno⟩

theorem subtractFrom_sublist (a b : List ℕ) : List.Sublist (subtractFrom a b) a := by
  induction a generalizing b with
  | nil => exact List.Sublist.refl _
  | cons id a ih =>
    rw [subtractFrom]
    split
    · exact (ih _).cons _
    · exact (ih _).cons_cons _

theorem mem_subtract (ha : Sorted a) (hb : Sorted b) (z : ℕ) :
    z ∈ subtract a b ↔ z ∈ a ∧ z ∉ b := by
  unfold subtract
  split
  next hnil =>
    rw [hnil]
    simp
  · exact mem_subtractFrom ha hb z

theorem sorted_subtract (ha : Sorted a) : Sorted (subtract a b) := by
  unfold subtract
  split
  · exact ha
  · exact List.Pairwise.sublist (subtractFrom_sublist a b) ha

def least (lists : List (List ℕ)) : Option ℕ :=
  lists.foldl (fun best l => match l, best with
    | [], best => best
    | x :: _, none => some x
    | x :: _, some b => if x < b then some x else some b) none

def advance (best : ℕ) (lists : List (List ℕ)) : List (List ℕ) :=
  lists.map (fun l => if l.head? = some best then l.tail else l)

theorem least_foldl (lists : List (List ℕ)) (best : Option ℕ) :
    lists.foldl (fun best l => match l, best with
      | [], best => best
      | x :: _, none => some x
      | x :: _, some b => if x < b then some x else some b) best =
      (best.toList ++ lists.filterMap List.head?).min? := by
  induction lists generalizing best with
  | nil => cases best <;> rfl
  | cons l lists ih =>
    rw [List.foldl_cons, ih]
    cases l with
    | nil => rw [List.filterMap_cons_none rfl]
    | cons x xs =>
      cases best with
      | none => simp
      | some b =>
        simp only [Option.toList_some, List.singleton_append, List.filterMap_cons, List.head?_cons,
          List.min?_cons']
        split
        next hlt =>
          rw [Option.toList_some, List.singleton_append, List.min?_cons', List.foldl_cons,
            min_eq_right hlt.le]
        next hge =>
          rw [Option.toList_some, List.singleton_append, List.min?_cons', List.foldl_cons,
            min_eq_left (not_lt.mp hge)]

theorem least_eq (lists : List (List ℕ)) : least lists = (lists.filterMap List.head?).min? :=
  least_foldl lists none

theorem exists_of_least (h : least lists = some best) :
    (∃ xs, best :: xs ∈ lists) ∧ ∀ x xs, x :: xs ∈ lists → best ≤ x := by
  rw [least_eq, List.min?_eq_some_iff] at h
  obtain ⟨hmem, hle⟩ := h
  constructor
  · obtain ⟨l, hl, hhead⟩ := List.mem_filterMap.mp hmem
    obtain ⟨xs, rfl⟩ := List.head?_eq_some_iff.mp hhead
    exact ⟨xs, hl⟩
  · intro x xs hx
    exact hle x (List.mem_filterMap.mpr ⟨_, hx, rfl⟩)

theorem length_advance_lt (h : ∃ xs, best :: xs ∈ lists) :
    ((advance best lists).map List.length).sum < (lists.map List.length).sum := by
  obtain ⟨xs, hxs⟩ := h
  unfold advance
  rw [List.map_map]
  refine List.sum_lt_sum _ _ ?_ ⟨_, hxs, ?_⟩
  · intro l _
    simp only [Function.comp_apply]
    split
    · simp
    · exact le_rfl
  · simp

def mergeFrom (lists : List (List ℕ)) : List ℕ :=
  match _h : least lists with
  | none => []
  | some best => best :: mergeFrom (advance best lists)
termination_by (lists.map List.length).sum
decreasing_by exact length_advance_lt (exists_of_least ‹least lists = some best›).1

def merge (lists : List (List ℕ)) : List ℕ :=
  match lists with
  | [] => []
  | [l] => l
  | lists => mergeFrom lists

theorem mem_of_mem_advance {l : List ℕ} (h : l ∈ advance best lists) :
    ∃ l' ∈ lists, List.Sublist l l' := by
  obtain ⟨l', hl', rfl⟩ := List.mem_map.mp h
  refine ⟨l', hl', ?_⟩
  split
  · exact List.tail_sublist l'
  · exact List.Sublist.refl l'

theorem sorted_advance (h : ∀ l ∈ lists, Sorted l) : ∀ l ∈ advance best lists, Sorted l := by
  intro l hl
  obtain ⟨l', hl', hsub⟩ := mem_of_mem_advance hl
  exact List.Pairwise.sublist hsub (h l' hl')

/-- After the least id nothing but later ids is left, and none of those is lost. -/
theorem mem_advance (h : ∀ l ∈ lists, Sorted l) (hleast : least lists = some best) (z : ℕ) :
    (∃ l ∈ advance best lists, z ∈ l) ↔ z ≠ best ∧ ∃ l ∈ lists, z ∈ l := by
  obtain ⟨-, hle⟩ := exists_of_least hleast
  constructor
  · rintro ⟨l, hl, hz⟩
    obtain ⟨l', hl', rfl⟩ := List.mem_map.mp hl
    have hsorted := h l' hl'
    cases l' with
    | nil => simp at hz
    | cons x xs =>
      by_cases hx : x = best
      · rw [if_pos (by rw [List.head?_cons, hx])] at hz
        have hlt : x < z := List.rel_of_pairwise_cons hsorted hz
        exact ⟨by omega, _, hl', List.mem_cons_of_mem _ hz⟩
      · rw [if_neg (by simpa using hx)] at hz
        have hbest := hle x xs hl'
        have hxz := le_of_mem hsorted hz
        exact ⟨by omega, _, hl', hz⟩
  · rintro ⟨hne, l, hl, hz⟩
    refine ⟨_, List.mem_map_of_mem hl, ?_⟩
    split
    next hhead =>
      obtain ⟨xs, rfl⟩ := List.head?_eq_some_iff.mp hhead
      exact (List.mem_cons.mp hz).resolve_left hne
    · exact hz

theorem mem_mergeFrom (h : ∀ l ∈ lists, Sorted l) (z : ℕ) :
    z ∈ mergeFrom lists ↔ ∃ l ∈ lists, z ∈ l := by
  fun_induction mergeFrom lists with
  | case1 lists hnone =>
    refine ⟨nofun, ?_⟩
    rintro ⟨l, hl, hz⟩
    rw [least_eq, List.min?_eq_none_iff] at hnone
    obtain ⟨x, xs, rfl⟩ := List.exists_cons_of_ne_nil (List.ne_nil_of_mem hz)
    have hmem : x ∈ lists.filterMap List.head? := List.mem_filterMap.mpr ⟨_, hl, rfl⟩
    rw [hnone] at hmem
    cases hmem
  | case2 lists best hbest ih =>
    rw [List.mem_cons, ih (sorted_advance h), mem_advance h hbest]
    obtain ⟨⟨xs, hxs⟩, -⟩ := exists_of_least hbest
    constructor
    · rintro (rfl | ⟨-, hz⟩)
      · exact ⟨_, hxs, List.mem_cons_self⟩
      · exact hz
    · intro hz
      by_cases heq : z = best
      · exact .inl heq
      · exact .inr ⟨heq, hz⟩

theorem sorted_mergeFrom (h : ∀ l ∈ lists, Sorted l) :
    Sorted (mergeFrom lists) := by
  fun_induction mergeFrom lists with
  | case1 lists hnone => exact List.Pairwise.nil
  | case2 lists best hbest ih =>
    refine List.Pairwise.cons ?_ (ih (sorted_advance h))
    intro z hz
    obtain ⟨hne, l, hl, hzl⟩ :=
      (mem_advance h hbest z).mp ((mem_mergeFrom (sorted_advance h) z).mp hz)
    obtain ⟨x, xs, rfl⟩ := List.exists_cons_of_ne_nil (List.ne_nil_of_mem hzl)
    have hle := (exists_of_least hbest).2 x xs hl
    have hxz := le_of_mem (h _ hl) hzl
    omega

theorem mem_merge (h : ∀ l ∈ lists, Sorted l) (z : ℕ) :
    z ∈ merge lists ↔ ∃ l ∈ lists, z ∈ l := by
  unfold merge
  split
  · simp
  · simp
  · exact mem_mergeFrom h z

theorem sorted_merge (h : ∀ l ∈ lists, Sorted l) : Sorted (merge lists) := by
  unfold merge
  split
  · exact List.Pairwise.nil
  · exact h _ (List.mem_singleton_self _)
  · exact sorted_mergeFrom h

end Ozymandias.IndexSets
