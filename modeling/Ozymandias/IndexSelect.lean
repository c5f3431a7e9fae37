import Ozymandias.IndexSets
import Ozymandias.Selection
import Mathlib.Data.List.Sort

/-!
Selecting series through an inverted index. The read side of an index is what
it answers for a key and a value, the values it knows of a key, and all ids;
the head's index and a block's share the selection. If the index files every
series under its terms, the selection is the ascending list of the ids whose
series the selector selects, whatever the order of matchers and values.
-/
namespace Ozymandias.IndexSelect

open SeriesModel Selection IndexSets

structure Lookup where
  postings : GoString → GoString → List ℕ
  tagValues : GoString → List GoString
  allSeries : List ℕ

def union (l : Lookup) (key pattern : GoString) : List ℕ :=
  merge (((l.tagValues key).filter (fun v => globMatch pattern v)).map (fun v => l.postings key v))

def positiveList (l : Lookup) (m : Matcher) : Option (List ℕ) :=
  match m.type with
  | .equal => some (l.postings m.key m.value)
  | .wildcard => some (union l m.key m.value)
  | .notEqual => none
  | .notWildcard => none

def positives (l : Lookup) (sel : Selector) : List (List ℕ) :=
  (if sel.metric ≠ [] then [l.postings metricName sel.metric] else []) ++
    sel.matchers.filterMap (positiveList l)

def subtractMatcher (l : Lookup) (ids : List ℕ) (m : Matcher) : List ℕ :=
  match m.type with
  | .notEqual => subtract ids (l.postings m.key m.value)
  | .notWildcard => subtract ids (union l m.key m.value)
  | .equal => ids
  | .wildcard => ids

/-- Intersect one list after the other; nothing comes back once nothing is left. -/
def intersectAll (ids : List ℕ) : List (List ℕ) → Option (List ℕ)
  | [] => some ids
  | next :: rest =>
    let ids := intersect ids next
    if ids = [] then none else intersectAll ids rest

def byLength (lists : List (List ℕ)) : List (List ℕ) :=
  lists.insertionSort (fun a b => a.length ≤ b.length)

def selectPositive (l : Lookup) (sel : Selector) : Option (List ℕ) :=
  match byLength (positives l sel) with
  | [] => some l.allSeries
  | first :: rest => intersectAll first rest

def select (l : Lookup) (sel : Selector) : List ℕ :=
  match selectPositive l sel with
  | none => []
  | some ids => sel.matchers.foldl (subtractMatcher l) ids

def Selector.matches (sel : Selector) (ref : SeriesRef) : Bool :=
  decide (ref.metric = sel.metric) && sel.matchers.all (fun m => m.holds ref.tags)

/-- An index over series by id: every series is filed under its terms. -/
structure Indexes (l : Lookup) (live : ℕ → Option SeriesRef) : Prop where
  sorted : ∀ key value, Sorted (l.postings key value)
  mem_postings : ∀ key value id, id ∈ l.postings key value ↔
    ∃ ref, live id = some ref ∧ ⟨key, value⟩ ∈ terms ref
  mem_tagValues : ∀ key value, (∃ id, id ∈ l.postings key value) → value ∈ l.tagValues key
  sorted_all : Sorted l.allSeries
  mem_all : ∀ id, id ∈ l.allSeries ↔ ∃ ref, live id = some ref

/-- A term under the matcher's key, with a value that its type asks for. -/
theorem has_iff (m : Matcher) (ts : List Tag) : m.has ts = true ↔ ∃ v, ⟨m.key, v⟩ ∈ ts ∧
      (match m.type with
      | .equal | .notEqual => decide (v = m.value)
      | .wildcard | .notWildcard => globMatch m.value v) = true := by
  unfold Matcher.has
  rw [List.any_eq_true]
  constructor
  · rintro ⟨⟨k, v⟩, ht, hval⟩
    rw [Bool.and_eq_true, decide_eq_true_eq] at hval
    obtain ⟨rfl, hval⟩ := hval
    exact ⟨v, ht, hval⟩
  · rintro ⟨v, ht, hval⟩
    refine ⟨_, ht, ?_⟩
    rw [Bool.and_eq_true, decide_eq_true_eq]
    exact ⟨rfl, hval⟩

def listOf (l : Lookup) (m : Matcher) : List ℕ :=
  match m.type with
  | .equal | .notEqual => l.postings m.key m.value
  | .wildcard | .notWildcard => union l m.key m.value

def isNegative (m : Matcher) : Bool :=
  match m.type with
  | .equal | .wildcard => false
  | .notEqual | .notWildcard => true

theorem positiveList_eq (l : Lookup) (m : Matcher) :
    positiveList l m = if isNegative m then none else some (listOf l m) := by
  unfold positiveList isNegative listOf
  cases m.type <;> rfl

theorem subtractMatcher_eq (l : Lookup) (ids : List ℕ) (m : Matcher) :
    subtractMatcher l ids m = if isNegative m then subtract ids (listOf l m) else ids := by
  unfold subtractMatcher isNegative listOf
  cases m.type <;> rfl

theorem holds_iff (m : Matcher) (ts : List Tag) :
    m.holds ts = true ↔ (m.has ts = true ↔ isNegative m = false) := by
  unfold Matcher.holds isNegative
  cases m.type <;> cases m.has ts <;> simp

theorem mem_intersectAll {ids : List ℕ} {rest : List (List ℕ)} (hids : Sorted ids)
    (hrest : ∀ list ∈ rest, Sorted list) :
    Sorted ((intersectAll ids rest).getD []) ∧
      ∀ z, z ∈ (intersectAll ids rest).getD [] ↔ z ∈ ids ∧ ∀ list ∈ rest, z ∈ list := by
  induction rest generalizing ids with
  | nil => exact ⟨hids, fun z => by simp [intersectAll]⟩
  | cons next rest ih =>
    have hnext := hrest next List.mem_cons_self
    have hmem := mem_intersect hids hnext
    unfold intersectAll
    by_cases hnil : intersect ids next = []
    · simp only [if_pos hnil]
      refine ⟨List.Pairwise.nil, fun z => ⟨nofun, ?_⟩⟩
      rintro ⟨hz, hall⟩
      have hin := (hmem z).mpr ⟨hz, hall next List.mem_cons_self⟩
      rw [hnil] at hin
      exact hin
    · simp only [if_neg hnil]
      obtain ⟨hsorted, hspec⟩ := ih (sorted_intersect hids hnext) (List.forall_mem_cons.mp hrest).2
      refine ⟨hsorted, fun z => ?_⟩
      rw [hspec, hmem, List.forall_mem_cons, and_assoc]

section

variable {l : Lookup} {live : ℕ → Option SeriesRef} (h : Indexes l live)
include h

theorem sorted_union (key pattern : GoString) : Sorted (union l key pattern) := by
  refine sorted_merge ?_
  intro list hlist
  obtain ⟨v, -, rfl⟩ := List.mem_map.mp hlist
  exact h.sorted key v

theorem mem_union (key pattern : GoString) (id : ℕ) : id ∈ union l key pattern ↔
      ∃ ref, live id = some ref ∧ ∃ v, ⟨key, v⟩ ∈ terms ref ∧ globMatch pattern v = true := by
  unfold union
  rw [mem_merge]
  · constructor
    · rintro ⟨list, hlist, hid⟩
      obtain ⟨v, hv, rfl⟩ := List.mem_map.mp hlist
      obtain ⟨ref, href, hterm⟩ := (h.mem_postings key v id).mp hid
      exact ⟨ref, href, v, hterm, (List.mem_filter.mp hv).2⟩
    · rintro ⟨ref, href, v, hterm, hglob⟩
      have hid := (h.mem_postings key v id).mpr ⟨ref, href, hterm⟩
      refine ⟨_, List.mem_map_of_mem (List.mem_filter.mpr ⟨?_, hglob⟩), hid⟩
      exact h.mem_tagValues key v ⟨id, hid⟩
  · intro list hlist
    obtain ⟨v, -, rfl⟩ := List.mem_map.mp hlist
    exact h.sorted key v

theorem sorted_listOf (m : Matcher) : Sorted (listOf l m) := by
  unfold listOf
  split
  · exact h.sorted _ _
  · exact h.sorted _ _
  · exact sorted_union h _ _
  · exact sorted_union h _ _

theorem mem_listOf {m : Matcher} {id : ℕ} :
    id ∈ listOf l m ↔ ∃ ref, live id = some ref ∧ m.has (terms ref) = true := by
  cases hm : m.type with
  | equal | notEqual =>
    simp only [listOf, hm, h.mem_postings, has_iff, decide_eq_true_eq, exists_eq_right]
  | wildcard | notWildcard =>
    simp only [listOf, hm, mem_union h, has_iff]

theorem mem_positives {sel : Selector} {list : List ℕ} (hlist : list ∈ positives l sel) :
    Sorted list ∧ ∀ z ∈ list, ∃ ref, live z = some ref := by
  rcases List.mem_append.mp hlist with hmetric | hmatcher
  · split at hmetric
    · rw [List.mem_singleton.mp hmetric]
      refine ⟨h.sorted _ _, fun z hz => ?_⟩
      obtain ⟨ref, href, -⟩ := (h.mem_postings _ _ z).mp hz
      exact ⟨ref, href⟩
    · cases hmetric
  · obtain ⟨m, -, hm⟩ := List.mem_filterMap.mp hmatcher
    rw [positiveList_eq] at hm
    split at hm
    · cases hm
    · cases hm
      refine ⟨sorted_listOf h m, fun z hz => ?_⟩
      obtain ⟨ref, href, -⟩ := (mem_listOf h).mp hz
      exact ⟨ref, href⟩

variable (sel : Selector)

/-- Being in every positive list is what the metric and the positive matchers ask. -/
theorem all_positives {id : ℕ} {ref : SeriesRef} (href : live id = some ref) :
    (∀ list ∈ positives l sel, id ∈ list) ↔
      (sel.metric = [] ∨ ⟨metricName, sel.metric⟩ ∈ terms ref) ∧
        ∀ m ∈ sel.matchers, isNegative m = false → m.has (terms ref) = true := by
  unfold positives
  rw [List.forall_mem_append]
  refine and_congr ?_ ?_
  · by_cases hmetric : sel.metric = []
    · simp [hmetric]
    · rw [if_pos hmetric]
      simp only [List.mem_singleton, forall_eq, h.mem_postings, href, Option.some.injEq,
        exists_eq_left', hmetric, false_or]
  · constructor
    · intro hall m hm hpos
      have hmem := hall (listOf l m)
        (List.mem_filterMap.mpr ⟨m, hm, by rw [positiveList_eq, hpos]; rfl⟩)
      obtain ⟨ref', href', hhas⟩ := (mem_listOf h).mp hmem
      rw [href] at href'
      cases href'
      exact hhas
    · intro hall list hlist
      obtain ⟨m, hm, hsome⟩ := List.mem_filterMap.mp hlist
      rw [positiveList_eq] at hsome
      split at hsome
      · cases hsome
      next hneg =>
        cases hsome
        exact (mem_listOf h).mpr ⟨ref, href, hall m hm (by simpa using hneg)⟩

theorem mem_selectPositive : Sorted ((selectPositive l sel).getD []) ∧
      ∀ z, z ∈ (selectPositive l sel).getD [] ↔
        (∃ ref, live z = some ref) ∧ ∀ list ∈ positives l sel, z ∈ list := by
  have hperm : (byLength (positives l sel)).Perm (positives l sel) := List.perm_insertionSort _ _
  have hall : ∀ z, (∀ list ∈ byLength (positives l sel), z ∈ list) ↔
      ∀ list ∈ positives l sel, z ∈ list := by
    intro z
    exact forall_congr' (fun list => by rw [hperm.mem_iff])
  unfold selectPositive
  cases hsorted : byLength (positives l sel) with
  | nil =>
    refine ⟨h.sorted_all, fun z => ?_⟩
    rw [← hall z, hsorted]
    simp [h.mem_all]
  | cons first rest =>
    have hlists : ∀ list ∈ first :: rest, list ∈ positives l sel := by
      intro list hlist
      rw [← hsorted, hperm.mem_iff] at hlist
      exact hlist
    have hfirst := mem_positives h (hlists first List.mem_cons_self)
    obtain ⟨hs, hmem⟩ := mem_intersectAll hfirst.1 (fun list hlist =>
      (mem_positives h (hlists list (List.mem_cons_of_mem _ hlist))).1)
    refine ⟨hs, fun z => ?_⟩
    rw [← hall z, hsorted, hmem, List.forall_mem_cons]
    exact (and_iff_right_of_imp (fun hz => hfirst.2 z hz.1)).symm

theorem mem_subtractAll (ms : List Matcher) {ids : List ℕ} (hids : Sorted ids) :
    Sorted (ms.foldl (subtractMatcher l) ids) ∧ ∀ z, z ∈ ms.foldl (subtractMatcher l) ids ↔
        z ∈ ids ∧ ∀ m ∈ ms, isNegative m = true → z ∉ listOf l m := by
  induction ms generalizing ids with
  | nil => exact ⟨hids, fun z => by simp⟩
  | cons m ms ih =>
    rw [List.foldl_cons, subtractMatcher_eq]
    by_cases hneg : isNegative m = true
    · rw [if_pos hneg]
      obtain ⟨hs, hmem⟩ := ih (sorted_subtract hids)
      refine ⟨hs, fun z => ?_⟩
      rw [hmem, mem_subtract hids (sorted_listOf h m), List.forall_mem_cons, and_assoc]
      simp only [hneg, forall_true_left]
    · rw [if_neg hneg]
      obtain ⟨hs, hmem⟩ := ih hids
      refine ⟨hs, fun z => ?_⟩
      rw [hmem]
      simp [hneg]

/-- The selection is the ascending list of the selected series. -/
theorem select_spec : Sorted (select l sel) ∧
      ∀ id, id ∈ select l sel ↔ ∃ ref, live id = some ref ∧ sel.selects ref = true := by
  obtain ⟨hsorted, hpos⟩ := mem_selectPositive h sel
  obtain ⟨hs, hmem⟩ := mem_subtractAll h sel.matchers hsorted
  have hselect : select l sel =
      sel.matchers.foldl (subtractMatcher l) ((selectPositive l sel).getD []) := by
    unfold select
    cases hsel : selectPositive l sel with
    | some ids => rfl
    | none =>
      rw [hsel] at hmem
      refine (List.eq_nil_iff_forall_not_mem.mpr (fun z hz => ?_)).symm
      exact absurd ((hmem z).mp hz).1 List.not_mem_nil
  rw [hselect]
  refine ⟨hs, fun id => ?_⟩
  rw [hmem, hpos]
  have hsplit : ∀ ref, sel.selects ref = true ↔
      (sel.metric = [] ∨ ⟨metricName, sel.metric⟩ ∈ terms ref) ∧
        (∀ m ∈ sel.matchers, isNegative m = false → m.has (terms ref) = true) ∧
        ∀ m ∈ sel.matchers, isNegative m = true → m.has (terms ref) = false := by
    intro ref
    unfold Selector.selects
    rw [Bool.and_eq_true, Bool.or_eq_true, decide_eq_true_eq, decide_eq_true_eq, List.all_eq_true]
    rw [← forall₂_and]
    refine and_congr Iff.rfl (forall₂_congr (fun m _ => ?_))
    rw [holds_iff]
    cases isNegative m <;> simp
  constructor
  · rintro ⟨⟨⟨ref, href⟩, hlists⟩, hneg⟩
    obtain ⟨hmetric, hall⟩ := (all_positives h sel href).mp hlists
    refine ⟨ref, href, (hsplit ref).mpr ⟨hmetric, hall, fun m hm hm' => ?_⟩⟩
    have hno := hneg m hm hm'
    rw [mem_listOf h] at hno
    by_contra hhas
    exact hno ⟨ref, href, by simpa using hhas⟩
  · rintro ⟨ref, href, hsel⟩
    obtain ⟨hmetric, hall, hnone⟩ := (hsplit ref).mp hsel
    refine ⟨⟨⟨ref, href⟩, (all_positives h sel href).mpr ⟨hmetric, hall⟩⟩, fun m hm hm' hin => ?_⟩
    obtain ⟨ref', href', hhas⟩ := (mem_listOf h).mp hin
    rw [href] at href'
    cases href'
    rw [hnone m hm hm'] at hhas
    cases hhas

end

end Ozymandias.IndexSelect
