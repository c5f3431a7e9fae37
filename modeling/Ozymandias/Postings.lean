import Ozymandias.IndexSelect
import Ozymandias.SharedSlices
import Mathlib.Data.List.AList

/-!
The in-memory inverted index: for every key and value the sorted ids of the
series that carry it, and all ids. Lists are slices that readers walk without
a lock; an id behind the last one is appended in place and every other change
builds a new list. Whatever series come and go, the index files exactly the
live ones under their terms, and no list that was handed out ever changes.
-/
namespace Ozymandias.Postings

open SeriesModel Selection IndexSets IndexSelect SharedSlices

abbrev Values := AList (fun _ : GoString => Slice)

structure MemPostings where
  heap : Heap ℕ
  m : AList (fun _ : GoString => Values)
  all : Slice

def MemPostings.new : MemPostings := ⟨⟨0, fun _ => []⟩, ∅, Slice.nil⟩

def appendSorted (h : Heap ℕ) (list : Slice) (id : ℕ) : Heap ℕ × Slice :=
  match (h.read list).getLast? with
  | none => h.push list id
  | some last =>
    if last < id then h.push list id
    else
      let i := search (h.read list) id
      if (h.read list)[i]? = some id then (h, list)
      else h.alloc ((h.read list).take i ++ [id] ++ (h.read list).drop i) (list.len + 1)

def removeID (h : Heap ℕ) (list : Slice) (id : ℕ) : Heap ℕ × Slice :=
  let i := search (h.read list) id
  if (h.read list)[i]? = some id then
    h.alloc ((h.read list).take i ++ (h.read list).drop (i + 1)) (list.len - 1)
  else (h, list)

def MemPostings.list (p : MemPostings) (key value : GoString) : Slice :=
  ((p.m.lookup key).bind (fun vals => vals.lookup value)).getD Slice.nil

def MemPostings.addTerm (p : MemPostings) (key value : GoString) (id : ℕ) : MemPostings :=
  let vals := (p.m.lookup key).getD ∅
  let (heap, list) := appendSorted p.heap ((vals.lookup value).getD Slice.nil) id
  { p with heap := heap, m := p.m.insert key (vals.insert value list) }

def MemPostings.add (p : MemPostings) (id : ℕ) (ref : SeriesRef) : MemPostings :=
  let p := (terms ref).foldl (fun p t => p.addTerm t.key t.value id) p
  let (heap, all) := appendSorted p.heap p.all id
  { p with heap := heap, all := all }

def MemPostings.removeTerm (p : MemPostings) (key value : GoString) (id : ℕ) : MemPostings :=
  match p.m.lookup key with
  | none => p
  | some vals =>
    let (heap, list) := removeID p.heap ((vals.lookup value).getD Slice.nil) id
    if list.len = 0 then
      let vals := vals.erase value
      { p with heap := heap, m := if vals.keys = [] then p.m.erase key else p.m.insert key vals }
    else { p with heap := heap, m := p.m.insert key (vals.insert value list) }

def MemPostings.delete (p : MemPostings) (id : ℕ) (ref : SeriesRef) : MemPostings :=
  let p := (terms ref).foldl (fun p t => p.removeTerm t.key t.value id) p
  let (heap, all) := removeID p.heap p.all id
  { p with heap := heap, all := all }

def MemPostings.lookup (p : MemPostings) : Lookup where
  postings key value := p.heap.read (p.list key value)
  tagValues key := match p.m.lookup key with
    | none => []
    | some vals => vals.keys
  allSeries := p.heap.read p.all

def MemPostings.select (p : MemPostings) (sel : Selector) : List ℕ :=
  IndexSelect.select p.lookup sel

abbrev Slot := Option (GoString × GoString)

def MemPostings.shelf (p : MemPostings) : Shelf Slot ℕ where
  heap := p.heap
  slot
    | some (key, value) => p.list key value
    | none => p.all

variable {xs : List ℕ} {p : Shelf Slot ℕ} {x : Slot} {s s' : MemPostings × (ℕ → Option SeriesRef)}
  {ref : SeriesRef}

/-- Where an id belongs in a sorted list. -/
theorem search_spec (h : Sorted xs) (id : ℕ) :
    (∀ z ∈ xs.take (search xs id), z < id) ∧ ∀ z ∈ xs.drop (search xs id), id ≤ z := by
  constructor
  · intro z hz
    obtain ⟨k, hk, rfl⟩ := List.mem_iff_getElem.mp hz
    rw [List.length_take] at hk
    obtain ⟨x, hx, hlt⟩ := lt_of_lt_search (lt_of_lt_of_le hk (min_le_left ..))
    rw [List.getElem_take]
    rw [List.getElem?_eq_getElem (lt_of_lt_of_le hk (min_le_right ..))] at hx
    cases hx
    exact hlt
  · intro z hz
    cases hrest : xs.drop (search xs id) with
    | nil =>
      rw [hrest] at hz
      cases hz
    | cons x rest =>
      have hsorted : Sorted (x :: rest) := by
        rw [← hrest]
        exact h.drop _
      rw [hrest] at hz
      have hlen : search xs id < xs.length := by
        by_contra hge
        rw [List.drop_eq_nil_of_le (not_lt.mp hge)] at hrest
        cases hrest
      have hx : xs[search xs id] = x := by
        have hcons := List.drop_eq_getElem_cons hlen
        rw [hrest] at hcons
        exact (List.cons.inj hcons).1.symm
      have hle : id ≤ xs[search xs id] := by
        exact of_decide_eq_true (List.findIdx_getElem (w := hlen))
      rw [hx] at hle
      exact le_trans hle (le_of_mem hsorted hz)

theorem getElem_search_iff (h : Sorted xs) (id : ℕ) : xs[search xs id]? = some id ↔ id ∈ xs := by
  constructor
  · exact List.mem_of_getElem?
  · intro hid
    obtain ⟨hbelow, habove⟩ := search_spec h id
    rw [← List.take_append_drop (search xs id) xs] at hid
    rcases List.mem_append.mp hid with hid | hid
    · exact absurd (hbelow id hid) (lt_irrefl id)
    · cases hrest : xs.drop (search xs id) with
      | nil =>
        rw [hrest] at hid
        cases hid
      | cons x rest =>
        have hsorted : Sorted (x :: rest) := by
          rw [← hrest]
          exact h.drop _
        rw [hrest] at hid habove
        have hx : x = id :=
          le_antisymm (le_of_mem hsorted hid) (habove x List.mem_cons_self)
        have hhead : (xs.drop (search xs id))[0]? = some x := by
          rw [hrest]
          rfl
        rw [List.getElem?_drop, Nat.add_zero] at hhead
        rw [hhead, hx]

/-- What a change of one list leaves: a sorted list of the ids it should have. -/
structure Rewrites (p : Shelf Slot ℕ) (x : Slot) (r : Heap ℕ × Slice) (has : ℕ → Prop) : Prop where
  evolves : Evolves p (p.put x r)
  sorted : Sorted ((p.put x r).content x)
  mem : ∀ z, z ∈ (p.put x r).content x ↔ has z

theorem rewrites_self (h : p.Owned) (hs : Sorted (p.content x)) {has : ℕ → Prop}
    (hmem : ∀ z, z ∈ p.content x ↔ has z) : Rewrites p x (p.heap, p.slot x) has := by
  constructor
  all_goals rw [Shelf.put_self]
  · exact Evolves.refl h
  · exact hs
  · exact hmem

theorem appendSorted_spec (h : p.Owned) (hs : Sorted (p.content x)) (id : ℕ) :
    Rewrites p x (appendSorted p.heap (p.slot x) id) (fun z => z = id ∨ z ∈ p.content x) := by
  have hpush : (∀ z ∈ p.content x, z < id) →
      Rewrites p x (p.heap.push (p.slot x) id) (fun z => z = id ∨ z ∈ p.content x) := by
    intro hlast
    have hcontent : (p.put x (p.heap.push (p.slot x) id)).content x = p.content x ++ [id] := by
      rw [Shelf.content_put_self]
      exact read_push_self (h.fits x) id
    refine ⟨evolves_push h x id, ?_, fun z => ?_⟩
    · rw [hcontent]
      refine List.pairwise_append.mpr ⟨hs, List.pairwise_singleton .., ?_⟩
      intro z hz y hy
      rw [List.mem_singleton.mp hy]
      exact hlast z hz
    · rw [hcontent, List.mem_append, List.mem_singleton, or_comm]
  unfold appendSorted
  cases hlast : (p.heap.read (p.slot x)).getLast? with
  | none =>
    refine hpush (fun z hz => ?_)
    have hnil : p.content x = [] := List.getLast?_eq_none_iff.mp hlast
    rw [hnil] at hz
    cases hz
  | some last =>
    dsimp only
    by_cases hlt : last < id
    · rw [if_pos hlt]
      refine hpush (fun z hz => ?_)
      obtain ⟨front, hfront⟩ := List.getLast?_eq_some_iff.mp hlast
      have hsorted : Sorted (front ++ [last]) := by
        rw [← hfront]
        exact hs
      have hz' : z ∈ front ++ [last] := by
        rw [← hfront]
        exact hz
      rcases List.mem_append.mp hz' with hz' | hz'
      · exact lt_trans ((List.pairwise_append.mp hsorted).2.2 z hz' last (by simp)) hlt
      · rw [List.mem_singleton.mp hz']
        exact hlt
    · rw [if_neg hlt]
      by_cases hin : (p.heap.read (p.slot x))[search (p.heap.read (p.slot x)) id]? = some id
      · rw [if_pos hin]
        refine rewrites_self h hs (fun z => ⟨Or.inr, ?_⟩)
        rintro (rfl | hz)
        · exact (getElem_search_iff hs z).mp hin
        · exact hz
      · rw [if_neg hin]
        have hno : id ∉ p.content x := fun hmem => hin ((getElem_search_iff hs id).mpr hmem)
        obtain ⟨hbelow, habove⟩ := search_spec hs id
        set i := search (p.heap.read (p.slot x)) id with hi
        refine ⟨evolves_alloc h x _ _, ?_, fun z => ?_⟩
        · rw [Shelf.content_put_self, read_alloc_self, List.append_assoc]
          refine List.pairwise_append.mpr ⟨List.Pairwise.sublist (List.take_sublist ..) hs, ?_, ?_⟩
          · refine List.Pairwise.cons ?_ (hs.drop i)
            intro z hz
            refine lt_of_le_of_ne (habove z hz) ?_
            rintro rfl
            exact hno (List.mem_of_mem_drop hz)
          · intro z hz y hy
            rcases List.mem_cons.mp hy with rfl | hy
            · exact hbelow z hz
            · exact lt_of_lt_of_le (hbelow z hz) (habove y hy)
        · rw [Shelf.content_put_self, read_alloc_self, List.append_assoc, List.mem_append,
            List.singleton_append, List.mem_cons]
          have hsplit : z ∈ p.content x ↔
              z ∈ (p.heap.read (p.slot x)).take i ∨ z ∈ (p.heap.read (p.slot x)).drop i := by
            rw [← List.mem_append, List.take_append_drop]
            rfl
          tauto

theorem removeID_spec (h : p.Owned) (hs : Sorted (p.content x)) (id : ℕ) :
    Rewrites p x (removeID p.heap (p.slot x) id) (fun z => z ≠ id ∧ z ∈ p.content x) := by
  unfold removeID
  set ids := p.heap.read (p.slot x)
  by_cases hin : ids[search ids id]? = some id
  · simp only [if_pos hin]
    set i := search ids id with hi
    obtain ⟨hlen, hat⟩ := List.getElem?_eq_some_iff.mp hin
    have hsplit : p.content x = ids.take i ++ id :: ids.drop (i + 1) := by
      rw [← hat, ← List.drop_eq_getElem_cons hlen, List.take_append_drop]
      rfl
    have hsorted := hs
    rw [hsplit] at hsorted
    have hsub : List.Sublist (ids.take i ++ ids.drop (i + 1)) (p.content x) := by
      rw [hsplit]
      exact (List.Sublist.refl _).append (List.sublist_cons_self ..)
    refine ⟨evolves_alloc h x _ _, ?_, fun z => ?_⟩
    · rw [Shelf.content_put_self, read_alloc_self]
      exact List.Pairwise.sublist hsub hs
    · rw [Shelf.content_put_self, read_alloc_self]
      constructor
      · intro hz
        refine ⟨?_, hsub.subset hz⟩
        rintro rfl
        obtain ⟨-, hafter, hcross⟩ := List.pairwise_append.mp hsorted
        rcases List.mem_append.mp hz with hz | hz
        · exact lt_irrefl z (hcross z hz z List.mem_cons_self)
        · exact lt_irrefl z (List.rel_of_pairwise_cons hafter hz)
      · rintro ⟨hne, hz⟩
        rw [hsplit] at hz
        rcases List.mem_append.mp hz with hz | hz
        · exact List.mem_append_left _ hz
        · exact List.mem_append_right _ ((List.mem_cons.mp hz).resolve_left hne)
  · simp only [if_neg hin]
    refine rewrites_self h hs (fun z => ⟨fun hz => ⟨?_, hz⟩, And.right⟩)
    rintro rfl
    exact hin ((getElem_search_iff hs z).mpr hz)

theorem shelf_ext {p' : Shelf Slot ℕ} (hheap : p.heap = p'.heap)
    (hnone : p.slot none = p'.slot none)
    (hsome : ∀ key value, p.slot (some (key, value)) = p'.slot (some (key, value))) : p = p' := by
  obtain ⟨heap, slot⟩ := p
  cases hheap
  congr 1
  funext x
  cases x with
  | none => exact hnone
  | some kv => exact hsome kv.1 kv.2

/-- Where a term's list is read after its key's values were replaced. -/
theorem list_insert (p : MemPostings) (heap : Heap ℕ) (key : GoString) (vals : Values)
    (key' value' : GoString) :
    ({ p with heap := heap, m := p.m.insert key vals } : MemPostings).list key' value' =
      if key' = key then (vals.lookup value').getD Slice.nil else p.list key' value' := by
  unfold MemPostings.list
  by_cases hkey : key' = key
  · rw [if_pos hkey, hkey]
    simp only [AList.lookup_insert, Option.bind_some]
  · rw [if_neg hkey]
    simp only [AList.lookup_insert_ne hkey]

section Filing

variable {p p' : MemPostings} {x : Slot} {id : ℕ} {ref : SeriesRef} {r : Heap ℕ × Slice}
  {live : ℕ → Option SeriesRef}

theorem list_eq (p : MemPostings) (key value : GoString) :
    p.list key value = (((p.m.lookup key).getD ∅).lookup value).getD Slice.nil := by
  unfold MemPostings.list
  cases p.m.lookup key with
  | none => rfl
  | some vals => rfl

/-- One list is replaced when its key's values are replaced by others that differ in its value
only. -/
theorem shelf_replaced {key value : GoString} (vals : Values) {list : Slice} (hall : p'.all = p.all)
    (hlist : ∀ key' value', p'.list key' value' =
      if key' = key then (vals.lookup value').getD Slice.nil else p.list key' value')
    (hself : (vals.lookup value).getD Slice.nil = list) (hother : ∀ value', value' ≠ value →
      vals.lookup value' = ((p.m.lookup key).getD ∅).lookup value') :
    p'.shelf = p.shelf.put (some (key, value)) (p'.heap, list) := by
  refine shelf_ext rfl ?_ (fun key' value' => (hlist key' value').trans ?_)
  · exact hall
  · by_cases hkey : key' = key
    · rw [if_pos hkey, hkey]
      by_cases hvalue : value' = value
      · rw [hvalue, hself, Shelf.slot_put_self]
      · rw [hother value' hvalue, ← list_eq, Shelf.slot_put_ne _ (by simp [hvalue])]
        rfl
    · rw [if_neg hkey, Shelf.slot_put_ne _ (by simp [hkey])]
      rfl

theorem shelf_addTerm (p : MemPostings) (key value : GoString) (id : ℕ) :
    (p.addTerm key value id).shelf =
      p.shelf.put (some (key, value)) (appendSorted p.heap (p.list key value) id) := by
  rw [list_eq]
  refine shelf_replaced _ rfl (list_insert p _ key _) ?_ (fun _ hne => AList.lookup_insert_ne hne)
  rw [AList.lookup_insert]
  rfl

def pruned (r : Heap ℕ × Slice) : Heap ℕ × Slice := (r.1, if r.2.len = 0 then Slice.nil else r.2)

theorem shelf_removeTerm (p : MemPostings) (key value : GoString) (id : ℕ) :
    (p.removeTerm key value id).shelf =
      p.shelf.put (some (key, value)) (pruned (removeID p.heap (p.list key value) id)) := by
  unfold MemPostings.removeTerm
  cases hm : p.m.lookup key with
  | none =>
    have hlist : p.list key value = Slice.nil := by
      rw [list_eq, hm]
      rfl
    have hsame : pruned (removeID p.heap Slice.nil id) = (p.heap, Slice.nil) := by
      rfl
    rw [hlist, hsame, ← hlist]
    exact (Shelf.put_self p.shelf (some (key, value))).symm
  | some vals =>
    dsimp only
    have hvals : (p.m.lookup key).getD ∅ = vals := by rw [hm, Option.getD_some]
    rw [list_eq, hvals]
    set r := removeID p.heap ((vals.lookup value).getD Slice.nil) id with hr
    unfold pruned
    by_cases hlen : r.2.len = 0
    · rw [if_pos hlen, if_pos hlen]
      refine shelf_replaced (vals.erase value) rfl (fun key' value' => ?_)
        (by rw [AList.lookup_erase, Option.getD_none])
        (fun _ hne => by rw [AList.lookup_erase_ne hne, hvals])
      by_cases hempty : (vals.erase value).keys = []
      · rw [if_pos hempty]
        unfold MemPostings.list
        by_cases hkey : key' = key
        · have hnone : (vals.erase value).lookup value' = none := by
            rw [AList.lookup_eq_none, AList.mem_keys, hempty]
            exact List.not_mem_nil
          rw [hkey, hnone]
          simp only [AList.lookup_erase]
          rfl
        · rw [if_neg hkey]
          simp only [AList.lookup_erase_ne hkey]
      · rw [if_neg hempty]
        exact list_insert p r.1 key _ key' value'
    · rw [if_neg hlen, if_neg hlen]
      exact shelf_replaced _ rfl (list_insert p r.1 key _)
        (by rw [AList.lookup_insert, Option.getD_some])
        (fun _ hne => by rw [AList.lookup_insert_ne hne, hvals])

variable {has : ℕ → Prop}

/-- A list that a change leaves empty may as well be let go. -/
theorem Rewrites.pruned {p : Shelf Slot ℕ} (h : Rewrites p x r has) :
    Rewrites p x (pruned r) has := by
  unfold Postings.pruned
  by_cases hlen : r.2.len = 0
  · rw [if_pos hlen]
    have hclear : Evolves (p.put x r) (p.put x (r.1, Slice.nil)) := by
      have hstep := evolves_clear h.evolves.owned x
      rw [Shelf.put_put] at hstep
      exact hstep
    have hempty : (p.put x (r.1, Slice.nil)).content x = (p.put x r).content x := by
      rw [Shelf.content_put_self, Shelf.content_put_self, read_nil _ hlen]
      exact read_nil _ rfl
    refine ⟨h.evolves.trans hclear, ?_, ?_⟩
    · rw [hempty]
      exact h.sorted
    · intro z
      rw [hempty]
      exact h.mem z
  · rw [if_neg hlen]
    exact h

/-- The index is well formed: its lists are owned apart and sorted. -/
structure MemPostings.Tidy (p : MemPostings) : Prop where
  owned : p.shelf.Owned
  sorted : ∀ x, Sorted (p.shelf.content x)

/-- What a change of several lists does: in each slot the ids that should be there. -/
structure Files (p p' : MemPostings) (has : Slot → ℕ → Prop) : Prop where
  evolves : Evolves p.shelf p'.shelf
  tidy : p'.Tidy
  mem : ∀ x z, z ∈ p'.shelf.content x ↔ has x z

theorem files_of_rewrites (h : p.Tidy) (hr : Rewrites p.shelf x r has)
    (hp : p'.shelf = p.shelf.put x r) :
    Files p p' (fun y z => if y = x then has z else z ∈ p.shelf.content y) := by
  have hother : ∀ y, y ≠ x → p'.shelf.content y = p.shelf.content y := by
    intro y hy
    rw [hp]
    exact hr.evolves.content_other h.owned hy
  refine ⟨by rw [hp]; exact hr.evolves, ⟨by rw [hp]; exact hr.evolves.owned, fun y => ?_⟩, ?_⟩
  · by_cases hy : y = x
    · rw [hy, hp]
      exact hr.sorted
    · rw [hother y hy]
      exact h.sorted y
  · intro y z
    by_cases hy : y = x
    · rw [if_pos hy, hy, hp]
      exact hr.mem z
    · rw [if_neg hy, hother y hy]

def FiledIn (ref : SeriesRef) : Slot → Prop
  | none => True
  | some (key, value) => ⟨key, value⟩ ∈ terms ref

theorem exists_term_iff (ref : SeriesRef) (key value : GoString) :
    (∃ t ∈ terms ref, some (key, value) = some (t.key, t.value)) ↔
      FiledIn ref (some (key, value)) := by
  constructor
  · rintro ⟨t, ht, heq⟩
    cases heq
    exact ht
  · intro ht
    exact ⟨_, ht, rfl⟩

section Series

/- An id is put into some slots, or taken out of them: `f` says what is in a slot afterwards, from
whether the id is meant there and what was in it. -/
variable {f : Prop → Prop → Prop} (hnone : ∀ old, f False old ↔ old)
  (htwice : ∀ a b old, f b (f a old) ↔ f (a ∨ b) old)
include hnone

theorem files_slot (h : p.Tidy)
    (hr : Rewrites p.shelf x r (fun z => f (z = id) (z ∈ p.shelf.content x)))
    (hp : p'.shelf = p.shelf.put x r) :
    Files p p' (fun y z => f (z = id ∧ y = x) (z ∈ p.shelf.content y)) := by
  have hf := files_of_rewrites h hr hp
  refine ⟨hf.evolves, hf.tidy, fun y z => ?_⟩
  rw [hf.mem]
  by_cases hy : y = x
  · simp only [hy, if_true, and_true]
  · simp only [hy, if_false, and_false, hnone]

include htwice

theorem files_terms (h : p.Tidy) {op : MemPostings → Tag → MemPostings}
    (hop : ∀ {p : MemPostings}, p.Tidy → ∀ t : Tag, Files p (op p t)
      (fun y z => f (z = id ∧ y = some (t.key, t.value)) (z ∈ p.shelf.content y))) (ts : List Tag) :
    Files p (ts.foldl op p)
      (fun y z => f (z = id ∧ ∃ t ∈ ts, y = some (t.key, t.value)) (z ∈ p.shelf.content y)) := by
  induction ts generalizing p with
  | nil => exact ⟨Evolves.refl h.owned, h, fun y z => by simp [hnone]⟩
  | cons t ts ih =>
    have hstep := hop h t
    have hrest := ih hstep.tidy
    refine ⟨hstep.evolves.trans hrest.evolves, hrest.tidy, fun y z => ?_⟩
    rw [List.foldl_cons, hrest.mem, hstep.mem, htwice, List.exists_mem_cons_iff, ← and_or_left]

/-- After the terms of a series comes the list of all ids. -/
theorem files_series {q : MemPostings}
    (hterms : Files p q (fun y z => f (z = id ∧ ∃ t ∈ terms ref, y = some (t.key, t.value))
      (z ∈ p.shelf.content y)))
    (hr : Rewrites q.shelf none r (fun z => f (z = id) (z ∈ q.shelf.content none))) :
    Files p { q with heap := r.1, all := r.2 }
      (fun y z => f (z = id ∧ FiledIn ref y) (z ∈ p.shelf.content y)) := by
  have hshelf : MemPostings.shelf { q with heap := r.1, all := r.2 } = q.shelf.put none r :=
    shelf_ext rfl (Shelf.slot_put_self _ _ _).symm
      (fun _ _ => (Shelf.slot_put_ne _ (by simp) _).symm)
  have hall := files_slot hnone hterms.tidy hr hshelf
  refine ⟨hterms.evolves.trans hall.evolves, hall.tidy, fun y z => ?_⟩
  rw [hall.mem, hterms.mem, htwice]
  cases y with
  | none => simp [FiledIn]
  | some kv => simp only [reduceCtorEq, and_false, or_false, exists_term_iff]

end Series

theorem files_add (h : p.Tidy) (id : ℕ) (ref : SeriesRef) :
    Files p (p.add id ref) (fun y z => z = id ∧ FiledIn ref y ∨ z ∈ p.shelf.content y) := by
  have hnone : ∀ old, Or False old ↔ old := by simp
  have htwice : ∀ a b old : Prop, b ∨ a ∨ old ↔ (a ∨ b) ∨ old := by tauto
  have hterms := files_terms hnone htwice h (fun hp t => files_slot hnone hp
    (appendSorted_spec hp.owned (hp.sorted (some (t.key, t.value))) id)
    (shelf_addTerm _ t.key t.value id)) (terms ref)
  exact files_series hnone htwice hterms
    (appendSorted_spec hterms.tidy.owned (hterms.tidy.sorted none) id)

def Without (a old : Prop) : Prop := ¬ a ∧ old

theorem files_delete (h : p.Tidy) (id : ℕ) (ref : SeriesRef) :
    Files p (p.delete id ref) (fun y z => ¬ (z = id ∧ FiledIn ref y) ∧ z ∈ p.shelf.content y) := by
  have hnone : ∀ old, Without False old ↔ old := by simp [Without]
  have htwice : ∀ a b old, Without b (Without a old) ↔ Without (a ∨ b) old := by
    unfold Without
    tauto
  have hterms := files_terms hnone htwice h (fun hp t => files_slot hnone hp
    (removeID_spec hp.owned (hp.sorted (some (t.key, t.value))) id).pruned
    (shelf_removeTerm _ t.key t.value id)) (terms ref)
  exact files_series hnone htwice hterms
    (removeID_spec hterms.tidy.owned (hterms.tidy.sorted none) id)

structure Filed (p : MemPostings) (live : ℕ → Option SeriesRef) : Prop where
  tidy : p.Tidy
  mem : ∀ x z, z ∈ p.shelf.content x ↔ ∃ ref, live z = some ref ∧ FiledIn ref x

theorem filed_new : Filed MemPostings.new (fun _ => none) := by
  have hnil : ∀ x, MemPostings.new.shelf.slot x = Slice.nil := by
    intro x
    cases x <;> rfl
  have hcontent : ∀ x, MemPostings.new.shelf.content x = [] := by
    intro x
    unfold Shelf.content
    rw [hnil x]
    exact read_nil _ rfl
  refine ⟨⟨⟨fun x => ?_, fun x y _ hx => ?_⟩, fun x => ?_⟩, fun x z => ?_⟩
  · rw [hnil x]
    exact ⟨le_rfl, fun h0 => absurd rfl h0, fun h0 => absurd rfl h0⟩
  · rw [hnil x] at hx
    exact absurd rfl hx
  · rw [hcontent x]
    exact List.Pairwise.nil
  · rw [hcontent x]
    simp

theorem Filed.add (h : Filed p live) (hid : live id = none) (ref : SeriesRef) :
    Filed (p.add id ref) (Function.update live id (some ref)) := by
  have hf := files_add h.tidy id ref
  refine ⟨hf.tidy, fun x z => ?_⟩
  rw [hf.mem, h.mem]
  by_cases hz : z = id
  · simp [hz, hid]
  · simp [hz]

theorem Filed.delete (h : Filed p live) (hid : live id = some ref ∨ live id = none) :
    Filed (p.delete id ref) (Function.update live id none) := by
  have hf := files_delete h.tidy id ref
  refine ⟨hf.tidy, fun x z => ?_⟩
  rw [hf.mem, h.mem]
  by_cases hz : z = id
  · rcases hid with hid | hid
    · simp [hz, hid]
    · simp [hz, hid]
  · simp [hz]

theorem Filed.indexes (h : Filed p live) : Indexes p.lookup live where
  sorted key value := h.tidy.sorted (some (key, value))
  mem_postings key value id := h.mem (some (key, value)) id
  mem_tagValues key value := by
    rintro ⟨id, hid⟩
    change id ∈ p.heap.read (p.list key value) at hid
    have hkeys : p.lookup.tagValues key = ((p.m.lookup key).getD ∅).keys := by
      dsimp only [MemPostings.lookup]
      cases p.m.lookup key with
      | none => rfl
      | some vals => rfl
    rw [hkeys, ← AList.mem_keys, ← AList.lookup_isSome]
    rw [list_eq] at hid
    cases hv : ((p.m.lookup key).getD ∅).lookup value with
    | none =>
      rw [hv, Option.getD_none] at hid
      cases hid
    | some list => rfl
  sorted_all := h.tidy.sorted none
  mem_all id := by
    change id ∈ p.shelf.content none ↔ _
    rw [h.mem]
    simp only [FiledIn, and_true]

end Filing

/-- One call of `Add` for an id that is not live, or of `Delete` for a live series or an id
that is not live. No tag has the key under which metric names are filed. -/
inductive Step : MemPostings × (ℕ → Option SeriesRef) → MemPostings × (ℕ → Option SeriesRef) → Prop
  | add {p live} (id : ℕ) (ref : SeriesRef) (hid : live id = none)
      (htags : ∀ t ∈ ref.tags, t.key ≠ metricName) :
      Step (p, live) (p.add id ref, Function.update live id (some ref))
  | delete {p live} (id : ℕ) (ref : SeriesRef) (hid : live id = some ref ∨ live id = none) :
      Step (p, live) (p.delete id ref, Function.update live id none)

def Reachable : MemPostings × (ℕ → Option SeriesRef) → Prop :=
  Relation.ReflTransGen Step (MemPostings.new, fun _ => none)

theorem evolves_step (h : Filed s.1 s.2) (hstep : Step s s') :
    Filed s'.1 s'.2 ∧ Evolves s.1.shelf s'.1.shelf := by
  cases hstep with
  | add id ref hid htags => exact ⟨h.add hid ref, (files_add h.tidy id ref).evolves⟩
  | delete id ref hid => exact ⟨h.delete hid, (files_delete h.tidy id ref).evolves⟩

theorem evolves_steps (h : Filed s.1 s.2) (hsteps : Relation.ReflTransGen Step s s') :
    Filed s'.1 s'.2 ∧ Evolves s.1.shelf s'.1.shelf := by
  induction hsteps with
  | refl => exact ⟨h, Evolves.refl h.tidy.owned⟩
  | tail _ hstep ih =>
    obtain ⟨hfiled, hevolves⟩ := evolves_step ih.1 hstep
    exact ⟨hfiled, ih.2.trans hevolves⟩

theorem filed_reachable (h : Reachable s) : Filed s.1 s.2 :=
  (evolves_steps filed_new h).1

theorem tags_reachable (h : Reachable s) {id : ℕ} (href : s.2 id = some ref) :
    ∀ t ∈ ref.tags, t.key ≠ metricName := by
  induction h with
  | refl => cases href
  | tail _ hstep ih =>
    cases hstep with
    | add id' ref' hid htags =>
      by_cases hz : id = id'
      · rw [hz] at href
        simp only [Function.update_self, Option.some.injEq] at href
        rw [← href]
        exact htags
      · simp only [Function.update_of_ne hz] at href
        exact ih href
    | delete id' ref' hid =>
      by_cases hz : id = id'
      · rw [hz] at href
        simp at href
      · simp only [Function.update_of_ne hz] at href
        exact ih href

/-- What a matcher looks at: the metric name if it has the key of metric names. -/
def scope (m : Matcher) (ref : SeriesRef) : List Tag :=
  if m.key = metricName then [⟨metricName, ref.metric⟩] else ref.tags

theorem has_cons (m : Matcher) (t : Tag) (ts : List Tag) :
    m.has (t :: ts) = (m.has [t] || m.has ts) := by
  unfold Matcher.has
  rw [List.any_cons, List.any_cons, List.any_nil, Bool.or_false]

theorem has_of_no_key {m : Matcher} {ts : List Tag} (h : ∀ t ∈ ts, t.key ≠ m.key) :
    m.has ts = false := by
  unfold Matcher.has
  rw [List.any_eq_false]
  intro t ht
  simp [h t ht]

theorem has_terms (htags : ∀ t ∈ ref.tags, t.key ≠ metricName) (m : Matcher) :
    m.has (terms ref) = m.has (scope m ref) := by
  unfold terms scope
  rw [has_cons]
  by_cases hkey : m.key = metricName
  · have hnone : m.has ref.tags = false := by
      refine has_of_no_key ?_
      rw [hkey]
      exact htags
    rw [if_pos hkey, hnone, Bool.or_false]
  · have hnone : m.has [⟨metricName, ref.metric⟩] = false := by
      refine has_of_no_key ?_
      intro t ht
      rw [List.mem_singleton.mp ht]
      exact fun heq => hkey heq.symm
    rw [if_neg hkey, hnone, Bool.false_or]

theorem selects_iff {sel : Selector} (hmetric : sel.metric ≠ [])
    (htags : ∀ t ∈ ref.tags, t.key ≠ metricName) :
    sel.selects ref = true ↔
      ref.metric = sel.metric ∧ ∀ m ∈ sel.matchers, m.holds (scope m ref) = true := by
  unfold Selector.selects
  rw [Bool.and_eq_true, Bool.or_eq_true, decide_eq_true_eq, decide_eq_true_eq, List.all_eq_true]
  refine and_congr ?_ ?_
  · constructor
    · rintro (hnil | hterm)
      · exact absurd hnil hmetric
      · rcases List.mem_cons.mp hterm with heq | hterm
        · exact (Tag.mk.inj heq).2.symm
        · exact absurd rfl (htags _ hterm)
    · intro heq
      right
      rw [← heq]
      exact List.mem_cons_self
  · refine forall_congr' (fun m => forall_congr' (fun _ => ?_))
    rw [holds_iff, holds_iff, has_terms htags]

/-- Whatever series came and went, the selection is the ascending list of the live ids that the
reference semantics selects, where a matcher with the key of metric names looks at the metric
name; and a list that was handed out reads the same after any further calls. -/
theorem select_reachable {p : MemPostings} {live : ℕ → Option SeriesRef} (h : Reachable (p, live))
    (sel : Selector) (hmetric : sel.metric ≠ []) :
    Sorted (p.select sel) ∧
    (∀ id, id ∈ p.select sel ↔ ∃ ref, live id = some ref ∧ ref.metric = sel.metric ∧
      ∀ m ∈ sel.matchers, m.holds (scope m ref) = true) ∧
    ((∀ m ∈ sel.matchers, m.key ≠ metricName) →
      ∀ id, id ∈ p.select sel ↔ ∃ ref, live id = some ref ∧ Selector.matches sel ref = true) ∧
    ∀ p' live', Relation.ReflTransGen Step (p, live) (p', live') →
      ∀ key value, p'.heap.read (p.list key value) = p.heap.read (p.list key value) := by
  have hfiled := filed_reachable h
  obtain ⟨hsorted, hmem⟩ := select_spec hfiled.indexes sel
  have hids : ∀ id, id ∈ p.select sel ↔ ∃ ref, live id = some ref ∧ ref.metric = sel.metric ∧
      ∀ m ∈ sel.matchers, m.holds (scope m ref) = true := by
    intro id
    refine (hmem id).trans (exists_congr (fun ref => and_congr_right (fun href => ?_)))
    exact selects_iff hmetric (tags_reachable h href)
  refine ⟨hsorted, hids, fun hkeys id => ?_, fun p' live' hsteps key value => ?_⟩
  · rw [hids]
    refine exists_congr (fun ref => and_congr_right (fun _ => ?_))
    unfold Selector.matches
    rw [Bool.and_eq_true, decide_eq_true_eq, List.all_eq_true]
    refine and_congr_right (fun _ => forall_congr' (fun m => forall_congr' (fun hm => ?_)))
    unfold scope
    rw [if_neg (hkeys m hm)]
  · exact (evolves_steps hfiled hsteps).2.read_eq _
      (hfiled.tidy.owned.settled_slot (some (key, value)))

def bareRef : SeriesRef := ⟨[0x6d], []⟩

def namedSelector : Selector := ⟨[0x6d], [⟨metricName, [0x6d], .equal⟩]⟩

theorem reachable_bare :
    Reachable (MemPostings.new.add 1 bareRef, Function.update (fun _ => none) 1 (some bareRef)) :=
  .single (.add 1 bareRef rfl nofun)

def twoHosts : SeriesRef := ⟨[0x6d], [⟨[0x68], [0x61]⟩, ⟨[0x68], [0x62]⟩, ⟨[0x7a], [0x31]⟩]⟩

def oneHost : SeriesRef := ⟨[0x6d], [⟨[0x68], [0x62]⟩]⟩

def hosts : MemPostings × (ℕ → Option SeriesRef) :=
  ((MemPostings.new.add 5 twoHosts).add 2 oneHost,
    Function.update (Function.update (fun _ => none) 5 (some twoHosts)) 2 (some oneHost))

def fewerHosts : MemPostings × (ℕ → Option SeriesRef) :=
  (hosts.1.delete 5 twoHosts, Function.update hosts.2 5 none)

theorem reachable_hosts : Reachable hosts := by
  refine .tail (.single (.add 5 twoHosts rfl (by decide))) (.add 2 oneHost ?_ (by decide))
  exact Function.update_of_ne (by decide) ..

theorem step_fewerHosts : Step hosts fewerHosts :=
  .delete 5 twoHosts (.inl (Function.update_of_ne (by decide) ..))

def zonelessSelector : Selector :=
  ⟨[0x6d], [⟨[0x68], [0x62, star], .wildcard⟩, ⟨[0x7a], [0x31], .notEqual⟩]⟩

def hostSelector : Selector := ⟨[0x6d], [⟨[0x68], [0x62], .equal⟩]⟩

theorem select_reachable_hosts :
    (∀ id, id ∈ hosts.1.select zonelessSelector ↔ id = 2) ∧
    (∀ id, id ∈ hosts.1.select hostSelector ↔ id = 2 ∨ id = 5) ∧
    (∀ id, id ∈ fewerHosts.1.select hostSelector ↔ id = 2) ∧
    fewerHosts.1.heap.read (hosts.1.list [0x68] [0x62]) =
      hosts.1.heap.read (hosts.1.list [0x68] [0x62]) := by
  have hlive : ∀ id ref, hosts.2 id = some ref ↔
      id = 2 ∧ oneHost = ref ∨ id = 5 ∧ twoHosts = ref := by
    intro id ref
    by_cases h2 : id = 2
    · simp [hosts, h2]
    · by_cases h5 : id = 5
      · simp [hosts, h5]
      · simp [hosts, h2, h5]
  have hfewer : ∀ id ref, fewerHosts.2 id = some ref ↔ id = 2 ∧ oneHost = ref := by
    intro id ref
    by_cases h5 : id = 5
    · simp [fewerHosts, h5]
    · simp [fewerHosts, h5, hlive]
  have hzoneless : ∀ id, id ∈ hosts.1.select zonelessSelector ↔
      ∃ ref, hosts.2 id = some ref ∧ Selector.matches zonelessSelector ref = true :=
    (select_reachable reachable_hosts zonelessSelector (List.cons_ne_nil _ _)).2.2.1 (by decide)
  have hhost : ∀ id, id ∈ hosts.1.select hostSelector ↔
      ∃ ref, hosts.2 id = some ref ∧ Selector.matches hostSelector ref = true :=
    (select_reachable reachable_hosts hostSelector (List.cons_ne_nil _ _)).2.2.1 (by decide)
  have hleft : ∀ id, id ∈ fewerHosts.1.select hostSelector ↔
      ∃ ref, fewerHosts.2 id = some ref ∧ Selector.matches hostSelector ref = true :=
    (select_reachable (.tail reachable_hosts step_fewerHosts) hostSelector
      (List.cons_ne_nil _ _)).2.2.1 (by decide)
  have hone : Selector.matches zonelessSelector oneHost = true ∧
      Selector.matches hostSelector oneHost = true := by decide
  have htwo : Selector.matches zonelessSelector twoHosts = false ∧
      Selector.matches hostSelector twoHosts = true := by decide
  refine ⟨fun id => ?_, fun id => ?_, fun id => ?_, ?_⟩
  · simp [hzoneless, hlive, or_and_right, exists_or, and_assoc, hone, htwo]
  · simp [hhost, hlive, or_and_right, exists_or, and_assoc, hone, htwo]
  · simp [hleft, hfewer, and_assoc, hone]
  · exact (select_reachable reachable_hosts hostSelector (List.cons_ne_nil _ _)).2.2.2 _ _
      (.single step_fewerHosts) _ _

/-- A matcher with the key of metric names selects a series that carries no such tag. -/
theorem name_matcher_selects :
    Reachable (MemPostings.new.add 1 bareRef, Function.update (fun _ => none) 1 (some bareRef)) ∧
      1 ∈ (MemPostings.new.add 1 bareRef).select namedSelector ∧
      Selector.matches namedSelector bareRef = false := by
  refine ⟨reachable_bare, ?_, by decide⟩
  refine ((select_spec (filed_reachable reachable_bare).indexes namedSelector).2 1).mpr ?_
  exact ⟨bareRef, rfl, by decide⟩

end Ozymandias.Postings
