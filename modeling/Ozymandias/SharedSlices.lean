import Mathlib.Order.Lattice

/-!
Slices that are handed out while their owner goes on appending. Each slot owns
an array; appending writes behind the slot's length, or moves to a new array,
and everything else the owner does is to allocate. A slice that was a slot's
at some time therefore reads the same for ever, without being copied.
-/
namespace Ozymandias.SharedSlices

variable {α S : Type}

/-- Backing arrays by address; addresses from `next` on are unused. -/
structure Heap (α : Type) where
  next : ℕ
  arrays : ℕ → List α

structure Slice where
  arr : ℕ
  len : ℕ
  cap : ℕ
  deriving DecidableEq

def Slice.nil : Slice := ⟨0, 0, 0⟩

def Heap.read (h : Heap α) (s : Slice) : List α := (h.arrays s.arr).take s.len

def Heap.alloc [Inhabited α] (h : Heap α) (xs : List α) (cap : ℕ) : Heap α × Slice :=
  (⟨h.next + 1, Function.update h.arrays h.next (xs ++ List.replicate (cap - xs.length) default)⟩,
    ⟨h.next, xs.length, max xs.length cap⟩)

def Heap.store (h : Heap α) (arr i : ℕ) (x : α) : Heap α :=
  { h with arrays := Function.update h.arrays arr ((h.arrays arr).set i x) }

def Slice.longer (s : Slice) : Slice := { s with len := s.len + 1 }

/-- `append` of one element. How far a full slice grows is left to the runtime;
doubling stands for it and nothing depends on the factor. -/
def Heap.push [Inhabited α] (h : Heap α) (s : Slice) (x : α) : Heap α × Slice :=
  if s.len < s.cap then (h.store s.arr s.len x, s.longer)
  else h.alloc (h.read s ++ [x]) (2 * (s.len + 1))

structure Shelf (S α : Type) where
  heap : Heap α
  slot : S → Slice

def Shelf.content (p : Shelf S α) (x : S) : List α := p.heap.read (p.slot x)

/-- Whether a slice fits its array; without capacity it has none. -/
structure Fits (h : Heap α) (s : Slice) : Prop where
  len_le : s.len ≤ s.cap
  allocated : s.cap ≠ 0 → s.arr < h.next
  cap_le : s.cap ≠ 0 → s.cap ≤ (h.arrays s.arr).length

structure Shelf.Owned (p : Shelf S α) : Prop where
  fits : ∀ x, Fits p.heap (p.slot x)
  apart : ∀ x y, x ≠ y → (p.slot x).cap ≠ 0 → (p.slot y).cap ≠ 0 →
    (p.slot x).arr ≠ (p.slot y).arr

/-- A slice that the owner of its array, if any, has not fallen behind. -/
structure Shelf.Settled (p : Shelf S α) (s : Slice) : Prop where
  allocated : s.len ≠ 0 → s.arr < p.heap.next
  owner : ∀ x, (p.slot x).cap ≠ 0 → (p.slot x).arr = s.arr → s.len ≤ (p.slot x).len

/-- What every step of the owner does to slices that were handed out. -/
structure Evolves (p p' : Shelf S α) : Prop where
  owned : p'.Owned
  settled : ∀ s, p.Settled s → p'.Settled s
  read_eq : ∀ s, p.Settled s → p'.heap.read s = p.heap.read s

variable (h : Heap α) {p : Shelf S α} {s : Slice} {x : S} (xs : List α)

theorem Evolves.refl (h : p.Owned) : Evolves p p :=
  ⟨h, fun _ hs => hs, fun _ _ => rfl⟩

theorem Evolves.trans {p' p'' : Shelf S α} (h : Evolves p p') (h' : Evolves p' p'') :
    Evolves p p'' where
  owned := h'.owned
  settled s hs := h'.settled s (h.settled s hs)
  read_eq s hs := (h'.read_eq s (h.settled s hs)).trans (h.read_eq s hs)

theorem read_nil (hs : s.len = 0) : h.read s = [] := by
  unfold Heap.read
  rw [hs, List.take_zero]

/-- A slot's own slice may be handed out at any time. -/
theorem Shelf.Owned.settled_slot (h : p.Owned) (x : S) : p.Settled (p.slot x) where
  allocated hlen := by
    refine (h.fits x).allocated ?_
    have := (h.fits x).len_le
    omega
  owner y hcap harr := by
    by_cases hxy : x = y
    · exact le_of_eq (by rw [hxy])
    · by_cases hx : (p.slot x).cap = 0
      · have := (h.fits x).len_le
        omega
      · exact absurd harr.symm (h.apart x y hxy hx hcap)

variable [DecidableEq S]

def Shelf.put (p : Shelf S α) (x : S) (r : Heap α × Slice) : Shelf S α :=
  ⟨r.1, Function.update p.slot x r.2⟩

theorem Shelf.slot_put_ne (p : Shelf S α) {y : S} (h : y ≠ x) (r : Heap α × Slice) :
    (p.put x r).slot y = p.slot y :=
  Function.update_of_ne h _ _

theorem Shelf.slot_put_self (p : Shelf S α) (x : S) (r : Heap α × Slice) :
    (p.put x r).slot x = r.2 :=
  Function.update_self ..

theorem Shelf.put_self (p : Shelf S α) (x : S) : p.put x (p.heap, p.slot x) = p := by
  unfold Shelf.put
  rw [Function.update_eq_self]

theorem Shelf.put_put (p : Shelf S α) (x : S) (r r' : Heap α × Slice) :
    (p.put x r).put x r' = p.put x r' := by
  unfold Shelf.put
  rw [Function.update_idem]

/-- Other slots keep their content when one evolves. -/
theorem Evolves.content_other (h : p.Owned) {r : Heap α × Slice} (he : Evolves p (p.put x r))
    {y : S} (hy : y ≠ x) : (p.put x r).content y = p.content y := by
  unfold Shelf.content
  rw [Shelf.slot_put_ne _ hy]
  exact he.read_eq _ (h.settled_slot y)

theorem Shelf.content_put_self (p : Shelf S α) (x : S) (r : Heap α × Slice) :
    (p.put x r).content x = r.1.read r.2 := by
  unfold Shelf.content
  rw [Shelf.slot_put_self]
  rfl

variable [Inhabited α] (cap : ℕ)

omit [DecidableEq S] in
theorem read_alloc_self : (h.alloc xs cap).1.read (h.alloc xs cap).2 = xs := by
  simp [Heap.read, Heap.alloc]

omit [DecidableEq S] in
theorem arrays_alloc {a : ℕ} (ha : a ≠ h.next) : (h.alloc xs cap).1.arrays a = h.arrays a :=
  Function.update_of_ne ha ..

omit [DecidableEq S] in
/-- A new array touches none of the old ones. -/
theorem read_alloc_of_lt (hs : s.len ≠ 0 → s.arr < h.next) :
    (h.alloc xs cap).1.read s = h.read s := by
  by_cases hlen : s.len = 0
  · rw [read_nil _ hlen, read_nil _ hlen]
  · have hne : s.arr ≠ h.next := ne_of_lt (hs hlen)
    unfold Heap.read
    rw [arrays_alloc h xs cap hne]

omit [DecidableEq S] in
theorem fits_alloc_self : Fits (h.alloc xs cap).1 (h.alloc xs cap).2 where
  len_le := le_max_left ..
  allocated _ := Nat.lt_succ_self _
  cap_le _ := by
    have hself : (h.alloc xs cap).1.arrays h.next =
        xs ++ List.replicate (cap - xs.length) default := Function.update_self ..
    show max xs.length cap ≤ ((h.alloc xs cap).1.arrays h.next).length
    rw [hself, List.length_append, List.length_replicate]
    omega

omit [DecidableEq S] in
theorem fits_alloc {h : Heap α} (hs : Fits h s) : Fits (h.alloc xs cap).1 s where
  len_le := hs.len_le
  allocated hcap := Nat.lt_succ_of_lt (hs.allocated hcap)
  cap_le hcap := by
    rw [arrays_alloc h xs cap (ne_of_lt (hs.allocated hcap))]
    exact hs.cap_le hcap

theorem evolves_alloc (h : p.Owned) (x : S) (xs : List α) (cap : ℕ) :
    Evolves p (p.put x (p.heap.alloc xs cap)) where
  owned := by
    constructor
    · intro y
      by_cases hyx : y = x
      · rw [hyx, Shelf.slot_put_self]
        exact fits_alloc_self ..
      · rw [Shelf.slot_put_ne _ hyx]
        exact fits_alloc xs cap (h.fits y)
    · intro y z hyz hy hz
      have hold : ∀ w, w ≠ x → (p.slot w).cap ≠ 0 → (p.slot w).arr ≠ p.heap.next :=
        fun w _ hw => ne_of_lt ((h.fits w).allocated hw)
      by_cases hyx : y = x
      · have hzx : z ≠ x := fun hzx => hyz (hyx.trans hzx.symm)
        rw [Shelf.slot_put_ne _ hzx] at hz
        rw [hyx, Shelf.slot_put_self, Shelf.slot_put_ne _ hzx]
        exact (hold z hzx hz).symm
      · rw [Shelf.slot_put_ne _ hyx] at hy ⊢
        by_cases hzx : z = x
        · rw [hzx, Shelf.slot_put_self]
          exact hold y hyx hy
        · rw [Shelf.slot_put_ne _ hzx] at hz ⊢
          exact h.apart y z hyz hy hz
  settled s hs := by
    refine ⟨fun hlen => Nat.lt_succ_of_lt (hs.allocated hlen), fun y hcap harr => ?_⟩
    by_cases hyx : y = x
    · rw [hyx, Shelf.slot_put_self] at harr
      by_cases hlen : s.len = 0
      · omega
      · have hlt := hs.allocated hlen
        have harr' : p.heap.next = s.arr := harr
        omega
    · rw [Shelf.slot_put_ne _ hyx] at hcap harr ⊢
      exact hs.owner y hcap harr
  read_eq s hs := read_alloc_of_lt p.heap xs cap hs.allocated

omit [DecidableEq S] [Inhabited α] in
theorem length_store (arr i : ℕ) (x : α) (a : ℕ) :
    ((h.store arr i x).arrays a).length = (h.arrays a).length := by
  unfold Heap.store
  by_cases ha : a = arr
  · rw [ha]
    simp
  · simp [ha]

omit [DecidableEq S] [Inhabited α] in
/-- A write behind a slice, or to another array, does not show in it. -/
theorem read_store_behind (arr i : ℕ) (x : α) (hs : s.arr = arr → s.len ≤ i) :
    (h.store arr i x).read s = h.read s := by
  unfold Heap.read Heap.store
  by_cases ha : s.arr = arr
  · simp only [ha, Function.update_self]
    exact List.take_set_of_le (hs ha)
  · simp only [Function.update_of_ne ha]

omit [DecidableEq S] in
theorem read_push_self {h : Heap α} (hs : Fits h s) (x : α) :
    (h.push s x).1.read (h.push s x).2 = h.read s ++ [x] := by
  unfold Heap.push
  split
  next hlt =>
    have hcap := hs.cap_le (by omega)
    simp only [Heap.read, Heap.store, Slice.longer, Function.update_self]
    rw [List.take_add_one, List.getElem?_set_self (by omega), List.take_set_of_le (le_refl _)]
    rfl
  · exact read_alloc_self ..

omit [Inhabited α] in
/-- Appending in place: every slice of this array that was handed out ends before. -/
theorem evolves_store (h : p.Owned) (a : α) (hlt : (p.slot x).len < (p.slot x).cap) :
    Evolves p (p.put x (p.heap.store (p.slot x).arr (p.slot x).len a, (p.slot x).longer)) := by
  have hcap : (p.slot x).cap ≠ 0 := by omega
  have hslot : ∀ y, ((p.put x (p.heap.store (p.slot x).arr (p.slot x).len a,
      (p.slot x).longer)).slot y).arr = (p.slot y).arr ∧
      ((p.put x (p.heap.store (p.slot x).arr (p.slot x).len a,
        (p.slot x).longer)).slot y).cap = (p.slot y).cap := by
    intro y
    by_cases hyx : y = x
    · rw [hyx, Shelf.slot_put_self]
      exact ⟨rfl, rfl⟩
    · rw [Shelf.slot_put_ne _ hyx]
      exact ⟨rfl, rfl⟩
  constructor
  · constructor
    · intro y
      obtain ⟨harr, hsame⟩ := hslot y
      refine ⟨?_, ?_, ?_⟩
      · by_cases hyx : y = x
        · rw [hyx, Shelf.slot_put_self]
          exact hlt
        · rw [Shelf.slot_put_ne _ hyx]
          exact (h.fits y).len_le
      · rw [harr, hsame]
        exact (h.fits y).allocated
      · rw [harr, hsame]
        intro hy
        exact le_of_le_of_eq ((h.fits y).cap_le hy) (length_store ..).symm
    · intro y z hyz
      rw [(hslot y).1, (hslot y).2, (hslot z).1, (hslot z).2]
      exact h.apart y z hyz
  · intro s hs
    refine ⟨hs.allocated, fun y hy harr => ?_⟩
    rw [(hslot y).2] at hy
    rw [(hslot y).1] at harr
    refine le_trans (hs.owner y hy harr) ?_
    by_cases hyx : y = x
    · rw [hyx, Shelf.slot_put_self]
      exact Nat.le_succ _
    · rw [Shelf.slot_put_ne _ hyx]
  · intro s hs
    exact read_store_behind _ _ _ _ (fun harr => hs.owner x hcap harr.symm)

theorem evolves_push (h : p.Owned) (x : S) (a : α) :
    Evolves p (p.put x (p.heap.push (p.slot x) a)) := by
  unfold Heap.push
  by_cases hlt : (p.slot x).len < (p.slot x).cap
  · rw [if_pos hlt]
    exact evolves_store h a hlt
  · rw [if_neg hlt]
    exact evolves_alloc h x _ _

omit [Inhabited α] in
/-- Letting go of a slot's array. -/
theorem evolves_clear (h : p.Owned) (x : S) : Evolves p (p.put x (p.heap, Slice.nil)) where
  owned := by
    constructor
    · intro y
      by_cases hyx : y = x
      · rw [hyx, Shelf.slot_put_self]
        exact ⟨le_rfl, fun h0 => absurd rfl h0, fun h0 => absurd rfl h0⟩
      · rw [Shelf.slot_put_ne _ hyx]
        exact h.fits y
    · intro y z hyz hy hz
      have hne : ∀ w, ((p.put x (p.heap, Slice.nil)).slot w).cap ≠ 0 → w ≠ x := by
        rintro w hw rfl
        rw [Shelf.slot_put_self] at hw
        exact hw rfl
      have hyx := hne y hy
      have hzx := hne z hz
      rw [Shelf.slot_put_ne _ hyx] at hy ⊢
      rw [Shelf.slot_put_ne _ hzx] at hz ⊢
      exact h.apart y z hyz hy hz
  settled s hs := by
    refine ⟨hs.allocated, fun y hcap harr => ?_⟩
    by_cases hyx : y = x
    · rw [hyx, Shelf.slot_put_self] at hcap
      exact absurd rfl hcap
    · rw [Shelf.slot_put_ne _ hyx] at hcap harr ⊢
      exact hs.owner y hcap harr
  read_eq _ _ := rfl

end Ozymandias.SharedSlices
