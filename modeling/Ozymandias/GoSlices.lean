import Ozymandias.BitLists

/-!
Byte slices over a heap of backing arrays. A slice is a window with a length
and a capacity; appending within the capacity writes into the shared array,
and only a full slice moves to an array of its own. The frame relation says
which arrays an operation on one slice leaves alone.
-/

namespace Ozymandias.GoSlices

open BitLists

/-- Backing arrays by address; addresses from `next` on are unused. -/
structure Heap where
  next : ℕ
  arrays : ℕ → List Byte

structure Slice where
  arr : ℕ
  off : ℕ
  len : ℕ
  cap : ℕ
  deriving DecidableEq

structure Heap.Valid (h : Heap) (s : Slice) : Prop where
  allocated : s.arr < h.next
  len_le : s.len ≤ s.cap
  cap_le : s.off + s.cap ≤ (h.arrays s.arr).length

def Heap.read (h : Heap) (s : Slice) : List Byte :=
  ((h.arrays s.arr).drop s.off).take s.len

def Heap.store (h : Heap) (s : Slice) (i : ℕ) (x : Byte) : Heap :=
  { h with arrays := Function.update h.arrays s.arr ((h.arrays s.arr).set (s.off + i) x) }

def Heap.alloc (h : Heap) (bytes : List Byte) (cap : ℕ) : Heap × Slice :=
  (⟨h.next + 1, Function.update h.arrays h.next
      (bytes ++ List.replicate (cap - bytes.length) 0)⟩,
    ⟨h.next, 0, bytes.length, max bytes.length cap⟩)

/-- `append` of one byte. The growth of a full slice is unspecified in the
language; doubling stands for it and nothing depends on the factor. -/
def Heap.push (h : Heap) (s : Slice) (x : Byte) : Heap × Slice :=
  if s.len < s.cap then (h.store s s.len x, { s with len := s.len + 1 })
  else h.alloc (h.read s ++ [x]) (2 * (s.len + 1))

/-- What an operation that owns slice `s` may have done to the heap. -/
structure Keeps (h : Heap) (s : Slice) (h' : Heap) (s' : Slice) : Prop where
  valid : h'.Valid s'
  next_le : h.next ≤ h'.next
  other : ∀ a, a < h.next → a ≠ s.arr → h'.arrays a = h.arrays a ∧ a ≠ s'.arr

variable (h : Heap) (s : Slice)

theorem Keeps.refl (hv : h.Valid s) : Keeps h s h s :=
  ⟨hv, le_rfl, fun _ _ hne => ⟨rfl, hne⟩⟩

theorem Keeps.trans {h h₁ h₂ : Heap} {s s₁ s₂ : Slice}
    (k₁ : Keeps h s h₁ s₁) (k₂ : Keeps h₁ s₁ h₂ s₂) : Keeps h s h₂ s₂ where
  valid := k₂.valid
  next_le := k₁.next_le.trans k₂.next_le
  other a ha hne := by
    obtain ⟨harr, hne₁⟩ := k₁.other a ha hne
    obtain ⟨harr₂, hne₂⟩ := k₂.other a (lt_of_lt_of_le ha k₁.next_le) hne₁
    exact ⟨harr₂.trans harr, hne₂⟩

theorem length_read (hv : h.Valid s) : (h.read s).length = s.len := by
  have hlen := hv.len_le
  have hcap := hv.cap_le
  simp only [Heap.read, List.length_take, List.length_drop]
  omega

/-- An element store changes that element of the window and nothing else. -/
theorem read_store (i : ℕ) (x : Byte) : (h.store s i x).read s = (h.read s).set i x := by
  simp only [Heap.read, Heap.store, Function.update_self]
  rw [← List.set_drop, List.take_set]

theorem keeps_store (hv : h.Valid s) (i : ℕ) (x : Byte) : Keeps h s (h.store s i x) s where
  valid := ⟨hv.allocated, hv.len_le, by simpa [Heap.store] using hv.cap_le⟩
  next_le := le_rfl
  other a _ hne := ⟨by simp [Heap.store, hne], hne⟩

variable (bytes : List Byte) (cap : ℕ)

theorem read_alloc : (h.alloc bytes cap).1.read (h.alloc bytes cap).2 = bytes := by
  simp [Heap.read, Heap.alloc]

theorem valid_alloc : (h.alloc bytes cap).1.Valid (h.alloc bytes cap).2 where
  allocated := by simp [Heap.alloc]
  len_le := by simp [Heap.alloc]
  cap_le := by simp [Heap.alloc]; omega

/-- A fresh array touches no array that existed before. -/
theorem keeps_alloc : Keeps h s (h.alloc bytes cap).1 (h.alloc bytes cap).2 where
  valid := valid_alloc h bytes cap
  next_le := by simp [Heap.alloc]
  other a ha _ := by
    have hne : a ≠ h.next := by omega
    exact ⟨by simp [Heap.alloc, hne], by simpa [Heap.alloc] using hne⟩

theorem read_push (hv : h.Valid s) (x : Byte) :
    (h.push s x).1.read (h.push s x).2 = h.read s ++ [x] := by
  unfold Heap.push
  split
  next hlt =>
    have hlen : (h.arrays s.arr).length ≥ s.off + s.cap := hv.cap_le
    simp only [Heap.read, Heap.store, Function.update_self]
    rw [← List.set_drop, List.take_add_one, List.getElem?_set_self (by simp; omega),
      List.take_set_of_le (le_refl _)]
    rfl
  · exact read_alloc h _ _

theorem keeps_push (hv : h.Valid s) (x : Byte) :
    Keeps h s (h.push s x).1 (h.push s x).2 := by
  unfold Heap.push
  split
  next hlt =>
    have hk := keeps_store h s hv s.len x
    exact ⟨⟨hk.valid.allocated, hlt, hk.valid.cap_le⟩, hk.next_le, hk.other⟩
  · exact keeps_alloc h s _ _

end Ozymandias.GoSlices
