import Ozymandias.TimeMerge
import Ozymandias.WeightRuns
import Mathlib.Data.Rat.Defs
import Mathlib.Algebra.Order.Ring.Rat
import Mathlib.Algebra.Order.BigOperators.Group.List

/-!
The bucket store of the quantile sketch: a dense run of counts that grows at
both ends, pads its low end and its capacity, and collapses its lowest buckets
once it would be wider than `maxBins`. Counts are exact rationals. Whatever the
order of additions and merges, a store holds what was added with everything
below the floor under its greatest index moved onto that floor. Indices are
int32, so the offsets computed here stay far inside the machine's int.
-/
namespace Ozymandias.SketchStore

open Peaks TimeMerge WeightRuns

def maxBins : ℕ := 2048

structure Bin where
  index : ℤ
  count : ℚ
  deriving DecidableEq

/-- A run of bucket counts; `spare` are the slots between length and capacity. -/
structure Store where
  counts : List ℚ
  spare : List ℚ
  offset : ℤ
  total : ℚ
  deriving DecidableEq

def Store.empty : Store := ⟨[], [], 0, 0⟩

def zeroes (n : ℕ) : List ℚ := List.replicate n 0

def copyAt (dst : List ℚ) (start : ℕ) (src : List ℚ) : List ℚ :=
  dst.take start ++ src.take (dst.length - start) ++ dst.drop (start + src.length)

def Store.growLow (s : Store) (k : ℤ) : Store :=
  if s.counts.length = maxBins then s
  else
    let need := s.offset + s.counts.length - k
    if need ≤ maxBins then
      let want := min (max need.toNat (2 * s.counts.length)) maxBins
      let newOffset := s.offset + s.counts.length - want
      { s with
        counts := copyAt (zeroes want) (s.offset - newOffset).toNat s.counts
        spare := []
        offset := newOffset }
    else
      let newOffset := s.offset + s.counts.length - maxBins
      { s with
        counts := copyAt (zeroes maxBins) (s.offset - newOffset).toNat s.counts
        spare := []
        offset := newOffset }

def Store.growHigh (s : Store) (k : ℤ) : Store :=
  let want := (k - s.offset + 1).toNat
  if want ≤ maxBins then
    if want ≤ s.counts.length + s.spare.length then
      let more := want - s.counts.length
      { s with counts := s.counts ++ s.spare.take more, spare := s.spare.drop more }
    else
      { s with
        counts := copyAt (zeroes want) 0 s.counts
        spare := zeroes (min (max (2 * want) 8) maxBins - want) }
  else
    let newOffset := k - maxBins + 1
    let start := (newOffset - s.offset).toNat
    let folded := (s.counts.take start).sum
    let grown := if start < s.counts.length then copyAt (zeroes maxBins) 0 (s.counts.drop start)
      else zeroes maxBins
    { s with counts := grown.modify 0 (· + folded), spare := [], offset := newOffset }

def Store.grow (s : Store) (k : ℤ) : Store :=
  if s.counts.length = 0 then { s with counts := zeroes 1, spare := zeroes 7, offset := k }
  else if k < s.offset then s.growLow k
  else if s.offset + s.counts.length ≤ k then s.growHigh k
  else s

def Store.add (s : Store) (k : ℤ) (weight : ℚ) : Store :=
  let grown := s.grow k
  let i := max (k - grown.offset) 0
  { grown with
    counts := grown.counts.modify i.toNat (· + weight)
    total := grown.total + weight }

def lastHeld (counts : List ℚ) : Option ℕ :=
  counts.zipIdx.foldl (fun hi ci => if ci.1 ≠ 0 then some ci.2 else hi) none

def addSlot (offset : ℤ) (s : Store) (slot : ℚ × ℕ) : Store :=
  if slot.1 ≠ 0 then s.add (offset + slot.2) slot.1 else s

def Store.merge (s other : Store) : Store :=
  match lastHeld other.counts with
  | none => s
  | some hi =>
    (other.counts.take (hi + 1)).zipIdx.foldl (addSlot other.offset) (s.grow (other.offset + hi))

def Store.bins (s : Store) : List Bin :=
  s.counts.zipIdx.filterMap
    (fun slot => if slot.1 ≠ 0 then some ⟨s.offset + slot.2, slot.1⟩ else none)

noncomputable def Store.content (s : Store) : ℤ →₀ ℚ := weights s.offset s.counts

def Store.top (s : Store) : ℤ := s.offset + s.counts.length - 1

def floorOf (top : ℤ) : ℤ := top - (maxBins - 1 : ℕ)

variable {k : ℤ} {s : Store} (offset : ℤ)

theorem mem_bins_from (counts : List ℚ) (n : ℕ) {b : Bin} : b ∈ (counts.zipIdx n).filterMap
        (fun slot => if slot.1 ≠ 0 then some (⟨offset + slot.2, slot.1⟩ : Bin) else none) ↔
      b.count ≠ 0 ∧ weights (offset + n) counts b.index = b.count := by
  induction counts generalizing n with
  | nil =>
    simp only [List.zipIdx_nil, List.filterMap_nil, List.not_mem_nil, false_iff, not_and]
    intro hne heq
    exact hne heq.symm
  | cons c counts ih =>
    have hnext : offset + (n + 1 : ℕ) = offset + n + 1 := by
      omega
    rw [List.zipIdx_cons, List.filterMap_cons, weights, Finsupp.add_apply]
    have hrest := ih (n + 1)
    rw [hnext] at hrest
    by_cases hindex : offset + n = b.index
    · have hzero : weights (offset + n + 1) counts b.index = 0 :=
        weights_eq_zero (.inl (by omega))
      rw [hzero] at hrest
      rw [hzero, add_zero, hindex, Finsupp.single_eq_same]
      by_cases hc : c = 0
      · simp only [hc, ne_eq, not_true_eq_false, if_false, hrest]
      · simp only [ne_eq, hc, not_false_eq_true, if_true, List.mem_cons, hrest]
        constructor
        · rintro (heq | ⟨hne, heq⟩)
          · have hcount : b.count = c := congrArg Bin.count heq
            exact ⟨by rw [hcount]; exact hc, hcount.symm⟩
          · exact absurd heq.symm hne
        · rintro ⟨hne, heq⟩
          left
          rw [heq]
    · rw [Finsupp.single_apply, if_neg hindex, zero_add, ← hrest]
      by_cases hc : c = 0
      · simp only [hc, ne_eq, not_true_eq_false, if_false]
      · simp only [ne_eq, hc, not_false_eq_true, if_true, List.mem_cons, or_iff_right_iff_imp]
        intro heq
        exact absurd (by rw [heq]) hindex

theorem mem_bins {b : Bin} :
    b ∈ s.bins ↔ b.count ≠ 0 ∧ s.content b.index = b.count := by
  have h := @mem_bins_from s.offset s.counts 0 b
  rw [Nat.cast_zero, add_zero] at h
  exact h

theorem ascending_bins_from (counts : List ℚ) (n : ℕ) :
    Ascending Bin.index ((counts.zipIdx n).filterMap
      (fun slot => if slot.1 ≠ 0 then some (⟨offset + slot.2, slot.1⟩ : Bin) else none)) := by
  induction counts generalizing n with
  | nil => exact List.Pairwise.nil
  | cons c counts ih =>
    rw [List.zipIdx_cons, List.filterMap_cons]
    by_cases hc : c = 0
    · simpa [hc] using ih (n + 1)
    · simp only [ne_eq, hc, not_false_eq_true]
      refine List.Pairwise.cons ?_ (ih (n + 1))
      intro b hb
      obtain ⟨hne, hat⟩ := (mem_bins_from offset counts (n + 1)).mp hb
      show offset + n < b.index
      by_contra hlt
      rw [weights_eq_zero (.inl (by push_cast; omega))] at hat
      exact hne hat.symm

theorem ascending_bins (s : Store) : Ascending Bin.index s.bins :=
  ascending_bins_from s.offset s.counts 0

variable {s' other : Store} {n width : ℕ} {src : List ℚ} {c : ℚ}

theorem bins_eq_of_content (h : s.content = s'.content) : s.bins = s'.bins := by
  refine ascending_ext (ascending_bins s) (ascending_bins s') (fun b => ?_)
  rw [mem_bins, mem_bins, h]

theorem length_bins_le (s : Store) : s.bins.length ≤ s.counts.length := by
  refine le_trans (List.length_filterMap_le _ _) ?_
  rw [List.length_zipIdx]

structure Sized (s : Store) : Prop where
  width : s.counts.length ≤ maxBins
  spare : s.spare = zeroes s.spare.length

theorem weights_zeroes (n : ℕ) : weights offset (zeroes n) = 0 :=
  weights_replicate offset n

theorem length_zeroes (n : ℕ) : (zeroes n).length = n :=
  List.length_replicate

/-- Copying to the end of a fresh slice pads the front. -/
theorem copyAt_end {start : ℕ} (h : start + src.length = n) :
    copyAt (zeroes n) start src = zeroes start ++ src := by
  have htake : (zeroes n).take start = zeroes start := by
    unfold zeroes
    rw [List.take_replicate, min_eq_left (by omega)]
  have hdrop : (zeroes n).drop (start + src.length) = [] := by
    rw [h, List.drop_eq_nil_of_le (by rw [length_zeroes])]
  unfold copyAt
  rw [htake, hdrop, length_zeroes, List.take_of_length_le (by omega), List.append_nil]

/-- Copying to the front of a fresh slice pads the end. -/
theorem copyAt_front (h : src.length ≤ n) :
    copyAt (zeroes n) 0 src = src ++ zeroes (n - src.length) := by
  unfold copyAt
  rw [List.take_zero, List.nil_append, length_zeroes,
    List.take_of_length_le (by omega), Nat.zero_add]
  unfold zeroes
  rw [List.drop_replicate]

structure Grows (s : Store) (k : ℤ) (s' : Store) : Prop where
  sized : Sized s'
  nonempty : s'.counts ≠ []
  total : s'.total = s.total
  top : s'.top = max s.top k
  reach : s'.offset ≤ max k (floorOf s'.top)
  content : s'.content = raise (floorOf s'.top) s.content

theorem floorOf_le_offset (h : s.counts.length ≤ maxBins) : floorOf s.top ≤ s.offset := by
  unfold floorOf Store.top maxBins at *
  omega

theorem raise_content (h : s.counts.length ≤ maxBins) :
    raise (floorOf s.top) s.content = s.content :=
  raise_of_le (fun _ hk => le_trans (floorOf_le_offset h) (le_of_mem_support hk))

/-- A low padding of empty slots changes nothing but the offset. -/
theorem content_padLow (s : Store) (n : ℕ) (spare : List ℚ) :
    (⟨zeroes n ++ s.counts, spare, s.offset - n, s.total⟩ : Store).content = s.content := by
  show weights (s.offset - n) (zeroes n ++ s.counts) = weights s.offset s.counts
  rw [weights_append, weights_zeroes, zero_add, length_zeroes, sub_add_cancel]

theorem growLow_padded (hne : s.counts ≠ []) (hle : s.counts.length ≤ width)
    (hwidth : width ≤ maxBins)
    (hk : k < s.offset) (hreach : s.offset + s.counts.length - width ≤ k ∨ width = maxBins) :
    Grows s k { s with
        counts := copyAt (zeroes width)
          (s.offset - (s.offset + s.counts.length - width)).toNat s.counts
        spare := []
        offset := s.offset + s.counts.length - width } := by
  have hstart : (s.offset - (s.offset + s.counts.length - width)).toNat =
      width - s.counts.length := by omega
  have hoffset : s.offset + s.counts.length - width =
      s.offset - ((width - s.counts.length : ℕ) : ℤ) := by
    omega
  rw [hstart, copyAt_end (by omega), hoffset]
  have hlen : (zeroes (width - s.counts.length) ++ s.counts).length = width := by
    rw [List.length_append, length_zeroes]
    omega
  have htop : (⟨zeroes (width - s.counts.length) ++ s.counts, [],
      s.offset - ((width - s.counts.length : ℕ) : ℤ), s.total⟩ : Store).top = s.top := by
    unfold Store.top
    rw [hlen]
    show s.offset - ((width - s.counts.length : ℕ) : ℤ) + width - 1 = s.offset + s.counts.length - 1
    omega
  constructor
  · exact ⟨hlen.trans_le hwidth, rfl⟩
  · exact List.append_ne_nil_of_right_ne_nil _ hne
  · rfl
  · rw [htop]
    unfold Store.top
    omega
  · show s.offset - ((width - s.counts.length : ℕ) : ℤ) ≤ _
    rw [htop, ← hoffset]
    rcases hreach with hreach | hreach
    · exact le_max_of_le_left hreach
    · refine le_max_of_le_right ?_
      unfold floorOf Store.top
      rw [hreach]
      unfold maxBins
      omega
  · rw [htop, content_padLow, raise_content (hle.trans hwidth)]

theorem growLow_spec (h : Sized s) (hne : s.counts ≠ []) (hk : k < s.offset) :
    Grows s k (s.growLow k) := by
  unfold Store.growLow
  by_cases hfull : s.counts.length = maxBins
  · rw [if_pos hfull]
    have htop : s.top = max s.top k := by
      unfold Store.top
      omega
    refine ⟨h, hne, rfl, htop, ?_, (raise_content h.width).symm⟩
    unfold floorOf Store.top
    rw [hfull]
    unfold maxBins
    omega
  · rw [if_neg hfull]
    have hwidth := h.width
    by_cases hneed : s.offset + s.counts.length - k ≤ maxBins
    · simp only [if_pos hneed]
      refine growLow_padded hne ?_ (min_le_right ..) hk (.inl ?_)
      · exact le_min (le_max_of_le_right (by omega)) hwidth
      · omega
    · simp only [if_neg hneed]
      exact growLow_padded hne hwidth le_rfl hk (.inr rfl)

/-- A high padding of empty slots changes nothing. -/
theorem growHigh_padded {spare : List ℚ} (hne : s.counts ≠ []) (hle : s.counts.length ≤ width)
    (hwidth : width ≤ maxBins) (hspare : spare = zeroes spare.length)
    (hk : k + 1 = s.offset + width) :
    Grows s k
      { s with counts := s.counts ++ zeroes (width - s.counts.length), spare := spare } := by
  have hlen : (s.counts ++ zeroes (width - s.counts.length)).length = width := by
    rw [List.length_append, length_zeroes]
    omega
  have htop : (⟨s.counts ++ zeroes (width - s.counts.length), spare, s.offset, s.total⟩ :
      Store).top = k := by
    unfold Store.top
    rw [hlen]
    show s.offset + width - 1 = k
    omega
  have hpos : 0 < s.counts.length := List.length_pos_of_ne_nil hne
  constructor
  · exact ⟨hlen.trans_le hwidth, hspare⟩
  · exact List.append_ne_nil_of_left_ne_nil hne _
  · rfl
  · rw [htop]
    unfold Store.top
    omega
  · refine le_max_of_le_left ?_
    show s.offset ≤ k
    omega
  · rw [htop]
    show weights s.offset (s.counts ++ zeroes (width - s.counts.length)) = _
    rw [weights_append, weights_zeroes, add_zero]
    refine (raise_of_le (fun j hj => ?_)).symm
    have hj' := le_of_mem_support hj
    unfold floorOf maxBins at *
    omega

/-- Moving the floor up folds what falls below it into the lowest bucket. -/
theorem growHigh_collapsed (h : Sized s) (hk : s.offset + maxBins ≤ k) : Grows s k { s with
        counts := ((s.counts.drop (k - maxBins + 1 - s.offset).toNat) ++
            zeroes (maxBins - (s.counts.drop (k - maxBins + 1 - s.offset).toNat).length)).modify 0
          (· + (s.counts.take (k - maxBins + 1 - s.offset).toNat).sum)
        spare := []
        offset := k - maxBins + 1 } := by
  set start := (k - maxBins + 1 - s.offset).toNat with hstart
  have hwidth := h.width
  have hoffset : k - maxBins + 1 = s.offset + start := by omega
  have hlen : (s.counts.drop start ++
      zeroes (maxBins - (s.counts.drop start).length)).length = maxBins := by
    rw [List.length_append, length_zeroes, List.length_drop]
    omega
  have hpos : 0 < maxBins := by decide
  set held := s.counts.drop start ++ zeroes (maxBins - (s.counts.drop start).length) with hheld
  set folded := (s.counts.take start).sum with hfolded
  have hmod : (held.modify 0 (· + folded)).length = maxBins := by
    rw [List.length_modify, hlen]
  have htop : (⟨held.modify 0 (· + folded), [], k - maxBins + 1, s.total⟩ : Store).top = k := by
    unfold Store.top
    rw [hmod]
    show k - maxBins + 1 + maxBins - 1 = k
    omega
  have hfloor : floorOf k = k - maxBins + 1 := by
    unfold floorOf maxBins
    omega
  have hcontent : weights (k - maxBins + 1) (held.modify 0 (· + folded)) =
      raise (k - maxBins + 1) s.content := by
    rw [weights_modify _ _ _ (by omega), weights_append, weights_zeroes, add_zero,
      Nat.cast_zero, add_zero]
    unfold Store.content
    conv_rhs => rw [← List.take_append_drop start s.counts, weights_append, raise_add]
    rw [raise_weights_of_ge, add_comm]
    · congr 1
      by_cases hall : s.counts.length ≤ start
      · rw [List.drop_eq_nil_of_le hall]
        exact (raise_zero _).symm
      · rw [List.length_take, min_eq_left (by omega), ← hoffset]
        exact (raise_of_le (fun _ hj => le_of_mem_support hj)).symm
    · rw [List.length_take]
      omega
  constructor
  · exact ⟨hmod.le, rfl⟩
  · refine List.ne_nil_of_length_pos ?_
    rw [hmod]
    exact hpos
  · rfl
  · rw [htop]
    unfold Store.top
    omega
  · rw [htop, hfloor]
    exact le_max_right ..
  · rw [htop, hfloor]
    exact hcontent

theorem growHigh_spec (h : Sized s) (hne : s.counts ≠ []) (hk : s.offset + s.counts.length ≤ k) :
    Grows s k (s.growHigh k) := by
  have hwant : k + 1 = s.offset + (k - s.offset + 1).toNat := by omega
  have hle : s.counts.length ≤ (k - s.offset + 1).toNat := by omega
  unfold Store.growHigh
  set want := (k - s.offset + 1).toNat
  by_cases hfits : want ≤ maxBins
  · simp only [if_pos hfits]
    by_cases hcap : want ≤ s.counts.length + s.spare.length
    · simp only [if_pos hcap]
      have htake : s.spare.take (want - s.counts.length) = zeroes (want - s.counts.length) := by
        rw [h.spare]
        unfold zeroes
        rw [List.take_replicate, min_eq_left (by omega)]
      have hdrop : s.spare.drop (want - s.counts.length) =
          zeroes (s.spare.drop (want - s.counts.length)).length := by
        rw [List.length_drop]
        conv_lhs => rw [h.spare]
        exact List.drop_replicate
      rw [htake]
      exact growHigh_padded hne hle hfits hdrop hwant
    · simp only [if_neg hcap]
      rw [copyAt_front hle]
      exact growHigh_padded hne hle hfits (by rw [length_zeroes]) hwant
  · simp only [if_neg hfits]
    have hcollapsed := growHigh_collapsed h (k := k) (by omega)
    by_cases hstart : (k - maxBins + 1 - s.offset).toNat < s.counts.length
    · rw [if_pos hstart, copyAt_front]
      · exact hcollapsed
      · rw [List.length_drop]
        omega
    · rw [if_neg hstart]
      rw [List.drop_eq_nil_of_le (by omega), List.length_nil] at hcollapsed
      exact hcollapsed

/-- Growing a store that holds nothing opens it at the index. -/
theorem grow_empty (h : s.counts = []) (k : ℤ) :
    s.grow k = { s with counts := zeroes 1, spare := zeroes 7, offset := k } := by
  unfold Store.grow
  rw [if_pos (by rw [h]; rfl)]

theorem grow_spec (h : Sized s) (hne : s.counts ≠ []) (k : ℤ) :
    Grows s k (s.grow k) := by
  have hpos : 0 < s.counts.length := List.length_pos_of_ne_nil hne
  unfold Store.grow
  rw [if_neg (by omega)]
  by_cases hlow : k < s.offset
  · rw [if_pos hlow]
    exact growLow_spec h hne hlow
  · rw [if_neg hlow]
    by_cases hhigh : s.offset + s.counts.length ≤ k
    · rw [if_pos hhigh]
      exact growHigh_spec h hne hhigh
    · rw [if_neg hhigh]
      have htop : s.top = max s.top k := by
        unfold Store.top
        omega
      exact ⟨h, hne, rfl, htop, le_max_of_le_left (by omega), (raise_content h.width).symm⟩

/-- The slot an index has after growing to it. -/
theorem slot_eq (h : s.counts.length ≤ maxBins) (hreach : s.offset ≤ max k (floorOf s.top)) :
    s.offset + (max (k - s.offset) 0).toNat = max k (floorOf s.top) := by
  have hfloor := floorOf_le_offset h
  omega

/-- Putting a weight into a store that already reaches the index. -/
theorem content_put (h : s.counts.length ≤ maxBins) (hne : s.counts ≠ []) (htop : k ≤ s.top)
    (hreach : s.offset ≤ max k (floorOf s.top)) (w total : ℚ) :
    (⟨s.counts.modify (max (k - s.offset) 0).toNat (· + w), s.spare, s.offset, total⟩ :
        Store).content = s.content + Finsupp.single (max k (floorOf s.top)) w := by
  have hpos : 0 < s.counts.length := List.length_pos_of_ne_nil hne
  show weights s.offset _ = _
  rw [weights_modify, slot_eq h hreach]
  · rfl
  · unfold Store.top at htop
    omega

structure Adds (s : Store) (k : ℤ) (w : ℚ) (s' : Store) : Prop where
  sized : Sized s'
  nonempty : s'.counts ≠ []
  total : s'.total = s.total + w
  top : s'.top = if s.counts = [] then k else max s.top k
  content : s'.content = raise (floorOf s'.top) (s.content + Finsupp.single k w)

theorem Adds.le_top {w : ℚ} (h : Adds s k w s') : k ≤ s'.top := by
  rw [h.top]
  split
  · exact le_rfl
  · exact le_max_right ..

/-- Growing adds nothing, whatever the store held before, and reaches the index. -/
theorem adds_grow (h : Sized s) (k : ℤ) :
    Adds s k 0 (s.grow k) ∧ (s.grow k).offset ≤ max k (floorOf (s.grow k).top) := by
  by_cases hne : s.counts = []
  · have hold : s.content = 0 := by
      unfold Store.content
      rw [hne, weights]
    rw [grow_empty hne]
    refine ⟨⟨⟨show 1 ≤ maxBins by decide, rfl⟩, List.cons_ne_nil _ _, (add_zero _).symm, ?_, ?_⟩,
      le_max_left ..⟩
    · rw [if_pos hne]
      show k + 1 - 1 = k
      omega
    · rw [hold, Finsupp.single_zero, add_zero]
      exact weights_zeroes _ _
  · have hgrow := grow_spec h hne k
    refine ⟨⟨hgrow.sized, hgrow.nonempty, ?_, ?_, ?_⟩, hgrow.reach⟩
    · rw [hgrow.total, add_zero]
    · rw [if_neg hne, hgrow.top]
    · rw [hgrow.content, Finsupp.single_zero, add_zero]

theorem add_spec (h : Sized s) (k : ℤ) (w : ℚ) : Adds s k w (s.add k w) := by
  obtain ⟨hgrow, hreach⟩ := adds_grow h k
  unfold Store.add
  have hwidth := hgrow.sized.width
  have hcontent := content_put hwidth hgrow.nonempty hgrow.le_top hreach w ((s.grow k).total + w)
  have htop : (⟨(s.grow k).counts.modify (max (k - (s.grow k).offset) 0).toNat (· + w),
      (s.grow k).spare, (s.grow k).offset, (s.grow k).total + w⟩ : Store).top = (s.grow k).top := by
    unfold Store.top
    rw [List.length_modify]
  constructor
  · refine ⟨?_, hgrow.sized.spare⟩
    rw [List.length_modify]
    exact hwidth
  · refine List.ne_nil_of_length_pos ?_
    rw [List.length_modify]
    exact List.length_pos_of_ne_nil hgrow.nonempty
  · show (s.grow k).total + w = s.total + w
    rw [hgrow.total, add_zero]
  · rw [htop, hgrow.top]
  · rw [htop, hcontent, hgrow.content, Finsupp.single_zero, add_zero, raise_add, raise_single]

structure Takes (s : Store) (f : ℤ →₀ ℚ) (s' : Store) : Prop where
  sized : Sized s'
  nonempty : s'.counts ≠ []
  total : s'.total = s.total + mass f
  top : s'.top = s.top
  content : s'.content = s.content + raise (floorOf s.top) f

theorem takes_zero (h : Sized s) (hne : s.counts ≠ []) : Takes s 0 s := by
  refine ⟨h, hne, ?_, rfl, ?_⟩
  · exact (add_zero _).symm
  · rw [raise_zero, add_zero]

theorem Takes.trans {s'' : Store} {f g : ℤ →₀ ℚ} (h : Takes s f s') (h' : Takes s' g s'') :
    Takes s (f + g) s'' := by
  refine ⟨h'.sized, h'.nonempty, ?_, h'.top.trans h.top, ?_⟩
  · rw [h'.total, h.total, mass_add, add_assoc]
  · rw [h'.content, h.content, h.top, raise_add, add_assoc]

theorem takes_addSlot (h : Sized s) (hne : s.counts ≠ []) (offset : ℤ) (c : ℚ) (n : ℕ)
    (htop : offset + n ≤ s.top) :
    Takes s (Finsupp.single (offset + n) c) (addSlot offset s (c, n)) := by
  unfold addSlot
  by_cases hc : c = 0
  · rw [hc, Finsupp.single_zero]
    exact takes_zero h hne
  · rw [if_pos hc]
    have hadd := add_spec h (offset + n) c
    have hsame : (s.add (offset + n) c).top = s.top := by
      rw [hadd.top, if_neg hne, max_eq_left htop]
    refine ⟨hadd.sized, hadd.nonempty, ?_, hsame, ?_⟩
    · rw [hadd.total, mass_single]
    · rw [hadd.content, hsame, raise_add, raise_content h.width]

theorem takes_slots (h : Sized s) (hne : s.counts ≠ []) (offset : ℤ) (cs : List ℚ) (n : ℕ)
    (htop : offset + n + cs.length ≤ s.top + 1) :
    Takes s (weights (offset + n) cs) ((cs.zipIdx n).foldl (addSlot offset) s) := by
  induction cs generalizing s n with
  | nil => exact takes_zero h hne
  | cons c cs ih =>
    rw [List.length_cons] at htop
    have hstep := takes_addSlot h hne offset c n (by omega)
    have hrest := ih hstep.sized hstep.nonempty (n + 1) (by rw [hstep.top]; push_cast; omega)
    have hnext : offset + (n + 1 : ℕ) = offset + n + 1 := by
      omega
    rw [hnext] at hrest
    exact hstep.trans hrest

theorem lastHeld_concat (init : List ℚ) (hc : c ≠ 0) :
    lastHeld (init ++ [c]) = some init.length := by
  unfold lastHeld
  rw [List.zipIdx_append]
  simp [hc]

def mergedTop (s other : Store) : ℤ := if s.counts = [] then other.top else max s.top other.top

structure MergesTo (s other s' : Store) : Prop where
  sized : Sized s'
  nonempty : s'.counts ≠ []
  total : s'.total = s.total + other.counts.sum
  top : s'.top = mergedTop s other
  content : s'.content = raise (floorOf s'.top) (s.content + other.content)

theorem merge_spec (h : Sized s) {init : List ℚ} (hother : other.counts = init ++ [c])
    (hc : c ≠ 0) :
    MergesTo s other (s.merge other) := by
  have hlast : lastHeld other.counts = some init.length := by
    rw [hother]
    exact lastHeld_concat init hc
  have hlen : other.counts.length = init.length + 1 := by
    rw [hother, List.length_append, List.length_singleton]
  have htop : other.offset + init.length = other.top := by
    unfold Store.top
    omega
  unfold Store.merge
  rw [hlast]
  show MergesTo s other ((other.counts.take (init.length + 1)).zipIdx.foldl
    (addSlot other.offset) (s.grow (other.offset + init.length)))
  rw [List.take_of_length_le hlen.le, htop]
  obtain ⟨hgrow, -⟩ := adds_grow h other.top
  have htakes := takes_slots hgrow.sized hgrow.nonempty other.offset other.counts 0 (by
    have hle := hgrow.le_top
    omega)
  rw [Nat.cast_zero, add_zero] at htakes
  refine ⟨htakes.sized, htakes.nonempty, ?_, htakes.top.trans hgrow.top, ?_⟩
  · rw [htakes.total, hgrow.total, add_zero, mass_weights]
  · rw [htakes.content, htakes.top, hgrow.content, Finsupp.single_zero, add_zero, raise_add]
    rfl

theorem merge_empty (s : Store) (h : other.counts = []) : s.merge other = s := by
  unfold Store.merge
  rw [h]
  rfl

end Ozymandias.SketchStore
