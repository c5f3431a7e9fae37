import Ozymandias.SketchWire
import Mathlib.Tactic.Linarith
import Mathlib.Tactic.Positivity
import Mathlib.Tactic.Ring

/-!
What every sketch keeps, however it was made: its stores hold ascending buckets
of positive counts with indices of 32 bits, its aggregates are those of a fresh
sketch until something is counted, and its buckets hold its count up to what the
payloads in its history were off. So it is written as a payload that passes the
checks, and that payload reads back as the same sketch.
-/
namespace Ozymandias.SketchKept

open Loops WeightRuns SketchStore SketchMerge SketchWire

def additionsOf (bs : List Bin) : List Addition := bs.map (fun b => (b.index, b.count))

variable {bs : List Bin} (ceilLog : ℚ → ℚ → ℤ) {w : WireSketch}

theorem totals_bins_from (offset : ℤ) (counts : List ℚ) (n : ℕ) :
    totals (additionsOf ((counts.zipIdx n).filterMap
      (fun slot => if slot.1 ≠ 0 then some (⟨offset + slot.2, slot.1⟩ : Bin) else none))) =
      weights (offset + n) counts := by
  induction counts generalizing n with
  | nil => rfl
  | cons c counts ih =>
    have hnext : offset + n + 1 = offset + (n + 1 : ℕ) := by
      omega
    rw [List.zipIdx_cons, List.filterMap_cons, weights, hnext, ← ih (n + 1)]
    by_cases hc : c = 0
    · simp [hc]
    · simp only [ne_eq, hc, not_false_eq_true]
      exact totals_cons _ _

theorem totals_bins (s : Store) : totals (additionsOf s.bins) = s.content := by
  have h := totals_bins_from s.offset s.counts 0
  rw [Nat.cast_zero, add_zero] at h
  exact h

variable {s : Store} {added : List Addition}

theorem exists_of_mem_bins (h : Describes s added) {b : Bin} (hb : b ∈ s.bins) :
    0 < b.count ∧ ∃ a ∈ added, max a.1 (floorOf s.top) = b.index := by
  obtain ⟨hne, hcontent⟩ := mem_bins.mp hb
  rw [h.content, raise_totals] at hcontent
  have hsome : ∃ a ∈ added, max a.1 (floorOf s.top) = b.index := by
    by_contra hnone
    refine hne ?_
    rw [← hcontent]
    unfold weightAt
    rw [List.filter_eq_nil_iff.mpr]
    · rfl
    · intro a ha heq
      exact hnone ⟨a, ha, of_decide_eq_true heq⟩
  obtain ⟨a, ha, hindex⟩ := hsome
  refine ⟨?_, a, ha, hindex⟩
  rw [← hcontent, ← hindex]
  exact weightAt_pos h.positive ha _

/-- A store describes its own buckets. -/
theorem describes_bins (h : Describes s added) : Describes s (additionsOf s.bins) := by
  have hmem : ∀ a ∈ additionsOf s.bins, ∃ b ∈ s.bins, a = (b.index, b.count) := by
    intro a ha
    obtain ⟨b, hb, rfl⟩ := List.mem_map.mp ha
    exact ⟨b, hb, rfl⟩
  have htop : s.counts ≠ [] → ∃ b ∈ s.bins, b.index = s.top := by
    intro hne
    obtain ⟨a, ha, hat⟩ := h.attained (by rwa [Ne, ← h.empty_iff])
    have hpos := weightAt_pos h.positive ha (floorOf s.top)
    rw [hat, max_eq_left (by unfold floorOf; omega), ← raise_totals, ← h.content] at hpos
    exact ⟨⟨s.top, s.content s.top⟩, mem_bins.mpr ⟨hpos.ne', rfl⟩, rfl⟩
  refine ⟨h.sized, ?_, ?_, ⟨?_, ?_⟩, ?_, ?_, ?_⟩
  · intro a ha
    obtain ⟨b, hb, rfl⟩ := hmem a ha
    exact (exists_of_mem_bins h hb).1
  · rw [h.total, ← mass_totals, ← mass_totals, totals_bins, h.content, mass_raise]
  · intro hnil
    unfold additionsOf Store.bins
    rw [hnil]
    rfl
  · intro hnil
    by_contra hne
    obtain ⟨b, hb, -⟩ := htop hne
    rw [List.map_eq_nil_iff.mp hnil] at hb
    exact absurd hb List.not_mem_nil
  · intro a ha
    obtain ⟨b, hb, rfl⟩ := hmem a ha
    obtain ⟨-, a', ha', hindex⟩ := exists_of_mem_bins h hb
    rw [← hindex]
    exact max_le (h.le_top a' ha') (by unfold floorOf; omega)
  · intro hne
    obtain ⟨b, hb, hbt⟩ := htop (fun hnil => hne (by unfold additionsOf Store.bins; rw [hnil]; rfl))
    exact ⟨_, List.mem_map_of_mem hb, hbt⟩
  · rw [totals_bins, raise_content h.sized.width]

theorem heldBy_bins (h : Describes s added) : heldBy s.bins = s.total := by
  rw [(describes_bins h).total]
  unfold heldBy additionsOf
  rw [List.map_map]
  rfl

def InRange (added : List Addition) : Prop := ∀ a ∈ added, minInt32 ≤ a.1 ∧ a.1 ≤ maxInt32

/-- Collapsing never moves a bucket out of range. -/
theorem fine_bins (h : Describes s added) (hrange : InRange added) : Fine none s.bins := by
  refine ⟨fun b hb => (exists_of_mem_bins h hb).1, ?_, ascending_bins s, nofun⟩
  intro b hb
  obtain ⟨-, a, ha, hindex⟩ := exists_of_mem_bins h hb
  obtain ⟨t, ht, htop⟩ := h.attained (List.ne_nil_of_mem ha)
  have hlow := (hrange a ha).1
  have hhigh := (hrange a ha).2
  have htopHigh := (hrange t ht).2
  have hfloor : floorOf s.top ≤ s.top := by unfold floorOf; omega
  rw [← hindex]
  exact ⟨le_max_of_le_left hlow, max_le hhigh (by omega)⟩

theorem length_bins (h : Describes s added) : s.bins.length ≤ maxBinsPerSketch :=
  (length_bins_le s).trans h.sized.width

def addBins (s : Store) (bs : List Bin) : Store := bs.foldl (fun s b => s.add b.index b.count) s

theorem describes_addBins (h : Describes s added) (hpos : ∀ b ∈ bs, 0 < b.count) :
    Describes (addBins s bs) (added ++ additionsOf bs) := by
  induction bs generalizing s added with
  | nil =>
    rw [additionsOf, List.map_nil, List.append_nil]
    exact h
  | cons b bs ih =>
    have hadd := h.add b.index (hpos b List.mem_cons_self)
    have hrest := ih hadd (List.forall_mem_cons.mp hpos).2
    rw [List.append_assoc] at hrest
    exact hrest

/-- Buckets of a store put into an empty one give the same buckets. -/
theorem bins_addBins (h : Describes s added) : (addBins Store.empty s.bins).bins = s.bins := by
  have hpos : ∀ b ∈ s.bins, 0 < b.count := fun b hb => (exists_of_mem_bins h hb).1
  have hnew := describes_addBins describes_empty hpos
  exact hnew.bins_eq (describes_bins h) (.refl _)

theorem foldlM_addBin (s : Store) (h : Fine none bs) :
    (toWireBins bs).foldlM addBin s = .ok (addBins s bs) := by
  obtain ⟨hpos, hrange, -, -⟩ := h
  induction bs generalizing s with
  | nil => rfl
  | cons b bs ih =>
    have hadd : addBin s ⟨b.index, .finite b.count⟩ = .ok (s.add b.index b.count) := by
      refine bind_eq_ok.mpr ⟨b.count, rfl, ?_⟩
      rw [if_neg (not_le.mpr (hpos b List.mem_cons_self)),
        if_neg (by rw [not_or, not_lt, not_lt]; exact hrange b List.mem_cons_self)]
      rfl
    refine bind_eq_ok.mpr ⟨_, hadd, ?_⟩
    exact ih _ (List.forall_mem_cons.mp hpos).2 (List.forall_mem_cons.mp hrange).2

variable {c : Content} {s s' : Sketch} {weight d d' : ℚ}

def withBins (c : Content) : Sketch :=
  { Sketch.new c.gamma with pos := addBins Store.empty c.pos, neg := addBins Store.empty c.neg }

/-- A payload that passes is read up to its buckets; what is left are the aggregates. -/
theorem fromWire_of_passes (h : Passes w c) :
    fromWire w =
      if w.count = .finite 0 then .ok (withBins c) else setAggregates (withBins c) w := by
  have hgamma : newWithGamma w.gamma = .ok (Sketch.new c.gamma) := by
    rw [h.gamma]
    exact if_neg (not_le.mpr h.gamma_gt)
  unfold fromWire
  rw [validateSketch_eq_ok.mpr ⟨c, h⟩, hgamma, h.bins, h.negBins]
  simp only [Loops.ok_bind]
  rw [foldlM_addBin _ h.pos, Loops.ok_bind, foldlM_addBin _ h.neg]
  rfl

theorem fromWire_of_empty (h : Passes w c) (hcount : c.count = 0) :
    fromWire w = .ok (withBins c) := by
  rw [fromWire_of_passes h, if_pos (by rw [h.count, hcount])]

theorem fromWire_of_counted (h : Passes w c) (hcount : 0 < c.count) {lo hi : ℚ}
    (hlo : w.min = .finite lo) (hhi : w.max = .finite hi) (hle : lo ≤ hi) :
    fromWire w = .ok ⟨c.gamma, addBins Store.empty c.pos, addBins Store.empty c.neg,
      c.zeros, c.count, c.sum, lo, hi⟩ := by
  rw [fromWire_of_passes h,
    if_neg (by rw [h.count, SketchMerge.Num.finite.injEq]; exact hcount.ne')]
  refine bind_eq_ok.mpr ⟨c.count, by rw [h.count]; rfl, ?_⟩
  refine bind_eq_ok.mpr ⟨c.zeros, by rw [h.zeros]; rfl, ?_⟩
  refine bind_eq_ok.mpr ⟨c.sum, by rw [h.sum]; rfl, ?_⟩
  rw [if_neg (by rw [not_or, not_lt, not_lt]; exact ⟨h.count_nonneg, h.zeros_nonneg⟩),
    if_pos hcount]
  refine bind_eq_ok.mpr ⟨lo, by rw [hlo]; rfl, bind_eq_ok.mpr ⟨hi, by rw [hhi]; rfl, ?_⟩⟩
  rw [if_neg (not_lt.mpr hle)]
  rfl

def held (s : Sketch) : ℚ := s.pos.total + s.neg.total + s.zeros

/-- How far the buckets and zeroes of a payload are from its count; zeroes are dropped without a
count. -/
def off (c : Content) : ℚ :=
  if c.count = 0 then heldBy c.pos + heldBy c.neg else c.held - c.count

/-- How a sketch is made. The number is what the payloads in its history are off, added up. -/
inductive Made (ceilLog : ℚ → ℚ → ℤ) : Sketch → ℚ → Prop
  | new (gamma : ℚ) (hgamma : 1 < gamma) : Made ceilLog (Sketch.new gamma) 0
  | payload (w : WireSketch) (c : Content) (s : Sketch) (hc : Passes w c)
    (hw : fromWire w = .ok s) :
    Made ceilLog s (off c)
  | observe (s : Sketch) (d : ℚ) (x : SketchMerge.Num × SketchMerge.Num) (hs : Made ceilLog s d) :
    Made ceilLog (observe ceilLog s x) d
  | merge (s s' m : Sketch) (d d' : ℚ) (hs : Made ceilLog s d) (hs' : Made ceilLog s' d')
    (hm : s.merge s' = .ok m) : Made ceilLog m (d + d')

/-- What a sketch keeps, with what the payloads in its history are off. -/
structure Keeps (s : Sketch) (d : ℚ) : Prop where
  gamma : 1 < s.gamma
  pos : ∃ added, Describes s.pos added ∧ InRange added
  neg : ∃ added, Describes s.neg added ∧ InRange added
  zeros : 0 ≤ s.zeros
  count : 0 ≤ s.count
  fresh : s.count = 0 → s.sum = 0 ∧ s.zeros = 0 ∧ s.min = ⊤ ∧ s.max = ⊥
  extremes : 0 < s.count → ∃ lo hi : ℚ, s.min = lo ∧ s.max = hi ∧ lo ≤ hi
  off : held s - s.count = d

theorem inRange_empty : InRange [] := nofun

theorem keeps_new {gamma : ℚ} (h : 1 < gamma) : Keeps (Sketch.new gamma) 0 := by
  refine ⟨h, ⟨[], describes_empty, inRange_empty⟩, ⟨[], describes_empty, inRange_empty⟩,
    le_rfl, le_rfl, fun _ => ⟨rfl, rfl, rfl, rfl⟩, fun hcount => absurd hcount (lt_irrefl _), ?_⟩
  show (0 : ℚ) + 0 + 0 - 0 = 0
  norm_num

theorem inRange_additionsOf (h : Fine none bs) : InRange (additionsOf bs) := by
  intro a ha
  obtain ⟨b, hb, rfl⟩ := List.mem_map.mp ha
  exact h.range b hb

theorem keeps_bins (h : Fine none bs) :
    Describes (addBins Store.empty bs) (additionsOf bs) ∧ InRange (additionsOf bs) ∧
      (addBins Store.empty bs).total = heldBy bs := by
  have hdesc := describes_addBins describes_empty h.positive
  rw [List.nil_append] at hdesc
  refine ⟨hdesc, inRange_additionsOf h, ?_⟩
  rw [hdesc.total, additionsOf, List.map_map]
  rfl

/-- The sketch of a payload holds what the payload holds; without a count the zeroes are dropped. -/
theorem keeps_payload (hc : Passes w c) (hw : fromWire w = .ok s) : Keeps s (off c) := by
  obtain ⟨hpos, hposRange, hposTotal⟩ := keeps_bins hc.pos
  obtain ⟨hneg, hnegRange, hnegTotal⟩ := keeps_bins hc.neg
  rcases hc.count_nonneg.eq_or_lt with hzero | hcount
  · rw [fromWire_of_empty hc hzero.symm] at hw
    rw [← Except.ok.inj hw, off, if_pos hzero.symm]
    refine ⟨hc.gamma_gt, ⟨_, hpos, hposRange⟩, ⟨_, hneg, hnegRange⟩, le_rfl, le_rfl,
      fun _ => ⟨rfl, rfl, rfl, rfl⟩, fun h => absurd h (lt_irrefl _), ?_⟩
    show (addBins Store.empty c.pos).total + (addBins Store.empty c.neg).total + 0 - 0 = _
    rw [hposTotal, hnegTotal, add_zero, sub_zero]
  · obtain ⟨lo, hi, hlo, hhi, hle⟩ := hc.extremes hcount
    rw [fromWire_of_counted hc hcount hlo hhi hle] at hw
    rw [← Except.ok.inj hw, off, if_neg hcount.ne']
    refine ⟨hc.gamma_gt, ⟨_, hpos, hposRange⟩, ⟨_, hneg, hnegRange⟩, hc.zeros_nonneg, hcount.le,
      fun h => absurd h hcount.ne', fun _ => ⟨lo, hi, rfl, rfl, hle⟩, ?_⟩
    show (addBins Store.empty c.pos).total + (addBins Store.empty c.neg).total +
      c.zeros - c.count = _
    rw [hposTotal, hnegTotal]
    rfl

variable (gamma v : ℚ)

theorem bucketOf_range :
    minInt32 ≤ bucketOf ceilLog gamma v ∧ bucketOf ceilLog gamma v ≤ maxInt32 := by
  unfold bucketOf minInt32 maxInt32
  dsimp only
  split
  · omega
  · split <;> omega

def placed (s : Store) (k : Option ℤ) (weight : ℚ) : Store :=
  match k with
  | some k => s.add k weight
  | none => s

theorem keeps_placed {s : Store} (h : ∃ added, Describes s added ∧ InRange added) {k : Option ℤ}
    (hk : ∀ i, k = some i → minInt32 ≤ i ∧ i ≤ maxInt32) (hw : 0 < weight) :
    (∃ added, Describes (placed s k weight) added ∧ InRange added) ∧
      (placed s k weight).total = s.total + if k.isSome then weight else 0 := by
  obtain ⟨added, hdesc, hrange⟩ := h
  cases k with
  | none => exact ⟨⟨added, hdesc, hrange⟩, (add_zero _).symm⟩
  | some i =>
    refine ⟨⟨added ++ [(i, weight)], hdesc.add i hw, ?_⟩, (add_spec hdesc.sized i weight).total⟩
    exact List.forall_mem_append.mpr ⟨hrange, List.forall_mem_singleton.mpr (hk i rfl)⟩

theorem positiveBucket_range (i : ℤ) (h : positiveBucket ceilLog gamma v = some i) :
    minInt32 ≤ i ∧ i ≤ maxInt32 := by
  unfold positiveBucket at h
  split at h
  · rw [← Option.some.inj h]
    exact bucketOf_range ceilLog gamma v
  · cases h

theorem negativeBucket_range (i : ℤ) (h : negativeBucket ceilLog gamma v = some i) :
    minInt32 ≤ i ∧ i ≤ maxInt32 := by
  unfold negativeBucket at h
  split at h
  · rw [← Option.some.inj h]
    exact bucketOf_range ceilLog gamma (-v)
  · cases h

/-- One observation lands in exactly one place. -/
theorem placed_once (gamma v weight : ℚ) :
    ((if (positiveBucket ceilLog gamma v).isSome then weight else 0) +
      (if (negativeBucket ceilLog gamma v).isSome then weight else 0) +
      if v = 0 then weight else 0) = weight := by
  unfold positiveBucket negativeBucket
  rcases lt_trichotomy v 0 with hv | hv | hv
  · simp [hv, hv.not_gt, hv.ne]
  · simp [hv]
  · simp [hv, hv.not_gt, hv.ne']

theorem keeps_record (h : Keeps s d) (v : ℚ) (hw : 0 < weight) :
    Keeps (s.record ceilLog v weight) d := by
  obtain ⟨hpos, hposTotal⟩ := keeps_placed h.pos (positiveBucket_range ceilLog s.gamma v) hw
  obtain ⟨hneg, hnegTotal⟩ := keeps_placed h.neg (negativeBucket_range ceilLog s.gamma v) hw
  have hcount := h.count
  have hheld : held (s.record ceilLog v weight) = held s + weight := by
    rw [record_eq]
    show (placed s.pos _ weight).total + (placed s.neg _ weight).total +
      (if v = 0 then s.zeros + weight else s.zeros) = _
    have hzeros : (if v = 0 then s.zeros + weight else s.zeros) =
        s.zeros + if v = 0 then weight else 0 := by
      split
      · rfl
      · rw [add_zero]
    have honce := placed_once ceilLog s.gamma v weight
    unfold held
    linarith
  have hoff : held (s.record ceilLog v weight) - (s.record ceilLog v weight).count =
      held s - s.count := by
    rw [hheld, record_eq]
    ring
  rw [record_eq] at hoff hheld ⊢
  refine ⟨h.gamma, hpos, hneg, ?_, ?_, ?_, ?_, hoff.trans h.off⟩
  · show 0 ≤ if v = 0 then s.zeros + weight else s.zeros
    have hzeros := h.zeros
    split <;> linarith
  · show 0 ≤ s.count + weight
    linarith
  · intro hzero
    linarith
  · intro _
    rcases hcount.eq_or_lt with hzero | hlt
    · obtain ⟨-, -, hmin, hmax⟩ := h.fresh hzero.symm
      refine ⟨v, v, ?_, ?_, le_rfl⟩
      · show s.min ⊓ (v : WithTop ℚ) = v
        rw [hmin, top_inf_eq]
      · show s.max ⊔ (v : WithBot ℚ) = v
        rw [hmax, bot_sup_eq]
    · obtain ⟨lo, hi, hmin, hmax, hle⟩ := h.extremes hlt
      refine ⟨lo ⊓ v, hi ⊔ v, ?_, ?_, ?_⟩
      · show s.min ⊓ (v : WithTop ℚ) = _
        rw [hmin]
        rfl
      · show s.max ⊔ (v : WithBot ℚ) = _
        rw [hmax]
        rfl
      · exact inf_le_right.trans le_sup_right

theorem keeps_observe (h : Keeps s d) (x : SketchMerge.Num × SketchMerge.Num) :
    Keeps (observe ceilLog s x) d := by
  rcases observe_cases ceilLog s x with ⟨hsame, -⟩ | ⟨v, weight, hw, hrecord, -⟩
  · rw [hsame]
    exact h
  · rw [hrecord]
    exact keeps_record ceilLog h v hw

theorem keeps_merged {s s' : Store} (h : ∃ added, Describes s added ∧ InRange added)
    (h' : ∃ added, Describes s' added ∧ InRange added) :
    (∃ added, Describes (s.merge s') added ∧ InRange added) ∧
      (s.merge s').total = s.total + s'.total := by
  obtain ⟨added, hdesc, hrange⟩ := h
  obtain ⟨more, hdesc', hrange'⟩ := h'
  have hmerge := hdesc.merge hdesc'
  refine ⟨⟨_, hmerge, List.forall_mem_append.mpr ⟨hrange, hrange'⟩⟩, ?_⟩
  rw [hmerge.total, hdesc.total, hdesc'.total, List.map_append, List.sum_append]

/-- The extremes of a merge, if anything was counted on either side. -/
theorem merged_extremes (h : Keeps s d) (h' : Keeps s' d') (hcount : 0 < s.count + s'.count) :
    ∃ lo hi : ℚ, s.min ⊓ s'.min = lo ∧ s.max ⊔ s'.max = hi ∧ lo ≤ hi := by
  rcases h.count.eq_or_lt with hzero | hlt
  · obtain ⟨-, -, hmin, hmax⟩ := h.fresh hzero.symm
    rw [hmin, hmax, top_inf_eq, bot_sup_eq]
    exact h'.extremes (by linarith)
  · obtain ⟨lo, hi, hmin, hmax, hle⟩ := h.extremes hlt
    rw [hmin, hmax]
    rcases h'.count.eq_or_lt with hzero | hlt'
    · obtain ⟨-, -, hmin', hmax'⟩ := h'.fresh hzero.symm
      rw [hmin', hmax', sup_bot_eq]
      exact ⟨lo, hi, rfl, rfl, hle⟩
    · obtain ⟨lo', hi', hmin', hmax', hle'⟩ := h'.extremes hlt'
      rw [hmin', hmax']
      exact ⟨lo ⊓ lo', hi ⊔ hi', rfl, rfl, inf_le_left.trans (hle.trans le_sup_left)⟩

/-- A merge adds what its sides are off. -/
theorem keeps_merge {m : Sketch} (h : Keeps s d) (h' : Keeps s' d') (hm : s.merge s' = .ok m) :
    Keeps m (d + d') := by
  unfold Sketch.merge at hm
  split at hm
  · cases hm
  rw [smaller_eq_inf, greater_eq_sup] at hm
  rw [← Except.ok.inj hm]
  obtain ⟨hpos, hposTotal⟩ := keeps_merged h.pos h'.pos
  obtain ⟨hneg, hnegTotal⟩ := keeps_merged h.neg h'.neg
  have hcount := h.count
  have hcount' := h'.count
  have hheld : (s.pos.merge s'.pos).total + (s.neg.merge s'.neg).total + (s.zeros + s'.zeros) =
      held s + held s' := by
    rw [hposTotal, hnegTotal]
    unfold held
    ring
  refine ⟨h.gamma, hpos, hneg, add_nonneg h.zeros h'.zeros, add_nonneg hcount hcount', ?_, ?_, ?_⟩
  · intro hzero
    obtain ⟨hs, hz, hmin, hmax⟩ := h.fresh (by linarith)
    obtain ⟨hs', hz', hmin', hmax'⟩ := h'.fresh (by linarith)
    refine ⟨?_, ?_, ?_, ?_⟩
    · show s.sum + s'.sum = 0
      rw [hs, hs', add_zero]
    · show s.zeros + s'.zeros = 0
      rw [hz, hz', add_zero]
    · show s.min ⊓ s'.min = ⊤
      rw [hmin, hmin', inf_idem]
    · show s.max ⊔ s'.max = ⊥
      rw [hmax, hmax', sup_idem]
  · exact fun hpos => merged_extremes h h' hpos
  · rw [← h.off, ← h'.off]
    show (s.pos.merge s'.pos).total + (s.neg.merge s'.neg).total + (s.zeros + s'.zeros) -
      (s.count + s'.count) = _
    rw [hheld]
    ring

theorem keeps_made {ceilLog : ℚ → ℚ → ℤ} (h : Made ceilLog s d) : Keeps s d := by
  induction h with
  | new gamma hgamma => exact keeps_new hgamma
  | payload w c s hc hw => exact keeps_payload hc hw
  | observe s d x _ ih => exact keeps_observe ceilLog ih x
  | merge s s' m d d' _ _ hm ih ih' => exact keeps_merge ih ih' hm

def contentOf (s : Sketch) : Content := ⟨s.gamma, s.count, s.sum, s.zeros, s.pos.bins, s.neg.bins⟩

theorem held_contentOf (h : Keeps s d) : (contentOf s).held = held s := by
  obtain ⟨added, hpos, -⟩ := h.pos
  obtain ⟨more, hneg, -⟩ := h.neg
  show heldBy s.pos.bins + heldBy s.neg.bins + s.zeros = _
  rw [heldBy_bins hpos, heldBy_bins hneg]
  rfl

theorem passes_toWire (h : Keeps s d) (hslack : |d| ≤ slackOf s.count) :
    Passes (toWire s) (contentOf s) := by
  obtain ⟨added, hpos, hposRange⟩ := h.pos
  obtain ⟨more, hneg, hnegRange⟩ := h.neg
  refine ⟨rfl, rfl, rfl, rfl, rfl, rfl, h.gamma, h.count, h.zeros, ?_, fine_bins hpos hposRange,
    fine_bins hneg hnegRange, length_bins hpos, length_bins hneg, ?_⟩
  · intro hcount
    change 0 < s.count at hcount
    obtain ⟨lo, hi, hmin, hmax, hle⟩ := h.extremes hcount
    refine ⟨lo, hi, ?_, ?_, hle⟩
    · show (if 0 < s.count then minNum s.min else .finite 0) = _
      rw [if_pos hcount, hmin]
      rfl
    · show (if 0 < s.count then maxNum s.max else .finite 0) = _
      rw [if_pos hcount, hmax]
      rfl
  · rw [held_contentOf h]
    exact (congrArg abs h.off).trans_le hslack

theorem toWireBins_injective : Function.Injective toWireBins := by
  refine List.map_injective_iff.mpr ?_
  rintro ⟨i, c⟩ ⟨i', c'⟩ h
  obtain ⟨hindex, hcount⟩ := WireBin.mk.inj h
  exact congrArg₂ Bin.mk hindex (SketchMerge.Num.finite.inj hcount)

/-- A payload that passes the checks says what the sketch says. -/
theorem passes_toWire_iff (h : Keeps s d) :
    validateSketch (toWire s) = .ok () ↔ |d| ≤ slackOf s.count := by
  refine ⟨fun hvalid => ?_, fun hslack => validateSketch_eq_ok.mpr ⟨_, passes_toWire h hslack⟩⟩
  obtain ⟨c, hc⟩ := validateSketch_eq_ok.mp hvalid
  have hcount : c.count = s.count := SketchMerge.Num.finite.inj hc.count.symm
  have hzeros : c.zeros = s.zeros := SketchMerge.Num.finite.inj hc.zeros.symm
  have hheld : c.held = held s := by
    rw [← held_contentOf h]
    unfold Content.held contentOf
    rw [hzeros, ← toWireBins_injective hc.bins, ← toWireBins_injective hc.negBins]
  have hslack := hc.slack
  rwa [hheld, hcount, h.off] at hslack

/-- A payload that passes and says what the sketch says reads back as the same sketch. -/
theorem fromWire_toWire (h : Keeps s d) (hslack : |d| ≤ slackOf s.count) :
    ∃ s', fromWire (toWire s) = .ok s' ∧ s'.gamma = s.gamma ∧ SameSummary s' s := by
  have hpasses := passes_toWire h hslack
  obtain ⟨added, hpos, -⟩ := h.pos
  obtain ⟨more, hneg, -⟩ := h.neg
  rcases h.count.eq_or_lt with hzero | hcount
  · obtain ⟨hsum, hzeros, hmin, hmax⟩ := h.fresh hzero.symm
    refine ⟨_, fromWire_of_empty hpasses hzero.symm, rfl, bins_addBins hpos,
      bins_addBins hneg, ?_, ?_, ?_, ?_, ?_⟩
    · exact hzeros.symm
    · exact hzero
    · exact hsum.symm
    · exact hmin.symm
    · exact hmax.symm
  · obtain ⟨lo, hi, hmin, hmax, hle⟩ := h.extremes hcount
    obtain ⟨lo', hi', hlo, hhi, hle'⟩ := hpasses.extremes hcount
    have hlo' : lo' = lo := by
      have heq : (if 0 < s.count then minNum s.min else .finite 0) =
        SketchMerge.Num.finite lo' := hlo
      rw [if_pos hcount, hmin] at heq
      exact (SketchMerge.Num.finite.inj heq).symm
    have hhi' : hi' = hi := by
      have heq : (if 0 < s.count then maxNum s.max else .finite 0) =
        SketchMerge.Num.finite hi' := hhi
      rw [if_pos hcount, hmax] at heq
      exact (SketchMerge.Num.finite.inj heq).symm
    refine ⟨_, fromWire_of_counted hpasses hcount hlo hhi hle', rfl, bins_addBins hpos,
      bins_addBins hneg, rfl, rfl, rfl, ?_, ?_⟩
    · rw [hmin, ← hlo']
    · rw [hmax, ← hhi']

end Ozymandias.SketchKept
