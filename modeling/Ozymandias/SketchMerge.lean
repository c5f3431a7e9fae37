import Ozymandias.SketchStore

/-!
Sketches: a store for the positive values, one for the negative ones, the
count of zeroes and the exact aggregates. A store describes the multiset of
its additions, and so do merges of stores, whatever collapsed on either side
before. A merge of two sketches is therefore the sketch of all observations.
The bucket index of a value is left abstract except for its clamp to int32:
it is the ceiling of a logarithm in floating point.
-/
namespace Ozymandias.SketchMerge

open Peaks WeightRuns SketchStore

abbrev Addition := ℤ × ℚ

noncomputable def totals (added : List Addition) : ℤ →₀ ℚ :=
  (added.map (fun a => Finsupp.single a.1 a.2)).sum

variable {added : List Addition} {obs : List (ℚ × ℚ)} {s : Store}

theorem totals_cons (a : Addition) (added : List Addition) :
    totals (a :: added) = Finsupp.single a.1 a.2 + totals added := by
  unfold totals
  rw [List.map_cons, List.sum_cons]

theorem totals_append (added more : List Addition) :
    totals (added ++ more) = totals added + totals more := by
  unfold totals
  rw [List.map_append, List.sum_append]

variable {added' more : List Addition} {top : ℤ} {s' : Store}

theorem totals_perm (h : added.Perm added') : totals added = totals added' :=
  (h.map _).sum_eq

theorem mass_totals (added : List Addition) : mass (totals added) = (added.map Prod.snd).sum := by
  induction added with
  | nil => rfl
  | cons a added ih =>
    rw [totals_cons, mass_add, mass_single, ih, List.map_cons, List.sum_cons]

def weightAt (added : List Addition) (floor k : ℤ) : ℚ :=
  ((added.filter (fun a => max a.1 floor = k)).map Prod.snd).sum

theorem raise_totals (added : List Addition) (floor k : ℤ) :
    raise floor (totals added) k = weightAt added floor k := by
  induction added with
  | nil => rfl
  | cons a added ih =>
    rw [totals_cons, raise_add, raise_single, Finsupp.add_apply, ih, Finsupp.single_apply]
    unfold weightAt
    by_cases hk : max a.1 floor = k
    · rw [if_pos hk, List.filter_cons_of_pos (by simpa using hk), List.map_cons, List.sum_cons]
    · rw [if_neg hk, List.filter_cons_of_neg (by simpa using hk), zero_add]

theorem weightAt_pos (hpos : ∀ a ∈ added, 0 < a.2) {a : Addition} (ha : a ∈ added) (floor : ℤ) :
    0 < weightAt added floor (max a.1 floor) := by
  refine List.sum_pos _ ?_ ?_
  · intro w hw
    obtain ⟨b, hb, rfl⟩ := List.mem_map.mp hw
    exact hpos b (List.mem_filter.mp hb).1
  · refine List.ne_nil_of_mem (List.mem_map_of_mem (a := a) ?_)
    exact List.mem_filter.mpr ⟨ha, by simp⟩

/-- A store holds its additions under the floor that their greatest index sets. -/
structure Describes (s : Store) (added : List Addition) : Prop where
  sized : Sized s
  positive : ∀ a ∈ added, 0 < a.2
  total : s.total = (added.map Prod.snd).sum
  empty_iff : s.counts = [] ↔ added = []
  le_top : ∀ a ∈ added, a.1 ≤ s.top
  attained : added ≠ [] → ∃ a ∈ added, a.1 = s.top
  content : s.content = raise (floorOf s.top) (totals added)

theorem describes_empty : Describes Store.empty [] := by
  refine ⟨⟨Nat.zero_le _, rfl⟩, ?_, rfl, ⟨fun _ => rfl, fun _ => rfl⟩, ?_, ?_, ?_⟩
  · exact nofun
  · exact nofun
  · intro h
    exact absurd rfl h
  · exact (raise_zero _).symm

/-- A floor over the store's own top undoes what was collapsed under that top. -/
theorem Describes.raised (h : Describes s added) (hle : s.counts ≠ [] → s.top ≤ top) :
    raise (floorOf top) s.content = raise (floorOf top) (totals added) := by
  rw [h.content]
  by_cases hne : s.counts = []
  · rw [h.empty_iff.mp hne]
    unfold totals
    rw [List.map_nil, List.sum_nil, raise_zero]
  · have hfloor : floorOf s.top ≤ floorOf top := by
      have htop := hle hne
      unfold floorOf
      omega
    exact raise_raise hfloor _

/-- More additions, with their own top: the new top is the greater one, and all is collapsed
under its floor. -/
theorem Describes.join (h : Describes s added) (hsized : Sized s') (hne' : s'.counts ≠ [])
    (hpos : ∀ a ∈ more, 0 < a.2) (htotal : s'.total = s.total + (more.map Prod.snd).sum)
    (htop : s'.top = if s.counts = [] then top else max s.top top) (hle : ∀ a ∈ more, a.1 ≤ top)
    (hattained : ∃ a ∈ more, a.1 = top)
    (hcontent : s'.content = raise (floorOf s'.top) s.content + raise (floorOf s'.top)
      (totals more)) :
    Describes s' (added ++ more) := by
  have hleft : s.counts ≠ [] → s.top ≤ s'.top := by
    intro hne
    rw [htop, if_neg hne]
    exact le_max_left ..
  have hright : top ≤ s'.top := by
    rw [htop]
    split
    · exact le_rfl
    · exact le_max_right ..
  obtain ⟨b, hb, hbt⟩ := hattained
  refine ⟨hsized, ?_, ?_, ?_, ?_, ?_, ?_⟩
  · exact List.forall_mem_append.mpr ⟨h.positive, hpos⟩
  · rw [htotal, h.total, List.map_append, List.sum_append]
  · refine ⟨fun hempty => absurd hempty hne', fun hempty => ?_⟩
    exact absurd (List.append_eq_nil_iff.mp hempty).2 (List.ne_nil_of_mem hb)
  · refine List.forall_mem_append.mpr ⟨fun a ha => ?_, fun a ha => (hle a ha).trans hright⟩
    have hne : s.counts ≠ [] := by
      rw [Ne, h.empty_iff]
      exact List.ne_nil_of_mem ha
    exact (h.le_top a ha).trans (hleft hne)
  · intro _
    rw [htop]
    by_cases hne : s.counts = []
    · rw [if_pos hne]
      exact ⟨b, List.mem_append_right _ hb, hbt⟩
    · rw [if_neg hne]
      rcases le_total s.top top with hle | hle
      · exact ⟨b, List.mem_append_right _ hb, by rw [max_eq_right hle, hbt]⟩
      · obtain ⟨a, ha, hat⟩ := h.attained (by rwa [Ne, ← h.empty_iff])
        exact ⟨a, List.mem_append_left _ ha, by rw [max_eq_left hle, hat]⟩
  · rw [hcontent, h.raised hleft, totals_append, raise_add]

theorem Describes.add (h : Describes s added) (k : ℤ) {w : ℚ} (hw : 0 < w) :
    Describes (s.add k w) (added ++ [(k, w)]) := by
  have hadd := add_spec h.sized k w
  refine h.join hadd.sized hadd.nonempty ?_ ?_ hadd.top ?_ ?_ ?_
  · simpa using hw
  · simpa using hadd.total
  · simp
  · simp
  · rw [hadd.content, raise_add]
    simp [totals]

/-- The top slot of a store that holds something is in use. -/
theorem Describes.last (h : Describes s added) (hne : s.counts ≠ []) :
    ∃ init c, s.counts = init ++ [c] ∧ c ≠ 0 := by
  obtain ⟨init, c, hcounts⟩ := (List.eq_nil_or_concat' s.counts).resolve_left hne
  refine ⟨init, c, hcounts, ?_⟩
  obtain ⟨a, ha, hat⟩ := h.attained (by rwa [Ne, ← h.empty_iff])
  have htop : s.top = s.offset + init.length := by
    unfold Store.top
    rw [hcounts, List.length_append, List.length_singleton]
    omega
  have hcount : s.content s.top = c := by
    unfold Store.content
    rw [hcounts, weights_append, Finsupp.add_apply, weights_eq_zero (.inr htop.ge), htop, weights,
      weights, zero_add, add_zero, Finsupp.single_eq_same]
  have hpos := weightAt_pos h.positive ha (floorOf s.top)
  rw [hat, max_eq_left (by unfold floorOf; omega), ← raise_totals, ← h.content, hcount] at hpos
  exact ne_of_gt hpos

theorem Describes.merge {other : Store} (h : Describes s added) (hother : Describes other more) :
    Describes (s.merge other) (added ++ more) := by
  by_cases hnil : other.counts = []
  · rw [merge_empty s hnil, hother.empty_iff.mp hnil, List.append_nil]
    exact h
  obtain ⟨init, c, hcounts, hc⟩ := hother.last hnil
  have hmerge := merge_spec h.sized hcounts hc
  have hright : other.top ≤ (s.merge other).top := by
    rw [hmerge.top]
    unfold mergedTop
    split
    · exact le_rfl
    · exact le_max_right ..
  have hsum : other.counts.sum = (more.map Prod.snd).sum := by
    rw [← mass_weights other.offset, ← mass_totals, ← mass_raise (floorOf other.top) (totals more),
      ← hother.content]
    rfl
  refine h.join hmerge.sized hmerge.nonempty hother.positive ?_ hmerge.top hother.le_top ?_ ?_
  · rw [hmerge.total, hsum]
  · exact hother.attained (by rwa [Ne, ← hother.empty_iff])
  · rw [hmerge.content, raise_add, hother.raised (fun _ => hright)]

/-- Stores that describe the same additions show the same buckets. -/
theorem Describes.bins_eq (h : Describes s added) (h' : Describes s' added')
    (hperm : added.Perm added') :
    s.bins = s'.bins := by
  by_cases hnil : added = []
  · have hnil' : added' = [] := (hnil ▸ hperm).symm.eq_nil
    unfold Store.bins
    rw [h.empty_iff.mpr hnil, h'.empty_iff.mpr hnil']
    rfl
  · have hnil' : added' ≠ [] := by
      rintro rfl
      exact hnil hperm.eq_nil
    obtain ⟨a, ha, hat⟩ := h.attained hnil
    obtain ⟨b, hb, hbt⟩ := h'.attained hnil'
    have htop : s.top = s'.top := by
      refine le_antisymm ?_ ?_
      · rw [← hat]
        exact h'.le_top a (hperm.mem_iff.mp ha)
      · rw [← hbt]
        exact h.le_top b (hperm.mem_iff.mpr hb)
    refine bins_eq_of_content ?_
    rw [h.content, h'.content, htop, totals_perm hperm]

inductive History where
  | empty
  | add (before : History) (k : Int32) (weight : { w : ℚ // 0 < w })
  | merge (before other : History)

def History.store : History → Store
  | .empty => Store.empty
  | .add before k weight => before.store.add k.toInt weight
  | .merge before other => before.store.merge other.store

def History.additions : History → List Addition
  | .empty => []
  | .add before k weight => before.additions ++ [(k.toInt, weight.val)]
  | .merge before other => before.additions ++ other.additions

def greatest (added : List Addition) : ℤ := ((added.map Prod.fst).max?).getD 0

def heldAt (added : List Addition) (k : ℤ) : ℚ := weightAt added (greatest added - 2047) k

theorem describes_history (e : History) : Describes e.store e.additions := by
  induction e with
  | empty => exact describes_empty
  | add before k weight ih => exact ih.add k.toInt weight.property
  | merge before other ih ih' => exact ih.merge ih'

theorem Describes.top_eq (h : Describes s added) (hne : added ≠ []) : s.top = greatest added := by
  obtain ⟨a, ha, hat⟩ := h.attained hne
  have hmax : (added.map Prod.fst).max? = some s.top := by
    refine List.max?_eq_some_iff.mpr ⟨?_, ?_⟩
    · rw [← hat]
      exact List.mem_map_of_mem ha
    · intro k hk
      obtain ⟨b, hb, rfl⟩ := List.mem_map.mp hk
      exact h.le_top b hb
  unfold greatest
  rw [hmax, Option.getD_some]

theorem Describes.mem_bins_iff (h : Describes s added) (k : ℤ) (c : ℚ) :
    ⟨k, c⟩ ∈ s.bins ↔ c = heldAt added k ∧ c ≠ 0 := by
  have hcontent : s.content k = heldAt added k := by
    by_cases hne : added = []
    · rw [h.content, hne]
      rfl
    · rw [h.content, raise_totals, h.top_eq hne]
      rfl
  rw [mem_bins, hcontent]
  exact ⟨fun hk => ⟨hk.2.symm, hk.1⟩, fun hk => ⟨hk.2, hk.1.symm⟩⟩

inductive Num where
  | nan
  | infinite (negative : Bool)
  | finite (q : ℚ)
  deriving DecidableEq

inductive SketchErr where
  | incompatible
  | notFinite
  | badWeight
  deriving DecidableEq

structure Sketch where
  gamma : ℚ
  pos : Store
  neg : Store
  zeros : ℚ
  count : ℚ
  sum : ℚ
  min : WithTop ℚ
  max : WithBot ℚ

def Sketch.new (gamma : ℚ) : Sketch :=
  ⟨gamma, Store.empty, Store.empty, 0, 0, 0, ⊤, ⊥⟩

section

variable (ceilLog : ℚ → ℚ → ℤ)

def bucketOf (gamma v : ℚ) : ℤ :=
  let k := ceilLog gamma v
  if k < -2147483648 then -2147483648
  else if 2147483647 < k then 2147483647
  else k

def Sketch.index (s : Sketch) (v : ℚ) : ℤ := bucketOf ceilLog s.gamma v

def Sketch.record (s : Sketch) (v weight : ℚ) : Sketch :=
  let placed :=
    if 0 < v then { s with pos := s.pos.add (s.index ceilLog v) weight }
    else if v < 0 then { s with neg := s.neg.add (s.index ceilLog (-v)) weight }
    else { s with zeros := s.zeros + weight }
  { placed with
    count := s.count + weight
    sum := s.sum + v * weight
    min := if (v : WithTop ℚ) < s.min then v else s.min
    max := if s.max < (v : WithBot ℚ) then v else s.max }

def Sketch.addWithCount (s : Sketch) : Num → Num → Except SketchErr Sketch
  | .finite v, .finite weight =>
    if weight ≤ 0 then .error .badWeight else .ok (s.record ceilLog v weight)
  | .finite _, _ => .error .badWeight
  | _, _ => .error .notFinite

def Sketch.merge (s other : Sketch) : Except SketchErr Sketch :=
  if s.gamma ≠ other.gamma then .error .incompatible
  else .ok
    { s with
      pos := s.pos.merge other.pos
      neg := s.neg.merge other.neg
      zeros := s.zeros + other.zeros
      count := s.count + other.count
      sum := s.sum + other.sum
      min := if other.min < s.min then other.min else s.min
      max := if s.max < other.max then other.max else s.max }

/-- One call of `AddWithCount`: a refused observation leaves the sketch as it was. -/
def observe (s : Sketch) (x : Num × Num) : Sketch :=
  match s.addWithCount ceilLog x.1 x.2 with
  | .ok s' => s'
  | .error _ => s

def sketch (gamma : ℚ) (xs : List (Num × Num)) : Sketch :=
  xs.foldl (observe ceilLog) (Sketch.new gamma)

def accepted (xs : List (Num × Num)) : List (ℚ × ℚ) :=
  xs.filterMap (fun x => match x with
    | (.finite v, .finite weight) => if weight ≤ 0 then none else some (v, weight)
    | _ => none)

/-- The additions that observations make to a store through the bucket of a value, if any. -/
def placedBy (bucket : ℚ → Option ℤ) (obs : List (ℚ × ℚ)) : List Addition :=
  obs.filterMap (fun x => (bucket x.1).map (fun k => (k, x.2)))

def positiveBucket (gamma v : ℚ) : Option ℤ :=
  if 0 < v then some (bucketOf ceilLog gamma v) else none

def negativeBucket (gamma v : ℚ) : Option ℤ :=
  if v < 0 then some (bucketOf ceilLog gamma (-v)) else none

/-- A sketch is what its observations make it, in each of its parts. -/
structure Observes (gamma : ℚ) (s : Sketch) (obs : List (ℚ × ℚ)) : Prop where
  growth : s.gamma = gamma
  pos : Describes s.pos (placedBy (positiveBucket ceilLog gamma) obs)
  neg : Describes s.neg (placedBy (negativeBucket ceilLog gamma) obs)
  zeros : s.zeros = ((obs.filter (fun x => x.1 = 0)).map Prod.snd).sum
  count : s.count = (obs.map Prod.snd).sum
  sum : s.sum = (obs.map (fun x => x.1 * x.2)).sum
  min : s.min = Multiset.inf ↑(obs.map (fun x => (x.1 : WithTop ℚ)))
  max : s.max = Multiset.sup ↑(obs.map (fun x => (x.1 : WithBot ℚ)))

theorem placedBy_append (bucket : ℚ → Option ℤ) (obs more : List (ℚ × ℚ)) :
    placedBy bucket (obs ++ more) = placedBy bucket obs ++ placedBy bucket more :=
  List.filterMap_append

variable {weight gamma : ℚ} {α : Type}

/-- A store takes the additions of one more observation. -/
theorem describes_placed {bucket : ℚ → Option ℤ} (h : Describes s (placedBy bucket obs)) (v : ℚ)
    (hw : 0 < weight) :
    Describes (match bucket v with
      | some k => s.add k weight
      | none => s) (placedBy bucket (obs ++ [(v, weight)])) := by
  rw [placedBy_append]
  cases hb : bucket v with
  | none =>
    have hnone : placedBy bucket [(v, weight)] = [] := by simp [placedBy, hb]
    rw [hnone, List.append_nil]
    exact h
  | some k =>
    have hsome : placedBy bucket [(v, weight)] = [(k, weight)] := by simp [placedBy, hb]
    rw [hsome]
    exact h.add k hw

theorem smaller_eq_inf [LinearOrder α] (a b : α) : (if b < a then b else a) = a ⊓ b := by
  rw [inf_comm]
  exact (min_def_lt b a).symm

theorem greater_eq_sup [LinearOrder α] (a b : α) : (if a < b then b else a) = a ⊔ b :=
  (max_def_lt a b).symm

/-- The parts of a sketch after one observation. -/
theorem record_eq (s : Sketch) (v weight : ℚ) : s.record ceilLog v weight = ⟨s.gamma,
        match positiveBucket ceilLog s.gamma v with
        | some k => s.pos.add k weight
        | none => s.pos,
        match negativeBucket ceilLog s.gamma v with
        | some k => s.neg.add k weight
        | none => s.neg,
        if v = 0 then s.zeros + weight else s.zeros,
        s.count + weight, s.sum + v * weight, s.min ⊓ v, s.max ⊔ v⟩ := by
  unfold Sketch.record positiveBucket negativeBucket
  rw [smaller_eq_inf, greater_eq_sup]
  rcases lt_trichotomy v 0 with hv | hv | hv
  · simp [hv, hv.not_gt, hv.ne, Sketch.index]
  · simp [hv]
  · simp [hv, hv.not_gt, hv.ne', Sketch.index]

theorem Observes.record {s : Sketch} (h : Observes ceilLog gamma s obs) (v : ℚ) (hw : 0 < weight) :
    Observes ceilLog gamma (s.record ceilLog v weight) (obs ++ [(v, weight)]) := by
  rw [record_eq, h.growth]
  constructor
  · rfl
  · exact describes_placed h.pos v hw
  · exact describes_placed h.neg v hw
  · rw [List.filter_append, List.map_append, List.sum_append, ← h.zeros]
    by_cases hv : v = 0 <;> simp [hv]
  · simp [h.count]
  · simp [h.sum]
  · rw [List.map_append, ← Multiset.coe_add, Multiset.inf_add, ← h.min]
    simp
  · rw [List.map_append, ← Multiset.coe_add, Multiset.sup_add, ← h.max]
    simp

theorem Observes.merge {s other : Sketch} {more : List (ℚ × ℚ)} (h : Observes ceilLog gamma s obs)
    (hother : Observes ceilLog gamma other more) :
    ∃ m, s.merge other = .ok m ∧ Observes ceilLog gamma m (obs ++ more) := by
  unfold Sketch.merge
  rw [if_neg (by rw [h.growth, hother.growth]; exact fun hne => hne rfl)]
  refine ⟨_, rfl, ?_⟩
  constructor
  · exact h.growth
  · rw [placedBy_append]
    exact h.pos.merge hother.pos
  · rw [placedBy_append]
    exact h.neg.merge hother.neg
  · rw [List.filter_append, List.map_append, List.sum_append, ← h.zeros, ← hother.zeros]
  · rw [List.map_append, List.sum_append, ← h.count, ← hother.count]
  · rw [List.map_append, List.sum_append, ← h.sum, ← hother.sum]
  · rw [List.map_append, ← Multiset.coe_add, Multiset.inf_add, ← h.min, ← hother.min]
    exact smaller_eq_inf ..
  · rw [List.map_append, ← Multiset.coe_add, Multiset.sup_add, ← h.max, ← hother.max]
    exact greater_eq_sup ..

/-- A refused observation leaves the sketch as it was. -/
theorem observe_cases (s : Sketch) (x : Num × Num) :
    (observe ceilLog s x = s ∧ accepted [x] = []) ∨ ∃ v weight, 0 < weight ∧
      observe ceilLog s x = s.record ceilLog v weight ∧ accepted [x] = [(v, weight)] := by
  obtain ⟨v, weight⟩ := x
  cases v with
  | nan | infinite negative => exact .inl ⟨rfl, rfl⟩
  | finite v =>
    cases weight with
    | nan | infinite negative => exact .inl ⟨rfl, rfl⟩
    | finite weight =>
      unfold observe Sketch.addWithCount accepted
      by_cases hw : weight ≤ 0
      · exact .inl (by simp [hw])
      · exact .inr ⟨v, weight, lt_of_not_ge hw, by simp [hw]⟩

theorem observes_observe {s : Sketch} (h : Observes ceilLog gamma s obs) (x : Num × Num) :
    Observes ceilLog gamma (observe ceilLog s x) (obs ++ accepted [x]) := by
  rcases observe_cases ceilLog s x with ⟨hsame, hnone⟩ | ⟨v, weight, hw, hrecord, hsome⟩
  · rw [hsame, hnone, List.append_nil]
    exact h
  · rw [hrecord, hsome]
    exact h.record ceilLog v hw

theorem observes_sketch (gamma : ℚ) (xs : List (Num × Num)) :
    Observes ceilLog gamma (sketch ceilLog gamma xs) (accepted xs) := by
  unfold sketch
  induction xs using List.reverseRecOn with
  | nil => exact ⟨rfl, describes_empty, describes_empty, rfl, rfl, rfl, rfl, rfl⟩
  | append_singleton xs x ih =>
    have hsplit : accepted (xs ++ [x]) = accepted xs ++ accepted [x] := List.filterMap_append
    rw [List.foldl_append, hsplit]
    exact observes_observe ceilLog ih x

end

/-- The parts of two sketches that a query or an encoding can see agree. -/
structure SameSummary (s s' : Sketch) : Prop where
  pos : s.pos.bins = s'.pos.bins
  neg : s.neg.bins = s'.neg.bins
  zeros : s.zeros = s'.zeros
  count : s.count = s'.count
  sum : s.sum = s'.sum
  min : s.min = s'.min
  max : s.max = s'.max

theorem Observes.same {ceilLog : ℚ → ℚ → ℤ} {gamma : ℚ} {s s' : Sketch}
    (h : Observes ceilLog gamma s obs) (h' : Observes ceilLog gamma s' obs) : SameSummary s s' :=
  ⟨h.pos.bins_eq h'.pos (.refl _), h.neg.bins_eq h'.neg (.refl _), h.zeros.trans h'.zeros.symm,
    h.count.trans h'.count.symm, h.sum.trans h'.sum.symm, h.min.trans h'.min.symm,
    h.max.trans h'.max.symm⟩

/-- A store holds exactly what its additions put at each index. -/
theorem content_of_history (e : History) :
    Ascending Bin.index e.store.bins ∧ e.store.counts.length ≤ 2048 ∧ e.store.bins.length ≤ 2048 ∧
      ∀ k c, ⟨k, c⟩ ∈ e.store.bins ↔ c = heldAt e.additions k ∧ c ≠ 0 := by
  have h := describes_history e
  refine ⟨ascending_bins _, h.sized.width, ?_, h.mem_bins_iff⟩
  exact (length_bins_le _).trans h.sized.width

/-- Neither the order of additions nor the nesting of merges matters to what stores and
sketches show, whatever collapsed on the way. -/
theorem merge_order_independent :
    (∀ e : History, Ascending Bin.index e.store.bins ∧ e.store.counts.length ≤ 2048 ∧
      e.store.bins.length ≤ 2048 ∧
      ∀ k c, ⟨k, c⟩ ∈ e.store.bins ↔ c = heldAt e.additions k ∧ c ≠ 0) ∧
    (∀ e e' : History, e.additions.Perm e'.additions → e.store.bins = e'.store.bins) ∧
    (∀ e e' : History, (e.store.merge e'.store).bins = (e'.store.merge e.store).bins) ∧
    (∀ e e' e'' : History, ((e.store.merge e'.store).merge e''.store).bins =
      (e.store.merge (e'.store.merge e''.store)).bins) ∧
    ∀ (ceilLog : ℚ → ℚ → ℤ) (gamma : ℚ) (xs ys : List (Num × Num)),
      ∃ m, (sketch ceilLog gamma xs).merge (sketch ceilLog gamma ys) = .ok m ∧
        SameSummary m (sketch ceilLog gamma (xs ++ ys)) := by
  refine ⟨content_of_history, ?_, ?_, ?_, ?_⟩
  · intro e e' hperm
    exact (describes_history e).bins_eq (describes_history e') hperm
  · intro e e'
    exact (describes_history (.merge e e')).bins_eq (describes_history (.merge e' e))
      List.perm_append_comm
  · intro e e' e''
    refine (describes_history (.merge (.merge e e') e'')).bins_eq
      (describes_history (.merge e (.merge e' e''))) ?_
    exact .of_eq (List.append_assoc ..)
  · intro ceilLog gamma xs ys
    obtain ⟨m, hm, hobs⟩ :=
      (observes_sketch ceilLog gamma xs).merge ceilLog (observes_sketch ceilLog gamma ys)
    refine ⟨m, hm, hobs.same ?_⟩
    have hsplit : accepted (xs ++ ys) = accepted xs ++ accepted ys := List.filterMap_append
    rw [← hsplit]
    exact observes_sketch ceilLog gamma (xs ++ ys)

end Ozymandias.SketchMerge
