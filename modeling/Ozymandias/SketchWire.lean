import Ozymandias.Loops
import Ozymandias.SketchMerge

/-!
Sketches on the wire: what a sketch is written as, the checks that a payload has
to pass, and the sketch that is built from one. A payload's buckets may disagree
with its count by a small slack, and a merge adds what its two sides are off.
-/
namespace Ozymandias.SketchWire

open Loops Peaks SketchStore SketchMerge

structure WireBin where
  index : ℤ
  count : SketchMerge.Num
  deriving DecidableEq

structure WireSketch where
  gamma : SketchMerge.Num
  count : SketchMerge.Num
  sum : SketchMerge.Num
  min : SketchMerge.Num
  max : SketchMerge.Num
  zeros : SketchMerge.Num
  bins : List WireBin
  negBins : List WireBin
  deriving DecidableEq

inductive Field where
  | bins
  | negBins
  deriving DecidableEq

inductive WireErr where
  | gamma
  | count
  | zeros
  | sum
  | extremesNotFinite
  | extremesOrder
  | tooManyBins (field : Field) (n : ℕ)
  | binCount (field : Field) (i : ℕ)
  | binIndex (field : Field) (i : ℕ)
  | binOrder (field : Field) (i : ℕ)
  | mismatch (binned count : ℚ)
  | badBin
  | badAggregates
  deriving DecidableEq

def maxBinsPerSketch : ℕ := 2048

def minInt32 : ℤ := -2147483648
def maxInt32 : ℤ := 2147483647

def finiteOr (err : WireErr) : SketchMerge.Num → Except WireErr ℚ
  | .finite q => .ok q
  | _ => .error err

/-- The buckets from position `i` on, behind a bucket with index `prev`: what they hold. -/
def validateFrom (field : Field) : ℕ → Option ℤ → List WireBin → Except WireErr ℚ
  | _, _, [] => .ok 0
  | i, prev, b :: rest => do
    let c ← finiteOr (.binCount field i) b.count
    if c ≤ 0 then .error (.binCount field i)
    else if b.index < minInt32 ∨ maxInt32 < b.index then .error (.binIndex field i)
    else if prev.any (fun p => decide (b.index ≤ p)) then .error (.binOrder field i)
    else do
      let binned ← validateFrom field (i + 1) (some b.index) rest
      return c + binned

def validateBins (field : Field) (bins : List WireBin) : Except WireErr ℚ :=
  if maxBinsPerSketch < bins.length then .error (.tooManyBins field bins.length)
  else validateFrom field 0 none bins

def slackOf (count : ℚ) : ℚ := 4722366482869645 / 2 ^ 72 * count + 4835703278458517 / 2 ^ 82

def validateExtremes (count : ℚ) (lo hi : SketchMerge.Num) : Except WireErr Unit :=
  if 0 < count then do
    let lo ← finiteOr .extremesNotFinite lo
    let hi ← finiteOr .extremesNotFinite hi
    if hi < lo then .error .extremesOrder else .ok ()
  else .ok ()

def validateSketch (w : WireSketch) : Except WireErr Unit := do
  let gamma ← finiteOr .gamma w.gamma
  if gamma ≤ 1 then .error .gamma
  else do
    let count ← finiteOr .count w.count
    if count < 0 then .error .count
    else do
      let zeros ← finiteOr .zeros w.zeros
      if zeros < 0 then .error .zeros
      else do
        let _ ← finiteOr .sum w.sum
        validateExtremes count w.min w.max
        let pos ← validateBins .bins w.bins
        let neg ← validateBins .negBins w.negBins
        if slackOf count < |pos + neg + zeros - count| then
          .error (.mismatch (pos + neg + zeros) count)
        else .ok ()

def toWireBins (bins : List Bin) : List WireBin := bins.map (fun b => ⟨b.index, .finite b.count⟩)

def minNum : WithTop ℚ → SketchMerge.Num
  | ⊤ => .infinite false
  | (q : ℚ) => .finite q

def maxNum : WithBot ℚ → SketchMerge.Num
  | ⊥ => .infinite true
  | (q : ℚ) => .finite q

def toWire (s : Sketch) : WireSketch :=
  { gamma := .finite s.gamma
    count := .finite s.count
    sum := .finite s.sum
    min := if 0 < s.count then minNum s.min else .finite 0
    max := if 0 < s.count then maxNum s.max else .finite 0
    zeros := .finite s.zeros
    bins := toWireBins s.pos.bins
    negBins := toWireBins s.neg.bins }

def newWithGamma : SketchMerge.Num → Except WireErr Sketch
  | .finite gamma => if gamma ≤ 1 then .error .gamma else .ok (Sketch.new gamma)
  | _ => .error .gamma

def addBin (s : Store) (b : WireBin) : Except WireErr Store := do
  let c ← finiteOr .badBin b.count
  if c ≤ 0 then return s
  else if b.index < minInt32 ∨ maxInt32 < b.index then .error .badBin
  else return s.add b.index c

def setAggregates (s : Sketch) (w : WireSketch) : Except WireErr Sketch := do
  let count ← finiteOr .badAggregates w.count
  let zeros ← finiteOr .badAggregates w.zeros
  let sum ← finiteOr .badAggregates w.sum
  if count < 0 ∨ zeros < 0 then .error .badAggregates
  else if 0 < count then do
    let lo ← finiteOr .badAggregates w.min
    let hi ← finiteOr .badAggregates w.max
    if hi < lo then .error .badAggregates
    else return { s with count := count, sum := sum, min := lo, max := hi, zeros := zeros }
  else return { s with count := count, sum := sum, zeros := zeros }

/-- The sketch of a payload. Nothing counted leaves the aggregates of a fresh sketch. -/
def fromWire (w : WireSketch) : Except WireErr Sketch := do
  validateSketch w
  let s ← newWithGamma w.gamma
  let pos ← w.bins.foldlM addBin s.pos
  let neg ← w.negBins.foldlM addBin s.neg
  let s := { s with pos := pos, neg := neg }
  if w.count = .finite 0 then return s else setAggregates s w

theorem finiteOr_eq_ok {err : WireErr} {x : SketchMerge.Num} {q : ℚ} :
    finiteOr err x = .ok q ↔ x = .finite q := by
  cases x <;> simp [finiteOr]

/-- Buckets that a store can hold, ascending and above an index. -/
structure Fine (prev : Option ℤ) (bs : List Bin) : Prop where
  positive : ∀ b ∈ bs, 0 < b.count
  range : ∀ b ∈ bs, minInt32 ≤ b.index ∧ b.index ≤ maxInt32
  ascending : Ascending Bin.index bs
  above : ∀ p, prev = some p → ∀ b ∈ bs, p < b.index

variable {prev : Option ℤ} {bins : List WireBin} {field : Field} {total : ℚ}

theorem fine_nil : Fine prev [] := ⟨nofun, nofun, List.Pairwise.nil, fun _ _ _ => nofun⟩

theorem fine_cons {b : Bin} {bs : List Bin} :
    Fine prev (b :: bs) ↔ 0 < b.count ∧ (minInt32 ≤ b.index ∧ b.index ≤ maxInt32) ∧
      (∀ p, prev = some p → p < b.index) ∧ Fine (some b.index) bs := by
  constructor
  · intro h
    obtain ⟨hpos, hposRest⟩ := List.forall_mem_cons.mp h.positive
    obtain ⟨hrange, hrangeRest⟩ := List.forall_mem_cons.mp h.range
    obtain ⟨hfirst, hasc⟩ := List.pairwise_cons.mp h.ascending
    refine ⟨hpos, hrange, fun p hp => h.above p hp b List.mem_cons_self, hposRest,
      hrangeRest, hasc, ?_⟩
    rintro p ⟨⟩
    exact hfirst
  · rintro ⟨hpos, hrange, habove, h⟩
    have hfirst := h.above b.index rfl
    refine ⟨List.forall_mem_cons.mpr ⟨hpos, h.positive⟩, List.forall_mem_cons.mpr ⟨hrange, h.range⟩,
      List.pairwise_cons.mpr ⟨hfirst, h.ascending⟩, fun p hp => List.forall_mem_cons.mpr
        ⟨habove p hp, ?_⟩⟩
    exact fun b' hb' => (habove p hp).trans (hfirst b' hb')

def heldBy (bs : List Bin) : ℚ := (bs.map Bin.count).sum

theorem validateFrom_eq_ok {i : ℕ} : validateFrom field i prev bins = .ok total ↔
      ∃ bs, bins = toWireBins bs ∧ Fine prev bs ∧ total = heldBy bs := by
  induction bins generalizing i prev total with
  | nil =>
    constructor
    · intro h
      exact ⟨[], rfl, fine_nil, (Except.ok.inj h).symm⟩
    · rintro ⟨bs, hbs, -, rfl⟩
      rw [List.map_eq_nil_iff.mp hbs.symm]
      rfl
  | cons b rest ih =>
    constructor
    · intro h
      obtain ⟨c, hc, h⟩ := bind_eq_ok.mp h
      rw [finiteOr_eq_ok] at hc
      split_ifs at h with hpos hrange habove
      obtain ⟨binned, hbinned, h⟩ := bind_eq_ok.mp h
      obtain ⟨bs, rfl, hfine, rfl⟩ := ih.mp hbinned
      refine ⟨⟨b.index, c⟩ :: bs, ?_, ?_, (Except.ok.inj h).symm⟩
      · show b :: toWireBins bs = ⟨b.index, .finite c⟩ :: toWireBins bs
        rw [← hc]
      · rw [not_or, not_lt, not_lt] at hrange
        refine fine_cons.mpr ⟨lt_of_not_ge hpos, hrange, ?_, hfine⟩
        rintro p rfl
        simpa using habove
    · rintro ⟨bs, hbs, hfine, rfl⟩
      cases bs with
      | nil => cases hbs
      | cons b' bs =>
        obtain ⟨rfl, rfl⟩ := List.cons.inj hbs
        obtain ⟨hpos, hrange, habove, hfine⟩ := fine_cons.mp hfine
        have habove' : (prev.any (fun p => decide (b'.index ≤ p))) = false := by
          cases prev with
          | none => rfl
          | some p => simpa using habove p rfl
        refine bind_eq_ok.mpr ⟨b'.count, rfl, ?_⟩
        rw [if_neg (not_le.mpr hpos),
          if_neg (by rw [not_or, not_lt, not_lt]; exact hrange), habove']
        exact bind_eq_ok.mpr ⟨_, ih.mpr ⟨bs, rfl, hfine, rfl⟩, rfl⟩

structure Content where
  gamma : ℚ
  count : ℚ
  sum : ℚ
  zeros : ℚ
  pos : List Bin
  neg : List Bin

def Content.held (c : Content) : ℚ := heldBy c.pos + heldBy c.neg + c.zeros

structure Passes (w : WireSketch) (c : Content) : Prop where
  gamma : w.gamma = .finite c.gamma
  count : w.count = .finite c.count
  sum : w.sum = .finite c.sum
  zeros : w.zeros = .finite c.zeros
  bins : w.bins = toWireBins c.pos
  negBins : w.negBins = toWireBins c.neg
  gamma_gt : 1 < c.gamma
  count_nonneg : 0 ≤ c.count
  zeros_nonneg : 0 ≤ c.zeros
  extremes : 0 < c.count → ∃ lo hi, w.min = .finite lo ∧ w.max = .finite hi ∧ lo ≤ hi
  pos : Fine none c.pos
  neg : Fine none c.neg
  pos_length : c.pos.length ≤ maxBinsPerSketch
  neg_length : c.neg.length ≤ maxBinsPerSketch
  slack : |c.held - c.count| ≤ slackOf c.count

theorem validateBins_eq_ok :
    validateBins field bins = .ok total ↔ ∃ bs, bins = toWireBins bs ∧
      bs.length ≤ maxBinsPerSketch ∧
      Fine none bs ∧ total = heldBy bs := by
  unfold validateBins
  split
  next hlen =>
    constructor
    · exact nofun
    · rintro ⟨bs, rfl, hle, -⟩
      rw [toWireBins, List.length_map] at hlen
      exact absurd hle (not_le.mpr hlen)
  next hlen =>
    rw [validateFrom_eq_ok]
    refine exists_congr (fun bs => and_congr_right (fun hbs => ?_))
    rw [hbs, toWireBins, List.length_map, not_lt] at hlen
    exact ⟨fun h => ⟨hlen, h⟩, fun h => h.2⟩

theorem validateExtremes_eq_ok {count : ℚ} {lo hi : SketchMerge.Num} :
    validateExtremes count lo hi = .ok () ↔
      (0 < count → ∃ l h, lo = .finite l ∧ hi = .finite h ∧ l ≤ h) := by
  unfold validateExtremes
  split
  next hcount =>
    rw [bind_eq_ok]
    constructor
    · rintro ⟨l, hl, h⟩ _
      obtain ⟨u, hu, h⟩ := bind_eq_ok.mp h
      split_ifs at h with hle
      exact ⟨l, u, finiteOr_eq_ok.mp hl, finiteOr_eq_ok.mp hu, not_lt.mp hle⟩
    · intro h
      obtain ⟨l, u, rfl, rfl, hle⟩ := h hcount
      refine ⟨l, rfl, bind_eq_ok.mpr ⟨u, rfl, ?_⟩⟩
      rw [if_neg (not_lt.mpr hle)]
  next hcount =>
    exact ⟨fun _ h => absurd h hcount, fun _ => rfl⟩

/-- The checks are these conditions. -/
theorem validateSketch_eq_ok {w : WireSketch} : validateSketch w = .ok () ↔ ∃ c, Passes w c := by
  constructor
  · intro h
    obtain ⟨gamma, hgamma, h⟩ := bind_eq_ok.mp h
    split_ifs at h with hgt
    obtain ⟨count, hcount, h⟩ := bind_eq_ok.mp h
    split_ifs at h with hnonneg
    obtain ⟨zeros, hzeros, h⟩ := bind_eq_ok.mp h
    split_ifs at h with hzeros'
    obtain ⟨sum, hsum, h⟩ := bind_eq_ok.mp h
    obtain ⟨⟨⟩, hext, h⟩ := bind_eq_ok.mp h
    obtain ⟨pos, hpos, h⟩ := bind_eq_ok.mp h
    obtain ⟨neg, hneg, h⟩ := bind_eq_ok.mp h
    split_ifs at h with hslack
    rw [finiteOr_eq_ok] at hgamma hcount hzeros hsum
    obtain ⟨ps, hps, hplen, hpfine, rfl⟩ := validateBins_eq_ok.mp hpos
    obtain ⟨ns, hns, hnlen, hnfine, rfl⟩ := validateBins_eq_ok.mp hneg
    exact ⟨⟨gamma, count, sum, zeros, ps, ns⟩, hgamma, hcount, hsum, hzeros, hps, hns,
      lt_of_not_ge hgt, not_lt.mp hnonneg, not_lt.mp hzeros',
        validateExtremes_eq_ok.mp hext, hpfine,
      hnfine, hplen, hnlen, not_lt.mp hslack⟩
  · rintro ⟨c, h⟩
    unfold validateSketch
    rw [h.gamma, h.count, h.sum, h.zeros]
    refine bind_eq_ok.mpr ⟨_, rfl, ?_⟩
    rw [if_neg (not_le.mpr h.gamma_gt)]
    refine bind_eq_ok.mpr ⟨_, rfl, ?_⟩
    rw [if_neg (not_lt.mpr h.count_nonneg)]
    refine bind_eq_ok.mpr ⟨_, rfl, ?_⟩
    rw [if_neg (not_lt.mpr h.zeros_nonneg)]
    refine bind_eq_ok.mpr ⟨_, rfl, bind_eq_ok.mpr ⟨(), validateExtremes_eq_ok.mpr h.extremes, ?_⟩⟩
    refine bind_eq_ok.mpr ⟨_, validateBins_eq_ok.mpr ⟨_, h.bins, h.pos_length, h.pos, rfl⟩, ?_⟩
    refine bind_eq_ok.mpr ⟨_, validateBins_eq_ok.mpr ⟨_, h.negBins, h.neg_length, h.neg, rfl⟩, ?_⟩
    exact if_neg (not_lt.mpr h.slack)

end Ozymandias.SketchWire
