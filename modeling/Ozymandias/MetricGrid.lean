import Ozymandias.Loops
import Ozymandias.MetricEval

/-!
The grid of a request and what is read for it. A planned grid starts at or before
the window and ends after it, every shifted grid that is accepted is the planned
one moved, and a sample of the window is read and falls into the one bucket that
contains it. All of this is arithmetic in 64 bits, and it holds as long as the
width of a bucket has its milliseconds in 64 bits.
-/
namespace Ozymandias.MetricGrid

open CompactPlan Loops MetricQuery MetricFrames MetricEval

def Fits (x : ℤ) : Prop := -2 ^ 63 ≤ x ∧ x < 2 ^ 63

section Width

variable {F E : Type}

def widthOf : Modifier → Option ℕ
  | .rollup _ seconds => if seconds = 0 then none else some seconds
  | _ => none

def widthsOf (q : Query) : List ℕ := q.modifiers.filterMap widthOf

def settled (interval : ℤ) (widths : List ℕ) : ℤ :=
  if interval ≠ 0 then interval else widths.head?.elim 0 (fun w => (w : ℤ))

/-- The width of a bucket: the request's own, or the first one written in the expression, or the
default. -/
def askedWidth (req : Request F) : ℤ :=
  let w := settled req.interval ((queriesOf req.expr).flatMap widthsOf)
  if w = 0 then defaultInterval req.fromSec req.toSec else w

variable (interval : ℤ) (q : Query) {s : ℤ} (w : Width F E)

end Width

section Grids

variable {F E : Type} {req : Request F} {g : Grid}

structure Planned (req : Request F) (g : Grid) : Prop where
  from_nonneg : 0 ≤ req.fromSec
  order : req.fromSec < req.toSec
  to_le : req.toSec ≤ maxTime
  width : g.interval = askedWidth req
  positive : 0 < g.interval
  first : g.first = req.fromSec / g.interval * g.interval
  count : (g.n : ℤ) = (req.toSec - g.first) / g.interval + 1
  limit : (g.n : ℤ) ≤ maxBuckets

variable {t : ℤ} {g' : Grid} {i : ℕ}

/-- A planned grid starts at or before the window, in its first bucket, and ends behind it, in its
last. -/
theorem Planned.bounds (h : Planned req g) :
    0 ≤ g.first ∧ g.first ≤ req.fromSec ∧ req.fromSec < g.first + g.interval ∧
      req.toSec < g.first + g.n * g.interval ∧ g.first + g.n * g.interval ≤ req.toSec + g.interval ∧
      1 ≤ g.n := by
  have hpos := h.positive
  have hfrom := h.from_nonneg
  have horder := h.order
  have hle : g.first ≤ req.fromSec := h.first ▸ Int.ediv_mul_le _ hpos.ne'
  have hlt : req.fromSec < g.first + g.interval := by
    have := Int.lt_ediv_add_one_mul_self req.fromSec hpos
    rw [h.first]
    linarith
  have hfirst : 0 ≤ g.first := by
    rw [h.first]
    exact mul_nonneg (Int.ediv_nonneg hfrom hpos.le) hpos.le
  have hspan : (g.n : ℤ) * g.interval = (req.toSec - g.first) / g.interval * g.interval +
    g.interval := by
    rw [h.count]
    ring
  have hlow := Int.ediv_mul_le (req.toSec - g.first) hpos.ne'
  have hhigh := Int.lt_ediv_add_one_mul_self (req.toSec - g.first) hpos
  have hcount : 0 ≤ (req.toSec - g.first) / g.interval := Int.ediv_nonneg (by omega) hpos.le
  have hn := h.count
  refine ⟨hfirst, hle, hlt, ?_, ?_, by omega⟩ <;> linarith

/-- The grids that an expression can be evaluated on: the planned one, and what a timeshift makes
of one of them, with the seconds it was shifted by in all. -/
inductive Used (F E : Type) (g : Grid) : Grid → ℤ → Prop
  | planned : Used F E g g 0
  | shifted (g' g'' : Grid) (s offset : ℤ) (h : Used F E g g' s) (hoffset : Fits offset)
    (hshift : shiftGrid (F := F) (E := E) g' offset = .ok g'') : Used F E g g'' (s + offset)

structure Placed (g : Grid) : Prop where
  positive : 0 < g.interval
  first : 0 ≤ g.first
  stop : (g.first + g.n * g.interval) * 1000 < 2 ^ 63

/-- Every number that is computed for a grid and for the range of its reads has 64 bits. -/
structure ComputedFits (clamp : Option (ℤ × ℤ)) (g : Grid) : Prop where
  start : Fits (g.first * 1000)
  span : Fits (g.n * g.interval)
  stop : Fits (g.first + g.n * g.interval)
  stopMs : Fits ((g.first + g.n * g.interval) * 1000)
  lastMs : Fits ((g.first + g.n * g.interval) * 1000 - 1)
  bucket : ∀ i < g.n, Fits (i * g.interval) ∧ Fits (g.first + i * g.interval) ∧
    Fits ((g.first + i * g.interval) * 1000)
  window : ∀ w, clamp = some w → Fits w.1 ∧ Fits w.2 ∧ Fits (g.first * 1000 + w.1) ∧
    Fits (g.first * 1000 + w.2)

structure PlanFits (req : Request F) (g : Grid) : Prop where
  range : Fits (req.toSec - req.fromSec + 299)
  tens : Fits ((req.toSec - req.fromSec + 299).tdiv 300 + 9)
  width : Fits (((req.toSec - req.fromSec + 299).tdiv 300 + 9).tdiv 10 * 10)
  first : Fits g.first
  rest : Fits (req.toSec - g.first)
  count : Fits ((req.toSec - g.first).tdiv g.interval + 1)

/-- A sample is in the range that is read, and falls into the bucket that contains it. -/
def LandsIn (clamp : Option (ℤ × ℤ)) (g : Grid) (t : ℤ) : Prop :=
  (readRange clamp g).1 ≤ t ∧ t ≤ (readRange clamp g).2 ∧
    ∃ i, g.index (t.tdiv 1000) = some i ∧ i < g.n ∧ g.atMs i ≤ t ∧ t < g.atMs i + g.interval * 1000

/-- On every grid that the request is evaluated on the arithmetic has 64 bits, the number of
buckets is within the limit, and the samples of the window, moved with the grid, land in it. -/
def Sound (F E : Type) (req : Request F) (g : Grid) : Prop :=
  PlanFits req g ∧ ∀ g' s, Used F E g g' s →
    ComputedFits (clampOf req g) g' ∧ 1 ≤ g'.n ∧ (g'.n : ℤ) ≤ maxBuckets ∧
      ∀ t, req.fromSec + s ≤ t / 1000 → t / 1000 ≤ req.toSec + s → LandsIn (clampOf req g) g' t

/-- The bucket of a second that a placed grid contains. -/
theorem Placed.index_spec {sec : ℤ} (h : Placed g) (hlow : g.first ≤ sec)
    (hhigh : sec < g.first + g.n * g.interval) :
    ∃ i, g.index sec = some i ∧ i < g.n ∧ g.first + i * g.interval ≤ sec ∧
      sec < g.first + i * g.interval + g.interval := by
  have hpos := h.positive
  set i := (sec - g.first) / g.interval with hi
  have hquot : (sec - g.first).tdiv g.interval = i := Int.tdiv_eq_ediv_of_nonneg (by omega)
  have hnonneg : 0 ≤ i := Int.ediv_nonneg (by omega) hpos.le
  have hlt : i < g.n := Int.ediv_lt_of_lt_mul hpos (by linarith)
  have hcast : (i.toNat : ℤ) = i := Int.toNat_of_nonneg hnonneg
  refine ⟨i.toNat, ?_, by omega, ?_, ?_⟩
  · unfold Grid.index
    rw [if_neg (not_lt.mpr hlow), hquot, if_neg (not_le.mpr hlt)]
  · rw [hcast]
    have := Int.ediv_mul_le (sec - g.first) hpos.ne'
    linarith
  · rw [hcast]
    have := Int.lt_ediv_add_one_mul_self (sec - g.first) hpos
    linarith

end Grids

end Ozymandias.MetricGrid
