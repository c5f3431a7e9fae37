import Ozymandias.CompactPlan
import Ozymandias.Delimited
import Ozymandias.MetricSelect
import Mathlib.Data.List.AList

/-!
What a node of a metric query evaluates to: a number, or lines over a grid of
buckets. Samples reduce into buckets, series into groups; modifiers, operators
and functions work on finished lines. The arithmetic of floats is a parameter.
-/
namespace Ozymandias.MetricFrames

open SeriesModel Selection MetricQuery MetricSelect
open Ascii (equals)
open CompactPlan (wrap64)

/-- The floats, and how they and strings are written. Quoting escapes, so that a quoted text shows
where it ends. -/
structure Floats (F : Type) where
  nan : F
  zero : F
  one : F
  isNaN : F → Bool
  isPosInf : F → Bool
  add : F → F → F
  sub : F → F → F
  mul : F → F → F
  div : F → F → F
  neg : F → F
  min : F → F → F
  max : F → F → F
  lt : F → F → Bool
  eq : F → F → Bool
  abs : F → F
  log2 : F → F
  log10 : F → F
  ofInt : ℤ → F
  toInt : F → ℤ
  parse : GoString → Option F
  format : F → GoString
  quote : GoString → GoString
  quote_splits : Delimited.Splits (fun _ => True) quote

inductive Kind where
  | count | rate | gauge | distribution
  deriving DecidableEq

structure Grid where
  first : ℤ
  interval : ℤ
  n : ℕ
  deriving DecidableEq

def Grid.atMs (g : Grid) (i : ℕ) : ℤ := wrap64 ((g.first + i * g.interval) * 1000)

def Grid.index (g : Grid) (sec : ℤ) : Option ℕ :=
  if sec < g.first then none
  else if (g.n : ℤ) ≤ (sec - g.first).tdiv g.interval then none
  else some ((sec - g.first).tdiv g.interval).toNat

def Grid.endMs (g : Grid) : ℤ := wrap64 ((g.first + g.n * g.interval) * 1000)

/-- The milliseconds that a read covers: the buckets, cut to the window if there is one. The
window is relative to the grid, so that it moves with it. -/
def readRange (clamp : Option (ℤ × ℤ)) (g : Grid) : ℤ × ℤ :=
  match clamp with
  | none => (g.first * 1000, wrap64 (g.endMs - 1))
  | some w => (max (g.first * 1000) (g.first * 1000 + w.1),
      min (wrap64 (g.endMs - 1)) (g.first * 1000 + w.2))

section Floats

variable {F : Type} (N : Floats F)

def quantileOf : Agg → Option F
  | .p50 => some (N.div (N.ofInt 50) (N.ofInt 100))
  | .p75 => some (N.div (N.ofInt 75) (N.ofInt 100))
  | .p90 => some (N.div (N.ofInt 90) (N.ofInt 100))
  | .p95 => some (N.div (N.ofInt 95) (N.ofInt 100))
  | .p99 => some (N.div (N.ofInt 99) (N.ofInt 100))
  | _ => none

/-- One more sample in a bucket. A bucket has its value and the number of its samples. -/
def bucketStep (method : Rollup) (cell : F × ℕ) (v : F) : F × ℕ :=
  if cell.2 = 0 then (v, 1)
  else
    (match method with
      | .sum | .avg => N.add cell.1 v
      | .min => N.min cell.1 v
      | .max => N.max cell.1 v
      | .last => v
      | .count => cell.1, cell.2 + 1)

def bucketValue (method : Rollup) (cell : F × ℕ) : F :=
  if cell.2 = 0 then N.nan
  else
    match method with
    | .avg => N.div cell.1 (N.ofInt cell.2)
    | .count => N.ofInt cell.2
    | _ => cell.1

def bucketize (g : Grid) (method : Rollup) (samples : List (ℤ × F)) : Option (List F) :=
  let landed := samples.filterMap (fun s => (g.index (s.1.tdiv 1000)).map (fun i => (i, s.2)))
  if landed.isEmpty then none
  else some ((landed.foldl
    (fun cells iv => cells.modify iv.1 (fun cell => bucketStep N method cell iv.2))
    (List.replicate g.n (N.zero, 0))).map (bucketValue N method))

abbrev Tags := AList (fun _ : GoString => GoString)

def tagTexts (tag : GoString → GoString → GoString) (tags : Tags) : List GoString :=
  (TimeMerge.sortBy byteOrder tags.keys).map (fun k => tag k ((tags.lookup k).getD []))

def scopeOf (tags : Tags) : GoString :=
  if tags.keys = [] then [star]
  else joined [comma] (tagTexts (fun k v => Tag.string ⟨k, v⟩) tags)

/-- Buckets and what they belong to. The values are a list, or the address of an array. -/
structure Row (K V : Type) where
  owner : K
  values : V

def Row.map {K V W : Type} (f : V → W) (r : Row K V) : Row K W := ⟨r.owner, f r.values⟩

abbrev GroupLine (V : Type) := Row Tags V

abbrev Bucketed (V : Type) := Row SeriesRef V

def keyOf (tags : Tags) : GoString :=
  (tagTexts (fun k v => k ++ [equals] ++ v ++ [0]) tags).flatten

def groupOf (ref : SeriesRef) (groupBy : List GoString) : GoString × Tags :=
  (groupBy.flatMap (fun k => k ++ (match get ref k with
      | some v => equals :: v
      | none => []) ++ [0]),
    groupBy.foldl (fun tags k => match get ref k with
      | some v => tags.insert k v
      | none => tags) ∅)

def accumulate (agg : Agg) (cell : F × ℕ) (v : F) : F × ℕ :=
  if N.isNaN v then cell
  else if cell.2 = 0 then (v, 1)
  else
    (match agg with
      | .avg | .sum => N.add cell.1 v
      | .min => N.min cell.1 v
      | .max => N.max cell.1 v
      | _ => cell.1, cell.2 + 1)

def groupValue (agg : Agg) (cell : F × ℕ) : F :=
  if cell.2 = 0 then N.nan
  else
    match agg with
    | .count => N.ofInt cell.2
    | .avg => N.div cell.1 (N.ofInt cell.2)
    | _ => cell.1

inductive Frame (F V : Type) where
  | scalar (metric : GoString) (v : F)
  | lines (metric : GoString) (groups : List (GroupLine V))

def Frame.map {V W : Type} (f : V → W) : Frame F V → Frame F W
  | .scalar metric v => .scalar metric v
  | .lines metric groups => .lines metric (groups.map (Row.map f))

def Frame.relabel {V : Type} (metric : GoString) : Frame F V → Frame F V
  | .scalar _ v => .scalar metric v
  | .lines _ groups => .lines metric groups

def gapEnd (v : List F) (j : ℕ) : ℕ :=
  if h : j < v.length then if N.isNaN v[j] then gapEnd v (j + 1) else j else j
termination_by v.length - j

/-- Write the buckets of the gap from `i` to `j` that are within reach, one after the other. -/
def writeGap (reach : ℤ) (i j : ℕ) (value : List F → ℕ → F) (v : List F) : List F :=
  (List.range (min (j - i) reach.toNat)).foldl (fun v k => v.set (i + k) (value v k)) v

def fillGap (mode : Fill) (limit : ℕ) (reach : ℤ) (i j : ℕ) (v : List F) : List F :=
  if i = 0 then
    if mode = .zero ∧ limit = 0 then writeGap j i j (fun _ _ => N.zero) v else v
  else
    match mode with
    | .null => v
    | .zero => writeGap reach i j (fun _ _ => N.zero) v
    | .last => writeGap reach i j (fun v _ => v.getD (i - 1) N.nan) v
    | .linear =>
      if j < v.length then
        let lo := v.getD (i - 1) N.nan
        let step := N.div (N.sub (v.getD j N.nan) lo) (N.ofInt (j - i + 1))
        writeGap reach i j (fun _ k => N.add lo (N.mul step (N.ofInt (k + 1)))) v
      else v

variable {N} in
theorem le_gapEnd (v : List F) (j : ℕ) : j ≤ gapEnd N v j := by
  fun_induction gapEnd N v j with
  | case1 j h hv ih => exact (Nat.le_succ j).trans ih
  | case2 | case3 => exact le_rfl

variable {N} in
theorem lt_gapEnd {v : List F} {i : ℕ} (hi : i < v.length) (hv : N.isNaN v[i] = true) :
    i < gapEnd N v i := by
  rw [gapEnd, dif_pos hi, if_pos hv]
  exact le_gapEnd v (i + 1)

theorem length_writeGap (reach : ℤ) (i j : ℕ) (value : List F → ℕ → F) (v : List F) :
    (writeGap reach i j value v).length = v.length := by
  unfold writeGap
  induction min (j - i) reach.toNat with
  | zero => rfl
  | succ n ih => rw [List.range_succ, List.foldl_concat, List.length_set, ih]

theorem length_fillGap (mode : Fill) (limit : ℕ) (reach : ℤ) (i j : ℕ) (v : List F) :
    (fillGap N mode limit reach i j v).length = v.length := by
  unfold fillGap
  split
  · split
    · exact length_writeGap ..
    · rfl
  · split
    · rfl
    · exact length_writeGap ..
    · exact length_writeGap ..
    · split
      · exact length_writeGap ..
      · rfl

/-- The loop of `fill` over one line, which it writes to. Behind a gap it goes on at the gap's
end. -/
def fillLoop (mode : Fill) (limit : ℕ) (reach : ℤ) (i : ℕ) (v : List F) : List F :=
  if h : i < v.length then
    if hv : N.isNaN v[i] then
      fillLoop mode limit reach (gapEnd N v i) (fillGap N mode limit reach i (gapEnd N v i) v)
    else fillLoop mode limit reach (i + 1) v
  else v
termination_by v.length - i
decreasing_by
  · have hlt := lt_gapEnd h hv
    rw [length_fillGap]
    omega
  · omega

def fill (mode : Fill) (limit : ℕ) (g : Grid) (v : List F) : List F :=
  if mode = .null then v
  else fillLoop N mode limit (if 0 < limit then (limit : ℤ).tdiv g.interval else g.n) 0 v

def scaled (scale : F) (v : List F) : List F := v.map (fun x => N.mul x scale)

def operator : Op → F → F → F
  | .add => N.add
  | .sub => N.sub
  | .mul => N.mul
  | .div => fun a b => if N.eq b N.zero then N.nan else N.div a b

def mapValues (fn : F → F) (group : GroupLine (List F)) : GroupLine (List F) :=
  group.map (List.map (fun v => if N.isNaN v then N.nan else fn v))

def noMatch (label side : GoString) (tags : Tags) : GoString :=
  label ++ text ": no match on the " ++ side ++ text " for " ++ scopeOf tags ++
    text ", so that line is not drawn"

/-- The group of the right side that a group of the left side is matched with. -/
def partner (groups : List (GroupLine (List F))) (tags : Tags) : Option (GroupLine (List F)) :=
  groups.reverse.find? (fun r => decide (keyOf r.owner = keyOf tags))

/-- Combine two frames bucket by bucket. Lines without a partner are dropped with a warning. -/
def join (op : Op) (label : GoString) (left right : Frame F (List F)) (warnings : List GoString) :
    Frame F (List F) × List GoString :=
  match left, right with
  | .scalar _ a, .scalar _ b => (.scalar label (operator N op a b), warnings)
  | .lines _ ls, .scalar _ b =>
    (.lines label (ls.map (mapValues N (fun v => operator N op v b))), warnings)
  | .scalar _ a, .lines _ rs => (.lines label (rs.map (mapValues N (operator N op a))), warnings)
  | .lines _ ls, .lines _ rs =>
    let merged := ls.filterMap (fun l => (partner rs l.owner).map (fun r =>
      l.map (fun values => values.zipWith (operator N op) r.values)))
    let lonely := (ls.filter (fun l => (partner rs l.owner).isNone)).map
      (fun l => noMatch label (text "right") l.owner)
    let unmatched := (rs.filter
      (fun r => !ls.any (fun l => decide (keyOf l.owner = keyOf r.owner)))).map
      (fun r => noMatch label (text "left") r.owner)
    (.lines label merged, (lonely ++ unmatched).foldl warn warnings)

def negate (label : GoString) : Frame F (List F) → Frame F (List F)
  | .scalar _ v => .scalar label (N.neg v)
  | .lines _ groups => .lines label (groups.map (mapValues N N.neg))

def pointwise (label : GoString) (fn : F → F) : Frame F (List F) → Frame F (List F)
  | .scalar _ v => .scalar label (fn v)
  | .lines _ groups => .lines label (groups.map (mapValues N fn))

def perLine (label : GoString) (fn : List F → List F) : Frame F (List F) → Frame F (List F)
  | .scalar _ v => .scalar label ((fn [v, v]).getLastD N.nan)
  | .lines _ groups => .lines label (groups.map (Row.map fn))

def positiveLog (fn : F → F) (v : F) : F :=
  if N.lt v N.zero || N.eq v N.zero then N.nan else fn v

def diffFrom : Option F → List F → List F
  | _, [] => []
  | before, v :: rest =>
    (match before with
      | none => N.nan
      | some u => if N.isNaN v || N.isNaN u then N.nan else N.sub v u) :: diffFrom (some v) rest

def movingAvg (n : ℕ) (values : List F) : List F :=
  (List.range values.length).map (fun i =>
    let window := ((values.take (i + 1)).drop (i + 1 - n)).filter (fun v => !N.isNaN v)
    if window.isEmpty then N.nan else N.div (window.foldl N.add N.zero) (N.ofInt window.length))

def reduce (how : GoString) (values : List F) : F :=
  match values.filter (fun v => !N.isNaN v) with
  | [] => N.nan
  | v :: rest =>
    if how = text "sum" then (v :: rest).foldl N.add N.zero
    else if how = text "min" then (v :: rest).foldl N.min v
    else if how = text "max" then (v :: rest).foldl N.max v
    else if how = text "last" then rest.getLastD v
    else N.div ((v :: rest).foldl N.add N.zero) (N.ofInt (rest.length + 1))

/-- Does the first line come before the second, or level with it? Lines without a score come last.
-/
def ranksBefore {V : Type} (order : GoString) (a b : GroupLine V × F) : Bool :=
  let byScope := decide (byteOrder (scopeOf a.1.owner) ≤ byteOrder (scopeOf b.1.owner))
  if N.isNaN a.2 then N.isNaN b.2 && byScope
  else if N.isNaN b.2 then true
  else if N.eq a.2 b.2 then byScope
  else N.lt b.2 a.2 == decide (order = text "desc")

def topLines {V : Type} (read : V → List F) (n : ℕ) (reducer order : GoString)
    (groups : List (GroupLine V)) : List (GroupLine V) :=
  (((groups.map (fun grp => (grp, reduce N reducer (read grp.values)))).mergeSort
    (ranksBefore N order)).take n).map Prod.fst

def upperBound : GoString := text "upper_bound"

/-- What the search for a quantile has met so far: the bound and the count below, if any. -/
def interpolateFrom (rank : F) : Option (F × F) → List (F × F) → F
  | below, [] => (below.getD (N.zero, N.zero)).1
  | below, (bound, c) :: rest =>
    if N.isNaN c then interpolateFrom rank below rest
    else if N.lt c rank then interpolateFrom rank (some (bound, c)) rest
    else
      let lower := below.getD (N.zero, N.zero)
      if N.isPosInf bound then lower.1
      else if below.isNone && (N.lt bound N.zero || N.eq bound N.zero) then bound
      else if N.eq c lower.2 then bound
      else N.add lower.1 (N.div (N.mul (N.sub bound lower.1) (N.sub rank lower.2))
        (N.sub c lower.2))

def interpolate (q : F) (counts : List (F × F)) : F :=
  match (counts.reverse.filter (fun bc => !N.isNaN bc.2)).head? with
  | none => N.nan
  | some (_, total) =>
    if N.isNaN total || N.lt total N.zero || N.eq total N.zero then N.nan
    else interpolateFrom N (N.mul q total) none counts

/-- A histogram: its tags without the bound, and its lines with their bounds. -/
structure Hist (F : Type) where
  tags : Tags
  lines : List (F × List F)

inductive HistErr where
  | noBound
  | badBound (raw : GoString)
  deriving DecidableEq

def addLine (hists : List (GoString × Hist F)) (grp : GroupLine (List F)) :
    Except HistErr (List (GoString × Hist F)) :=
  match grp.owner.lookup upperBound with
  | none => .error .noBound
  | some raw =>
    match (N.parse raw).filter (fun v => !N.isNaN v) with
    | none => .error (.badBound raw)
    | some bound =>
      let rest := grp.owner.erase upperBound
      let key := keyOf rest
      if hists.any (fun kh => decide (kh.1 = key)) then
        .ok (hists.map (fun kh =>
          if kh.1 = key then (kh.1, ⟨kh.2.tags, kh.2.lines ++ [(bound, grp.values)]⟩) else kh))
      else .ok (hists ++ [(key, ⟨rest, [(bound, grp.values)]⟩)])

def histGroup (q : F) (n : ℕ) (h : Hist F) : GroupLine (List F) :=
  let sorted := h.lines.mergeSort (fun a b => !N.lt b.1 a.1)
  ⟨h.tags, (List.range n).map (fun i =>
    interpolate N q (sorted.map (fun bl => (bl.1, bl.2.getD i N.nan))))⟩

structure Series (F : Type) where
  metric : GoString
  tags : Tags
  scope : GoString
  points : List (ℤ × F)

def points (g : Grid) (value : ℕ → F) : List (ℤ × F) :=
  (List.range g.n).map (fun i => (g.atMs i, value i))

def Frame.series (label : GoString) (g : Grid) : Frame F (List F) → List (Series F)
  | .scalar _ v => [⟨label, ∅, [star], points g (fun _ => v)⟩]
  | .lines metric groups =>
    TimeMerge.sortBy (fun s : Series F => byteOrder s.scope) (groups.map (fun grp =>
      ⟨metric, grp.owner, scopeOf grp.owner, points g (fun i => grp.values.getD i N.nan)⟩))

end Floats

end Ozymandias.MetricFrames
