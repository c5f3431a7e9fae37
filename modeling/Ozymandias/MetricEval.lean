import Ozymandias.MetricFrames

/-!
Evaluating metric queries. A request is planned onto one grid and its expression
is walked bottom up; what a query node selects and reduces is kept in a cache, as
long as the cache's budget allows, and taken from there the next time. A batch
walks its requests one after another with one cache, whether they fail or not.
Values are arrays in a memory: the cache and its readers share them, and totals
and modifiers write to arrays in place.
-/
namespace Ozymandias.MetricEval

open SeriesModel Selection MetricQuery MetricSelect MetricFrames
open Ascii (minus)

/-- What the store answers: series with their samples, and the error that the walk over them ends
with. -/
structure Selected (F E : Type) where
  series : List (SeriesRef × List (ℤ × F))
  err : Option E

/-- The stores, and the operations on sketches. Sketches of different accuracies do not merge. -/
structure Evaluator (F S E : Type) where
  floats : Floats F
  select : Selector → ℤ → ℤ → Except E (Selected F E)
  sketches : Option (SeriesRef → ℤ → ℤ → List (ℤ × S) × Option E)
  metricKind : GoString → Option Kind
  merge : S → S → Option S
  quantile : S → F → Option F

structure Request (F : Type) where
  expr : Node F
  fromSec : ℤ
  toSec : ℤ
  interval : ℤ
  vars : Vars
  clampToWindow : Bool

structure Result (F : Type) where
  fromSec : ℤ
  toSec : ℤ
  interval : ℤ
  series : List (Series F)
  warnings : List GoString

inductive EvalErr (F E : Type) where
  | windowOrder (fromSec toSec : ℤ)
  | windowRange (fromSec toSec : ℤ)
  | negativeInterval (interval : ℤ)
  | intervals (source : Option Query) (interval : ℤ) (q : Query) (seconds : ℕ)
  | tooManyBuckets (n interval : ℤ)
  | filter (e : FilterErr)
  | store (e : E)
  | asksDistribution (q : Query)
  | isDistribution (metric : GoString) (agg : Agg)
  | notDistribution (metric : GoString) (kind : Kind) (agg : Agg)
  | noSketchStore (agg : Agg)
  | sketchesDisagree (metric : GoString)
  | tooManySeries (q : Query)
  | notRate (metric : GoString) (kind : Kind) (mod : ModKind)
  | notValue (s : GoString)
  | movingAvg (n : F)
  | topCount (n : F)
  | unevenShift (offset interval : ℤ)
  | shiftRange (offset : ℤ)
  | quantileRange (q : F)
  | quantileOfNumber
  | hist (e : HistErr)
  | arguments (f : Fn)

def maxSeriesPerNode : ℕ := 1000
def maxBuckets : ℤ := 1500

def maxTime : ℤ := 253402300799

def defaultInterval (fromSec toSec : ℤ) : ℤ :=
  max (((toSec - fromSec + 299).tdiv 300 + 9).tdiv 10 * 10) 10

def floorTo (t width : ℤ) : ℤ :=
  (if t.tmod width ≠ 0 ∧ t < 0 then t.tdiv width - 1 else t.tdiv width) * width

mutual

def queriesOf {F : Type} : Node F → List Query
  | .query q => [q]
  | .neg x => queriesOf x
  | .binary _ l r => queriesOf l ++ queriesOf r
  | .call _ args => queriesOfList args
  | _ => []

def queriesOfList {F : Type} : List (Node F) → List Query
  | [] => []
  | n :: rest => queriesOf n ++ queriesOfList rest

end

section Plan

variable {F E : Type}

def validateWindow (fromSec toSec interval : ℤ) : Except (EvalErr F E) Unit :=
  if toSec ≤ fromSec then .error (.windowOrder fromSec toSec)
  else if fromSec < 0 ∨ maxTime < toSec then .error (.windowRange fromSec toSec)
  else if interval < 0 then .error (.negativeInterval interval)
  else .ok ()

/-- The width in force, the query it comes from (the request, if none), and the last disagreement.
-/
structure Width (F E : Type) where
  interval : ℤ
  source : Option Query
  err : Option (EvalErr F E)

def planModifier (q : Query) (w : Width F E) (m : Modifier) : Width F E :=
  match m with
  | .rollup _ seconds =>
    if seconds = 0 then w
    else if w.interval = 0 then ⟨seconds, some q, w.err⟩
    else if w.interval ≠ seconds then
      ⟨w.interval, w.source, some (.intervals w.source w.interval q seconds)⟩
    else w
  | _ => w

def planQuery (w : Width F E) (q : Query) : Width F E :=
  if w.err.isSome then w else q.modifiers.foldl (planModifier q) w

def plan (req : Request F) : Except (EvalErr F E) Grid := do
  validateWindow req.fromSec req.toSec req.interval
  let width : Width F E := (queriesOf req.expr).foldl planQuery ⟨req.interval, none, none⟩
  match width.err with
  | some err => .error err
  | none =>
    let interval := if width.interval = 0 then
      defaultInterval req.fromSec req.toSec else width.interval
    let first := floorTo req.fromSec interval
    let n := (req.toSec - first).tdiv interval + 1
    if maxBuckets < n then .error (.tooManyBuckets n interval)
    else .ok ⟨first, interval, n.toNat⟩

end Plan

def decimalInt (z : ℤ) : GoString := (if z < 0 then [minus] else []) ++ decimal z.natAbs

def matchCode : MatchType → ℕ
  | .equal => 0
  | .notEqual => 1
  | .wildcard => 2
  | .notWildcard => 3

def boolText (b : Bool) : GoString := if b then text "true" else text "false"

section Keys

variable (quote : GoString → GoString)

def matcherKey (m : Selection.Matcher) : GoString :=
  quote m.key ++ ([slash] ++ (decimalInt (matchCode m.type) ++ ([slash] ++ quote m.value)))

def checkKey (m : Membership) : GoString :=
  quote m.key ++ ([slash] ++ (boolText m.neg ++ ([slash] ++ (boolText true ++
    m.values.flatMap (fun v => [comma] ++ quote v)))))

def gridKey (g : Grid) : GoString :=
  decimalInt g.first ++ ([slash] ++ (decimalInt g.interval ++ ([slash] ++ decimalInt g.n)))

def windowKey : Option (ℤ × ℤ) → GoString
  | none => []
  | some w => text " w=" ++ (decimalInt w.1 ++ ([slash] ++ decimalInt w.2))

/-- What identifies a selection: the selector, the checks, the grid, the method and the window. -/
def selectionKey (sel : Selector) (post : PostFilter) (g : Grid) (method : Rollup)
    (window : Option (ℤ × ℤ)) : GoString :=
  text "m=" ++ (quote sel.metric ++
    (sel.matchers.flatMap (fun m => text " s=" ++ matcherKey quote m) ++
    (post.flatMap (fun m => text " p=" ++ checkKey quote m) ++
      (text " g=" ++ (gridKey g ++ (text " r=" ++ (quote method.text ++ windowKey window)))))))

end Keys

def selectionCacheBytes : ℕ := 16 <<< 20

/-- The arrays of values made so far. A slice of values is the address of its array. -/
abbrev Heap (F : Type) := List (List F)

abbrev Mem (F : Type) := StateM (Heap F)

def arrayAt {F : Type} (h : Heap F) (a : ℕ) : List F := h.getD a []

section Arrays

variable {F : Type}

def alloc (values : List F) : Mem F ℕ := fun h => (h.length, h ++ [values])

def read (a : ℕ) : Mem F (List F) := fun h => (arrayAt h a, h)

def store (a : ℕ) (values : List F) : Mem F Unit := fun h => ((), h.set a values)

def allocRows {K : Type} : List (Row K (List F)) → Mem F (List (Row K ℕ))
  | [] => return []
  | r :: rest => do
    let a ← alloc r.values
    let rows ← allocRows rest
    return ⟨r.owner, a⟩ :: rows

def allocFrame : Frame F (List F) → Mem F (Frame F ℕ)
  | .scalar metric v => return .scalar metric v
  | .lines metric groups => do
    let lines ← allocRows groups
    return .lines metric lines

end Arrays

structure Cache where
  entries : AList (fun _ : GoString => List (Bucketed ℕ))
  budget : ℕ

def Cache.size {F : Type} (h : Heap F) (series : List (Bucketed ℕ)) : ℕ :=
  (series.map (fun b => (arrayAt h b.values).length * 8)).sum

def Cache.put {F : Type} (h : Heap F) (c : Cache) (key : GoString)
    (series : List (Bucketed ℕ)) : Cache :=
  if c.budget < Cache.size h series then c
  else ⟨c.entries.insert key series, c.budget - Cache.size h series⟩

structure State (F : Type) where
  warnings : List GoString
  cache : Cache
  heap : Heap F

abbrev M (F E : Type) := ExceptT (EvalErr F E) (StateM (State F))

structure Scope where
  vars : Vars
  clamp : Option (ℤ × ℤ)

section Steps

variable {F S E : Type}

def runStep {α : Type} (step : List GoString → Except (EvalErr F E) (α × List GoString))
    (st : State F) :
    Except (EvalErr F E) α × State F :=
  match step st.warnings with
  | .ok (a, warnings) => (.ok a, { st with warnings := warnings })
  | .error e => (.error e, st)

def withWarnings {α : Type}
    (step : List GoString → Except (EvalErr F E) (α × List GoString)) : M F E α :=
  ExceptT.mk (runStep step)

def liftResult {α : Type} (r : Except (EvalErr F E) α) : M F E α :=
  withWarnings (fun warnings => r.map (fun a => (a, warnings)))

def withHeap {α : Type} (m : Mem F α) : M F E α :=
  ExceptT.mk (fun st => (.ok (m st.heap).1, { st with heap := (m st.heap).2 }))

def reading {α : Type} (step : Heap F → Except (EvalErr F E) α) : M F E α :=
  ExceptT.mk (fun st => (step st.heap, st))

def making (step : Heap F → List GoString →
    Except (EvalErr F E) (Frame F (List F) × List GoString)) :
    M F E (Frame F ℕ) := do
  let h ← reading .ok
  let made ← withWarnings (step h)
  withHeap (allocFrame made)

variable (e : Evaluator F S E) (scope : Scope)

/-- The series that pass the checks, each reduced onto the grid; too many are refused. -/
def reduceSeries (q : Query) (post : PostFilter) (g : Grid) (method : Rollup) :
    ℕ → List (SeriesRef × List (ℤ × F)) → Except (EvalErr F E) (List (Bucketed (List F)))
  | _, [] => .ok []
  | selected, (ref, samples) :: rest =>
    if PostFilter.matches post ref then
      if maxSeriesPerNode < selected + 1 then .error (.tooManySeries q)
      else do
        let series ← reduceSeries q post g method (selected + 1) rest
        return match bucketize e.floats g method samples with
          | none => series
          | some values => ⟨ref, values⟩ :: series
    else reduceSeries q post g method selected rest

def fetch (q : Query) (sel : Selector) (post : PostFilter) (g : Grid) (method : Rollup)
    (range : ℤ × ℤ) :
    Except (EvalErr F E) (List (Bucketed (List F))) :=
  match e.select sel range.1 range.2 with
  | .error err => .error (.store err)
  | .ok set => do
    let series ← reduceSeries e q post g method 0 set.series
    match set.err with
    | some err => .error (.store err)
    | none => return series

/-- Take what an earlier query node has selected; otherwise select and reduce, and remember that. -/
def lookupOrFetch (q : Query) (sel : Selector) (post : PostFilter) (g : Grid) (method : Rollup)
    (st : State F) : Except (EvalErr F E) (List (Bucketed ℕ)) × State F :=
  let range := readRange scope.clamp g
  let key := selectionKey e.floats.quote sel post g method (scope.clamp.map (fun _ => range))
  match st.cache.entries.lookup key with
  | some series => (.ok series, st)
  | none =>
    match fetch e q sel post g method range with
    | .error err => (.error err, st)
    | .ok fetched =>
      let (series, heap) := allocRows fetched st.heap
      (.ok series, { st with cache := st.cache.put heap key series, heap := heap })

def selectBucketed (q : Query) (sel : Selector) (post : PostFilter) (g : Grid) (method : Rollup) :
    M F E (List (Bucketed ℕ)) :=
  ExceptT.mk (lookupOrFetch e scope q sel post g method)

/-- A group of series: its key, the tags it is drawn with, and how many series each bucket has. -/
structure Group where
  key : GoString
  tags : Tags
  counts : List ℕ

abbrev Accumulator (V : Type) := Row Group V

def newAccumulator (n : ℕ) (kt : GoString × Tags) : Mem F (Accumulator ℕ) := do
  let values ← alloc (List.replicate n e.floats.zero)
  return ⟨⟨kt.1, kt.2, List.replicate n 0⟩, values⟩

def Accumulator.plus (agg : Agg) (acc : Accumulator (List F)) (series : List F) :
    Accumulator (List F) :=
  let cells := List.zipWith (accumulate e.floats agg) (acc.values.zip acc.owner.counts) series
  ⟨{ acc.owner with counts := cells.map Prod.snd }, cells.map Prod.fst⟩

def Accumulator.add (agg : Agg) (acc : Accumulator ℕ) (series : ℕ) : Mem F (Accumulator ℕ) := do
  let values ← read acc.values
  let v ← read series
  let sum := Accumulator.plus e agg ⟨acc.owner, values⟩ v
  store acc.values sum.values
  return ⟨sum.owner, acc.values⟩

def Accumulator.group (agg : Agg) (acc : Accumulator (List F)) : GroupLine (List F) :=
  ⟨acc.owner.tags, (acc.values.zip acc.owner.counts).map (groupValue e.floats agg)⟩

def hasKey {V : Type} (key : GoString) (acc : Accumulator V) : Bool := decide (acc.owner.key = key)

def ensureGroup (n : ℕ) (kt : GoString × Tags) (groups : List (Accumulator ℕ)) :
    Mem F (List (Accumulator ℕ)) :=
  if groups.any (hasKey kt.1) then return groups
  else do
    let acc ← newAccumulator e n kt
    return groups ++ [acc]

def addTo (agg : Agg) (key : GoString) (series : ℕ) (groups : List (Accumulator ℕ)) :
    Mem F (List (Accumulator ℕ)) :=
  match groups[groups.findIdx (hasKey key)]? with
  | none => return groups
  | some acc => do
    let acc ← Accumulator.add e agg acc series
    return groups.set (groups.findIdx (hasKey key)) acc

def addSeries (q : Query) (n : ℕ) (groups : List (Accumulator ℕ)) (b : Bucketed ℕ) :
    Mem F (List (Accumulator ℕ)) := do
  let groups ← ensureGroup e n (groupOf b.owner q.groupBy) groups
  addTo e q.agg (groupOf b.owner q.groupBy).1 b.values groups

/-- The groups of the series in the order of their first series, each in an array of its own. -/
def aggregate (q : Query) (n : ℕ) (series : List (Bucketed ℕ)) : Mem F (List (GroupLine ℕ)) := do
  let groups ← series.foldlM (addSeries e q n) []
  fun h => allocRows (groups.map (fun acc => Accumulator.group e q.agg (acc.map (arrayAt h)))) h

def defaultRollup : Option Kind → Rollup
  | some .count | some .rate => .sum
  | _ => .avg

def rollupFor (q : Query) (other : Rollup) : Rollup :=
  (q.modifiers.findSome? (fun m =>
    match m with
    | .rollup method _ => some method
    | _ => none)).getD other

def rateApplies (q : Query) (mod : ModKind) : Option Kind → Except (EvalErr F E) Unit
  | some .count | some .rate | none => .ok ()
  | some kind => .error (.notRate q.metric kind mod)

def rollupUnused (agg : Agg) (method : Rollup) : GoString :=
  agg.text ++ text " merges sketches, so the rollup method " ++ e.floats.quote method.text ++
    text " is not used; the bucket width still is"

def modifierEffect (q : Query) (g : Grid) (kind : Option Kind) :
    Modifier → Except (EvalErr F E) (Option (List F → List F) × List GoString)
  | .rollup method _ =>
    .ok (none, if (quantileOf e.floats q.agg).isSome then [rollupUnused e q.agg method] else [])
  | .asRate => do
    rateApplies q .asRate kind
    return (some (scaled e.floats (e.floats.div e.floats.one (e.floats.ofInt g.interval))), [])
  | .asCount => do
    rateApplies q .asCount kind
    return (if kind = some .rate then some (scaled e.floats (e.floats.ofInt g.interval))
      else none, [])
  | .fill mode seconds => .ok (some (fill e.floats mode seconds g), [])

def rewrite (f : List F → List F) : List (GroupLine ℕ) → Mem F Unit
  | [] => return ()
  | l :: rest => do
    let values ← read l.values
    store l.values (f values)
    rewrite f rest

def applyModifier (q : Query) (g : Grid) (kind : Option Kind) (lines : List (GroupLine ℕ))
    (m : Modifier) : M F E Unit := do
  let (write, warnings) ← liftResult (modifierEffect e q g kind m)
  withWarnings (fun ws => .ok ((), warnings.foldl warn ws))
  match write with
  | none => return ()
  | some f => withHeap (rewrite f lines)

def applyModifiers (q : Query) (g : Grid) (kind : Option Kind) (lines : List (GroupLine ℕ)) :
    M F E (Frame F ℕ) := do
  q.modifiers.forM (applyModifier e q g kind lines)
  return .lines q.metric lines

def querySelector (q : Query) : M F E (Selector × PostFilter) :=
  withWarnings (fun warnings =>
    match selector scope.vars q.metric q.filter warnings with
    | .error err => .error (.filter err)
    | .ok (sel, post, warnings) => .ok ((sel, post), warnings))

structure SketchGroup (S : Type) where
  tags : Tags
  buckets : List (Option S)

def addSketch (q : Query) (g : Grid) (state : List (Option S) × Bool) (p : ℤ × S) :
    Except (EvalErr F E) (List (Option S) × Bool) :=
  match g.index (p.1.tdiv 1000) with
  | none => .ok state
  | some i =>
    match state.1.getD i none with
    | none => .ok (state.1.set i (some p.2), true)
    | some s =>
      match e.merge s p.2 with
      | none => .error (.sketchesDisagree q.metric)
      | some merged => .ok (state.1.set i (some merged), true)

/-- The sketches of one series go to its group, which appears when something has landed in it. -/
def addSketches (read : SeriesRef → ℤ → ℤ → List (ℤ × S) × Option E) (q : Query) (g : Grid)
    (range : ℤ × ℤ) (groups : List (GoString × SketchGroup S)) (counted : SeriesRef) :
    Except (EvalErr F E) (List (GoString × SketchGroup S)) := do
  let kt := groupOf counted q.groupBy
  let stored := read ⟨q.metric, counted.tags⟩ range.1 range.2
  let sg := ((groups.find? (fun ks => decide (ks.1 = kt.1))).map Prod.snd).getD
    ⟨kt.2, List.replicate g.n none⟩
  let (buckets, seen) ← stored.1.foldlM (addSketch e q g) (sg.buckets, false)
  match stored.2 with
  | some err => .error (.store err)
  | none =>
    if groups.any (fun ks => decide (ks.1 = kt.1)) then
      return groups.map (fun ks => if ks.1 = kt.1 then (ks.1, ⟨ks.2.tags, buckets⟩) else ks)
    else if seen then return groups ++ [(kt.1, ⟨sg.tags, buckets⟩)]
    else return groups

def sketchSeries (read : SeriesRef → ℤ → ℤ → List (ℤ × S) × Option E) (q : Query)
    (post : PostFilter) (g : Grid) (range : ℤ × ℤ) :
    ℕ → List (GoString × SketchGroup S) → List (SeriesRef × List (ℤ × F)) →
    Except (EvalErr F E) (List (GoString × SketchGroup S))
  | _, groups, [] => .ok groups
  | selected, groups, (ref, _) :: rest =>
    if PostFilter.matches post ref then
      if maxSeriesPerNode < selected + 1 then .error (.tooManySeries q)
      else do
        let groups ← addSketches e read q g range groups ref
        sketchSeries read q post g range (selected + 1) groups rest
    else sketchSeries read q post g range selected groups rest

def suffixCount : GoString := text ".count"

/-- Select the series of the counts and merge the sketches of each group, bucket by bucket. -/
def mergeSketches (read : SeriesRef → ℤ → ℤ → List (ℤ × S) × Option E) (q : Query) (sel : Selector)
    (post : PostFilter) (g : Grid) (range : ℤ × ℤ) : Except (EvalErr F E) (List (SketchGroup S)) :=
  match e.select ⟨q.metric ++ suffixCount, sel.matchers⟩ range.1 range.2 with
  | .error err => .error (.store err)
  | .ok set => do
    let groups ← sketchSeries e read q post g range 0 [] set.series
    match set.err with
    | some err => .error (.store err)
    | none => return groups.map Prod.snd

def sketchGroups (q : Query) (g : Grid) (kind : Option Kind) : M F E (List (SketchGroup S)) := do
  match kind with
  | some .count => throw (.notDistribution q.metric .count q.agg)
  | some .rate => throw (.notDistribution q.metric .rate q.agg)
  | some .gauge => throw (.notDistribution q.metric .gauge q.agg)
  | _ =>
    match e.sketches with
    | none => throw (.noSketchStore q.agg)
    | some read =>
      let sp ← querySelector scope q
      liftResult (mergeSketches e read q sp.1 sp.2 g (readRange scope.clamp g))

def sketchLine (quantile : F) (sg : SketchGroup S) : GroupLine (List F) :=
  ⟨sg.tags, sg.buckets.map (fun s => (s.bind (fun s => e.quantile s quantile)).getD e.floats.nan)⟩

def percentile (q : Query) (g : Grid) (kind : Option Kind) (quantile : F) : M F E (Frame F ℕ) := do
  let groups ← sketchGroups e scope q g kind
  let lines ← withHeap (allocRows (groups.map (sketchLine e quantile)))
  applyModifiers e q g kind lines

def query (q : Query) (g : Grid) : M F E (Frame F ℕ) := do
  let kind := e.metricKind q.metric
  if q.agg = .dist then throw (.asksDistribution q)
  else
    match quantileOf e.floats q.agg with
    | some quantile => percentile e scope q g kind quantile
    | none =>
      if kind = some .distribution then throw (.isDistribution q.metric q.agg)
      else
        let sp ← querySelector scope q
        let series ← selectBucketed e scope q sp.1 sp.2 g (rollupFor q (defaultRollup kind))
        let lines ← withHeap (aggregate e q g.n series)
        applyModifiers e q g kind lines

def literal : Node F → F
  | .number v => v
  | .neg (.number v) => e.floats.neg v
  | _ => e.floats.zero

def wordAt (args : List (Node F)) (i : ℕ) (other : GoString) : GoString :=
  match args[i]? with
  | some (.str s) => s
  | _ => other

def histogramQuantile (label : GoString) (q : F) (g : Grid) (frame : Frame F (List F)) :
    Except (EvalErr F E) (Frame F (List F)) :=
  if e.floats.lt q e.floats.zero || e.floats.lt e.floats.one q then .error (.quantileRange q)
  else
    match frame with
    | .scalar _ _ => .error .quantileOfNumber
    | .lines _ groups =>
      match groups.foldlM (addLine e.floats) [] with
      | .error err => .error (.hist err)
      | .ok hists => .ok (.lines label (hists.map (fun kh => histGroup e.floats q g.n kh.2)))

def applyFn (f : Fn) (args : List (Node F)) (frames : List (Frame F (List F))) (label : GoString)
    (g : Grid) : Except (EvalErr F E) (Frame F (List F)) :=
  let N := e.floats
  match f, args, frames with
  | .abs, _, x :: _ => .ok (pointwise N label N.abs x)
  | .log2, _, x :: _ => .ok (pointwise N label (positiveLog N N.log2) x)
  | .log10, _, x :: _ => .ok (pointwise N label (positiveLog N N.log10) x)
  | .clampMin, _ :: lo :: _, x :: _ => .ok (pointwise N label (fun v => N.max v (literal e lo)) x)
  | .clampMax, _ :: hi :: _, x :: _ => .ok (pointwise N label (fun v => N.min v (literal e hi)) x)
  | .diff, _, x :: _ => .ok (perLine N label (diffFrom N none) x)
  | .movingAvg, _ :: n :: _, x :: _ =>
    if N.toInt (literal e n) < 1 then .error (.movingAvg (literal e n))
    else .ok (perLine N label (MetricFrames.movingAvg N (N.toInt (literal e n)).toNat) x)
  | .histogramQuantile, q :: _, _ :: frame :: _ => histogramQuantile e label (literal e q) g frame
  | f, _, _ => .error (.arguments f)

def top {V : Type} (values : V → List F) (args : List (Node F)) (frames : List (Frame F V))
    (label : GoString) : Except (EvalErr F E) (Frame F V) :=
  match args, frames with
  | _ :: _ :: _, .scalar _ v :: _ => .ok (.scalar label v)
  | x :: n :: rest, .lines _ groups :: _ =>
    if e.floats.toInt (literal e n) < 1 then .error (.topCount (literal e n))
    else .ok (.lines label (topLines e.floats values (e.floats.toInt (literal e n)).toNat
      (wordAt (x :: n :: rest) 2 (text "mean")) (wordAt (x :: n :: rest) 3 (text "desc")) groups))
  | _, _ => .error (.arguments .top)

def shiftGrid (g : Grid) (offset : ℤ) : Except (EvalErr F E) Grid :=
  if offset.tmod g.interval ≠ 0 then .error (.unevenShift offset g.interval)
  else
    let first := CompactPlan.wrap64 (g.first + offset)
    let stop := CompactPlan.wrap64 (first + g.n * g.interval)
    if first < 0 ∨ maxTime < stop ∨ stop < first then .error (.shiftRange offset)
    else .ok ⟨first, g.interval, g.n⟩

def isStr : Node F → Bool
  | .str _ => true
  | _ => false

def labelOf (n : Node F) : GoString := n.string e.floats.format e.floats.quote

mutual

def node : Node F → Grid → M F E (Frame F ℕ)
  | .number v, _ => return .scalar (e.floats.format v) v
  | .str s, _ => throw (.notValue s)
  | .query q, g => query e scope q g
  | .neg x, g => do
    let f ← node x g
    making (fun h warnings =>
      .ok (negate e.floats (labelOf e (.neg x)) (f.map (arrayAt h)), warnings))
  | .binary op l r, g => do
    let left ← node l g
    let right ← node r g
    making (fun h warnings => .ok (join e.floats op (labelOf e (.binary op l r))
      (left.map (arrayAt h)) (right.map (arrayAt h)) warnings))
  | .call f args, g => do
    if f = .timeshift then
      match args with
      | x :: offset :: rest => do
        let shifted ← liftResult (shiftGrid g (e.floats.toInt (literal e offset)))
        let frame ← node x shifted
        return frame.relabel (labelOf e (.call f (x :: offset :: rest)))
      | _ => throw (.arguments f)
    else do
      let frames ← nodes args g
      if f = .top then reading (fun h => top e (arrayAt h) args frames (labelOf e (.call f args)))
      else making (fun h warnings => (applyFn e f args (frames.map (Frame.map (arrayAt h)))
        (labelOf e (.call f args)) g).map (fun made => (made, warnings)))

def nodes : List (Node F) → Grid → M F E (List (Frame F ℕ))
  | [], _ => return []
  | a :: rest, g => do
    let f ← if isStr a then pure (.lines [] []) else node a g
    let fs ← nodes rest g
    return f :: fs

end

def clampOf (req : Request F) (g : Grid) : Option (ℤ × ℤ) :=
  if req.clampToWindow then
    some ((req.fromSec - g.first) * 1000, (req.toSec - g.first) * 1000 + 999)
  else none

/-- Evaluate one request with the cache and the memory that earlier ones have left. -/
def evalWith (req : Request F) (st : State F) : Except (EvalErr F E) (Result F) × State F :=
  match plan req with
  | .error err => (.error err, st)
  | .ok g =>
    let done := (node e ⟨req.vars, clampOf req g⟩ req.expr g).run.run { st with warnings := [] }
    (done.1.map (fun f => ⟨req.fromSec, req.toSec, g.interval,
      (f.map (arrayAt done.2.heap)).series e.floats (labelOf e req.expr) g,
        done.2.warnings⟩), done.2)

def fresh (budget : ℕ) : State F := ⟨[], ⟨∅, budget⟩, []⟩

def eval (req : Request F) : Except (EvalErr F E) (Result F) :=
  (evalWith e req (fresh selectionCacheBytes)).1

def maxQueriesPerBatch : ℕ := 50

inductive BatchErr where
  | noQuery
  | tooMany (n : ℕ)
  deriving DecidableEq

def evalAll : List (Request F) → State F → List (Except (EvalErr F E) (Result F))
  | [], _ => []
  | req :: rest, st =>
    let done := evalWith e req st
    done.1 :: evalAll rest done.2

def batch (reqs : List (Request F)) : Except BatchErr (List (Except (EvalErr F E) (Result F))) :=
  if reqs.isEmpty then .error .noQuery
  else if maxQueriesPerBatch < reqs.length then .error (.tooMany reqs.length)
  else .ok (evalAll e reqs (fresh selectionCacheBytes))

end Steps

end Ozymandias.MetricEval
