import Mathlib.Algebra.Order.BigOperators.Group.List
import Mathlib.Tactic.Linarith

/-!
Histogram buckets between two scrapes: `BucketDeltas` subtracts the previous
cumulative counts and takes each bucket against the running maximum below it,
and `Check.histogram` calls it for one scrape after another. Counts are exact
rationals, bounds rationals with both infinities.

Between two scrapes the deltas add up to the largest growth of any bucket.
Buckets are read one at a time, so this can exceed the growth of the `+Inf`
bucket, and the excess is counted once more when the `+Inf` bucket catches up.
-/
namespace Ozymandias.HistogramDeltas

/-- Counts are cumulative in a scrape and per bucket in what `BucketDeltas` returns. -/
structure Bucket where
  upperBound : WithBot (WithTop ℚ)
  count : ℚ
deriving DecidableEq

def decumulateFrom (running : ℚ) : List Bucket → List Bucket
  | [] => []
  | b :: bs =>
    let next := max running b.count
    ⟨b.upperBound, next - running⟩ :: decumulateFrom next bs

def decumulate (cum : List Bucket) : List Bucket := decumulateFrom 0 cum

def differs (p c : Bucket) : Bool := p.upperBound ≠ c.upperBound ∨ c.count < p.count

/-- `none` is Go's nil slice: no previous scrape, and no deltas. The flag is `reset`. -/
def bucketDeltas (prev : Option (List Bucket)) (cur : List Bucket) : Option (List Bucket) × Bool :=
  match prev with
  | none => (none, false)
  | some prev =>
    let reset := prev.length ≠ cur.length ∨ ((prev.zip cur).any fun x => differs x.1 x.2)
    let cum := if reset then cur else
      List.zipWith (fun p c => ⟨c.upperBound, c.count - p.count⟩) prev cur
    (some (decumulate cum), reset)

/-- What `Check.histogram` gets for one series, scrape by scrape: it keeps each scrape's buckets
(nil when there are none) for the next one. -/
def histogram (prev : Option (List Bucket)) :
    List (List Bucket) → List (Option (List Bucket) × Bool)
  | [] => []
  | cur :: rest => bucketDeltas prev cur :: histogram (if cur = [] then none else some cur) rest

def reported (answers : List (Option (List Bucket) × Bool)) : ℚ :=
  (answers.map fun r => ((r.1.getD []).map Bucket.count).sum).sum

def infCount (scrape : List Bucket) : ℚ := (scrape.getLast?.map Bucket.count).getD 0

def largestGrowth (prev cur : List Bucket) : ℚ :=
  (List.zipWith (fun p c => c.count - p.count) prev cur).foldl max 0

def Grows (prev cur : List Bucket) : Prop :=
  List.Forall₂ (fun p c => p.upperBound = c.upperBound ∧ p.count ≤ c.count) prev cur

/-- Scrapes of one histogram with fixed bounds that end in `+Inf`, whose counts only grow. -/
structure Regular (scrapes : List (List Bucket)) : Prop where
  bounds : ∀ s ∈ scrapes, s.getLast?.map Bucket.upperBound = some ⊤
  cumulative : ∀ s ∈ scrapes, (s.map Bucket.count).Pairwise (· ≤ ·)
  grows : scrapes.IsChain Grows

def InStep (prev cur : List Bucket) : Prop :=
  ∀ d ∈ List.zipWith (fun p c => c.count - p.count) prev cur, d ≤ infCount cur - infCount prev

def infGrowth (scrapes : List (List Bucket)) : ℚ :=
  infCount (scrapes.getLast?.getD []) - infCount (scrapes.head?.getD [])

/-- No answer reports a reset or a negative delta. Together they report the largest growth of each
pair of scrapes: at least the growth of the `+Inf` count, and exactly that when all stay in step. -/
structure Account (scrapes : List (List Bucket)) (answers : List (Option (List Bucket) × Bool)) :
    Prop where
  sound : ∀ r ∈ answers, r.2 = false ∧ ∀ d ∈ r.1.getD [], 0 ≤ d.count
  total : reported answers = (List.zipWith largestGrowth scrapes scrapes.tail).sum
  atLeast : infGrowth scrapes ≤ reported answers
  conserved : reported answers = infGrowth scrapes ↔ scrapes.IsChain InStep

theorem foldl_max_le_iff (l : List ℚ) (a x : ℚ) : l.foldl max a ≤ x ↔ a ≤ x ∧ ∀ y ∈ l, y ≤ x := by
  induction l generalizing a with
  | nil => simp
  | cons y l ih => rw [List.foldl_cons, ih, max_le_iff, List.forall_mem_cons, and_assoc]

theorem decumulateFrom_nonneg (bs : List Bucket) (r : ℚ) :
    ∀ d ∈ decumulateFrom r bs, 0 ≤ d.count := by
  induction bs generalizing r with
  | nil => simp [decumulateFrom]
  | cons b bs ih => exact List.forall_mem_cons.mpr ⟨sub_nonneg.mpr (le_max_left _ _), ih _⟩

/-- The running maximum telescopes: what is handed out is how far it rose. -/
theorem decumulateFrom_sum (bs : List Bucket) (r : ℚ) :
    ((decumulateFrom r bs).map Bucket.count).sum = (bs.map Bucket.count).foldl max r - r := by
  induction bs generalizing r with
  | nil => simp [decumulateFrom]
  | cons b bs ih =>
    rw [decumulateFrom, List.map_cons, List.sum_cons, ih, List.map_cons]
    exact sub_add_sub_cancel' ..

variable {cur prev : List Bucket}

theorem bucketDeltas_of_grows (h : Grows prev cur) :
    ∃ ds, bucketDeltas (some prev) cur = (some ds, false) ∧ (∀ d ∈ ds, 0 ≤ d.count) ∧
      (ds.map Bucket.count).sum = largestGrowth prev cur := by
  have hany : (prev.zip cur).any (fun x => differs x.1 x.2) = false := by
    rw [List.any_eq_false]
    intro x hx
    obtain ⟨hbound, hle⟩ := List.forall₂_zip h hx
    simp [differs, hbound, hle]
  refine ⟨decumulateFrom 0 (List.zipWith (fun p c => ⟨c.upperBound, c.count - p.count⟩) prev cur),
    ?_, decumulateFrom_nonneg _ 0, ?_⟩
  · simp [bucketDeltas, List.Forall₂.length_eq h, hany, decumulate]
  · rw [decumulateFrom_sum, List.map_zipWith, sub_zero]
    rfl

/-- The growth of the `+Inf` bucket is one of the growths. -/
theorem infCount_growth (h : Grows prev cur) (hne : cur ≠ []) :
    infCount cur - infCount prev ∈ List.zipWith (fun p c => c.count - p.count) prev cur ∧
      0 ≤ infCount cur - infCount prev := by
  induction h with
  | nil => exact absurd rfl hne
  | cons hbucket htail ih =>
    rcases htail with _ | ⟨_, _⟩
    · simp [infCount, hbucket.2]
    · obtain ⟨hmem, hpos⟩ := ih (by simp)
      exact ⟨List.mem_cons_of_mem _
        (by simpa [infCount] using hmem), by simpa [infCount] using hpos⟩

theorem largestGrowth_spec (h : Grows prev cur) (hne : cur ≠ []) :
    infCount cur - infCount prev ≤ largestGrowth prev cur ∧
      (largestGrowth prev cur = infCount cur - infCount prev ↔ InStep prev cur) := by
  obtain ⟨hmem, hpos⟩ := infCount_growth h hne
  have hle := ((foldl_max_le_iff _ 0 _).mp (le_refl (largestGrowth prev cur))).2
  refine ⟨hle _ hmem, fun heq d hd => heq ▸ hle d hd, fun hstep => ?_⟩
  exact le_antisymm ((foldl_max_le_iff _ _ _).mpr ⟨hpos, hstep⟩) (hle _ hmem)

/-- The step of the run is `bucketDeltas_of_grows`; the growths of the `+Inf` bucket telescope. -/
theorem account_run {scrapes : List (List Bucket)} (h : (prev :: scrapes).IsChain Grows)
    (hne : ∀ s ∈ scrapes, s ≠ []) : Account (prev :: scrapes) (histogram (some prev) scrapes) := by
  induction scrapes generalizing prev with
  | nil => constructor <;> simp [histogram, reported, infGrowth]
  | cons cur rest ih =>
    rw [List.isChain_cons_cons] at h
    rw [List.forall_mem_cons] at hne
    obtain ⟨ds, hds, hpos, hsum⟩ := bucketDeltas_of_grows h.1
    obtain ⟨hle, hiff⟩ := largestGrowth_spec h.1 hne.1
    have hrest := ih h.2 hne.2
    have hanswers : histogram (some prev) (cur :: rest) = (some ds, false) :: histogram
      (some cur) rest := by
      rw [histogram, hds, if_neg hne.1]
    have hreported : reported (histogram (some prev) (cur :: rest)) =
        largestGrowth prev cur + reported (histogram (some cur) rest) := by
      rw [hanswers, ← hsum]
      rfl
    have hgrowth : infGrowth (prev :: cur :: rest) =
        (infCount cur - infCount prev) + infGrowth (cur :: rest) := by
      exact (sub_add_sub_cancel' ..).symm
    refine ⟨?_, ?_, ?_, ?_⟩
    · rw [hanswers, List.forall_mem_cons]
      exact ⟨⟨rfl, hpos⟩, hrest.sound⟩
    · rw [hreported, hrest.total]
      rfl
    · rw [hreported, hgrowth]
      exact add_le_add hle hrest.atLeast
    · rw [hreported, hgrowth, List.isChain_cons_cons, ← hiff, ← hrest.conserved]
      constructor
      · intro heq
        have := hrest.atLeast
        constructor <;> linarith
      · rintro ⟨hfirst, hlater⟩
        rw [hfirst, hlater]

/-- What the scrapes report is accounted for, over every run of them. -/
theorem histogram_account (scrapes : List (List Bucket)) (h : Regular scrapes) :
    Account scrapes (histogram none scrapes) := by
  rcases scrapes with _ | ⟨first, rest⟩
  · constructor <;> simp [histogram, reported, infGrowth]
  · have hne : ∀ s ∈ first :: rest, s ≠ [] := by
      rintro s hs rfl
      simpa using h.bounds [] hs
    rw [List.forall_mem_cons] at hne
    have hrun := account_run h.grows hne.2
    have hreported : reported (histogram none (first :: rest)) =
        reported (histogram (some first) rest) := by
      simp [histogram, bucketDeltas, reported, hne.1]
    refine ⟨?_, hreported.trans hrun.total, hreported ▸ hrun.atLeast, hreported ▸ hrun.conserved⟩
    rw [histogram, if_neg hne.1, List.forall_mem_cons]
    exact ⟨by simp [bucketDeltas], hrun.sound⟩

def tornScrapes : List (List Bucket) := [[⟨1, 0⟩, ⟨⊤, 1⟩], [⟨1, 1⟩, ⟨⊤, 1⟩]]

theorem tornScrapes_regular : Regular tornScrapes := by
  refine ⟨?_, ?_, ?_⟩ <;> simp [tornScrapes, Grows]

theorem histogram_account_torn :
    Regular tornScrapes ∧ Account tornScrapes (histogram none tornScrapes) :=
  ⟨tornScrapes_regular, histogram_account _ tornScrapes_regular⟩

/-- A scrape that was torn between its buckets: the next one reports an observation again. -/
theorem torn_counted_twice : Regular tornScrapes ∧
    reported (histogram none tornScrapes) = 1 ∧ infGrowth tornScrapes = 0 := by
  refine ⟨tornScrapes_regular, ?_, ?_⟩
  · have hgrew : ¬(1 : ℚ) < 0 := by norm_num
    simp [hgrew, reported, histogram, bucketDeltas, differs, decumulate,
      decumulateFrom, tornScrapes]
  · simp [infGrowth, infCount, tornScrapes]

end Ozymandias.HistogramDeltas
