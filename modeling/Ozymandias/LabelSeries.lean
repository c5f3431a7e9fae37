import Ozymandias.MetricBatch

/-!
The series of a scraped histogram. A set of labels is identified by its names and
values, sorted and each written with its length in front, so that no byte of a
value reads as a separator. The samples of a family are gathered under that key
without the label of the bucket: each series is what the samples with its labels
make alone.
-/
namespace Ozymandias.LabelSeries

open SeriesModel (GoString colon)
open Selection MetricQuery MetricSelect MetricBatch Delimited TimeMerge

structure Label where
  name : GoString
  value : GoString
  deriving DecidableEq

structure Sample (F : Type) where
  name : GoString
  labels : List Label
  value : F
  deriving DecidableEq

inductive FamilyType where
  | counter
  | gauge
  | histogram
  | gaugeHistogram
  | summary
  | info
  | stateset
  | unknown
  deriving DecidableEq

structure Family (F : Type) where
  name : GoString
  type : FamilyType
  samples : List (Sample F)

structure Bucket (F : Type) where
  upperBound : F
  count : F
  deriving DecidableEq

structure Histogram (F : Type) where
  labels : List Label
  key : GoString
  buckets : List (Bucket F)
  sum : F
  count : F
  hasSum : Bool
  hasCount : Bool
  deriving DecidableEq

/-- The language's numbers; `isInf` is for the positive infinity. -/
structure Floats (F : Type) where
  zero : F
  inf : F
  parseFloat : GoString → Option F
  formatFloat : F → GoString
  isNaN : F → Bool
  isInf : F → Bool
  less : F → F → Bool
  equal : F → F → Bool
  max : F → F → F

inductive HistErr where
  | notHistogram (name : GoString) (type : FamilyType)
  | noBound (sample : GoString)
  | badBound (sample bound : GoString)
  | twoBuckets (sample bound : GoString)
  deriving DecidableEq

def lengthFirst (s : GoString) : GoString := decimal s.length ++ (colon :: s)

def labelText (l : Label) : GoString := lengthFirst l.name ++ lengthFirst l.value

def labelOrder (l : Label) : List ℕ ×ₗ List ℕ := toLex (byteOrder l.name, byteOrder l.value)

def without (skip : GoString) (labels : List Label) : List Label :=
  labels.filter (fun l => l.name ≠ skip)

def labelKey (labels : List Label) (skip : GoString) : GoString :=
  (sortBy labelOrder (without skip labels)).flatMap labelText

def le : GoString := text "le"

def Sample.label {F : Type} (s : Sample F) (name : GoString) : Option GoString :=
  (s.labels.find? (fun l => l.name = name)).map Label.value

structure Names where
  bucket : GoString
  sum : GoString
  count : GoString

def Family.names {F : Type} (f : Family F) : Option Names :=
  match f.type with
  | .histogram => some ⟨f.name ++ text "_bucket", f.name ++ text "_sum", f.name ++ text "_count"⟩
  | .gaugeHistogram =>
    some ⟨f.name ++ text "_bucket", f.name ++ text "_gsum", f.name ++ text "_gcount"⟩
  | _ => none

variable {F : Type} (N : Floats F) (names : Names)

def effect (s : Sample F) : Except HistErr (Option (Histogram F → Histogram F)) :=
  if s.name = names.bucket then
    match s.label le with
    | none => .error (.noBound s.name)
    | some bound =>
      match N.parseFloat bound with
      | none => .error (.badBound s.name bound)
      | some ub =>
        if N.isNaN ub then .error (.badBound s.name bound)
        else .ok (some fun h => { h with buckets := h.buckets ++ [⟨ub, s.value⟩] })
  else if s.name = names.sum then .ok (some fun h => { h with sum := s.value, hasSum := true })
  else if s.name = names.count then
    .ok (some fun h => { h with count := s.value, hasCount := true })
  else .ok none

/-- Change the series of the labels, which is a new one at the end if there is none. -/
def change (labels : List Label) (g : Histogram F → Histogram F) :
    List (Histogram F) → List (Histogram F)
  | [] => [g ⟨without le labels, labelKey labels le, [], N.zero, N.zero, false, false⟩]
  | h :: out => if h.key = labelKey labels le then g h :: out else h :: change labels g out

def gather : List (Histogram F) → List (Sample F) → Except HistErr (List (Histogram F))
  | out, [] => .ok out
  | out, s :: rest =>
    match effect N names s with
    | .error e => .error e
    | .ok none => gather out rest
    | .ok (some g) => gather (change N s.labels g out) rest

def repeated : List (Bucket F) → Option F
  | a :: b :: rest => if N.equal b.upperBound a.upperBound then
    some b.upperBound else repeated (b :: rest)
  | _ => none

def finish (h : Histogram F) : Except HistErr (Histogram F) :=
  let buckets := h.buckets.insertionSort (fun a b => N.less b.upperBound a.upperBound = false)
  match repeated N buckets with
  | some ub => .error (.twoBuckets names.bucket (N.formatFloat ub))
  | none =>
    match buckets.getLast? with
    | none => .ok { h with buckets := buckets }
    | some last =>
      if N.isInf last.upperBound then .ok { h with buckets := buckets }
      else
        let total := if h.hasCount then
          h.count else buckets.foldl (fun t b => N.max t b.count) h.count
        .ok { h with buckets := buckets ++ [⟨N.inf, total⟩] }

def finishAll : List (Histogram F) → Except HistErr (List (Histogram F))
  | [] => .ok []
  | h :: rest =>
    match finish N names h with
    | .error e => .error e
    | .ok h =>
      match finishAll rest with
      | .error e => .error e
      | .ok out => .ok (h :: out)

def Family.histograms (f : Family F) : Except HistErr (List (Histogram F)) :=
  match f.names with
  | none => .error (.notHistogram f.name f.type)
  | some names =>
    match gather N names [] f.samples with
    | .error e => .error e
    | .ok out => finishAll N names out

theorem lengthFirst_splits : Splits (fun _ => True) lengthFirst := by
  intro a b x y _ _ heq
  unfold lengthFirst at heq
  rw [List.append_assoc, List.append_assoc] at heq
  have hcolon : ∀ t : GoString, NonDigit (colon :: t) := nonDigit_cons (by decide)
  obtain ⟨hlen, hrest⟩ := decimal_splits _ _ _ _ (hcolon _) (hcolon _) heq
  exact List.append_inj (List.cons.inj hrest).2 hlen

theorem labelText_splits : Splits (fun _ => True) labelText := by
  intro a b x y hx hy heq
  unfold labelText at heq
  rw [List.append_assoc, List.append_assoc] at heq
  obtain ⟨hname, hrest⟩ := lengthFirst_splits _ _ _ _ trivial trivial heq
  obtain ⟨hvalue, hxy⟩ := lengthFirst_splits _ _ _ _ trivial trivial hrest
  cases a
  cases b
  exact ⟨congrArg₂ Label.mk hname hvalue, hxy⟩

theorem labelText_ne_nil (l : Label) (x : GoString) : labelText l ++ x ≠ [] := by
  simp [labelText, lengthFirst]

theorem texts_injective {as bs : List Label}
    (h : as.flatMap labelText = bs.flatMap labelText) : as = bs := by
  induction as generalizing bs with
  | nil =>
    cases bs with
    | nil => rfl
    | cons b bs => exact absurd h.symm (labelText_ne_nil b _)
  | cons a as ih =>
    cases bs with
    | nil => exact absurd h (labelText_ne_nil a _)
    | cons b bs =>
      obtain ⟨rfl, hrest⟩ := labelText_splits a b _ _ trivial trivial h
      rw [ih hrest]

theorem labelOrder_injective {a b : Label} (h : labelOrder a = labelOrder b) : a = b := by
  obtain ⟨hname, hvalue⟩ := Prod.mk.inj (toLex.injective h)
  cases a
  cases b
  exact congrArg₂ Label.mk (byteOrder_injective hname) (byteOrder_injective hvalue)

variable {skip : GoString} {as bs : List Label}

theorem labelKey_eq_iff :
    labelKey as skip = labelKey bs skip ↔ (without skip as).Perm (without skip bs) := by
  have hsorted : ∀ ls, (sortBy labelOrder ls).Perm ls := fun ls => List.perm_insertionSort _ ls
  constructor
  · intro h
    have hperm := hsorted (without skip as)
    rw [texts_injective h] at hperm
    exact hperm.symm.trans (hsorted _)
  · intro h
    have hperm := (hsorted _).trans (h.trans (hsorted _).symm)
    refine congrArg _ (hperm.eq_of_pairwise (fun a b _ _ hab hba => ?_) (pairwise_sortBy _ _)
      (pairwise_sortBy _ _))
    exact labelOrder_injective (le_antisymm hab hba)

variable {N names} {s : Sample F} {samples : List (Sample F)} {h : Histogram F}
  {out : List (Histogram F)}
  {g : Histogram F → Histogram F} {ls : List Label}

def Names.has (names : Names) (s : Sample F) : Prop :=
  s.name = names.bucket ∨ s.name = names.sum ∨ s.name = names.count

def Keeps (g : Histogram F → Histogram F) : Prop := ∀ h, (g h).key = h.key ∧ (g h).labels = h.labels

/-- A sample of the histogram changes a series, but neither its labels nor its key. -/
theorem effect_spec {r : Option (Histogram F → Histogram F)} (hr : effect N names s = .ok r) :
    match r with
    | none => ¬ names.has s
    | some g => Keeps g := by
  unfold effect at hr
  split_ifs at hr with hb hs hc
  · split at hr
    · cases hr
    · split at hr
      · cases hr
      · split_ifs at hr
        cases hr
        exact fun h => ⟨rfl, rfl⟩
  · cases hr
    exact fun h => ⟨rfl, rfl⟩
  · cases hr
    exact fun h => ⟨rfl, rfl⟩
  · cases hr
    simp [Names.has, hb, hs, hc]

/-- The series of a key change by the samples of the key. -/
theorem filter_change (hg : Keeps g) (k : GoString) :
    (change N ls g out).filter (fun h => h.key = k) =
      if labelKey ls le = k then change N ls g (out.filter (fun h => h.key = k))
      else out.filter (fun h => h.key = k) := by
  induction out with
  | nil =>
    rw [change, List.filter_singleton, (hg _).1]
    by_cases hk : labelKey ls le = k <;> simp [hk, change]
  | cons h out ih =>
    rw [change]
    by_cases hkey : h.key = labelKey ls le
    · rw [if_pos hkey, List.filter_cons, List.filter_cons, (hg h).1, hkey]
      by_cases hk : labelKey ls le = k
      · simp [hk, change, hkey]
      · simp [hk]
    · rw [if_neg hkey, List.filter_cons, ih, List.filter_cons]
      by_cases hk : labelKey ls le = k
      · have hne : h.key ≠ k := hk ▸ hkey
        simp [hk, hne]
      · simp [hk]

theorem gather_filter {out' : List (Histogram F)} (h : gather N names out samples = .ok out')
    (k : GoString) :
    gather N names (out.filter (fun h => h.key = k))
      (samples.filter (fun s => labelKey s.labels le = k)) =
      .ok (out'.filter (fun h => h.key = k)) := by
  induction samples generalizing out with
  | nil =>
    cases h
    rfl
  | cons s samples ih =>
    rw [gather] at h
    rw [List.filter_cons]
    cases heff : effect N names s with
    | error e =>
      rw [heff] at h
      cases h
    | ok r =>
      rw [heff] at h
      cases r with
      | none =>
        split_ifs
        · rw [gather, heff]
          exact ih h
        · exact ih h
      | some g =>
        have hrest := ih h
        rw [filter_change (effect_spec heff)] at hrest
        by_cases hk : labelKey s.labels le = k
        · rw [if_pos hk] at hrest
          rw [if_pos (by simp [hk]), gather, heff]
          exact hrest
        · rw [if_neg hk] at hrest
          rw [if_neg (by simp [hk])]
          exact hrest

/-- Samples of one key make one series, if one of them is of the histogram. -/
theorem gather_one {k : GoString} {out' : List (Histogram F)}
    (hkey : ∀ s ∈ samples, labelKey s.labels le = k) (h : gather N names out samples = .ok out') :
    (out = [] → (out' = [] ∧ ∀ s ∈ samples, ¬ names.has s) ∨
      ∃ ls h, labelKey ls le = k ∧ out' = [h] ∧ h.key = k ∧ h.labels = without le ls) ∧
    ∀ h₀, out = [h₀] → h₀.key = k → ∃ h, out' = [h] ∧ h.key = k ∧ h.labels = h₀.labels := by
  induction samples generalizing out with
  | nil =>
    cases h
    refine ⟨fun hnil => .inl ⟨hnil, nofun⟩, fun h₀ hout hk => ⟨h₀, hout, hk, rfl⟩⟩
  | cons s samples ih =>
    obtain ⟨hs, hkey⟩ := List.forall_mem_cons.mp hkey
    rw [gather] at h
    cases heff : effect N names s with
    | error e =>
      rw [heff] at h
      cases h
    | ok r =>
      rw [heff] at h
      cases r with
      | none =>
        obtain ⟨hnil, hone⟩ := ih hkey h
        refine ⟨fun hout => ?_, hone⟩
        rcases hnil hout with ⟨hout', hno⟩ | hsome
        · exact .inl ⟨hout', List.forall_mem_cons.mpr ⟨effect_spec heff, hno⟩⟩
        · exact .inr hsome
      | some g =>
        have hg : Keeps g := effect_spec heff
        obtain ⟨-, hone⟩ := ih hkey h
        constructor
        · rintro rfl
          obtain ⟨h', hout', hk', hlabels⟩ := hone _ rfl ((hg _).1.trans hs)
          exact .inr ⟨s.labels, h', hs, hout', hk', hlabels.trans (hg _).2⟩
        · rintro h₀ rfl hk
          have hchange : change N s.labels g [h₀] = [g h₀] := if_pos (hk.trans hs.symm)
          obtain ⟨h', hout', hk', hlabels⟩ := hone (g h₀) hchange ((hg h₀).1.trans hk)
          exact ⟨h', hout', hk', hlabels.trans (hg h₀).2⟩

theorem finish_keeps {h' : Histogram F} (hh : finish N names h = .ok h') :
    h'.key = h.key ∧ h'.labels = h.labels := by
  unfold finish at hh
  dsimp only at hh
  split at hh
  · cases hh
  · split at hh
    · cases hh
      exact ⟨rfl, rfl⟩
    · split_ifs at hh <;> cases hh <;> exact ⟨rfl, rfl⟩

theorem finishAll_spec {res : List (Histogram F)} (h : finishAll N names out = .ok res) :
    (∀ h' ∈ res, ∃ h ∈ out, finish N names h = .ok h') ∧
      ∀ h ∈ out, ∃ h' ∈ res, finish N names h = .ok h' := by
  induction out generalizing res with
  | nil =>
    cases h
    exact ⟨nofun, nofun⟩
  | cons h₀ out ih =>
    rw [finishAll] at h
    split at h
    · cases h
    next h' hfin =>
      split at h
      · cases h
      next rest hrest =>
        cases h
        obtain ⟨hfrom, hto⟩ := ih hrest
        simp only [List.mem_cons, exists_eq_or_imp, forall_eq_or_imp]
        exact ⟨⟨.inl hfin, fun x hx => .inr (hfrom x hx)⟩, .inl hfin, fun x hx => .inr (hto x hx)⟩

/-- A gathered series is what the samples with its labels make, and the only one of its key. -/
theorem mem_gathered (hrun : gather N names [] samples = .ok out) (hmem : h ∈ out) :
    gather N names [] (samples.filter (fun s => (without le s.labels).Perm h.labels)) = .ok [h] ∧
      (∀ ls, (without le ls).Perm h.labels ↔ labelKey ls le = h.key) ∧
      ∀ h' ∈ out, h'.key = h.key → h' = h := by
  have hsame := gather_filter hrun h.key
  have hin : ∀ h' ∈ out, h'.key = h.key → h' ∈ out.filter (fun x => x.key = h.key) :=
    fun h' hh' hk => List.mem_filter.mpr ⟨hh', decide_eq_true hk⟩
  rcases (gather_one (fun s hs => of_decide_eq_true (List.mem_filter.mp hs).2) hsame).1 rfl with
    ⟨hnil, -⟩ | ⟨ls, h₀, hls, hout, -, hlabels⟩
  · have hno := hin h hmem rfl
    rw [hnil] at hno
    cases hno
  · rw [hout] at hin hsame
    obtain rfl := List.mem_singleton.mp (hin h hmem rfl)
    have hagree : ∀ ls', (without le ls').Perm h.labels ↔ labelKey ls' le = h.key := by
      intro ls'
      rw [hlabels, ← hls]
      exact labelKey_eq_iff.symm
    simp only [hagree]
    exact ⟨hsame, fun _ => trivial, fun h' hh' hk => List.mem_singleton.mp (hin h' hh' hk)⟩

theorem exists_gathered (hrun : gather N names [] samples = .ok out) (hs : s ∈ samples)
    (hhas : names.has s) :
    ∃ h ∈ out, h.key = labelKey s.labels le := by
  have hsame := gather_filter hrun (labelKey s.labels le)
  rcases (gather_one (fun s hs => of_decide_eq_true (List.mem_filter.mp hs).2) hsame).1 rfl with
    ⟨-, hno⟩ | ⟨ls, h₀, -, hout, hkey, -⟩
  · exact absurd hhas (hno s (List.mem_filter.mpr ⟨hs, decide_eq_true rfl⟩))
  · have hin : h₀ ∈ out.filter (fun h => h.key = labelKey s.labels le) := hout ▸ List.mem_cons_self
    exact ⟨h₀, (List.mem_filter.mp hin).1, hkey⟩

/-- Keys are equal exactly if the other labels are. Every series of a family is the one that the
samples with its labels make alone, every sample of the histogram has exactly one series with its
labels, and two samples have the same exactly if their labels agree. -/
theorem series_by_labels : (∀ (as bs : List Label) (skip : GoString),
      labelKey as skip = labelKey bs skip ↔ (without skip as).Perm (without skip bs)) ∧
    ∀ (N : Floats F) (f : Family F) (names : Names) (res : List (Histogram F)),
      f.names = some names →
      f.histograms N = .ok res →
        (∀ h ∈ res, Family.histograms N { f with
          samples := f.samples.filter (fun s => (without le s.labels).Perm h.labels) } = .ok [h]) ∧
        (∀ s ∈ f.samples, names.has s → ∃! h, h ∈ res ∧ (without le s.labels).Perm h.labels) ∧
        ∀ s ∈ f.samples, ∀ t ∈ f.samples, names.has s → names.has t →
          ((∃ h ∈ res, (without le s.labels).Perm h.labels ∧ (without le t.labels).Perm h.labels) ↔
            (without le s.labels).Perm (without le t.labels)) := by
  refine ⟨fun as bs skip => labelKey_eq_iff, fun N f names res hnames hres => ?_⟩
  unfold Family.histograms at hres ⊢
  rw [hnames] at hres
  cases hrun : gather N names [] f.samples with
  | error e =>
    simp only [hrun] at hres
    cases hres
  | ok out =>
    simp only [hrun] at hres
    obtain ⟨hfrom, hto⟩ := finishAll_spec hres
    have hseries : ∀ s ∈ f.samples, names.has s → ∃! h, h ∈ res ∧
      (without le s.labels).Perm h.labels := by
      intro s hs hhas
      obtain ⟨h, hh, hkey⟩ := exists_gathered hrun hs hhas
      obtain ⟨h', hh', hfin⟩ := hto h hh
      refine ⟨h', ⟨hh', ?_⟩, ?_⟩
      · rw [(finish_keeps hfin).2]
        exact ((mem_gathered hrun hh).2.1 _).mpr hkey.symm
      · rintro x ⟨hx, hperm⟩
        obtain ⟨y, hy, hfin'⟩ := hfrom x hx
        rw [(finish_keeps hfin').2, (mem_gathered hrun hy).2.1, ← hkey] at hperm
        rw [(mem_gathered hrun hy).2.2 h hh hperm, hfin'] at hfin
        exact Except.ok.inj hfin
    refine ⟨fun h' hh' => ?_, hseries, fun s hs t ht hhas hhas' => ⟨?_, fun hperm => ?_⟩⟩
    · obtain ⟨h, hh, hfin⟩ := hfrom h' hh'
      have halone := (mem_gathered hrun hh).1
      rw [← (finish_keeps hfin).2] at halone
      change (match f.names with | none => _ | some names => _) = _
      simp only [hnames, halone, finishAll, hfin]
    · rintro ⟨h, -, hs, ht⟩
      exact hs.trans ht.symm
    · obtain ⟨h, ⟨hh, hs⟩, -⟩ := hseries s hs hhas
      exact ⟨h, hh, hs, hperm.symm.trans hs⟩

def digitFloats : Floats ℕ where
  zero := 0
  inf := 9
  parseFloat t := t.head?.map (fun c => c.toNat - 0x30)
  formatFloat := decimal
  isNaN _ := false
  isInf n := n = 9
  less a b := a < b
  equal a b := a = b
  max := max

def swapped : Family ℕ :=
  ⟨text "m", .histogram,
    [⟨text "m_bucket", [⟨text "a", text "1"⟩, ⟨le, text "2"⟩, ⟨text "b", text "3"⟩], 4⟩,
      ⟨text "m_sum", [⟨text "b", text "3"⟩, ⟨text "a", text "1"⟩], 5⟩]⟩

theorem series_of_swapped : ∃ h, swapped.histograms digitFloats = .ok [h] ∧ h.sum = 5 ∧
    h.buckets = [⟨2, 4⟩, ⟨9, 4⟩] ∧ Family.histograms digitFloats { swapped with
      samples := swapped.samples.filter (fun s => (without le s.labels).Perm h.labels) } =
        .ok [h] := by
  have hrun : swapped.histograms digitFloats = .ok [⟨[⟨text "a", text "1"⟩, ⟨text "b", text "3"⟩],
    text "1:a1:11:b1:3", [⟨2, 4⟩, ⟨9, 4⟩], 5, 0, true, false⟩] := by decide +kernel
  exact ⟨_, hrun, rfl, rfl, (series_by_labels.2 _ _ _ _ rfl hrun).1 _ List.mem_cons_self⟩

end Ozymandias.LabelSeries
