import Ozymandias.BlockFiles

/-!
Block files read back what was written. The series of a block come back in the
order of their keys, each with its samples; a search by key finds a series or
nothing; and a selection is the reference semantics of the selector and of the
window, applied to what was written. The key of metric names is the exception:
the index files metric names under it, and a matcher with this key looks there.
-/
namespace Ozymandias.BlockReadBack

open SeriesModel Selection Peaks TimeMerge HeadSelect BlockModel BlockFiles Postings Varint
  ChunkFile IndexFile IndexRoundTrip IndexSelect

/-- The series that satisfy a predicate, restricted to a window; those left with samples, in the
order of their keys. -/
def reference (p : SeriesRef → Bool) (start stop : ℤ) (series : List SeriesSamples) :
    List SeriesSamples :=
  sortByKey (((series.filter (fun ss => p ss.series)).map
    (fun ss => ⟨ss.series, ss.samples.filter (fun x => inWindow start stop x.t)⟩)).filter
      (fun ss => decide (ss.samples ≠ [])))

def decided (sel : Selector) (ref : SeriesRef) : Bool :=
  decide (ref.metric = sel.metric) && sel.matchers.all (fun m => m.holds (scope m ref))

variable {sel : Selector}

theorem decided_eq_matches (hkeys : ∀ m ∈ sel.matchers, m.key ≠ metricName) :
    decided sel = Selector.matches sel := by
  funext ref
  refine congrArg (decide (ref.metric = sel.metric) && ·) ?_
  rw [Bool.eq_iff_iff, List.all_eq_true, List.all_eq_true]
  refine forall_congr' (fun m => forall_congr' (fun hm => ?_))
  rw [scope, if_neg (hkeys m hm)]

theorem selects_eq_decided (hmetric : sel.metric ≠ []) {ref : SeriesRef}
    (htags : ∀ t ∈ ref.tags, t.key ≠ metricName) : sel.selects ref = decided sel ref := by
  rw [Bool.eq_iff_iff, selects_iff hmetric htags, decided, Bool.and_eq_true, decide_eq_true_eq,
    List.all_eq_true]

variable {p : SeriesRef → Bool} {series : List SeriesSamples} {start stop : ℤ}

theorem mem_reference {ss : SeriesSamples} :
    ss ∈ reference p start stop series ↔ ss.samples ≠ [] ∧ ∃ ss' ∈ series, p ss'.series = true ∧
      ss = ⟨ss'.series, ss'.samples.filter (fun x => inWindow start stop x.t)⟩ := by
  unfold reference sortByKey
  rw [mem_sortBy, List.mem_filter, List.mem_map, decide_eq_true_eq]
  constructor
  · rintro ⟨⟨ss', hss', rfl⟩, hne⟩
    obtain ⟨hmem, hp⟩ := List.mem_filter.mp hss'
    exact ⟨hne, ss', hmem, hp, rfl⟩
  · rintro ⟨hne, ss', hmem, hp, rfl⟩
    exact ⟨⟨ss', List.mem_filter.mpr ⟨hmem, hp⟩, rfl⟩, hne⟩

theorem reference_sorted (hkeys : (series.map (fun ss => keyOrder ss.series)).Nodup) :
    KeySorted (reference p start stop series) := by
  refine ascending_sortBy (hkeys.sublist ((List.filter_sublist.map _).trans ?_))
  rw [List.map_map]
  exact List.filter_sublist.map _

section

variable {opts : WriterOptions} {series : List SeriesSamples} {b : Block}
  (hb : writeBlock opts series = .ok b)
  (hkeys : (series.map (fun ss => keyOrder ss.series)).Nodup)
  (hsamples : ∀ ss ∈ series, ss.samples ≠ [])
include hb hkeys hsamples

theorem contents_eq : b.contents = sortByKey series := by
  refine ascending_ext b.contents_sorted (ascending_sortBy hkeys) (fun ss => ?_)
  rw [mem_writeBlock hb, sortByKey, mem_sortBy]
  exact ⟨fun hss => hss.1, fun hss => ⟨hss, hsamples ss hss⟩⟩

omit hkeys in
theorem mem_contents {ss : SeriesSamples} : ss ∈ b.contents ↔ ss ∈ series :=
  (mem_writeBlock hb ss).trans ⟨fun hss => hss.1, fun hss => ⟨hss, hsamples ss hss⟩⟩

/-- A selection from the block is the reference selection from what was written. -/
theorem select_eq_reference (hname : ∀ ss ∈ series, ∀ t ∈ ss.series.tags, t.key ≠ metricName)
    (hmetric : sel.metric ≠ []) (start stop : ℤ) :
    b.select sel start stop = reference (decided sel) start stop series := by
  refine ascending_ext (b.select_sorted sel start stop) (reference_sorted hkeys) (fun ss => ?_)
  rw [Block.mem_select, mem_reference]
  refine and_congr_right (fun _ => ?_)
  constructor
  · rintro ⟨s, hs, hsel, rfl⟩
    have hmem := (mem_contents hb hsamples).mp (List.mem_map_of_mem hs)
    refine ⟨_, hmem, ?_, rfl⟩
    rw [← selects_eq_decided hmetric (hname _ hmem)]
    exact hsel
  · rintro ⟨ss', hmem, hsel, rfl⟩
    obtain ⟨s, hs, hss⟩ := List.mem_map.mp ((mem_contents hb hsamples).mpr hmem)
    subst hss
    refine ⟨s, hs, ?_, rfl⟩
    rw [selects_eq_decided hmetric (hname _ hmem)]
    exact hsel

omit hkeys in
theorem samplesFor_present {ss : SeriesSamples} (hss : ss ∈ series) :
    b.samplesFor ss.series.key = ss.samples := by
  rw [b.samplesFor_eq]
  exact KeySorted.samplesAt_of_mem b.contents_sorted ((mem_contents hb hsamples).mpr hss)

omit hkeys in
theorem samplesFor_absent {key : GoString} (hkey : ∀ ss ∈ series, ss.series.key ≠ key) :
    b.samplesFor key = [] := by
  rw [b.samplesFor_eq]
  refine List.eq_nil_iff_forall_not_mem.mpr (fun x hx => ?_)
  obtain ⟨ss, hss, hk, -⟩ := mem_of_mem_samplesAt hx
  exact hkey ss ((mem_contents hb hsamples).mp hss) hk

end

/-- Series with different keys, valid refs and samples in order, written to files and opened again.
The offsets of the index file have eight bytes, which holds every length that there is. -/
theorem files_read_back (opts : WriterOptions) {series : List SeriesSamples} (hne : series ≠ [])
    (hkeys : (series.map (fun ss => ss.series.key)).Nodup)
    (hvalid : ∀ ss ∈ series, validate ss.series = none)
    (hname : ∀ ss ∈ series, ∀ t ∈ ss.series.tags, t.key ≠ metricName)
    (hsamples : ∀ ss ∈ series, ss.samples ≠ [])
    (hasc : ∀ ss ∈ series, Ascending Sample.t ss.samples)
    (hrange : ∀ ss ∈ series, ∀ x ∈ ss.samples, InRange x)
    (hsize : ∀ files, writeFiles opts series = .ok files → files.index.length < 2 ^ 64) :
    ∃ files o, writeFiles opts series = .ok files ∧ openFiles files = .ok o ∧
      o.all = .ok (sortByKey series) ∧
      (∀ ss ∈ series, o.samplesFor ss.series.key = .ok ss.samples) ∧
      (∀ key, (∀ ss ∈ series, ss.series.key ≠ key) → o.samplesFor key = .ok []) ∧
      ∀ sel : Selector, sel.metric ≠ [] → ∀ start stop,
        o.select sel start stop = .ok (reference (decided sel) start stop series) ∧
        ((∀ m ∈ sel.matchers, m.key ≠ metricName) →
          o.select sel start stop = .ok (reference (Selector.matches sel) start stop series)) := by
  have hkeys' : (series.map (fun ss => keyOrder ss.series)).Nodup := by
    have h := hkeys.map byteOrder_injective
    rwa [List.map_map] at h
  obtain ⟨ss₀, hss₀⟩ := List.exists_mem_of_ne_nil _ hne
  obtain ⟨b, hb⟩ := writeBlock_ok opts series hvalid hasc hkeys' ⟨ss₀, hss₀, hsamples ss₀ hss₀⟩
  obtain ⟨files, hfiles, hopen⟩ := files_written hb hrange hname
  obtain ⟨o, ho, hopens⟩ := hopen (hsize files hfiles)
  refine ⟨files, o, hfiles, ho, ?_, fun ss hss => ?_, fun key hkey => ?_, ?_⟩
  · rw [all_opened hopens, contents_eq hb hkeys' hsamples]
  · rw [samplesFor_opened hopens, samplesFor_present hb hsamples hss]
  · rw [samplesFor_opened hopens, samplesFor_absent hb hsamples hkey]
  · intro sel hmetric start stop
    have hsel : o.select sel start stop = .ok (reference (decided sel) start stop series) := by
      rw [select_opened hopens, select_eq_reference hb hkeys' hsamples hname hmetric]
    refine ⟨hsel, fun hm => ?_⟩
    rw [hsel, decided_eq_matches hm]

theorem small_index {opts : WriterOptions} {series : List SeriesSamples}
    (h : (match writeFiles opts series with
      | .ok files => files.index.length
      | .error _ => 0) < 2 ^ 64) (files : Files) (hfiles : writeFiles opts series = .ok files) :
    files.index.length < 2 ^ 64 := by
  rwa [hfiles] at h

def bareOptions : WriterOptions := ⟨1, 0, [], 0⟩

def hostA : SeriesRef := ⟨[0x6d], [⟨[0x68], [0x61]⟩]⟩
def hostB : SeriesRef := ⟨[0x6d], [⟨[0x68], [0x62]⟩]⟩

def hosts : List SeriesSamples := [⟨hostB, [⟨100, 0⟩]⟩, ⟨hostA, [⟨100, 0⟩, ⟨200, 1⟩, ⟨350, 1⟩]⟩]

def onHostA : Selector := ⟨[0x6d], [⟨[0x68], [0x61], .equal⟩]⟩

theorem files_read_back_hosts : ∃ files o, writeFiles bareOptions hosts = .ok files ∧
    openFiles files = .ok o ∧ o.all = .ok hosts.reverse ∧
    o.select onHostA 150 300 = .ok [⟨hostA, [⟨200, 1⟩]⟩] := by
  have hrange : ∀ ss ∈ hosts, ∀ x ∈ ss.samples, InRange x := by
    unfold InRange
    decide
  obtain ⟨files, o, hfiles, ho, hall, -, -, hselect⟩ :=
    files_read_back bareOptions (by decide : hosts ≠ []) (by decide) (by decide) (by decide)
      (by decide) (by decide) hrange (small_index (by decide +kernel))
  refine ⟨files, o, hfiles, ho, hall.trans (congrArg Except.ok (by decide +kernel)), ?_⟩
  exact ((hselect onHostA (by decide) 150 300).2 (by decide)).trans
    (congrArg Except.ok (by decide +kernel))

def bareSeries : SeriesSamples := ⟨bareRef, [⟨100, 0⟩]⟩

theorem inRange_bare : ∀ ss ∈ [bareSeries], ∀ x ∈ ss.samples, InRange x := by
  unfold InRange
  decide

theorem unnamed_bare : ∀ ss ∈ [bareSeries], ∀ t ∈ ss.series.tags, t.key ≠ metricName := by decide

theorem size_bare : ∀ files, writeFiles bareOptions [bareSeries] = .ok files →
    files.index.length < 2 ^ 64 :=
  small_index (by decide +kernel)

theorem writeBlock_bare : ∃ b, writeBlock bareOptions [bareSeries] = .ok b :=
  writeBlock_ok bareOptions [bareSeries] (by decide) (by decide) (List.nodup_singleton _)
    ⟨bareSeries, List.mem_singleton_self _, List.cons_ne_nil _ _⟩

/-- A block of no series is refused, and a matcher with the key of metric names selects a series
that carries no such tag. -/
theorem name_matcher_reads_back :
    writeFiles bareOptions [] = .error .empty ∧
    ∃ files o, writeFiles bareOptions [bareSeries] = .ok files ∧ openFiles files = .ok o ∧
      o.select namedSelector 0 200 = .ok [bareSeries] ∧
      Selector.matches namedSelector bareRef = false := by
  refine ⟨rfl, ?_⟩
  obtain ⟨b, hb⟩ := writeBlock_bare
  obtain ⟨files, hfiles, hopen⟩ := files_written hb inRange_bare unnamed_bare
  obtain ⟨o, ho, hopens⟩ := hopen (size_bare files hfiles)
  refine ⟨files, o, hfiles, ho, ?_, by decide⟩
  rw [select_opened hopens, select_eq_reference hb (List.nodup_singleton _) (by decide) unnamed_bare
    (List.cons_ne_nil _ _)]
  rfl

end Ozymandias.BlockReadBack
