import Ozymandias.Selection
import Ozymandias.GorillaChunk
import Ozymandias.TimeMerge

/-!
Blocks: an immutable set of series, in the order of their keys, each with its
samples re-encoded into full chunks. A block's meta holds the time range of the
samples, and the level and sources a compaction gave it. An open block stands
for what its files hold; reading it visits only the chunks of the window.
-/

namespace Ozymandias.BlockModel

open SeriesModel Selection Peaks TimeMerge GorillaChunk

abbrev Ulid := ℕ

structure Meta where
  ulid : Ulid
  minTime : ℤ
  maxTime : ℤ
  level : ℕ
  sources : List Ulid
  resolutionS : ℤ
  deriving DecidableEq

structure BlockChunk where
  minT : ℤ
  maxT : ℤ
  samples : List Sample
  minT_eq : samples.head?.map Sample.t = some minT
  maxT_eq : samples.getLast?.map Sample.t = some maxT
  capped : samples.length ≤ maxSamplesPerChunk

structure BlockSeries where
  ref : SeriesRef
  chunks : List BlockChunk
  valid : validate ref = none
  nonempty : chunks ≠ []
  ascending : Ascending Sample.t (chunks.flatMap BlockChunk.samples)

def BlockSeries.samples (s : BlockSeries) : List Sample := s.chunks.flatMap BlockChunk.samples

/-- The series stand in the order of their keys, and the meta has the time of
the oldest and of the newest sample. -/
structure Block where
  info : Meta
  series : List BlockSeries
  sorted : Ascending (fun s : BlockSeries => keyOrder s.ref) series
  minTime_le : ∀ s ∈ series, ∀ x ∈ s.samples, info.minTime ≤ x.t
  le_maxTime : ∀ s ∈ series, ∀ x ∈ s.samples, x.t ≤ info.maxTime
  minTime_mem : ∃ s ∈ series, ∃ x ∈ s.samples, x.t = info.minTime
  maxTime_mem : ∃ s ∈ series, ∃ x ∈ s.samples, x.t = info.maxTime

def readWindow (start stop : ℤ) : List Sample → List Sample
  | [] => []
  | s :: rest =>
    if s.t < start then readWindow start stop rest
    else if stop < s.t then []
    else s :: readWindow start stop rest

def inWindow (start stop t : ℤ) : Bool := decide (start ≤ t ∧ t ≤ stop)

def BlockSeries.samplesIn (s : BlockSeries) (start stop : ℤ) : List Sample :=
  (s.chunks.filter (fun c => !(decide (c.maxT < start) || decide (stop < c.minT)))).flatMap
    (fun c => readWindow start stop c.samples)

def Block.overlaps (b : Block) (start stop : ℤ) : Bool :=
  decide (b.info.minTime ≤ stop ∧ start ≤ b.info.maxTime)

def sortByKey (answer : List SeriesSamples) : List SeriesSamples :=
  sortBy (fun ss => keyOrder ss.series) answer

def Block.select (b : Block) (sel : Selector) (start stop : ℤ) : List SeriesSamples :=
  if b.overlaps start stop then
    sortByKey (((b.series.filter (fun s => sel.selects s.ref)).map
      (fun s => ⟨s.ref, s.samplesIn start stop⟩)).filter (fun ss => decide (ss.samples ≠ [])))
  else []

def Block.seriesRefs (b : Block) : List SeriesRef := b.series.map BlockSeries.ref

/-- Every sample of one series: the search finds the first key that is not less. -/
def Block.samplesFor (b : Block) (key : GoString) : List Sample :=
  match b.series.find? (fun s => decide (byteOrder key ≤ keyOrder s.ref)) with
  | none => []
  | some s => if s.ref.key = key then s.samplesIn b.info.minTime b.info.maxTime else []

inductive WriteErr where
  | ref (e : RefErr)
  | unordered
  | repeated
  | empty
  deriving DecidableEq

def BlockChunk.ofSamples (samples : List Sample) (hne : samples ≠ [])
    (hlen : samples.length ≤ maxSamplesPerChunk) : BlockChunk where
  minT := (samples.head hne).t
  maxT := (samples.getLast hne).t
  samples := samples
  minT_eq := by rw [List.head?_eq_some_head hne]; rfl
  maxT_eq := by rw [List.getLast?_eq_some_getLast hne]; rfl
  capped := hlen

variable {samples : List Sample} {series : List SeriesSamples}

theorem take_ne_nil (h : samples ≠ []) :
    samples.take maxSamplesPerChunk ≠ [] := by
  cases samples with
  | nil => exact absurd rfl h
  | cons s rest => simp [maxSamplesPerChunk]

def rechunk (samples : List Sample) : List BlockChunk :=
  if h : samples = [] then []
  else
    BlockChunk.ofSamples (samples.take maxSamplesPerChunk) (take_ne_nil h)
        (List.length_take_le _ _) ::
      rechunk (samples.drop maxSamplesPerChunk)
termination_by samples.length
decreasing_by
  have := List.length_pos_iff.mpr h
  simp only [List.length_drop, maxSamplesPerChunk]
  omega

theorem samples_rechunk (samples : List Sample) :
    (rechunk samples).flatMap BlockChunk.samples = samples := by
  fun_induction rechunk samples with
  | case1 => rfl
  | case2 samples h ih =>
    rw [List.flatMap_cons, ih]
    exact List.take_append_drop _ _

theorem rechunk_ne_nil (h : samples ≠ []) : rechunk samples ≠ [] := by
  intro hnil
  rw [← samples_rechunk samples, hnil] at h
  exact h rfl

def BlockSeries.ofSamples (ref : SeriesRef) (samples : List Sample) (hvalid : validate ref = none)
    (hne : samples ≠ []) (hasc : Ascending Sample.t samples) : BlockSeries where
  ref := ref
  chunks := rechunk samples
  valid := hvalid
  nonempty := rechunk_ne_nil hne
  ascending := by rw [samples_rechunk]; exact hasc

structure Writer where
  series : List BlockSeries
  distinct : (series.map (fun s => keyOrder s.ref)).Nodup

def Writer.new : Writer := ⟨[], List.nodup_nil⟩

variable {answer : List SeriesSamples} {b : Block} {s : BlockSeries} {ss : SeriesSamples}
  {w w' : Writer} {key : GoString} {x : Sample}

theorem distinct_concat {series : List BlockSeries}
    (h : (series.map (fun s => keyOrder s.ref)).Nodup)
    (hnew : keyOrder s.ref ∉ series.map (fun s => keyOrder s.ref)) :
    ((series ++ [s]).map (fun s => keyOrder s.ref)).Nodup := by
  rw [List.map_append, List.map_singleton, ← List.concat_eq_append]
  exact h.concat hnew

/-- Add one series. Callers add a series once, with its samples in order; the
encoder takes no others. -/
def Writer.addSeries (w : Writer) (ss : SeriesSamples) : Except WriteErr Writer :=
  if hne : ss.samples = [] then .ok w
  else
    match hvalid : validate ss.series with
    | some e => .error (.ref e)
    | none =>
      if hasc : Ascending Sample.t ss.samples then
        if hnew : keyOrder ss.series ∉ w.series.map (fun s => keyOrder s.ref) then
          .ok ⟨w.series ++ [BlockSeries.ofSamples ss.series ss.samples hvalid hne hasc],
            distinct_concat w.distinct hnew⟩
        else .error .repeated
      else .error .unordered

def BlockSeries.firstT (s : BlockSeries) : ℤ := (s.chunks.head s.nonempty).minT

def BlockSeries.lastT (s : BlockSeries) : ℤ := (s.chunks.getLast s.nonempty).maxT

theorem BlockChunk.exists_first (c : BlockChunk) : ∃ x, c.samples.head? = some x ∧ x.t = c.minT :=
  Option.map_eq_some_iff.mp c.minT_eq

theorem BlockChunk.exists_last (c : BlockChunk) : ∃ x, c.samples.getLast? = some x ∧ x.t = c.maxT :=
  Option.map_eq_some_iff.mp c.maxT_eq

theorem BlockSeries.exists_first : ∃ x, s.samples.head? = some x ∧ x.t = s.firstT := by
  obtain ⟨x, hx, hxt⟩ := (s.chunks.head s.nonempty).exists_first
  refine ⟨x, ?_, hxt⟩
  obtain ⟨c, rest, hc⟩ := List.exists_cons_of_ne_nil s.nonempty
  have hfirst : s.chunks.head s.nonempty = c := by simp [hc]
  rw [hfirst] at hx
  simp only [BlockSeries.samples, hc, List.flatMap_cons, List.head?_append, hx, Option.some_or]

theorem BlockSeries.exists_last : ∃ x, s.samples.getLast? = some x ∧ x.t = s.lastT := by
  obtain ⟨x, hx, hxt⟩ := (s.chunks.getLast s.nonempty).exists_last
  refine ⟨x, ?_, hxt⟩
  obtain ⟨front, c, hc⟩ := List.eq_nil_or_concat' s.chunks |>.resolve_left s.nonempty
  have heq : s.chunks.getLast s.nonempty = c := by simp [hc]
  rw [heq] at hx
  simp [BlockSeries.samples, hc, hx]

/-- The first time is that of the oldest sample. -/
theorem BlockSeries.firstT_spec :
    (∃ x ∈ s.samples, x.t = s.firstT) ∧ ∀ x ∈ s.samples, s.firstT ≤ x.t := by
  obtain ⟨x, hhead, hxt⟩ := s.exists_first
  rw [← hxt]
  exact ⟨⟨x, List.mem_of_head? hhead, rfl⟩, s.ascending.head_le hhead⟩

/-- The last time is that of the newest sample. -/
theorem BlockSeries.lastT_spec :
    (∃ x ∈ s.samples, x.t = s.lastT) ∧ ∀ x ∈ s.samples, x.t ≤ s.lastT := by
  obtain ⟨x, hlast, hxt⟩ := s.exists_last
  rw [← hxt]
  exact ⟨⟨x, List.mem_of_getLast? hlast, rfl⟩, s.ascending.le_last hlast⟩

structure WriterOptions where
  ulid : Ulid
  level : ℕ
  sources : List Ulid
  resolutionS : ℤ
  deriving DecidableEq

/-- Finish the block. Its index is written in key order; one without series is
not worth a directory. -/
def Writer.close (opts : WriterOptions) (w : Writer) : Except WriteErr Block :=
  match hlo : (w.series.map BlockSeries.firstT).min?,
    hhi : (w.series.map BlockSeries.lastT).max? with
  | some lo, some hi => .ok
    { info := ⟨opts.ulid, lo, hi, opts.level, opts.sources, opts.resolutionS⟩
      series := sortBy (fun s => keyOrder s.ref) w.series
      sorted := ascending_sortBy w.distinct
      minTime_le := by
        intro s hs x hx
        refine le_trans ((List.min?_eq_some_iff.mp hlo).2 s.firstT ?_) (s.firstT_spec.2 x hx)
        exact List.mem_map_of_mem (mem_sortBy.mp hs)
      le_maxTime := by
        intro s hs x hx
        refine le_trans (s.lastT_spec.2 x hx) ((List.max?_eq_some_iff.mp hhi).2 s.lastT ?_)
        exact List.mem_map_of_mem (mem_sortBy.mp hs)
      minTime_mem := by
        obtain ⟨s, hs, hst⟩ := List.mem_map.mp (List.min?_eq_some_iff.mp hlo).1
        obtain ⟨x, hx, hxt⟩ := s.firstT_spec.1
        exact ⟨s, mem_sortBy.mpr hs, x, hx, hxt.trans hst⟩
      maxTime_mem := by
        obtain ⟨s, hs, hst⟩ := List.mem_map.mp (List.max?_eq_some_iff.mp hhi).1
        obtain ⟨x, hx, hxt⟩ := s.lastT_spec.1
        exact ⟨s, mem_sortBy.mpr hs, x, hx, hxt.trans hst⟩ }
  | _, _ => .error .empty

def Writer.addAll (w : Writer) : List SeriesSamples → Except WriteErr Writer
  | [] => .ok w
  | ss :: rest =>
    match w.addSeries ss with
    | .error e => .error e
    | .ok w => w.addAll rest

def writeBlock (opts : WriterOptions) (series : List SeriesSamples) : Except WriteErr Block :=
  match Writer.new.addAll series with
  | .error e => .error e
  | .ok w => w.close opts

theorem readWindow_eq (h : Ascending Sample.t samples) (start stop : ℤ) :
    readWindow start stop samples =
      samples.filter (fun x => decide (start ≤ x.t ∧ x.t ≤ stop)) := by
  fun_induction readWindow start stop samples with
  | case1 => rfl
  | case2 s rest hstart ih => rw [ih h.tail, List.filter_cons_of_neg (by simp; omega)]
  | case3 s rest hstart hstop =>
    refine (List.filter_eq_nil_iff.mpr ?_).symm
    intro x hx
    have hle : s.t ≤ x.t := h.head_le rfl x hx
    simp
    omega
  | case4 s rest hstart hstop ih => rw [ih h.tail, List.filter_cons_of_pos (by simp; omega)]

theorem BlockSeries.samplesIn_eq (start stop : ℤ) :
    s.samplesIn start stop = s.samples.filter (fun x => inWindow start stop x.t) := by
  have hasc : ∀ c ∈ s.chunks, Ascending Sample.t c.samples :=
    fun c hc => s.ascending.of_mem_flatMap hc
  have hrange : ∀ c ∈ s.chunks, ∀ x ∈ c.samples, c.minT ≤ x.t ∧ x.t ≤ c.maxT := by
    intro c hc x hx
    obtain ⟨first, hfirst, hmin⟩ := c.exists_first
    obtain ⟨last, hlast, hmax⟩ := c.exists_last
    rw [← hmin, ← hmax]
    exact ⟨(hasc c hc).head_le hfirst x hx, (hasc c hc).le_last hlast x hx⟩
  have hread : s.samplesIn start stop =
      (s.chunks.filter (fun c => !(decide (c.maxT < start) || decide (stop < c.minT)))).flatMap
        (fun c => c.samples.filter (fun x => decide (start ≤ x.t ∧ x.t ≤ stop))) := by
    refine List.flatMap_congr ?_
    intro c hc
    exact readWindow_eq (hasc c (List.mem_filter.mp hc).1) start stop
  rw [hread]
  exact flatMap_window BlockChunk.minT BlockChunk.maxT BlockChunk.samples s.chunks hrange start stop

def Block.contents (b : Block) : List SeriesSamples := b.series.map (fun s => ⟨s.ref, s.samples⟩)

def samplesAt (answer : List SeriesSamples) (key : GoString) : List Sample :=
  ((answer.find? (fun ss => decide (ss.series.key = key))).map SeriesSamples.samples).getD []

abbrev KeySorted (answer : List SeriesSamples) : Prop :=
  Ascending (fun ss : SeriesSamples => keyOrder ss.series) answer

theorem KeySorted.samplesAt_of_mem (h : KeySorted answer) (hss : ss ∈ answer) :
    samplesAt answer ss.series.key = ss.samples := by
  unfold samplesAt
  cases hfind : answer.find? (fun s => decide (s.series.key = ss.series.key)) with
  | none =>
    have hno := List.find?_eq_none.mp hfind ss hss
    simp at hno
  | some s =>
    have hkey : s.series.key = ss.series.key := by simpa using List.find?_some hfind
    rw [eq_of_time_eq h (List.mem_of_find?_eq_some hfind) hss (congrArg byteOrder hkey)]
    rfl

theorem mem_of_mem_samplesAt (hx : x ∈ samplesAt answer key) :
    ∃ ss ∈ answer, ss.series.key = key ∧ x ∈ ss.samples := by
  unfold samplesAt at hx
  cases hfind : answer.find? (fun s => decide (s.series.key = key)) with
  | none => simp [hfind] at hx
  | some ss =>
    rw [hfind] at hx
    exact ⟨ss, List.mem_of_find?_eq_some hfind, by simpa using List.find?_some hfind, hx⟩

/-- Answers that name their series the same way are equal if they hold the same
samples under every key. -/
theorem KeySorted.ext {answer' : List SeriesSamples} (h : KeySorted answer) (h' : KeySorted answer')
    (hne : ∀ ss ∈ answer, ss.samples ≠ []) (hne' : ∀ ss ∈ answer', ss.samples ≠ [])
    (hrefs : ∀ ss ∈ answer, ∀ ss' ∈ answer', ss.series.key = ss'.series.key →
      ss.series = ss'.series)
    (hsame : ∀ key, samplesAt answer key = samplesAt answer' key) : answer = answer' := by
  have hsub : ∀ {a a' : List SeriesSamples}, KeySorted a → KeySorted a' →
    (∀ ss ∈ a, ss.samples ≠ []) →
      (∀ ss ∈ a, ∀ ss' ∈ a', ss.series.key = ss'.series.key → ss.series = ss'.series) →
      (∀ key, samplesAt a key = samplesAt a' key) → ∀ ss ∈ a, ss ∈ a' := by
    intro a a' ha ha' hne hrefs hsame ss hss
    have hat := hsame ss.series.key
    rw [KeySorted.samplesAt_of_mem ha hss] at hat
    obtain ⟨x, hx⟩ := List.exists_mem_of_ne_nil _ (hne ss hss)
    rw [hat] at hx
    obtain ⟨ss', hss', hkey, -⟩ := mem_of_mem_samplesAt hx
    have hsamples : ss.samples = ss'.samples := by
      rw [hat, ← hkey, KeySorted.samplesAt_of_mem ha' hss']
    have heq : ss = ss' := by
      rw [SeriesSamples.mk.injEq]
      exact ⟨hrefs _ hss _ hss' hkey.symm, hsamples⟩
    rw [heq]
    exact hss'
  refine ascending_ext h h' (fun ss => ⟨hsub h h' hne hrefs hsame ss, ?_⟩)
  exact hsub h' h hne' (fun s hs s' hs' hkey => (hrefs s' hs' s hs hkey.symm).symm)
    (fun key => (hsame key).symm) ss

theorem Block.contents_sorted : KeySorted b.contents := by
  unfold KeySorted Block.contents Ascending
  rw [List.pairwise_map]
  exact b.sorted

def Block.samplesOf (b : Block) (key : GoString) : List Sample := samplesAt b.contents key

theorem Block.exists_series (hx : x ∈ b.samplesOf key) : ∃ s ∈ b.series, s.ref.key = key := by
  obtain ⟨ss, hss, hkey, -⟩ := mem_of_mem_samplesAt hx
  obtain ⟨s, hs, rfl⟩ := List.mem_map.mp hss
  exact ⟨s, hs, hkey⟩

theorem Block.samplesOf_series (hs : s ∈ b.series) : b.samplesOf s.ref.key = s.samples :=
  KeySorted.samplesAt_of_mem b.contents_sorted (List.mem_map_of_mem hs)

theorem Block.ascending_samplesOf (key : GoString) :
    Ascending Sample.t (b.samplesOf key) := by
  by_cases hne : b.samplesOf key = []
  · rw [hne]
    exact List.Pairwise.nil
  · obtain ⟨x, hx⟩ := List.exists_mem_of_ne_nil _ hne
    obtain ⟨s, hs, rfl⟩ := b.exists_series hx
    rw [b.samplesOf_series hs]
    exact s.ascending

theorem Block.samplesIn_all (hs : s ∈ b.series) :
    s.samplesIn b.info.minTime b.info.maxTime = s.samples := by
  rw [s.samplesIn_eq, List.filter_eq_self]
  intro x hx
  exact decide_eq_true ⟨b.minTime_le s hs x hx, b.le_maxTime s hs x hx⟩

/-- Reading one series gives all its samples. -/
theorem Block.samplesFor_eq (key : GoString) : b.samplesFor key = b.samplesOf key := by
  unfold Block.samplesFor
  by_cases hkey : ∃ s ∈ b.series, s.ref.key = key
  · obtain ⟨s, hs, rfl⟩ := hkey
    obtain ⟨before, after, hsplit⟩ := List.append_of_mem hs
    have hfind : b.series.find? (fun s' => decide (byteOrder s.ref.key ≤ keyOrder s'.ref)) =
        some s := by
      have hsorted := b.sorted
      rw [hsplit] at hsorted
      refine List.find?_eq_some_iff_append.mpr ⟨by simp [keyOrder], before, after, hsplit, ?_⟩
      intro s' hs'
      simp only [Bool.not_eq_true', decide_eq_false_iff_not, not_le]
      exact (List.pairwise_append.mp hsorted).2.2 s' hs' s (by simp)
    rw [hfind, b.samplesOf_series hs]
    dsimp only
    rw [if_pos rfl, b.samplesIn_all hs]
  · have hempty : b.samplesOf key = [] :=
      List.eq_nil_iff_forall_not_mem.mpr (fun x hx => hkey (b.exists_series hx))
    rw [hempty]
    split
    · rfl
    next s hfind =>
      rw [if_neg (fun hk => hkey ⟨s, List.mem_of_find?_eq_some hfind, hk⟩)]

theorem Block.filter_outside {start stop : ℤ} (h : b.overlaps start stop = false)
    (hs : s ∈ b.series) :
    s.samples.filter (fun x => inWindow start stop x.t) = [] := by
  rw [List.filter_eq_nil_iff]
  intro x hx
  have hlo := b.minTime_le s hs x hx
  have hhi := b.le_maxTime s hs x hx
  have hout := of_decide_eq_false h
  simp only [inWindow, decide_eq_true_eq]
  omega

/-- What a block answers. -/
theorem Block.mem_select {sel : Selector} {start stop : ℤ} :
    ss ∈ b.select sel start stop ↔ ss.samples ≠ [] ∧ ∃ s ∈ b.series, sel.selects s.ref = true ∧
      ss = ⟨s.ref, s.samples.filter (fun x => inWindow start stop x.t)⟩ := by
  unfold Block.select
  by_cases hover : b.overlaps start stop = true
  · rw [if_pos hover]
    unfold sortByKey
    rw [mem_sortBy, List.mem_filter, List.mem_map]
    constructor
    · rintro ⟨⟨s, hs, rfl⟩, hne⟩
      obtain ⟨hs, hsel⟩ := List.mem_filter.mp hs
      exact ⟨of_decide_eq_true hne, s, hs, hsel, by rw [s.samplesIn_eq]⟩
    · rintro ⟨hne, s, hs, hsel, rfl⟩
      exact ⟨⟨s, List.mem_filter.mpr ⟨hs, hsel⟩, by rw [s.samplesIn_eq]⟩, decide_eq_true hne⟩
  · rw [if_neg hover]
    constructor
    · exact nofun
    · rintro ⟨hne, s, hs, -, rfl⟩
      exact absurd (b.filter_outside (Bool.eq_false_iff.mpr hover) hs) hne

theorem Block.select_sorted (sel : Selector) (start stop : ℤ) :
    KeySorted (b.select sel start stop) := by
  unfold Block.select
  split
  · have hsorted : KeySorted (((b.series.filter (fun s => sel.selects s.ref)).map
        (fun s => (⟨s.ref, s.samplesIn start stop⟩ : SeriesSamples))).filter
          (fun ss => decide (ss.samples ≠ []))) := by
      refine Ascending.filter ?_ _
      unfold Ascending
      rw [List.pairwise_map]
      exact Ascending.filter b.sorted _
    unfold sortByKey
    rw [sortBy_of_ascending hsorted]
    exact hsorted
  · exact List.Pairwise.nil

/-- The two ways a series is added. -/
theorem addSeries_cases (h : w.addSeries ss = .ok w') : (ss.samples = [] ∧ w' = w) ∨
      ∃ s : BlockSeries, s.ref = ss.series ∧ s.chunks = rechunk ss.samples ∧ ss.samples ≠ [] ∧
        w'.series = w.series ++ [s] := by
  unfold Writer.addSeries at h
  split at h
  · cases h
    exact Or.inl ⟨‹_›, rfl⟩
  · split at h
    · cases h
    · split at h
      · split at h
        · cases h
          exact Or.inr ⟨_, rfl, rfl, ‹_›, rfl⟩
        · cases h
      · cases h

theorem addAll_contents (h : w.addAll series = .ok w') :
    w'.series.map (fun s => (⟨s.ref, s.samples⟩ : SeriesSamples)) =
      w.series.map (fun s => ⟨s.ref, s.samples⟩) ++ series.filter (fun ss => ss.samples ≠ []) := by
  induction series generalizing w with
  | nil =>
    cases h
    simp
  | cons ss' rest ih =>
    unfold Writer.addAll at h
    cases hadd : w.addSeries ss' with
    | error e =>
      rw [hadd] at h
      cases h
    | ok w'' =>
      rw [hadd] at h
      rw [ih h]
      rcases addSeries_cases hadd with ⟨hnil, rfl⟩ | ⟨s, href, hchunks, hne, hseries⟩
      · rw [List.filter_cons_of_neg (by simp [hnil])]
      · have hsamples : s.samples = ss'.samples := by
          rw [BlockSeries.samples, hchunks, samples_rechunk]
        have hadded : (⟨s.ref, s.samples⟩ : SeriesSamples) = ss' := by rw [href, hsamples]
        rw [hseries, List.map_append, List.map_singleton, hadded, List.append_assoc,
          List.filter_cons_of_pos (by simp [hne])]
        rfl

theorem mem_addAll (h : Writer.new.addAll series = .ok w) :
    ss ∈ w.series.map (fun s => (⟨s.ref, s.samples⟩ : SeriesSamples)) ↔ ss ∈ series ∧
      ss.samples ≠ [] := by
  rw [addAll_contents h]
  simp [Writer.new]

theorem close_spec {opts : WriterOptions} (h : w.close opts = .ok b) :
    ∃ lo hi, (w.series.map BlockSeries.firstT).min? = some lo ∧
      (w.series.map BlockSeries.lastT).max? = some hi ∧
      b.info = ⟨opts.ulid, lo, hi, opts.level, opts.sources, opts.resolutionS⟩ ∧
      b.series = sortBy (fun s => keyOrder s.ref) w.series := by
  unfold Writer.close at h
  split at h
  next lo hi hlo hhi =>
    cases h
    exact ⟨lo, hi, hlo, hhi, rfl, rfl⟩
  · cases h

theorem writeBlock_cases {opts : WriterOptions} (h : writeBlock opts series = .ok b) :
    ∃ w, Writer.new.addAll series = .ok w ∧ w.close opts = .ok b := by
  unfold writeBlock at h
  cases hadd : Writer.new.addAll series with
  | error e =>
    rw [hadd] at h
    cases h
  | ok w =>
    rw [hadd] at h
    exact ⟨w, rfl, h⟩

/-- A block holds the series it was written from, except those without samples. -/
theorem mem_writeBlock {opts : WriterOptions} (h : writeBlock opts series = .ok b)
    (ss : SeriesSamples) :
    ss ∈ b.contents ↔ ss ∈ series ∧ ss.samples ≠ [] := by
  obtain ⟨w, hadd, hclose⟩ := writeBlock_cases h
  obtain ⟨_, _, _, _, _, hseries⟩ := close_spec hclose
  rw [← mem_addAll hadd]
  unfold Block.contents
  simp only [List.mem_map, hseries, mem_sortBy]

theorem info_writeBlock {opts : WriterOptions} (h : writeBlock opts series = .ok b) :
    b.info.ulid = opts.ulid ∧ b.info.level = opts.level ∧ b.info.sources = opts.sources ∧
      b.info.resolutionS = opts.resolutionS := by
  obtain ⟨w, -, hclose⟩ := writeBlock_cases h
  obtain ⟨_, _, _, _, hinfo, _⟩ := close_spec hclose
  rw [hinfo]
  exact ⟨rfl, rfl, rfl, rfl⟩

theorem addAll_ok (hvalid : ∀ ss ∈ series, validate ss.series = none)
    (hasc : ∀ ss ∈ series, Ascending Sample.t ss.samples)
    (hkeys : (series.map (fun ss => keyOrder ss.series)).Nodup)
    (hnew : ∀ ss ∈ series, keyOrder ss.series ∉ w.series.map (fun s => keyOrder s.ref)) :
    ∃ w', w.addAll series = .ok w' := by
  induction series generalizing w with
  | nil => exact ⟨w, rfl⟩
  | cons ss rest ih =>
    obtain ⟨hhead, htail⟩ := List.nodup_cons.mp hkeys
    have hrest : ∀ w' : Writer, w.addSeries ss = .ok w' →
        (∀ s ∈ rest, keyOrder s.series ∉ w'.series.map (fun s => keyOrder s.ref)) →
        ∃ w'', w.addAll (ss :: rest) = .ok w'' := by
      intro w' hadd hnew'
      unfold Writer.addAll
      rw [hadd]
      exact ih (List.forall_mem_cons.mp hvalid).2 (List.forall_mem_cons.mp hasc).2 htail hnew'
    unfold Writer.addSeries at hrest
    by_cases hne : ss.samples = []
    · exact hrest w (dif_pos hne) (List.forall_mem_cons.mp hnew).2
    · have hv := hvalid ss List.mem_cons_self
      have ha := hasc ss List.mem_cons_self
      have hn := hnew ss List.mem_cons_self
      refine hrest ⟨w.series ++ [BlockSeries.ofSamples ss.series ss.samples hv hne ha],
        distinct_concat w.distinct hn⟩ ?_ ?_
      · rw [dif_neg hne]
        split
        next e he =>
          rw [hv] at he
          cases he
        · rw [dif_pos ha, dif_pos hn]
      · intro s hs
        rw [List.map_append, List.mem_append, not_or]
        refine ⟨hnew s (List.mem_cons_of_mem _ hs), ?_⟩
        rw [List.map_singleton, List.mem_singleton]
        intro heq
        exact hhead (List.mem_map.mpr ⟨s, hs, heq⟩)

/-- Series with different keys, valid refs and ordered samples make a block. -/
theorem writeBlock_ok (opts : WriterOptions) (series : List SeriesSamples)
    (hvalid : ∀ ss ∈ series, validate ss.series = none)
    (hasc : ∀ ss ∈ series, Ascending Sample.t ss.samples)
    (hkeys : (series.map (fun ss => keyOrder ss.series)).Nodup)
    (hne : ∃ ss ∈ series, ss.samples ≠ []) : ∃ b, writeBlock opts series = .ok b := by
  obtain ⟨w, hadd⟩ := addAll_ok (w := Writer.new) hvalid hasc hkeys (by simp [Writer.new])
  obtain ⟨ss, hss, hsamples⟩ := hne
  obtain ⟨s, hs, -⟩ := List.mem_map.mp ((mem_addAll hadd).mpr ⟨hss, hsamples⟩)
  unfold writeBlock
  rw [hadd]
  dsimp only
  unfold Writer.close
  split
  · exact ⟨_, rfl⟩
  next hno =>
    obtain ⟨first, rest, hcons⟩ := List.exists_cons_of_ne_nil (List.ne_nil_of_mem hs)
    rw [hcons] at hno
    exact (hno _ _ List.min?_cons' List.max?_cons').elim

end Ozymandias.BlockModel
