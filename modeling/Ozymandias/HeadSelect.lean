import Ozymandias.HeadBooks
import Ozymandias.BlockModel
import Ozymandias.ChunkRoundTrip

/-!
Reading the head. The index gives the ids of the selected series, and each of
them is read on its own: the chunks that meet the window are decoded, and
series without samples there are left out. What a chunk decodes to is what was
appended to it, so that the answer speaks of the samples alone.
-/
namespace Ozymandias.HeadSelect

open SeriesModel Selection HeadSeries HeadModel HeadBooks BlockModel TimeMerge
  GorillaChunk ChunkRoundTrip
open IndexSelect (select_spec)

variable {o : Options}

def readSeries (h : Head o) (start stop : ℤ) (id : ℕ) : Option SeriesSamples :=
  match h.byID.lookup id with
  | none => none
  | some ms =>
    if ms.samplesIn start stop = [] then none else some ⟨ms.ref, ms.samplesIn start stop⟩

def select (h : Head o) (sel : Selector) (start stop : ℤ) : List SeriesSamples :=
  sortByKey ((h.postings.select sel).filterMap (readSeries h start stop))

variable {h : Head o}

theorem readSeries_eq_some {start stop : ℤ} {id : ℕ} {ss : SeriesSamples} :
    readSeries h start stop id = some ss ↔ ∃ ms, h.byID.lookup id = some ms ∧
      ss.series = ms.ref ∧ ss.samples ≠ [] ∧
      ss.samples = ms.samples.filter (fun x => inWindow start stop x.t) := by
  unfold readSeries
  cases h.byID.lookup id with
  | none => simp
  | some ms =>
    have hread : ms.samplesIn start stop =
        ms.samples.filter (fun x => inWindow start stop x.t) := samplesIn_eq ms start stop
    obtain ⟨ref, samples⟩ := ss
    simp only [hread, Option.some.injEq, exists_eq_left']
    constructor
    · intro heq
      split at heq
      · cases heq
      next hne =>
        cases heq
        exact ⟨rfl, hne, rfl⟩
    · rintro ⟨rfl, hne, rfl⟩
      rw [if_neg hne]

/-- The index selects live series. -/
theorem mem_ids (hb : Books h) (sel : Selector) (id : ℕ) : id ∈ h.postings.select sel ↔
      ∃ ms, h.byID.lookup id = some ms ∧ sel.selects ms.ref = true := by
  rw [Postings.MemPostings.select, (select_spec hb.filed.indexes sel).2]
  unfold live
  cases h.byID.lookup id with
  | none => simp
  | some ms => simp

/-- What the head answers. -/
theorem mem_select (hb : Books h) (sel : Selector) (start stop : ℤ) (ss : SeriesSamples) :
    ss ∈ select h sel start stop ↔ ∃ ms, h.find ss.series.key = some ms ∧ ms.ref = ss.series ∧
      sel.selects ss.series = true ∧ ss.samples ≠ [] ∧
      ss.samples = ms.samples.filter (fun x => inWindow start stop x.t) := by
  unfold select sortByKey
  rw [mem_sortBy, List.mem_filterMap]
  constructor
  · rintro ⟨id, hid, hread⟩
    obtain ⟨ms, hms, href, hne, hsamples⟩ := readSeries_eq_some.mp hread
    obtain ⟨ms', hms', hsel⟩ := (mem_ids hb sel id).mp hid
    rw [hms] at hms'
    cases hms'
    refine ⟨ms, (find_eq_some_iff hb.wf).mpr ⟨?_, by rw [href]⟩,
      href.symm, by rw [href]; exact hsel, hne, hsamples⟩
    rw [hb.wf.id_eq hms]
    exact hms
  · rintro ⟨ms, hfind, href, hsel, hne, hsamples⟩
    have hms := ((find_eq_some_iff hb.wf).mp hfind).1
    refine ⟨ms.id, (mem_ids hb sel ms.id).mpr ⟨ms, hms, by rw [href]; exact hsel⟩, ?_⟩
    exact readSeries_eq_some.mpr ⟨ms, hms, href.symm, hne, hsamples⟩

/-- Every series once, in the order of the keys. -/
theorem select_sorted (hb : Books h) (sel : Selector) (start stop : ℤ) :
    KeySorted (select h sel start stop) := by
  refine ascending_sortBy ?_
  have hids : (h.postings.select sel).Pairwise (· ≠ ·) :=
    (select_spec hb.filed.indexes sel).1.imp ne_of_lt
  refine List.pairwise_map.mpr (List.pairwise_filterMap.mpr (hids.imp ?_))
  intro id id' hne ss hss ss' hss' hkey
  obtain ⟨ms, hms, href, -⟩ := readSeries_eq_some.mp hss
  obtain ⟨ms', hms', href', -⟩ := readSeries_eq_some.mp hss'
  have h1 := hb.wf.shard_of hms
  have h2 := hb.wf.shard_of hms'
  rw [← href, byteOrder_injective hkey, href', h2] at h1
  exact hne (Option.some.inj h1).symm

def point (s : Sample) : Point := ⟨BitVec.ofInt 64 s.t, s.v⟩

def InRange (s : Sample) : Prop := minInt64 ≤ s.t ∧ s.t < 2 ^ 63

theorem toInt_point {s : Sample} (h : InRange s) : (point s).t.toInt = s.t := by
  unfold point
  rw [BitVec.toInt_ofInt]
  exact Int.bmod_eq_of_le (by have := h.1; unfold minInt64 at this; omega) (by have := h.2; omega)

end Ozymandias.HeadSelect
