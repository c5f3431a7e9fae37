import Ozymandias.BlockModel
import Mathlib.Data.List.AList

/-!
How a query combines its sources. The answers of the blocks, oldest first, and
of the head are gathered by key; a series whose samples did not all arrive in
order is sorted and keeps the first sample of every time. Whatever arrives, the
answer under a key is the first samples of all that the sources offer for it.
-/

namespace Ozymandias.QueryMerge

open SeriesModel Selection Peaks TimeMerge BlockModel

structure Merging where
  series : SeriesRef
  samples : List Sample
  unordered : Bool

def Merging.push (m : Merging) (s : Sample) : Merging :=
  { m with
    samples := m.samples ++ [s]
    unordered :=
      match m.samples.getLast? with
      | some l => m.unordered || decide (s.t ≤ l.t)
      | none => m.unordered }

abbrev Merged := AList (fun _ : GoString => Merging)

def addEntry (merged : Merged) (ss : SeriesSamples) : Merged :=
  let into := (merged.lookup ss.series.key).getD ⟨ss.series, [], false⟩
  merged.insert ss.series.key (ss.samples.foldl Merging.push into)

def add (merged : Merged) (src : List SeriesSamples) : Merged := src.foldl addEntry merged

def Merging.finish (m : Merging) : SeriesSamples :=
  ⟨m.series, if m.unordered then firsts Sample.t m.samples else m.samples⟩

def answer (merged : Merged) : List SeriesSamples :=
  sortByKey ((merged.entries.map Sigma.snd).filter (fun m => decide (m.samples ≠ []))
    |>.map Merging.finish)

def mergeAnswers (sources : List (List SeriesSamples)) : List SeriesSamples :=
  answer (sources.foldl add ∅)

def offered (entries : List SeriesSamples) (key : GoString) : List Sample :=
  (entries.filter (fun ss => decide (ss.series.key = key))).flatMap SeriesSamples.samples

def named (entries : List SeriesSamples) (key : GoString) : Option SeriesRef :=
  (entries.find? (fun ss => decide (ss.series.key = key))).map SeriesSamples.series

variable {entries : List SeriesSamples} {key : GoString} {m : Merging} {merged : Merged}
  (sources : List (List SeriesSamples))

theorem offered_append (xs ys : List SeriesSamples) (key : GoString) :
    offered (xs ++ ys) key = offered xs key ++ offered ys key := by
  simp [offered]

variable (ss : SeriesSamples)

theorem offered_singleton (key : GoString) :
    offered [ss] key = if ss.series.key = key then ss.samples else [] := by
  unfold offered
  split <;> simp [*]

theorem named_append (xs ys : List SeriesSamples) (key : GoString) :
    named (xs ++ ys) key = (named xs key).or (named ys key) := by
  unfold named
  rw [List.find?_append, Option.map_or]

theorem named_singleton (key : GoString) :
    named [ss] key = if ss.series.key = key then some ss.series else none := by
  unfold named
  split <;> simp [*]

theorem offered_of_named_none (h : named entries key = none) : offered entries key = [] := by
  have hnone := List.find?_eq_none.mp (Option.map_eq_none_iff.mp h)
  unfold offered
  rw [List.filter_eq_nil_iff.mpr hnone]
  rfl

variable {ref : SeriesRef}

theorem key_of_named (h : named entries key = some ref) : ref.key = key := by
  obtain ⟨ss, hss, rfl⟩ := Option.map_eq_some_iff.mp h
  simpa using List.find?_some hss

theorem mem_of_named (h : named entries key = some ref) : ∃ ss ∈ entries, ss.series = ref := by
  obtain ⟨ss, hss, rfl⟩ := Option.map_eq_some_iff.mp h
  exact ⟨ss, List.mem_of_find?_eq_some hss, rfl⟩

theorem mem_offered {x : Sample} :
    x ∈ offered entries key ↔ ∃ ss ∈ entries, ss.series.key = key ∧ x ∈ ss.samples := by
  unfold offered
  rw [List.mem_flatMap]
  constructor
  · rintro ⟨ss, hss, hx⟩
    obtain ⟨hss, hkey⟩ := List.mem_filter.mp hss
    exact ⟨ss, hss, of_decide_eq_true hkey, hx⟩
  · rintro ⟨ss, hss, hkey, hx⟩
    exact ⟨ss, List.mem_filter.mpr ⟨hss, decide_eq_true hkey⟩, hx⟩

def Merging.Flagged (m : Merging) : Prop := m.unordered = !decide (Ascending Sample.t m.samples)

theorem Merging.Flagged.push (h : m.Flagged) (s : Sample) : (m.push s).Flagged := by
  unfold Merging.Flagged at h ⊢
  unfold Merging.push
  rw [decide_eq_decide.mpr ascending_concat_iff, Bool.decide_and, Bool.not_and, ← h]
  cases hlast : m.samples.getLast? with
  | none => simp
  | some l =>
    simp only [Option.some.injEq, forall_eq', ← not_le]
    rw [decide_not, Bool.not_not]

theorem foldl_push (h : m.Flagged) (samples : List Sample) :
    (samples.foldl Merging.push m).Flagged ∧ (samples.foldl Merging.push m).series = m.series ∧
      (samples.foldl Merging.push m).samples = m.samples ++ samples := by
  induction samples generalizing m with
  | nil => exact ⟨h, rfl, (List.append_nil _).symm⟩
  | cons s samples ih =>
    obtain ⟨hflag, hseries, hsamples⟩ := ih (h.push s)
    exact ⟨hflag, hseries, hsamples.trans (List.append_assoc _ [s] samples)⟩

/-- A key's state is its name in the first source and all that was offered. -/
structure Gathered (entries : List SeriesSamples) (merged : Merged) : Prop where
  flagged : ∀ {key m}, merged.lookup key = some m → m.Flagged
  state : ∀ key, (merged.lookup key).map (fun m => (m.series, m.samples)) =
    (named entries key).map (fun ref => (ref, offered entries key))

theorem Gathered.of_lookup (h : Gathered entries merged) (hm : merged.lookup key = some m) :
    named entries key = some m.series ∧ offered entries key = m.samples := by
  have hstate := h.state key
  rw [hm] at hstate
  obtain ⟨ref, href, hpair⟩ := Option.map_eq_some_iff.mp hstate.symm
  obtain ⟨rfl, hsamples⟩ := Prod.mk.inj hpair
  exact ⟨href, hsamples⟩

theorem gathered_addEntry (h : Gathered entries merged) (ss : SeriesSamples) :
    Gathered (entries ++ [ss]) (addEntry merged ss) := by
  have hinto : let into := (merged.lookup ss.series.key).getD ⟨ss.series, [], false⟩
      into.Flagged ∧ some into.series = (named entries ss.series.key).or (some ss.series) ∧
        into.samples = offered entries ss.series.key := by
    cases hm : merged.lookup ss.series.key with
    | none =>
      have hstate := h.state ss.series.key
      rw [hm] at hstate
      have hnone := Option.map_eq_none_iff.mp hstate.symm
      rw [hnone, offered_of_named_none hnone]
      exact ⟨rfl, rfl, rfl⟩
    | some m =>
      obtain ⟨hname, hsamples⟩ := h.of_lookup hm
      rw [hname]
      exact ⟨h.flagged hm, rfl, hsamples.symm⟩
  obtain ⟨hflag, hseries, hsamples⟩ := hinto
  obtain ⟨hflag', hseries', hsamples'⟩ := foldl_push hflag ss.samples
  unfold addEntry
  constructor
  · intro key m hm
    by_cases hkey : key = ss.series.key
    · rw [hkey, AList.lookup_insert] at hm
      cases hm
      exact hflag'
    · rw [AList.lookup_insert_ne hkey] at hm
      exact h.flagged hm
  · intro key
    rw [named_append, named_singleton, offered_append, offered_singleton]
    by_cases hkey : ss.series.key = key
    · subst hkey
      rw [AList.lookup_insert, if_pos rfl, if_pos rfl, Option.map_some, hseries', hsamples',
        hsamples, ← hseries, Option.map_some]
    · rw [AList.lookup_insert_ne (fun heq => hkey heq.symm), if_neg hkey, if_neg hkey,
        Option.or_none, List.append_nil]
      exact h.state key

theorem gathered_add (h : Gathered entries merged) (src : List SeriesSamples) :
    Gathered (entries ++ src) (add merged src) := by
  induction src generalizing entries merged with
  | nil =>
    rw [List.append_nil]
    exact h
  | cons ss src ih =>
    have hrest := ih (gathered_addEntry h ss)
    rw [List.append_assoc] at hrest
    exact hrest

theorem gathered_all :
    Gathered sources.flatten (sources.foldl add ∅) := by
  have hnone : Gathered [] (∅ : Merged) := by
    constructor
    · exact nofun
    · exact fun _ => rfl
  have hall := gathered_add hnone sources.flatten
  unfold add at hall
  rw [List.foldl_flatten] at hall
  exact hall

theorem finish_samples (h : m.Flagged) : m.finish.samples = firsts Sample.t m.samples := by
  unfold Merging.finish
  split
  · rfl
  next hno =>
    have hasc : Ascending Sample.t m.samples := by
      unfold Merging.Flagged at h
      rw [Bool.not_eq_true] at hno
      rw [hno] at h
      exact of_decide_eq_true (by simpa using h.symm)
    exact (firsts_of_ascending hasc).symm

theorem firsts_eq_nil_iff {xs : List Sample} : firsts Sample.t xs = [] ↔ xs = [] := by
  constructor
  · intro h
    refine List.eq_nil_iff_forall_not_mem.mpr (fun x hx => ?_)
    obtain ⟨y, hy, hyt⟩ := exists_firstAt Sample.t hx
    have hmem : y ∈ firsts Sample.t xs := by
      rw [mem_firsts, hyt]
      exact hy
    rw [h] at hmem
    cases hmem
  · rintro rfl
    rfl

variable {sources ss} in
/-- What a query answers: under every key the first samples of all that is
offered, under the name of the first source. -/
theorem mem_mergeAnswers : ss ∈ mergeAnswers sources ↔ ss.samples ≠ [] ∧
      named sources.flatten ss.series.key = some ss.series ∧
      ss.samples = firsts Sample.t (offered sources.flatten ss.series.key) := by
  have hg := gathered_all sources
  unfold mergeAnswers answer sortByKey
  rw [mem_sortBy, List.mem_map]
  constructor
  · rintro ⟨m, hm, rfl⟩
    obtain ⟨hm, hne⟩ := List.mem_filter.mp hm
    obtain ⟨⟨key, m'⟩, hentry, rfl⟩ := List.mem_map.mp hm
    have hlookup := AList.mem_lookup_iff.mpr hentry
    obtain ⟨hname, hsamples⟩ := hg.of_lookup hlookup
    have hkey := key_of_named hname
    have hfin := finish_samples (hg.flagged hlookup)
    refine ⟨?_, ?_, ?_⟩
    · rw [hfin, ne_eq, firsts_eq_nil_iff]
      exact of_decide_eq_true hne
    · change named sources.flatten m'.series.key = some m'.series
      rw [hkey, hname]
    · change m'.finish.samples = firsts Sample.t (offered sources.flatten m'.series.key)
      rw [hfin, hkey, hsamples]
  · rintro ⟨hne, hnamed, hsamples⟩
    have hstate := hg.state ss.series.key
    rw [hnamed] at hstate
    obtain ⟨m, hm, hpair⟩ := Option.map_eq_some_iff.mp hstate
    obtain ⟨hmSeries, hmSamples⟩ := Prod.mk.inj hpair
    have hfin := finish_samples (hg.flagged hm)
    have heq : m.finish = ss := by
      rw [SeriesSamples.mk.injEq]
      refine ⟨hmSeries, ?_⟩
      rw [hfin, hmSamples]
      exact hsamples.symm
    refine ⟨m, List.mem_filter.mpr ⟨?_, ?_⟩, heq⟩
    · exact List.mem_map.mpr ⟨⟨ss.series.key, m⟩, AList.mem_lookup_iff.mp hm, rfl⟩
    · refine decide_eq_true ?_
      rw [ne_eq, ← firsts_eq_nil_iff, ← hfin, heq]
      exact hne

theorem mergeAnswers_sorted :
    KeySorted (mergeAnswers sources) := by
  have hg := gathered_all sources
  refine ascending_sortBy ?_
  set merged := sources.foldl add ∅
  have hkeys : (merged.entries.map (fun e => keyOrder e.2.series)).Nodup := by
    have hsame : merged.entries.map (fun e => keyOrder e.2.series) =
        merged.keys.map byteOrder := by
      unfold AList.keys List.keys
      rw [List.map_map]
      refine List.map_congr_left ?_
      intro e he
      obtain ⟨hname, -⟩ := hg.of_lookup (AList.mem_lookup_iff.mpr he)
      exact congrArg byteOrder (key_of_named hname)
    rw [hsame]
    exact merged.keys_nodup.map byteOrder_injective
  rw [List.map_map]
  have hsub : ((merged.entries.map Sigma.snd).filter
      (fun m => decide (m.samples ≠ []))).Sublist (merged.entries.map Sigma.snd) :=
    List.filter_sublist
  refine (hsub.map (fun m : Merging => keyOrder m.series)).nodup ?_
  rw [List.map_map]
  exact hkeys

theorem samplesAt_mergeAnswers (key : GoString) :
    samplesAt (mergeAnswers sources) key = firsts Sample.t (offered sources.flatten key) := by
  by_cases hnil : offered sources.flatten key = []
  · rw [hnil]
    refine List.eq_nil_iff_forall_not_mem.mpr (fun x hx => ?_)
    obtain ⟨ss, hss, rfl, -⟩ := mem_of_mem_samplesAt hx
    obtain ⟨hne, -, hsamples⟩ := mem_mergeAnswers.mp hss
    rw [hnil] at hsamples
    exact hne hsamples
  · cases hnamed : named sources.flatten key with
    | none => exact absurd (offered_of_named_none hnamed) hnil
    | some ref =>
      have hkey := key_of_named hnamed
      subst hkey
      have hmem : ⟨ref, _⟩ ∈ mergeAnswers sources :=
        mem_mergeAnswers.mpr ⟨mt firsts_eq_nil_iff.mp hnil, hnamed, rfl⟩
      exact KeySorted.samplesAt_of_mem (mergeAnswers_sorted sources) hmem

def askBlocks (blocks : List Block) (sel : Selector) (start stop : ℤ) : List (List SeriesSamples) :=
  (blocks.filter (fun b => b.overlaps start stop)).map (fun b => b.select sel start stop)

def RefsAgree (blocks : List Block) : Prop :=
  ∀ b ∈ blocks, ∀ b' ∈ blocks, ∀ s ∈ b.series, ∀ s' ∈ b'.series,
    s.ref.key = s'.ref.key → s.ref = s'.ref

/-- In an answer, a key stands at most once. -/
theorem offered_of_sorted {answer : List SeriesSamples} (h : KeySorted answer) (key : GoString) :
    offered answer key = samplesAt answer key := by
  induction answer with
  | nil => rfl
  | cons ss rest ih =>
    obtain ⟨hlt, hrest⟩ := List.pairwise_cons.mp h
    rw [← List.singleton_append, offered_append, offered_singleton]
    unfold samplesAt
    by_cases hkey : ss.series.key = key
    · have hnone : offered rest key = [] := by
        refine List.eq_nil_iff_forall_not_mem.mpr (fun x hx => ?_)
        obtain ⟨ss', hss', hkey', -⟩ := mem_offered.mp hx
        exact absurd (congrArg byteOrder (hkey.trans hkey'.symm)) (ne_of_lt (hlt ss' hss'))
      rw [if_pos hkey, hnone, List.append_nil, List.singleton_append,
        List.find?_cons_of_pos (by exact decide_eq_true hkey)]
      rfl
    · rw [if_neg hkey, ih hrest, List.singleton_append,
        List.find?_cons_of_neg (by simpa using hkey)]
      rfl

theorem offered_select (b : Block) (sel : Selector) (start stop : ℤ) (key : GoString) (ok : Bool)
    (hok : ∀ s ∈ b.series, s.ref.key = key → sel.selects s.ref = ok) :
    offered (b.select sel start stop) key =
      if ok then (b.samplesOf key).filter (fun x => inWindow start stop x.t) else [] := by
  have hsorted := b.select_sorted sel start stop
  by_cases hin : ∃ ss ∈ b.select sel start stop, ss.series.key = key
  · obtain ⟨ss, hss, rfl⟩ := hin
    rw [offered_of_sorted hsorted, KeySorted.samplesAt_of_mem hsorted hss]
    obtain ⟨-, s, hs, hsel, rfl⟩ := Block.mem_select.mp hss
    rw [← hok s hs rfl, if_pos hsel, b.samplesOf_series hs]
  · have hnone : offered (b.select sel start stop) key = [] := by
      refine List.eq_nil_iff_forall_not_mem.mpr (fun x hx => ?_)
      obtain ⟨ss, hss, hkey, -⟩ := mem_offered.mp hx
      exact hin ⟨ss, hss, hkey⟩
    rw [hnone]
    cases ok with
    | false => rfl
    | true =>
      by_contra hne
      obtain ⟨x, hx⟩ := List.exists_mem_of_ne_nil _ (Ne.symm hne)
      obtain ⟨s, hs, rfl⟩ := b.exists_series (List.mem_filter.mp hx).1
      refine hin ⟨⟨s.ref, s.samples.filter (fun x => inWindow start stop x.t)⟩, ?_, rfl⟩
      rw [b.samplesOf_series hs] at hx
      exact Block.mem_select.mpr ⟨List.ne_nil_of_mem hx, s, hs, hok s hs rfl, rfl⟩

/-- What blocks offer for a key whose refs are all selected, or all not. -/
theorem offered_askBlocks (blocks : List Block) (sel : Selector) (start stop : ℤ) (key : GoString)
    (ok : Bool) (hok : ∀ b ∈ blocks, ∀ s ∈ b.series, s.ref.key = key → sel.selects s.ref = ok) :
    offered (askBlocks blocks sel start stop).flatten key =
      if ok then
        (blocks.flatMap (fun b => b.samplesOf key)).filter (fun x => inWindow start stop x.t)
      else [] := by
  induction blocks with
  | nil =>
    cases ok <;> rfl
  | cons b blocks ih =>
    have hrest := ih (List.forall_mem_cons.mp hok).2
    have hfirst := offered_select b sel start stop key ok (hok b List.mem_cons_self)
    have hsplit : offered (askBlocks (b :: blocks) sel start stop).flatten key =
        offered (b.select sel start stop) key ++
          offered (askBlocks blocks sel start stop).flatten key := by
      unfold askBlocks
      by_cases hover : b.overlaps start stop = true
      · rw [List.filter_cons_of_pos (by exact hover), List.map_cons, List.flatten_cons,
          offered_append]
      · have hnone : b.select sel start stop = [] := by
          unfold Block.select
          rw [if_neg hover]
        rw [List.filter_cons_of_neg (by exact hover), hnone]
        rfl
    rw [hsplit, hfirst, hrest]
    cases ok with
    | true => rw [if_pos rfl, if_pos rfl, if_pos rfl, List.flatMap_cons, List.filter_append]
    | false => rfl

end Ozymandias.QueryMerge
