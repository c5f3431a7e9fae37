import Ozymandias.CompactPlan
import Ozymandias.QueryMerge
import Ozymandias.OrderedCover
import Mathlib.Algebra.Order.BigOperators.Group.List

/-!
Merging the blocks of a plan. The series of the sources are united in key order,
and each series' samples are gathered in one pass over the sources, oldest first,
which keeps a sample only if it is later than everything kept. A query over the
sources keeps the first sample of every time instead; the two agree exactly if no
later source has a sample at a time of its own behind an earlier source.
-/

namespace Ozymandias.CompactMerge

open SeriesModel Selection Peaks TimeMerge BlockModel QueryMerge CompactPlan

def smallest : List (List SeriesRef) → Option SeriesRef
  | [] => none
  | [] :: lists => smallest lists
  | (ref :: _) :: lists =>
    match smallest lists with
    | none => some ref
    | some other => if keyOrder other < keyOrder ref then some other else some ref

def advance (key : GoString) : List SeriesRef → List SeriesRef
  | [] => []
  | ref :: rest => if ref.key = key then rest else ref :: rest

variable {lists : List (List SeriesRef)} {sources : List Block} {plan : Plan} {ulid : Ulid}
  {merged : Block}

/-- No list has an entry, or it is the first of one list and none of the others is less. -/
def Least (lists : List (List SeriesRef)) : Option SeriesRef → Prop
  | none => ∀ l ∈ lists, l = []
  | some ref =>
    (∃ rest, ref :: rest ∈ lists) ∧ ∀ r rest, r :: rest ∈ lists → keyOrder ref ≤ keyOrder r

theorem least_smallest (lists : List (List SeriesRef)) : Least lists (smallest lists) := by
  fun_induction smallest lists with
  | case1 => exact nofun
  | case2 lists ih =>
    cases hs : smallest lists with
    | none =>
      rw [hs] at ih
      exact List.forall_mem_cons.mpr ⟨rfl, ih⟩
    | some ref =>
      rw [hs] at ih
      obtain ⟨⟨rest, hmem⟩, hle⟩ := ih
      refine ⟨⟨rest, List.mem_cons_of_mem _ hmem⟩, fun r rest hr => hle r rest ?_⟩
      exact (List.mem_cons.mp hr).resolve_left (List.cons_ne_nil _ _)
  | case3 ref l lists hs ih =>
    rw [hs] at ih
    refine ⟨⟨l, List.mem_cons_self⟩, fun r rest hr => ?_⟩
    rcases List.mem_cons.mp hr with heq | hr
    · rw [(List.cons.inj heq).1]
    · exact absurd (ih _ hr) (List.cons_ne_nil _ _)
  | case4 ref l lists other hs hlt ih =>
    rw [hs] at ih
    obtain ⟨⟨rest, hmem⟩, hle⟩ := ih
    refine ⟨⟨rest, List.mem_cons_of_mem _ hmem⟩, fun r rest hr => ?_⟩
    rcases List.mem_cons.mp hr with heq | hr
    · rw [(List.cons.inj heq).1]
      exact hlt.le
    · exact hle r rest hr
  | case5 ref l lists other hs hge ih =>
    rw [hs] at ih
    refine ⟨⟨l, List.mem_cons_self⟩, fun r rest hr => ?_⟩
    rcases List.mem_cons.mp hr with heq | hr
    · rw [(List.cons.inj heq).1]
    · exact (not_lt.mp hge).trans (ih.2 r rest hr)

theorem advance_sublist (key : GoString) (l : List SeriesRef) : (advance key l).Sublist l := by
  unfold advance
  split
  · exact List.Sublist.refl _
  · split
    · exact List.sublist_cons_self _ _
    · exact List.Sublist.refl _

theorem length_advance_lt {ref : SeriesRef} (h : smallest lists = some ref) :
    ((lists.map (advance ref.key)).map List.length).sum < (lists.map List.length).sum := by
  have hleast := least_smallest lists
  rw [h] at hleast
  obtain ⟨⟨rest, hmem⟩, -⟩ := hleast
  rw [List.map_map]
  refine List.sum_lt_sum (List.length ∘ advance ref.key) List.length
    (fun l _ => (advance_sublist _ l).length_le) ⟨ref :: rest, hmem, ?_⟩
  simp [advance]

def unite (lists : List (List SeriesRef)) : List SeriesRef :=
  match _h : smallest lists with
  | none => []
  | some ref => ref :: unite (lists.map (advance ref.key))
termination_by (lists.map List.length).sum
decreasing_by simpa using length_advance_lt ‹smallest lists = some ref›

def mergedSeries (sources : List Block) : List SeriesRef := unite (sources.map Block.seriesRefs)

def gather (sources : List Block) (key : GoString) : List Sample :=
  sources.foldl (fun out b => (b.samplesFor key).foldl (push Sample.t) out) []

inductive RunErr where
  | tooFew
  | write (e : WriteErr)
  deriving DecidableEq

def merge (ulid : Ulid) (plan : Plan) (first : Block) : Except RunErr Block :=
  match writeBlock ⟨ulid, plan.level, plan.sources.map (fun b => b.info.ulid),
    first.info.resolutionS⟩
      ((mergedSeries plan.sources).map (fun ref => ⟨ref, gather plan.sources ref.key⟩)) with
  | .error e => .error (.write e)
  | .ok b => .ok b

def run (ulid : Ulid) (plan : Plan) : Except RunErr Block :=
  match plan.sources with
  | first :: _ :: _ => merge ulid plan first
  | _ => .error .tooFew

abbrev InKeyOrder (l : List SeriesRef) : Prop := Ascending keyOrder l

variable {key : GoString} {s : BlockSeries}

/-- Stepping over the least key leaves the later ones. -/
theorem mem_advance {l : List SeriesRef} (hl : InKeyOrder l)
    (hle : ∀ r ∈ l, byteOrder key ≤ keyOrder r)
    (r : SeriesRef) : r ∈ advance key l ↔ r ∈ l ∧ r.key ≠ key := by
  cases l with
  | nil => simp [advance]
  | cons first rest =>
    obtain ⟨hlt, -⟩ := List.pairwise_cons.mp hl
    have hrest : ∀ r ∈ rest, r.key ≠ key := by
      rintro r hr rfl
      exact absurd (hlt r hr) (not_lt.mpr (hle first List.mem_cons_self))
    change r ∈ (if first.key = key then rest else first :: rest) ↔ _
    split
    next hkey =>
      refine ⟨fun hr => ⟨List.mem_cons_of_mem _ hr, hrest r hr⟩, fun ⟨hr, hne⟩ => ?_⟩
      exact (List.mem_cons.mp hr).resolve_left (fun heq => hne (heq ▸ hkey))
    next hkey =>
      refine ⟨fun hr => ⟨hr, ?_⟩, fun hr => hr.1⟩
      rcases List.mem_cons.mp hr with rfl | hr
      · exact hkey
      · exact hrest r hr

/-- Every key of the lists once, in order, under a name that one of them has. -/
structure Unites (lists : List (List SeriesRef)) (refs : List SeriesRef) : Prop where
  sorted : InKeyOrder refs
  found : ∀ r ∈ refs, ∃ l ∈ lists, r ∈ l
  complete : ∀ l ∈ lists, ∀ r ∈ l, ∃ r' ∈ refs, r'.key = r.key

theorem unite_spec (hsorted : ∀ l ∈ lists, InKeyOrder l) :
    Unites lists (unite lists) := by
  fun_induction unite lists with
  | case1 lists hnone =>
    have hempty := least_smallest lists
    rw [hnone] at hempty
    refine ⟨List.Pairwise.nil, by simp, ?_⟩
    intro l hl r hr
    rw [hempty l hl] at hr
    cases hr
  | case2 lists ref href ih =>
    have hleast := least_smallest lists
    rw [href] at hleast
    have hle : ∀ l ∈ lists, ∀ r ∈ l, keyOrder ref ≤ keyOrder r := by
      intro l hl r hr
      obtain ⟨first, rest, rfl⟩ := List.exists_cons_of_ne_nil (List.ne_nil_of_mem hr)
      exact (hleast.2 first rest hl).trans ((hsorted _ hl).head_le rfl r hr)
    have hadv : ∀ l ∈ lists.map (advance ref.key), InKeyOrder l := by
      intro l hl
      obtain ⟨l', hl', rfl⟩ := List.mem_map.mp hl
      exact (hsorted l' hl').sublist (advance_sublist _ _)
    have hmem : ∀ l ∈ lists, ∀ r, r ∈ advance ref.key l ↔ r ∈ l ∧ r.key ≠ ref.key :=
      fun l hl r => mem_advance (hsorted l hl) (hle l hl) r
    have hrest := ih (by simpa using hadv)
    simp only [List.map_subtype, List.unattach_attach] at hrest
    refine ⟨List.pairwise_cons.mpr ⟨?_, hrest.sorted⟩, ?_, ?_⟩
    · intro r hr
      obtain ⟨l, hl, hrl⟩ := hrest.found r hr
      obtain ⟨l', hl', rfl⟩ := List.mem_map.mp hl
      obtain ⟨hrl, hne⟩ := (hmem l' hl' r).mp hrl
      exact lt_of_le_of_ne (hle l' hl' r hrl) (fun heq => hne (byteOrder_injective heq).symm)
    · intro r hr
      rcases List.mem_cons.mp hr with rfl | hr
      · obtain ⟨rest, hmem⟩ := hleast.1
        exact ⟨_, hmem, List.mem_cons_self⟩
      · obtain ⟨l, hl, hrl⟩ := hrest.found r hr
        obtain ⟨l', hl', rfl⟩ := List.mem_map.mp hl
        exact ⟨l', hl', ((hmem l' hl' r).mp hrl).1⟩
    · intro l hl r hr
      by_cases hkey : r.key = ref.key
      · exact ⟨ref, List.mem_cons_self, hkey.symm⟩
      · obtain ⟨r', hr', hk⟩ := hrest.complete _ (List.mem_map_of_mem hl) r
          ((hmem l hl r).mpr ⟨hr, hkey⟩)
        exact ⟨r', List.mem_cons_of_mem _ hr', hk⟩

theorem Block.seriesRefs_sorted (b : Block) : InKeyOrder b.seriesRefs := by
  unfold InKeyOrder Block.seriesRefs Ascending
  rw [List.pairwise_map]
  exact b.sorted

theorem unites_sources (sources : List Block) :
    Unites (sources.map Block.seriesRefs) (mergedSeries sources) := by
  refine unite_spec ?_
  intro l hl
  obtain ⟨b, -, rfl⟩ := List.mem_map.mp hl
  exact Block.seriesRefs_sorted b

/-- The pass over the sources keeps the peaks. -/
theorem gather_eq (sources : List Block) (key : GoString) :
    gather sources key = peaks Sample.t (sources.flatMap (fun b => b.samplesOf key)) := by
  unfold gather peaks
  rw [List.foldl_flatMap]
  simp only [Block.samplesFor_eq]

def mergedContents (sources : List Block) : List SeriesSamples :=
  (mergedSeries sources).map (fun ref => ⟨ref, gather sources ref.key⟩)

theorem mergedContents_keys (sources : List Block) :
    ((mergedContents sources).map (fun ss => keyOrder ss.series)).Nodup := by
  unfold mergedContents
  rw [List.map_map]
  exact List.pairwise_map.mpr ((unites_sources sources).sorted.imp ne_of_lt)

/-- The pass never drops all samples of a series. -/
theorem gather_ne_nil {b : Block} (hb : b ∈ sources) (hne : b.samplesOf key ≠ []) :
    gather sources key ≠ [] := by
  obtain ⟨x, hx⟩ := List.exists_mem_of_ne_nil _ hne
  rw [gather_eq]
  obtain ⟨y, hy, -⟩ := dominated_peaks Sample.t
    (List.mem_flatMap.mpr ⟨b, hb, hx⟩ : x ∈ sources.flatMap (fun b => b.samplesOf key))
  exact List.ne_nil_of_mem hy

theorem exists_source {ref : SeriesRef} (href : ref ∈ mergedSeries sources) :
    ∃ b ∈ sources, ∃ s ∈ b.series, s.ref = ref := by
  obtain ⟨l, hl, hr⟩ := (unites_sources sources).found ref href
  obtain ⟨b, hb, rfl⟩ := List.mem_map.mp hl
  obtain ⟨s, hs, rfl⟩ := List.mem_map.mp hr
  exact ⟨b, hb, s, hs, rfl⟩

theorem samples_ne_nil (s : BlockSeries) : s.samples ≠ [] := by
  obtain ⟨x, hx, -⟩ := s.firstT_spec.1
  exact List.ne_nil_of_mem hx

/-- A plan of at least two blocks can be executed. -/
theorem run_ok (ulid : Ulid) (hlen : 2 ≤ plan.sources.length) :
    ∃ merged, run ulid plan = .ok merged := by
  obtain ⟨sources, level⟩ := plan
  match sources, hlen with
  | first :: second :: rest, _ =>
    let sources := first :: second :: rest
    obtain ⟨s, hs, -⟩ := first.minTime_mem
    obtain ⟨ref, href, hkey⟩ := (unites_sources sources).complete _
      (List.mem_map_of_mem List.mem_cons_self) s.ref (List.mem_map_of_mem hs)
    have hgather : gather sources ref.key ≠ [] := by
      refine gather_ne_nil List.mem_cons_self ?_
      rw [hkey, first.samplesOf_series hs]
      exact samples_ne_nil s
    obtain ⟨b, hb⟩ := writeBlock_ok
      ⟨ulid, level, sources.map (fun b => b.info.ulid), first.info.resolutionS⟩
      (mergedContents sources)
      (by
        intro ss hss
        obtain ⟨r, hr, rfl⟩ := List.mem_map.mp hss
        obtain ⟨b, -, s', -, rfl⟩ := exists_source hr
        exact s'.valid)
      (by
        intro ss hss
        obtain ⟨r, hr, rfl⟩ := List.mem_map.mp hss
        exact gather_eq sources r.key ▸ ascending_peaks Sample.t _)
      (mergedContents_keys sources)
      ⟨⟨ref, gather sources ref.key⟩, List.mem_map_of_mem href, hgather⟩
    refine ⟨b, ?_⟩
    change (match writeBlock _ (mergedContents sources) with
      | .error e => .error (.write e)
      | .ok b => .ok b : Except RunErr Block) = .ok b
    rw [hb]

structure Merges (ulid : Ulid) (plan : Plan) (merged : Block) : Prop where
  ulid_eq : merged.info.ulid = ulid
  level_eq : merged.info.level = plan.level
  sources_eq : merged.info.sources = plan.sources.map (fun b => b.info.ulid)
  resolution_eq : ∀ first ∈ plan.sources.head?, merged.info.resolutionS = first.info.resolutionS
  contents : ∀ ss, ss ∈ merged.contents ↔ ss ∈ mergedContents plan.sources ∧ ss.samples ≠ []

theorem merges_run (h : run ulid plan = .ok merged) :
    Merges ulid plan merged := by
  obtain ⟨sources, level⟩ := plan
  unfold run at h
  dsimp only at h
  split at h
  next first second rest =>
    unfold merge at h
    split at h
    · cases h
    next b hb =>
      cases h
      obtain ⟨hulid, hlevel, hsources, hres⟩ := info_writeBlock hb
      refine ⟨hulid, hlevel, hsources, ?_, mem_writeBlock hb⟩
      rintro b' hb'
      cases hb'
      exact hres
  · cases h

theorem Merges.samplesOf (h : Merges ulid plan merged) (key : GoString) : merged.samplesOf key =
      peaks Sample.t (plan.sources.flatMap (fun b => b.samplesOf key)) := by
  rw [← gather_eq]
  by_cases hnil : gather plan.sources key = []
  · rw [hnil]
    refine List.eq_nil_iff_forall_not_mem.mpr (fun x hx => ?_)
    obtain ⟨ss, hss, rfl, -⟩ := mem_of_mem_samplesAt hx
    obtain ⟨hmem, hsamples⟩ := (h.contents ss).mp hss
    obtain ⟨ref, -, rfl⟩ := List.mem_map.mp hmem
    exact hsamples hnil
  · obtain ⟨x, hx⟩ := List.exists_mem_of_ne_nil _ hnil
    rw [gather_eq] at hx
    obtain ⟨b, hb, hxb⟩ := List.mem_flatMap.mp (mem_of_mem_peaks hx)
    obtain ⟨s, hs, rfl⟩ := b.exists_series hxb
    obtain ⟨ref, href, hkey⟩ := (unites_sources plan.sources).complete _
      (List.mem_map_of_mem hb) s.ref (List.mem_map_of_mem hs)
    have hin : (⟨ref, gather plan.sources ref.key⟩ : SeriesSamples) ∈ merged.contents :=
      (h.contents _).mpr ⟨List.mem_map_of_mem href, by rw [hkey]; exact hnil⟩
    have hat := KeySorted.samplesAt_of_mem merged.contents_sorted hin
    rw [← hkey]
    exact hat

/-- A merged block names its series as a source does. -/
theorem Merges.ref (h : Merges ulid plan merged) (hs : s ∈ merged.series) :
    ∃ b ∈ plan.sources, ∃ s' ∈ b.series, s'.ref = s.ref := by
  obtain ⟨hmem, -⟩ := (h.contents ⟨s.ref, s.samples⟩).mp (List.mem_map_of_mem hs)
  obtain ⟨ref, href, heq⟩ := List.mem_map.mp hmem
  obtain ⟨b, hb, s', hs', hr⟩ := exists_source href
  exact ⟨b, hb, s', hs', hr.trans (congrArg SeriesSamples.series heq)⟩

/-- Whatever a later source has that is not newer than an earlier source comes at
a time that an earlier source has. -/
def NoSourceLate (sources : List Block) : Prop :=
  ∀ key before b after, sources = before ++ b :: after → ∀ x ∈ b.samplesOf key,
    (∃ b' ∈ before, ∃ y ∈ b'.samplesOf key, x.t ≤ y.t) →
    ∃ b' ∈ before, ∃ y ∈ b'.samplesOf key, y.t = x.t

/-- Inside a source nothing is late, so that only whole earlier sources count. -/
theorem noneLate_iff (sources : List Block) : NoSourceLate sources ↔
      ∀ key, NoneLate Sample.t (sources.flatMap (fun b => b.samplesOf key)) := by
  constructor
  · intro h key front x back hsplit hd
    have hfind : ∃ before b after pre post, sources = before ++ b :: after ∧
        b.samplesOf key = pre ++ x :: post ∧
        front = before.flatMap (fun b => b.samplesOf key) ++ pre := by
      clear h hd
      induction sources generalizing front with
      | nil => simp at hsplit
      | cons b sources ih =>
        rcases OrderedCover.append_eq_append_cons hsplit with ⟨cs, rfl, hrest⟩ | ⟨cs, hb, -⟩
        · obtain ⟨before, b', after, pre, post, rfl, hb', rfl⟩ := ih cs hrest
          exact ⟨b :: before, b', after, pre, post, rfl, hb', by simp⟩
        · exact ⟨[], b, sources, front, cs, rfl, hb, by simp⟩
    obtain ⟨before, b, after, pre, post, rfl, hb, rfl⟩ := hfind
    obtain ⟨y, hy, hle⟩ := hd
    rcases List.mem_append.mp hy with hy | hy
    · obtain ⟨b', hb', hyb⟩ := List.mem_flatMap.mp hy
      obtain ⟨b'', hb'', z, hz, hzt⟩ := h key before b after rfl x (by rw [hb]; simp)
        ⟨b', hb', y, hyb, hle⟩
      exact ⟨z, List.mem_append_left _ (List.mem_flatMap.mpr ⟨b'', hb'', hz⟩), hzt⟩
    · have hasc := b.ascending_samplesOf key
      rw [hb] at hasc
      exact absurd ((List.pairwise_append.mp hasc).2.2 y hy x (by simp)) (not_lt.mpr hle)
  · rintro h key before b after rfl x hx ⟨b', hb', y, hy, hle⟩
    obtain ⟨pre, post, hb⟩ := List.append_of_mem hx
    obtain ⟨z, hz, hzt⟩ := h key (before.flatMap (fun b => b.samplesOf key) ++ pre) x
      (post ++ after.flatMap (fun b => b.samplesOf key)) (by simp [hb])
      ⟨y, List.mem_append_left _ (List.mem_flatMap.mpr ⟨b', hb', hy⟩), hle⟩
    rcases List.mem_append.mp hz with hz | hz
    · obtain ⟨b'', hb'', hzb⟩ := List.mem_flatMap.mp hz
      exact ⟨b'', hb'', z, hzb, hzt⟩
    · have hasc := b.ascending_samplesOf key
      rw [hb] at hasc
      have hlt : z.t < x.t := (List.pairwise_append.mp hasc).2.2 z hz x (by simp)
      omega

section Answers

variable (hm : Merges ulid plan merged) (hrefs : RefsAgree plan.sources)
include hm hrefs

/-- A selector decides on a key alike in the merged block and in all sources. -/
theorem exists_decision (sel : Selector) (key : GoString) :
    ∃ ok : Bool, (∀ b ∈ plan.sources, ∀ s ∈ b.series, s.ref.key = key → sel.selects s.ref = ok) ∧
      (∀ s ∈ merged.series, s.ref.key = key → sel.selects s.ref = ok) ∧
        (sel = everything → ok = true) := by
  by_cases hkey : ∃ b ∈ plan.sources, ∃ s ∈ b.series, s.ref.key = key
  · obtain ⟨b, hb, s, hs, rfl⟩ := hkey
    refine ⟨sel.selects s.ref, ?_, ?_, fun hall => hall ▸ rfl⟩
    · intro b' hb' s' hs' hk
      rw [hrefs b' hb' b hb s' hs' s hs hk]
    · intro s' hs' hk
      obtain ⟨b', hb', s'', hs'', hr⟩ := hm.ref hs'
      rw [← hr] at hk ⊢
      rw [hrefs b' hb' b hb s'' hs'' s hs hk]
  · refine ⟨true, ?_, ?_, fun _ => rfl⟩
    · exact fun b hb s hs hk => absurd ⟨b, hb, s, hs, hk⟩ hkey
    · intro s hs hk
      obtain ⟨b, hb, s', hs', hr⟩ := hm.ref hs
      exact absurd ⟨b, hb, s', hs', by rw [hr]; exact hk⟩ hkey

/-- The two answers under a key. -/
theorem samplesAt_answers (sel : Selector) (start stop : ℤ) (key : GoString) : ∃ ok : Bool,
      samplesAt (merged.select sel start stop) key =
        (if ok then (peaks Sample.t (plan.sources.flatMap (fun b => b.samplesOf key))).filter
          (fun x => inWindow start stop x.t) else []) ∧
      samplesAt (mergeAnswers (askBlocks plan.sources sel start stop)) key =
        (if ok then (firsts Sample.t (plan.sources.flatMap (fun b => b.samplesOf key))).filter
          (fun x => inWindow start stop x.t) else []) ∧
      (sel = everything → ok = true) := by
  obtain ⟨ok, hsources, hmerged, hall⟩ := exists_decision hm hrefs sel key
  refine ⟨ok, ?_, ?_, hall⟩
  · rw [← offered_of_sorted (merged.select_sorted _ _ _),
      offered_select merged sel start stop key ok hmerged, hm.samplesOf]
  · rw [samplesAt_mergeAnswers, offered_askBlocks plan.sources sel start stop key ok hsources]
    cases ok with
    | true => rw [if_pos rfl, if_pos rfl, filter_firsts (inWindow start stop)]
    | false => rfl

theorem answers_eq_of_keys {sel : Selector} {start stop : ℤ}
    (h : ∀ key, samplesAt (merged.select sel start stop) key =
      samplesAt (mergeAnswers (askBlocks plan.sources sel start stop)) key) :
    merged.select sel start stop = mergeAnswers (askBlocks plan.sources sel start stop) := by
  refine KeySorted.ext (merged.select_sorted _ _ _) (mergeAnswers_sorted _) ?_ ?_ ?_ h
  · exact fun ss hss => (Block.mem_select.mp hss).1
  · exact fun ss hss => (mem_mergeAnswers.mp hss).1
  · intro ss hss ss' hss' hkey
    obtain ⟨-, s, hs, -, rfl⟩ := Block.mem_select.mp hss
    obtain ⟨b, hb, s', hs', hr⟩ := hm.ref hs
    obtain ⟨-, hnamed, -⟩ := mem_mergeAnswers.mp hss'
    obtain ⟨entry, hentry, href⟩ := mem_of_named hnamed
    obtain ⟨answer, hanswer, hin⟩ := List.mem_flatten.mp hentry
    obtain ⟨b', hb', rfl⟩ := List.mem_map.mp hanswer
    obtain ⟨-, s'', hs'', -, rfl⟩ := Block.mem_select.mp hin
    have hb' := (List.mem_filter.mp hb').1
    rw [← href, ← hr]
    refine hrefs b hb b' hb' s' hs' s'' hs'' ?_
    rw [hr]
    exact hkey.trans (congrArg SeriesRef.key href).symm

/-- The merged block answers every query as its sources do exactly if no source is
late behind an earlier one. -/
theorem select_eq_iff : (∀ sel start stop, merged.select sel start stop =
      mergeAnswers (askBlocks plan.sources sel start stop)) ↔ NoSourceLate plan.sources := by
  rw [noneLate_iff]
  constructor
  · intro h key
    rw [← peaks_eq_firsts_iff]
    let all := plan.sources.flatMap (fun b => b.samplesOf key)
    obtain ⟨lo, hi, hbounds⟩ : ∃ lo hi : ℤ, ∀ x ∈ all, lo ≤ x.t ∧ x.t ≤ hi := by
      induction all with
      | nil => exact ⟨0, 0, by simp⟩
      | cons x xs ih =>
        obtain ⟨lo, hi, hxs⟩ := ih
        refine ⟨min lo x.t, max hi x.t, List.forall_mem_cons.mpr ⟨by omega, fun y hy => ?_⟩⟩
        have := hxs y hy
        omega
    obtain ⟨ok, hmerged, hsources, hok⟩ := samplesAt_answers hm hrefs everything lo hi key
    rw [hok rfl, if_pos rfl] at hmerged hsources
    have hin : ∀ ys : List Sample, (∀ y ∈ ys, y ∈ all) →
        ys.filter (fun x => inWindow lo hi x.t) = ys := by
      intro ys hys
      rw [List.filter_eq_self]
      exact fun y hy => decide_eq_true (hbounds y (hys y hy))
    rw [hin _ (fun y hy => mem_of_mem_peaks hy)] at hmerged
    rw [hin _ (fun y hy => mem_of_mem_firsts hy)] at hsources
    rw [← hmerged, ← hsources, h]
  · intro hlate sel start stop
    refine answers_eq_of_keys hm hrefs (fun key => ?_)
    obtain ⟨ok, hmerged, hsources, -⟩ := samplesAt_answers hm hrefs sel start stop key
    rw [hmerged, hsources, (peaks_eq_firsts_iff _).mpr (hlate key)]

end Answers

theorem refsAgree_of_subset {blocks : List Block} (h : RefsAgree blocks)
    (hsub : ∀ b ∈ sources, b ∈ blocks) : RefsAgree sources :=
  fun b hb b' hb' => h b (hsub b hb) b' (hsub b' hb')

/-- Whatever blocks a plan is made from, the merged block exists, and it answers
every query as the merge of its sources' answers does exactly if no sample of a
later source lies behind an earlier source at a time of its own. -/
theorem compaction_invisible_iff (blocks : List Block) (opts : Options) (plan : Plan)
    (hnext : next blocks opts = some plan) (hrefs : RefsAgree blocks) (ulid : Ulid) :
    ∃ merged, run ulid plan = .ok merged ∧
      ((∀ sel start stop, merged.select sel start stop =
        mergeAnswers (askBlocks plan.sources sel start stop)) ↔ NoSourceLate plan.sources) := by
  obtain ⟨hsub, hlen⟩ := nextFrom_sublist hnext
  obtain ⟨merged, hrun⟩ := run_ok ulid hlen
  refine ⟨merged, hrun, select_eq_iff (merges_run hrun) (refsAgree_of_subset hrefs ?_)⟩
  exact fun b hb => mem_sortBy.mp (hsub.subset hb)

def pairSeries (t t' : ℤ) (h : t < t') : BlockSeries :=
  BlockSeries.ofSamples ⟨[0x6d], []⟩ [⟨t, 0⟩, ⟨t', 0⟩] (by decide) (by simp)
    (by simpa [Ascending] using h)

theorem samples_pairSeries (t t' : ℤ) (h : t < t') :
    (pairSeries t t' h).samples = [⟨t, 0⟩, ⟨t', 0⟩] := samples_rechunk _

theorem mem_pairSeries {t t' : ℤ} (h : t < t') (hs : s ∈ [pairSeries t t' h]) {x : Sample}
    (hx : x ∈ s.samples) : t ≤ x.t ∧ x.t ≤ t' := by
  rw [List.mem_singleton.mp hs, samples_pairSeries] at hx
  simp only [List.mem_cons, List.not_mem_nil, or_false] at hx
  rcases hx with rfl | rfl
  · exact ⟨le_rfl, le_of_lt h⟩
  · exact ⟨le_of_lt h, le_rfl⟩

def pairBlock (ulid : Ulid) (t t' : ℤ) (h : t < t') : Block where
  info := ⟨ulid, t, t', 0, [], 0⟩
  series := [pairSeries t t' h]
  sorted := List.pairwise_singleton _ _
  minTime_le _ hs _ hx := (mem_pairSeries h hs hx).1
  le_maxTime _ hs _ hx := (mem_pairSeries h hs hx).2
  minTime_mem := ⟨_, List.mem_singleton.mpr rfl, ⟨t, 0⟩, by rw [samples_pairSeries]; simp, rfl⟩
  maxTime_mem := ⟨_, List.mem_singleton.mpr rfl, ⟨t', 0⟩, by rw [samples_pairSeries]; simp, rfl⟩

theorem samplesOf_pairBlock (ulid : Ulid) (t t' : ℤ) (h : t < t') :
    (pairBlock ulid t t' h).samplesOf (SeriesRef.key ⟨[0x6d], []⟩) = [⟨t, 0⟩, ⟨t', 0⟩] := by
  have hmem : pairSeries t t' h ∈ (pairBlock ulid t t' h).series := List.mem_singleton.mpr rfl
  exact (Block.samplesOf_series hmem).trans (samples_pairSeries t t' h)

def interleaved : List Block :=
  [pairBlock 1 10 30 (by decide), pairBlock 2 20 40 (by decide), pairBlock 3 50 60 (by decide)]

theorem refsAgree_interleaved : RefsAgree interleaved := by
  have hone : ∀ b ∈ interleaved, ∀ s ∈ b.series, s.ref = ⟨[0x6d], []⟩ := by
    intro b hb s hs
    simp only [interleaved, List.mem_cons, List.not_mem_nil, or_false] at hb
    rcases hb with rfl | rfl | rfl <;> rw [List.mem_singleton.mp hs] <;> rfl
  intro b hb b' hb' s hs s' hs' _
  rw [hone b hb s hs, hone b' hb' s' hs']

theorem next_interleaved : next interleaved ⟨0, 0⟩ = some ⟨interleaved, 1⟩ := rfl

theorem not_noSourceLate_interleaved : ¬ NoSourceLate interleaved := by
  intro h
  obtain ⟨b, hb, y, hy, hyt⟩ := h (SeriesRef.key ⟨[0x6d], []⟩) [pairBlock 1 10 30 (by decide)]
    (pairBlock 2 20 40 (by decide)) [pairBlock 3 50 60 (by decide)] rfl ⟨20, 0⟩
    (by rw [samplesOf_pairBlock]; simp)
    ⟨_, List.mem_singleton.mpr rfl, ⟨30, 0⟩, by rw [samplesOf_pairBlock]; simp, by decide⟩
  rw [List.mem_singleton.mp hb, samplesOf_pairBlock] at hy
  simp only [List.mem_cons, List.not_mem_nil, or_false] at hy
  rcases hy with rfl | rfl <;> cases hyt

/-- The planner returns these blocks, and no merged block answers as they do. -/
theorem compaction_drops_late_samples :
    next interleaved ⟨0, 0⟩ = some ⟨interleaved, 1⟩ ∧ RefsAgree interleaved ∧
      ∀ merged, run 4 ⟨interleaved, 1⟩ = .ok merged →
        ∃ sel start stop, merged.select sel start stop ≠
          mergeAnswers (askBlocks interleaved sel start stop) := by
  refine ⟨next_interleaved, refsAgree_interleaved, ?_⟩
  intro merged hrun
  by_contra hno
  push Not at hno
  exact not_noSourceLate_interleaved
    ((select_eq_iff (merges_run hrun) refsAgree_interleaved).mp hno)

theorem compaction_invisible_iff_interleaved :
    ∃ merged, run 4 ⟨interleaved, 1⟩ = .ok merged ∧
      ((∀ sel start stop, merged.select sel start stop =
        mergeAnswers (askBlocks interleaved sel start stop)) ↔ NoSourceLate interleaved) :=
  compaction_invisible_iff interleaved ⟨0, 0⟩ ⟨interleaved, 1⟩ next_interleaved
    refsAgree_interleaved 4

end Ozymandias.CompactMerge
