import Ozymandias.AppendOnly

/-!
Sequences of batches. A batch through the database gives the result that the
store's verdicts on its entries say: how many samples and entries were stored
and which entries were refused. Head and store stay in step over a whole run,
also over batches that the log refuses, and every query answers the same.
-/
namespace Ozymandias.AppendRuns

open WalFrame SeriesModel HeadSeries HeadModel HeadAppend HeadBooks HeadSelect BlockModel
  TimeMerge Peaks DbAppend AppendOnly
open Selection hiding validate

variable {o : Options}

structure SameResult (batch : List SeriesSamples) (res : DbAppend.AppendResult)
    (verdicts : List (List Verdict)) : Prop where
  samples : res.samples = verdicts.flatten.count .stored
  series : res.series = verdicts.countP (fun vs => decide (Verdict.stored ∈ vs))
  rejected : res.rejected.map Rejected.series =
    (batch.filter (fun ss => decide (validate ss ≠ none))).map SeriesSamples.series ++
      ((batch.zip verdicts).filter (fun p => decide (Verdict.refused ∈ p.2))).map
        (fun p => p.1.series)

variable {batch : List SeriesSamples} {h : Head o} {m : Reference}

theorem rejected_flatten (i : ℕ) (batch : List SeriesSamples) :
    (flatten i batch).rejected.map Rejected.series =
      (batch.filter (fun ss => decide (validate ss ≠ none))).map SeriesSamples.series := by
  induction batch generalizing i with
  | nil => rfl
  | cons ss rest ih =>
    rw [List.filter_cons, flatten]
    cases hv : validate ss with
    | none =>
      exact ih (i + 1)
    | some reason =>
      simp only [ne_eq, reduceCtorEq, not_false_eq_true, decide_true, if_true, List.map_cons]
      rw [ih (i + 1)]

theorem firstRefusal_isSome (outs : List (Except HeadErr Bool)) :
    (firstRefusal outs).isSome = decide (Verdict.refused ∈ outs.map verdict) := by
  induction outs with
  | nil => rfl
  | cons out outs ih =>
    cases out with
    | ok b =>
      rw [firstRefusal, ih]
      cases b <;> simp [verdict]
    | error e => simp [firstRefusal, verdict]

theorem refusedEntries_series (batch : List SeriesSamples)
    (outs : List (List (Except HeadErr Bool))) :
    (refusedEntries batch outs).map Rejected.series =
      ((batch.zip (outs.map (List.map verdict))).filter
        (fun p => decide (Verdict.refused ∈ p.2))).map (fun p => p.1.series) := by
  induction batch generalizing outs with
  | nil => cases outs <;> rfl
  | cons ss rest ih =>
    cases outs with
    | nil => rfl
    | cons os outs =>
      rw [List.map_cons, List.zip_cons_cons, List.filter_cons, ← firstRefusal_isSome,
        refusedEntries]
      cases firstRefusal os with
      | none => exact ih outs
      | some e =>
        simp only [Option.isSome_some, if_true, List.map_cons]
        rw [ih outs]

theorem storedFlag_eq : storedFlag = fun out => decide (verdict out = .stored) := by
  funext out
  cases out with
  | ok b => cases b <;> rfl
  | error e => rfl

theorem sameResult {outs : List (Except HeadErr Bool)} {verdicts : List Verdict}
    (hlen : outs.length = (pairs batch).length) (hverdicts : outs.map verdict = verdicts) :
    SameResult batch ⟨(share batch outs).countP (fun os => os.any storedFlag),
      outs.countP storedFlag,
        (flatten 0 batch).rejected ++ refusedEntries batch (share batch outs)⟩
      (share batch verdicts) := by
  have hvlen : verdicts.length = (pairs batch).length := by
    rw [← hverdicts, List.length_map]
    exact hlen
  refine ⟨?_, ?_, ?_⟩
  · rw [flatten_share hvlen, ← hverdicts, List.count, List.countP_map, storedFlag_eq]
    rfl
  · rw [← hverdicts, share_map, List.countP_map]
    refine List.countP_congr (fun os _ => ?_)
    rw [storedFlag_eq]
    simp
  · rw [List.map_append, rejected_flatten, refusedEntries_series, ← share_map, hverdicts]

theorem nothing_result (hnil : pairs batch = []) :
    SameResult batch ⟨0, 0, (flatten 0 batch).rejected⟩ (share batch []) := by
  have hflat : (share batch ([] : List Verdict)).flatten = [] := flatten_share (by rw [hnil]; rfl)
  have hempty := List.flatten_eq_nil_iff.mp hflat
  refine ⟨?_, ?_, ?_⟩
  · rw [hflat]
    rfl
  · refine (List.countP_eq_zero.mpr (fun vs hvs => ?_)).symm
    rw [hempty vs hvs]
    simp
  · have hnone : (batch.zip (share batch [])).filter
      (fun p => decide (Verdict.refused ∈ p.2)) = [] := by
      refine List.filter_eq_nil_iff.mpr (fun p hp => ?_)
      rw [hempty p.2 (List.of_mem_zip hp).2]
      simp
    rw [rejected_flatten, hnone, List.map_nil, List.append_nil]

/-- The batch's result and the head's flags are those of the verdicts, unless the log refuses. -/
def SameAnswer {σ : Type} (log : σ → List Record → σ × Bool) (w : σ) (h : Head o) (m : Reference)
    (batch : List SeriesSamples) : Prop :=
  match (DbAppend.append h log w batch).2.2 with
  | .error e => e = .log ∧ ∃ recs, (log w recs).2 = false
  | .ok res =>
    SameResult batch res (m.append batch).2 ∧
      (h.append log w (flatten 0 batch).refs (flatten 0 batch).samples).2.2.stored =
        some ((m.append batch).2.flatten.map (fun v => decide (v = .stored)))

def NextAgrees {σ : Type} (log : σ → List Record → σ × Bool) (w : σ) (h : Head o) (m : Reference)
    (batch : List SeriesSamples) : Prop :=
  match (DbAppend.append h log w batch).2.2 with
  | .error _ => Agrees (DbAppend.append h log w batch).1 m
  | .ok _ => Agrees (DbAppend.append h log w batch).1 (m.append batch).1

theorem answers_of_agrees {σ : Type} (log : σ → List Record → σ × Bool) (w : σ) (ha : Agrees h m)
    (hmin : ∀ ss ∈ batch, ∀ s ∈ ss.samples, minInt64 ≤ s.t) (hroom : Room o m (pairs batch)) :
    SameAnswer log w h m batch ∧ NextAgrees log w h m batch := by
  obtain ⟨hrefs, hsamples, -⟩ := flatten_spec 0 batch
  have hmin' : ∀ p ∈ pairs batch, minInt64 ≤ p.2.t := by
    intro p hp
    obtain ⟨ss, hss, hp⟩ := List.mem_flatMap.mp hp
    split at hp
    · obtain ⟨s, hs, rfl⟩ := List.mem_map.mp hp
      exact hmin ss hss s hs
    · cases hp
  unfold SameAnswer NextAgrees
  rw [append_eq, hrefs, hsamples]
  by_cases hnil : pairs batch = []
  · have hverdicts : (m.offerAll (pairs batch)).2 = [] := by
      rw [hnil]
      rfl
    rw [append_nothing h log w hnil, hverdicts]
    refine ⟨⟨nothing_result hnil, ?_⟩, ?_⟩
    · rw [hnil, flatten_share (by rw [hnil]; rfl)]
      rfl
    · rw [hnil]
      exact ha
  · have hcases := append_agrees ha hmin' hroom log w hnil
    rw [← hrefs, ← hsamples] at hcases ⊢
    rcases hcases with ⟨hlog, hres, hagrees⟩ | ⟨outs, hres, hverdicts, hagrees⟩
    · rw [append_failed hnil (Prod.ext rfl (Prod.ext rfl hres))]
      exact ⟨⟨rfl, hlog⟩, hagrees⟩
    · have hlen : outs.length = (pairs batch).length := by
        rw [← length_offerAll m (pairs batch), ← hverdicts, List.length_map]
      rw [append_result hnil hlen (Prod.ext rfl (Prod.ext rfl hres))]
      refine ⟨⟨sameResult hlen hverdicts, ?_⟩, hagrees⟩
      rw [hres, flatten_share (length_offerAll ..), ← hverdicts, List.map_map, storedFlag_eq]
      rfl

theorem mem_select_reference (hkeys : ∀ {key e}, m.lookup key = some e →
      e.series.key = key) (wanted : SeriesRef → Bool) (start stop : ℤ) (ss : SeriesSamples) :
    ss ∈ m.select wanted start stop ↔ ∃ e, m.lookup ss.series.key = some e ∧ e.series = ss.series ∧
      wanted ss.series = true ∧ ss.samples ≠ [] ∧
      ss.samples = e.samples.filter (fun x => inWindow start stop x.t) := by
  unfold Reference.select sortByKey
  rw [mem_sortBy, List.mem_filter, List.mem_map]
  constructor
  · rintro ⟨⟨e, he, rfl⟩, hne⟩
    obtain ⟨he, hwanted⟩ := List.mem_filter.mp he
    obtain ⟨⟨key, e'⟩, hentry, rfl⟩ := List.mem_map.mp he
    have hlookup : m.lookup key = some e' := AList.mem_lookup_iff.mpr hentry
    refine ⟨e', ?_, rfl, hwanted, of_decide_eq_true hne, rfl⟩
    rw [hkeys hlookup]
    exact hlookup
  · rintro ⟨e, he, hseries, hwanted, hne, hsamples⟩
    obtain ⟨ref, samples⟩ := ss
    subst hseries hsamples
    refine ⟨⟨e, List.mem_filter.mpr ⟨?_, hwanted⟩, rfl⟩, decide_eq_true hne⟩
    exact List.mem_map.mpr ⟨⟨_, e⟩, AList.mem_lookup_iff.mp he, rfl⟩

theorem sorted_select_reference (hkeys : ∀ {key e}, m.lookup key = some e →
      e.series.key = key) (wanted : SeriesRef → Bool) (start stop : ℤ) :
    KeySorted (m.select wanted start stop) := by
  refine ascending_sortBy ?_
  have hall : (m.entries.map (fun e => keyOrder e.2.series)).Nodup := by
    have hsame : m.entries.map (fun e => keyOrder e.2.series) = m.keys.map byteOrder := by
      unfold AList.keys List.keys
      rw [List.map_map]
      refine List.map_congr_left (fun e he => ?_)
      exact congrArg byteOrder (hkeys (AList.mem_lookup_iff.mpr he))
    rw [hsame]
    exact m.keys_nodup.map byteOrder_injective
  have hsub : (((m.entries.map Sigma.snd).filter (fun e => wanted e.series)).map
      (fun e => keyOrder e.series)).Sublist (m.entries.map (fun e => keyOrder e.2.series)) := by
    have hmap := (List.filter_sublist (p := fun e : Held => wanted e.series)
      (l := m.entries.map Sigma.snd)).map (fun e : Held => keyOrder e.series)
    rw [List.map_map] at hmap
    exact hmap
  refine (List.filter_sublist.map _).nodup ?_
  rw [List.map_map]
  exact hsub.nodup hall

/-- Every query answers the same. -/
theorem select_agrees (ha : Agrees h m) (sel : Selector) (start stop : ℤ) :
    select h sel start stop = m.select sel.selects start stop := by
  refine ascending_ext (select_sorted ha.books sel start stop)
    (sorted_select_reference ha.key_eq _ _ _) (fun ss => ?_)
  rw [mem_select ha.books, mem_select_reference ha.key_eq]
  have hpeek := ha.peek ss.series.key
  unfold peek at hpeek
  constructor
  · rintro ⟨ms, hfind, href, hsel, hne, hsamples⟩
    rw [hfind] at hpeek
    obtain ⟨e, he, hview⟩ := Option.map_eq_some_iff.mp hpeek.symm
    obtain ⟨hseries, hheld⟩ := Prod.mk.inj hview
    exact ⟨e, he, hseries.trans href, hsel, hne, by rw [hheld]; exact hsamples⟩
  · rintro ⟨e, he, hseries, hsel, hne, hsamples⟩
    rw [he] at hpeek
    obtain ⟨ms, hms, hview⟩ := Option.map_eq_some_iff.mp hpeek
    obtain ⟨href, hheld⟩ := Prod.mk.inj hview
    exact ⟨ms, hms, href.trans hseries, hsel, hne, by rw [hheld]; exact hsamples⟩

/-- Batches one after the other. A batch that the log refuses does not reach the store. -/
inductive Runs {σ : Type} (log : σ → List Record → σ × Bool) : Head o → σ → Reference → Prop
  | start (w : σ) : Runs log (Head.new o) w ∅
  | stored {h h' : Head o} {w w' : σ} {m : Reference} {batch : List SeriesSamples}
      {res : DbAppend.AppendResult} (hrun : Runs log h w m)
      (hmin : ∀ ss ∈ batch, ∀ s ∈ ss.samples, minInt64 ≤ s.t) (hroom : Room o m (pairs batch))
      (happ : DbAppend.append h log w batch = (h', w', .ok res)) :
      Runs log h' w' (m.append batch).1
  | failed {h h' : Head o} {w w' : σ} {m : Reference} {batch : List SeriesSamples}
      {e : AppendErr} (hrun : Runs log h w m)
      (hmin : ∀ ss ∈ batch, ∀ s ∈ ss.samples, minInt64 ≤ s.t) (hroom : Room o m (pairs batch))
      (happ : DbAppend.append h log w batch = (h', w', .error e)) : Runs log h' w' m

theorem agrees_runs {σ : Type} {log : σ → List Record → σ × Bool} {w : σ} (hrun : Runs log h w m) :
    Agrees h m := by
  induction hrun with
  | start w => exact ⟨books_new o, rfl, fun _ => rfl⟩
  | @stored h h' w w' m batch res hrun hmin hroom happ ih
  | @failed h h' w w' m batch e hrun hmin hroom happ ih =>
    have hnext := (answers_of_agrees log w ih hmin hroom).2
    unfold NextAgrees at hnext
    rw [happ] at hnext
    exact hnext

theorem select_congr {wanted wanted' : SeriesRef → Bool}
    (heq : ∀ key e, m.lookup key = some e → wanted e.series = wanted' e.series) (start stop : ℤ) :
    m.select wanted start stop = m.select wanted' start stop := by
  unfold Reference.select
  congr 3
  refine List.filter_congr (fun e he => ?_)
  obtain ⟨⟨key, e'⟩, hentry, rfl⟩ := List.mem_map.mp he
  exact heq key e' (AList.mem_lookup_iff.mpr hentry)

/-- The head is the append-only store: after any batches, the next batch has the store's verdicts
for its result, and every query has the store's answer. The index selects by the reference
semantics where the key of metric names is not used as a tag's. -/
theorem append_only_reachable {σ : Type} {log : σ → List Record → σ × Bool} {h : Head o} {w : σ}
    {m : Reference} (hrun : Runs log h w m) :
    (∀ batch : List SeriesSamples, (∀ ss ∈ batch, ∀ s ∈ ss.samples, minInt64 ≤ s.t) →
      Room o m (pairs batch) → SameAnswer log w h m batch) ∧
    (∀ sel start stop, select h sel start stop = m.select sel.selects start stop) ∧
    ∀ sel : Selector, sel.metric ≠ [] → (∀ mt ∈ sel.matchers, mt.key ≠ metricName) →
      (∀ key e, m.lookup key = some e → ∀ t ∈ e.series.tags, t.key ≠ metricName) →
      ∀ start stop, select h sel start stop =
        m.select (IndexSelect.Selector.matches sel) start stop := by
  have ha := agrees_runs hrun
  refine ⟨fun batch hmin hroom => (answers_of_agrees log w ha hmin hroom).1,
    select_agrees ha, fun sel hmetric hmatchers htags start stop => ?_⟩
  rw [select_agrees ha]
  refine select_congr (fun key e he => ?_) start stop
  rw [Bool.eq_iff_iff, Postings.selects_iff hmetric (htags key e he)]
  unfold IndexSelect.Selector.matches
  rw [Bool.and_eq_true, decide_eq_true_eq, List.all_eq_true]
  refine and_congr_right (fun _ => forall_congr' (fun mt => forall_congr' (fun hmt => ?_)))
  unfold Postings.scope
  rw [if_neg (hmatchers mt hmt)]

def retryBatch : List SeriesSamples :=
  [⟨⟨[0x6d], []⟩, [⟨1, 0⟩, ⟨1, 0⟩, ⟨1, 1⟩]⟩, ⟨⟨[0x6d], []⟩, [⟨2, 1⟩]⟩]

theorem append_only_reachable_retry :
    ∃ h : Head (Options.complete 0 0 false), ∃ m : Reference,
      Runs takesAll h () m ∧ (∅ : Reference).append retryBatch =
        (m, [[.stored, .duplicate, .refused], [.stored]]) ∧
      (∀ sel start stop, select h sel start stop = m.select sel.selects start stop) ∧
      m.select (fun _ => true) 1 2 = [⟨⟨[0x6d], []⟩, [⟨1, 0⟩, ⟨2, 1⟩]⟩] := by
  have happ : DbAppend.append (Head.new (Options.complete 0 0 false)) takesAll () retryBatch =
      ((DbAppend.append (Head.new (Options.complete 0 0 false)) takesAll () retryBatch).1, (),
        .ok ⟨2, 2, [⟨⟨[0x6d], []⟩, "sample at or before the series' newest timestamp"⟩]⟩) :=
    Prod.ext rfl (Prod.ext rfl (by decide))
  have hroom : Room (Options.complete 0 0 false) ∅ (pairs retryBatch) := by
    intro _ metric
    have hcard : (batchKeys (pairs retryBatch) metric).card ≤ (pairs retryBatch).length := by
      refine (List.toFinset_card_le _).trans ?_
      rw [List.length_map]
      exact List.length_filter_le _ _
    have hlength : (pairs retryBatch).length = 4 := rfl
    have hlimit : (Options.complete 0 0 false).maxSeriesPerMetric = 10000 := rfl
    have hnone : Reference.keysOf ∅ metric = ∅ := rfl
    rw [hnone, Finset.empty_union]
    omega
  have hrun := Runs.stored (.start ()) (by decide) hroom happ
  refine ⟨_, _, hrun, Prod.ext rfl (by decide), (append_only_reachable hrun).2.1, by decide⟩

end Ozymandias.AppendRuns
