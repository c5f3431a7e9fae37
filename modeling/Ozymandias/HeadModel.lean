import Ozymandias.HeadSeries
import Ozymandias.HeadRecords
import Ozymandias.Postings

/-!
The head: the series by key and by id, their index, the counts per metric, and
the time before which samples are refused. A pointer to a series is its id. `Append`
resolves the series, logs the batch and only then applies it; the series it
created and left empty are forgotten again.
-/

namespace Ozymandias.HeadModel

open WalFrame SeriesModel HeadSeries HeadRecords Peaks

abbrev GoMap (κ β : Type) [DecidableEq κ] := AList (fun _ : κ => β)

def minInt64 : ℤ := -(2 ^ 63)

def defaultBlockRange : ℤ := 2 * 60 * 60 * 1000

def defaultMaxSeriesPerMetric : ℤ := 10000

/-- A head's options, as `New` completes them. -/
structure Options where
  blockRange : ℤ
  maxSeriesPerMetric : ℤ
  syncOnAppend : Bool
  blockRange_pos : 0 < blockRange

def Options.complete (blockRange maxSeriesPerMetric : ℤ) (syncOnAppend : Bool) : Options where
  blockRange := if blockRange ≤ 0 then defaultBlockRange else blockRange
  maxSeriesPerMetric :=
    if maxSeriesPerMetric = 0 then defaultMaxSeriesPerMetric else maxSeriesPerMetric
  syncOnAppend := syncOnAppend
  blockRange_pos := by
    split
    · decide
    · omega

structure Head (o : Options) where
  shards : GoMap GoString ℕ
  byID : GoMap ℕ (MemSeries o.blockRange)
  perMetric : GoMap GoString ℤ
  nextID : ℕ
  minValid : ℤ
  oooDropped : ℕ
  limitHits : ℕ
  postings : Postings.MemPostings

variable {o : Options}

def Head.new (o : Options) : Head o := ⟨∅, ∅, ∅, 0, minInt64, 0, 0, .new⟩

def Head.register (h : Head o) (ms : MemSeries o.blockRange) : Head o :=
  { h with
    shards := h.shards.insert ms.ref.key ms.id
    byID := h.byID.insert ms.id ms
    perMetric :=
      h.perMetric.insert ms.ref.metric ((h.perMetric.lookup ms.ref.metric).getD 0 + 1)
    postings := h.postings.add ms.id ms.ref }

/-- Find a series by identity, or create and index it; tells whether it is new. -/
def Head.getOrCreate (h : Head o) (ref : SeriesRef) : Head o × Except HeadErr (ℕ × Bool) :=
  match h.shards.lookup ref.key with
  | some id => (h, .ok (id, false))
  | none =>
    if 0 < o.maxSeriesPerMetric ∧
        o.maxSeriesPerMetric ≤ (h.perMetric.lookup ref.metric).getD 0 then
      ({ h with limitHits := h.limitHits + 1 }, .error .seriesLimit)
    else
      (({ h with nextID := h.nextID + 1 }).register
        (MemSeries.fresh o.blockRange (h.nextID + 1) ref false), .ok (h.nextID + 1, true))

def Head.forget (h : Head o) (id : ℕ) (ref : SeriesRef) : Head o :=
  match h.byID.lookup id with
  | none => h
  | some _ =>
    let n := (h.perMetric.lookup ref.metric).getD 0 - 1
    { h with
      shards := h.shards.erase ref.key
      byID := h.byID.erase id
      perMetric :=
        if n ≤ 0 then h.perMetric.erase ref.metric else h.perMetric.insert ref.metric n
      postings := h.postings.delete id ref }

def Head.forgetEmpty (h : Head o) : List ℕ → Head o
  | [] => h
  | id :: ids =>
    match h.byID.lookup id with
    | none => h.forgetEmpty ids
    | some ms =>
      if ms.chunks = [] then (h.forget id ms.ref).forgetEmpty ids else h.forgetEmpty ids

def Head.update (h : Head o) (ms : MemSeries o.blockRange) : Head o :=
  { h with byID := h.byID.insert ms.id ms }

/-- `appendTo` through a pointer. Pointers are only held to series of the maps. -/
def Head.appendTo (h : Head o) (id : ℕ) (s : Sample) (minValid : ℤ) :
    Head o × Except HeadErr Bool :=
  match h.byID.lookup id with
  | none => (h, .error .outOfBounds)
  | some ms => (h.update (ms.appendTo s minValid).1, (ms.appendTo s minValid).2)

/-- What resolving a batch gives: the series it created, and a series or a
refusal for every sample. -/
structure Resolution (o : Options) where
  head : Head o
  created : List ℕ
  targets : List (Except HeadErr ℕ)

def Head.resolve (h : Head o) (minValid : ℤ) : List (SeriesRef × Sample) → Resolution o
  | [] => ⟨h, [], []⟩
  | (ref, s) :: rest =>
    if s.t < minValid then
      let r := h.resolve minValid rest
      { r with targets := .error .outOfBounds :: r.targets }
    else
      match h.getOrCreate ref with
      | (h, .error e) =>
        let r := h.resolve minValid rest
        { r with targets := .error e :: r.targets }
      | (h, .ok (id, isNew)) =>
        let r := h.resolve minValid rest
        ⟨r.head, if isNew then id :: r.created else r.created, .ok id :: r.targets⟩

def validSamples : List (SeriesRef × Sample) → List (Except HeadErr ℕ) → List LogSample
  | (_, s) :: batch, .ok id :: targets => ⟨id, s.t, s.v⟩ :: validSamples batch targets
  | _ :: batch, .error _ :: targets => validSamples batch targets
  | _, _ => []

/-- The series that still need a definition in the log, marked as having one. -/
def Head.markPending (h : Head o) : List ℕ → Head o × List (ℕ × SeriesRef)
  | [] => (h, [])
  | id :: ids =>
    match h.byID.lookup id with
    | none => h.markPending ids
    | some ms =>
      if ms.logged then h.markPending ids
      else
        let (marked, pending) := (h.update (ms.setLogged true)).markPending ids
        (marked, (id, ms.ref) :: pending)

def Head.unmarkPending (h : Head o) : List (ℕ × SeriesRef) → Head o
  | [] => h
  | (id, _) :: pending =>
    match h.byID.lookup id with
    | none => h.unmarkPending pending
    | some ms => (h.update (ms.setLogged false)).unmarkPending pending

def maxSampleBytes : ℕ := 10 + 10 + 8

def maxSamplesPerRecord : ℕ := (maxRecordSize - 10) / maxSampleBytes

variable {h h' : Head o} {id : ℕ} {ms : MemSeries o.blockRange}

theorem maxSamplesPerRecord_pos : 0 < maxSamplesPerRecord := by decide

def sampleEntries (samples : List LogSample) : List LogEntry :=
  if samples.length ≤ maxSamplesPerRecord then [.samples samples]
  else
    .samples (samples.take maxSamplesPerRecord) ::
      sampleEntries (samples.drop maxSamplesPerRecord)
termination_by samples.length
decreasing_by
  have := maxSamplesPerRecord_pos
  rw [List.length_drop]
  omega

def logEntries (series : List (ℕ × SeriesRef)) (samples : List LogSample) : List LogEntry :=
  series.map (fun p => .series p.1 p.2) ++ sampleEntries samples

def Head.applyAll (h : Head o) (minValid : ℤ) :
    List (SeriesRef × Sample) → List (Except HeadErr ℕ) → Head o × List (Except HeadErr Bool)
  | (_, s) :: batch, .ok id :: targets =>
    let (h, outcome) := h.appendTo id s minValid
    let (h, outcomes) := h.applyAll minValid batch targets
    (h, outcome :: outcomes)
  | _ :: batch, .error e :: targets =>
    let (h, outcomes) := h.applyAll minValid batch targets
    (h, .error e :: outcomes)
  | _, _ => (h, [])

inductive AppendErr where
  | refused (e : HeadErr)
  | mismatch (refs samples : ℕ)
  | log
  deriving DecidableEq

structure Rejection where
  index : ℤ
  err : AppendErr
  deriving DecidableEq

structure AppendResult where
  stored : Option (List Bool)
  rejected : List Rejection
  deriving DecidableEq

def rejections {α : Type} : ℕ → List (Except HeadErr α) → List Rejection
  | _, [] => []
  | i, .ok _ :: rest => rejections (i + 1) rest
  | i, .error e :: rest => ⟨i, .refused e⟩ :: rejections (i + 1) rest

def isDropped {α : Type} : Except HeadErr α → Bool
  | .error .outOfOrder => true
  | .error .outOfBounds => true
  | _ => false

def Head.countDropped {α : Type} (h : Head o) (outcomes : List (Except HeadErr α)) : Head o :=
  { h with oooDropped := h.oooDropped + outcomes.countP isDropped }

def storedFlag : Except HeadErr Bool → Bool
  | .ok b => b
  | .error _ => false

structure Prepared (o : Options) where
  resolution : Resolution o
  valid : List LogSample
  marked : Head o
  pending : List (ℕ × SeriesRef)

def Head.prepare (h : Head o) (batch : List (SeriesRef × Sample)) : Prepared o :=
  let r := h.resolve h.minValid batch
  let valid := validSamples batch r.targets
  let (marked, pending) := r.head.markPending (valid.map LogSample.id)
  ⟨r, valid, marked, pending⟩

def Prepared.entries (p : Prepared o) : List LogEntry := logEntries p.pending p.valid

def Prepared.rollback (p : Prepared o) : Head o × AppendResult :=
  (((p.marked.unmarkPending p.pending).forgetEmpty p.resolution.created).countDropped
      p.resolution.targets,
    ⟨none, rejections 0 p.resolution.targets ++ [⟨-1, .log⟩]⟩)

def Prepared.commit (p : Prepared o) (minValid : ℤ) (batch : List (SeriesRef × Sample)) :
    Head o × AppendResult :=
  let (applied, outcomes) := p.marked.applyAll minValid batch p.resolution.targets
  ((applied.forgetEmpty p.resolution.created).countDropped outcomes,
    ⟨some (outcomes.map storedFlag), rejections 0 outcomes⟩)

/-- `Append`. The log is a function that takes the records and says whether they
are written, and what it then is. -/
def Head.append {σ : Type} (h : Head o) (log : σ → List Record → σ × Bool) (w : σ)
    (refs : List SeriesRef) (samples : List Sample) : Head o × σ × AppendResult :=
  if refs.length ≠ samples.length then
    (h, w, ⟨none, [⟨-1, .mismatch refs.length samples.length⟩]⟩)
  else
    let batch := refs.zip samples
    let p := h.prepare batch
    if p.valid = [] then
      ((p.resolution.head.forgetEmpty p.resolution.created).countDropped p.resolution.targets, w,
        ⟨some (samples.map (fun _ => false)), rejections 0 p.resolution.targets⟩)
    else
      let (w, written) := log w (p.entries.map LogEntry.record)
      let (h, result) := if written then p.commit h.minValid batch else p.rollback
      (h, w, result)

def Head.freeze (h : Head o) (mint : ℤ) : Head o :=
  { h with minValid := if h.minValid < mint then mint else h.minValid }

/-- One series of a truncation: drop its old chunks, and forget it if none is left. -/
def Head.truncateSeries (h : Head o) (mint : ℤ) (id : ℕ) : Head o :=
  match h.byID.lookup id with
  | none => h
  | some ms =>
    let h := h.update (ms.truncate mint)
    if (ms.truncate mint).chunks = [] then h.forget id ms.ref else h

def Head.truncate (h : Head o) (mint : ℤ) : Head o :=
  h.byID.keys.foldl (fun h id => h.truncateSeries mint id) { h with minValid := mint }

def Head.find (h : Head o) (key : GoString) : Option (MemSeries o.blockRange) :=
  (h.shards.lookup key).bind (fun id => h.byID.lookup id)

def Head.content (h : Head o) (key : GoString) : List Sample :=
  ((h.find key).map MemSeries.samples).getD []

/-- Keys and ids lead to the same series, and ids are not above the counter. -/
structure Head.Wf (h : Head o) : Prop where
  id_eq : ∀ {id ms}, h.byID.lookup id = some ms → ms.id = id
  shard_of : ∀ {id ms}, h.byID.lookup id = some ms → h.shards.lookup ms.ref.key = some id
  of_shard : ∀ {key id}, h.shards.lookup key = some id →
    ∃ ms, h.byID.lookup id = some ms ∧ ms.ref.key = key
  le_nextID : ∀ {id ms}, h.byID.lookup id = some ms → id ≤ h.nextID

section Maps

variable {κ β : Type} [DecidableEq κ] (m : GoMap κ β) (k k' : κ)

theorem lookup_insert_eq (v : β) :
    (m.insert k v).lookup k' = if k' = k then some v else m.lookup k' := by
  split
  next heq =>
    rw [heq, AList.lookup_insert]
  · exact AList.lookup_insert_ne ‹_›

theorem lookup_erase_eq : (m.erase k).lookup k' = if k' = k then none else m.lookup k' := by
  split
  next heq =>
    rw [heq, AList.lookup_erase]
  · exact AList.lookup_erase_ne ‹_›

end Maps

theorem wf_new (o : Options) : (Head.new o).Wf where
  id_eq h := by cases h
  shard_of h := by cases h
  of_shard h := by cases h
  le_nextID h := by cases h

theorem ascending_content (h : Head o) (key : GoString) :
    Ascending Sample.t (h.content key) := by
  unfold Head.content
  cases h.find key with
  | none => exact List.Pairwise.nil
  | some ms => exact ms.ascending

variable {key : GoString} {ms' : MemSeries o.blockRange}

theorem find_eq_some_iff (hw : h.Wf) :
    h.find key = some ms ↔ h.byID.lookup ms.id = some ms ∧ ms.ref.key = key := by
  unfold Head.find
  constructor
  · intro hf
    obtain ⟨id, hid, hms⟩ := Option.bind_eq_some_iff.mp hf
    obtain ⟨ms', hms', hkey⟩ := hw.of_shard hid
    rw [hms] at hms'
    cases hms'
    rw [hw.id_eq hms]
    exact ⟨hms, hkey⟩
  · rintro ⟨hms, rfl⟩
    rw [hw.shard_of hms, Option.bind_some, hms]

theorem content_of_lookup (hw : h.Wf) (hms : h.byID.lookup id = some ms) :
    h.content ms.ref.key = ms.samples := by
  unfold Head.content
  rw [(find_eq_some_iff hw).mpr ⟨by rw [hw.id_eq hms]; exact hms, rfl⟩]
  rfl

theorem content_of_shard_none (hkey : h.shards.lookup key = none) : h.content key = [] := by
  unfold Head.content Head.find
  rw [hkey]
  rfl

theorem find_congr (hshard : h'.shards.lookup key = h.shards.lookup key)
    (hbyID : ∀ {id}, h.shards.lookup key = some id → h'.byID.lookup id = h.byID.lookup id) :
    h'.find key = h.find key := by
  unfold Head.find
  rw [hshard]
  cases hk : h.shards.lookup key with
  | none => rfl
  | some id => exact hbyID hk

/-- Another key leads to another id. -/
theorem Head.Wf.ne_of_key (hw : h.Wf) (hms : h.byID.lookup id = some ms) {id' : ℕ}
    (hne : key ≠ ms.ref.key) (hkey : h.shards.lookup key = some id') : id' ≠ id := by
  rintro rfl
  obtain ⟨ms', hms', hk⟩ := hw.of_shard hkey
  rw [hms] at hms'
  cases hms'
  exact hne hk.symm

/-- Two heads whose maps lead to the same series, up to what each series holds. -/
structure SameShape (h h' : Head o) : Prop where
  shards : h'.shards = h.shards
  nextID : h'.nextID = h.nextID
  minValid : h'.minValid = h.minValid
  series : ∀ id, (h'.byID.lookup id).map (fun ms => (ms.id, ms.ref)) =
    (h.byID.lookup id).map (fun ms => (ms.id, ms.ref))

theorem SameShape.refl (h : Head o) : SameShape h h := ⟨rfl, rfl, rfl, fun _ => rfl⟩

theorem SameShape.trans {h'' : Head o} (hs : SameShape h h') (hs' : SameShape h' h'') :
    SameShape h h'' where
  shards := hs'.shards.trans hs.shards
  nextID := hs'.nextID.trans hs.nextID
  minValid := hs'.minValid.trans hs.minValid
  series id := (hs'.series id).trans (hs.series id)

/-- The series of the other head under the same id. -/
theorem SameShape.lookup (hs : SameShape h h') (hms : h'.byID.lookup id = some ms) :
    ∃ ms', h.byID.lookup id = some ms' ∧ ms'.id = ms.id ∧ ms'.ref = ms.ref := by
  have heq := hs.series id
  rw [hms] at heq
  obtain ⟨ms', hms', hpair⟩ := Option.map_eq_some_iff.mp heq.symm
  exact ⟨ms', hms', congrArg Prod.fst hpair, congrArg Prod.snd hpair⟩

theorem SameShape.symm (hs : SameShape h h') : SameShape h' h :=
  ⟨hs.shards.symm, hs.nextID.symm, hs.minValid.symm, fun id => (hs.series id).symm⟩

theorem SameShape.wf (hs : SameShape h h') (hw : h.Wf) : h'.Wf where
  id_eq hms := by
    obtain ⟨ms', hms', hid, -⟩ := hs.lookup hms
    rw [← hid]
    exact hw.id_eq hms'
  shard_of hms := by
    obtain ⟨ms', hms', -, href⟩ := hs.lookup hms
    rw [hs.shards, ← href]
    exact hw.shard_of hms'
  of_shard hkey := by
    rw [hs.shards] at hkey
    obtain ⟨ms, hms, rfl⟩ := hw.of_shard hkey
    obtain ⟨ms', hms', -, href⟩ := hs.symm.lookup hms
    exact ⟨ms', hms', by rw [href]⟩
  le_nextID hms := by
    obtain ⟨ms', hms', -, -⟩ := hs.lookup hms
    rw [hs.nextID]
    exact hw.le_nextID hms'

theorem lookup_update (h : Head o) (ms : MemSeries o.blockRange) (id : ℕ) :
    (h.update ms).byID.lookup id = if id = ms.id then some ms else h.byID.lookup id :=
  lookup_insert_eq _ _ _ _

/-- Writing a series that keeps its identity. -/
theorem sameShape_update (hms : h.byID.lookup id = some ms) (hid : ms'.id = id) (hold : ms.id = id)
    (href : ms'.ref = ms.ref) : SameShape h (h.update ms') where
  shards := rfl
  nextID := rfl
  minValid := rfl
  series id' := by
    rw [lookup_update]
    split
    next heq =>
      rw [heq, hid, hms, Option.map_some, Option.map_some, hid, hold, href]
    · rfl

theorem find_update (hw : h.Wf) (hms : h.byID.lookup ms'.id = some ms) (href : ms'.ref = ms.ref)
    (key : GoString) : (h.update ms').find key = if key = ms.ref.key then
      some ms' else h.find key := by
  have hs := sameShape_update hms rfl (hw.id_eq hms) href
  split
  next hkey =>
    rw [find_eq_some_iff (hs.wf hw), lookup_update, if_pos rfl, href, hkey]
    exact ⟨rfl, rfl⟩
  next hne =>
    refine find_congr (by rw [hs.shards]) (fun hk => ?_)
    rw [lookup_update, if_neg (hw.ne_of_key hms hne hk)]

/-- What writing one series does to the contents. -/
theorem content_update (hw : h.Wf) (hms : h.byID.lookup id = some ms) (hid : ms'.id = id)
    (href : ms'.ref = ms.ref) (key : GoString) :
    (h.update ms').content key = if key = ms.ref.key then ms'.samples else h.content key := by
  subst hid
  unfold Head.content
  rw [find_update hw hms href]
  split <;> rfl

theorem lookup_forget (id : ℕ) (ref : SeriesRef) (id' : ℕ) :
    (h.forget id ref).byID.lookup id' = if id' = id then none else h.byID.lookup id' := by
  unfold Head.forget
  cases hid : h.byID.lookup id with
  | none =>
    change h.byID.lookup id' = _
    split
    next heq =>
      rw [heq, hid]
    · rfl
  | some ms => exact lookup_erase_eq _ _ _

theorem shards_forget (hms : h.byID.lookup id = some ms) :
    (h.forget id ms.ref).shards = h.shards.erase ms.ref.key := by
  unfold Head.forget
  rw [hms]

theorem nextID_forget (h : Head o) (id : ℕ) (ref : SeriesRef) :
    (h.forget id ref).nextID = h.nextID := by
  unfold Head.forget
  split <;> rfl

theorem wf_forget (hw : h.Wf) (hms : h.byID.lookup id = some ms) : (h.forget id ms.ref).Wf := by
  have hshards := shards_forget hms
  have hkept : ∀ {id' ms'}, (h.forget id ms.ref).byID.lookup id' = some ms' →
      id' ≠ id ∧ h.byID.lookup id' = some ms' := by
    intro id' ms' hlook
    rw [lookup_forget] at hlook
    split at hlook
    · cases hlook
    · exact ⟨‹_›, hlook⟩
  refine ⟨?_, ?_, ?_, ?_⟩
  · exact fun hlook => hw.id_eq (hkept hlook).2
  · intro id' ms' hlook
    obtain ⟨hne, hlook⟩ := hkept hlook
    have hkey : ms'.ref.key ≠ ms.ref.key := by
      intro hk
      have h1 := hw.shard_of hlook
      rw [hk, hw.shard_of hms] at h1
      cases h1
      exact hne rfl
    rw [hshards, AList.lookup_erase_ne hkey]
    exact hw.shard_of hlook
  · intro key id' hkey
    rw [hshards, lookup_erase_eq] at hkey
    split at hkey
    · cases hkey
    rename_i hne
    obtain ⟨ms', hms', hk⟩ := hw.of_shard hkey
    refine ⟨ms', ?_, hk⟩
    rw [lookup_forget, if_neg (hw.ne_of_key hms hne hkey)]
    exact hms'
  · intro id' ms' hlook
    rw [nextID_forget]
    exact hw.le_nextID (hkept hlook).2

theorem content_forget (hw : h.Wf) (hms : h.byID.lookup id = some ms) (key : GoString) :
    (h.forget id ms.ref).content key = if key = ms.ref.key then [] else h.content key := by
  split
  next heq =>
    apply content_of_shard_none
    rw [shards_forget hms, heq, AList.lookup_erase]
  next hne =>
    have hfind : (h.forget id ms.ref).find key = h.find key := by
      refine find_congr (by rw [shards_forget hms, AList.lookup_erase_ne hne]) (fun hk => ?_)
      rw [lookup_forget, if_neg (hw.ne_of_key hms hne hk)]
    unfold Head.content
    rw [hfind]

theorem minValid_forget (h : Head o) (id : ℕ) (ref : SeriesRef) :
    (h.forget id ref).minValid = h.minValid := by
  unfold Head.forget
  split <;> rfl

structure Forgets (ids : List ℕ) (h h' : Head o) : Prop where
  wf : h'.Wf
  content : ∀ key, h'.content key = h.content key
  minValid : h'.minValid = h.minValid
  nextID : h'.nextID = h.nextID
  kept : ∀ {id ms}, h'.byID.lookup id = some ms →
    h.byID.lookup id = some ms ∧ (id ∈ ids → ms.chunks ≠ [])

/-- The series stays, or there is none. -/
theorem Forgets.skip {ids : List ℕ} (hrest : Forgets ids h h')
    (hid : ∀ ms, h.byID.lookup id = some ms → ms.chunks ≠ []) : Forgets (id :: ids) h h' := by
  refine ⟨hrest.wf, hrest.content, hrest.minValid, hrest.nextID, ?_⟩
  intro id' ms' hms'
  obtain ⟨hold, hne⟩ := hrest.kept hms'
  refine ⟨hold, fun hmem => ?_⟩
  rcases List.mem_cons.mp hmem with rfl | hmem
  · exact hid ms' hold
  · exact hne hmem

theorem forgets_empty (hw : h.Wf) (ids : List ℕ) : Forgets ids h (h.forgetEmpty ids) := by
  fun_induction Head.forgetEmpty h ids with
  | case1 h => exact ⟨hw, fun _ => rfl, rfl, rfl, fun hms => ⟨hms, by simp⟩⟩
  | case2 h id ids hnone ih => exact (ih hw).skip (by simp [hnone])
  | case3 h id ids ms hms hnil ih =>
    have hrest := ih (wf_forget hw hms)
    have hempty : ms.samples = [] := ms.chunks_eq_nil_iff.mp hnil
    refine ⟨hrest.wf, ?_, ?_, ?_, ?_⟩
    · intro key
      rw [hrest.content, content_forget hw hms]
      split
      next heq =>
        rw [heq, content_of_lookup hw hms, hempty]
      · rfl
    · rw [hrest.minValid, minValid_forget]
    · rw [hrest.nextID, nextID_forget]
    · intro id' ms' hms'
      obtain ⟨hold, hne⟩ := hrest.kept hms'
      rw [lookup_forget] at hold
      split at hold
      · cases hold
      next hother =>
        exact ⟨hold, fun hmem => hne ((List.mem_cons.mp hmem).resolve_left hother)⟩
  | case4 h id ids ms hms hne ih =>
    refine (ih hw).skip (fun ms' hms' => ?_)
    rw [hms] at hms'
    cases hms'
    exact hne

theorem lookup_register (h : Head o) (ms : MemSeries o.blockRange) (id : ℕ) :
    (h.register ms).byID.lookup id = if id = ms.id then some ms else h.byID.lookup id :=
  lookup_insert_eq _ _ _ _

theorem shards_register (h : Head o) (ms : MemSeries o.blockRange) (key : GoString) :
    (h.register ms).shards.lookup key =
      if key = ms.ref.key then some ms.id else h.shards.lookup key :=
  lookup_insert_eq _ _ _ _

/-- A new series under a key and an id that are not in use. -/
theorem wf_register (hw : h.Wf) (hid : h.byID.lookup ms.id = none)
    (hkey : h.shards.lookup ms.ref.key = none) (hnext : ms.id ≤ h.nextID) : (h.register ms).Wf where
  id_eq hlook := by
    rw [lookup_register] at hlook
    split at hlook
    · cases hlook
      exact Eq.symm ‹_›
    · exact hw.id_eq hlook
  shard_of {id ms'} hlook := by
    rw [lookup_register] at hlook
    rw [shards_register]
    split at hlook
    · cases hlook
      rw [if_pos rfl]
      exact congrArg some (Eq.symm ‹_›)
    · have hother : ms'.ref.key ≠ ms.ref.key := by
        intro hk
        have h1 := hw.shard_of hlook
        rw [hk, hkey] at h1
        cases h1
      rw [if_neg hother]
      exact hw.shard_of hlook
  of_shard {key id} hk := by
    rw [shards_register] at hk
    split at hk
    · cases hk
      exact ⟨ms, by rw [lookup_register, if_pos rfl], Eq.symm ‹_›⟩
    · obtain ⟨ms', hms', hkey'⟩ := hw.of_shard hk
      refine ⟨ms', ?_, hkey'⟩
      rw [lookup_register, if_neg]
      · exact hms'
      · rintro rfl
        rw [hid] at hms'
        cases hms'
  le_nextID hlook := by
    rw [lookup_register] at hlook
    split at hlook
    next heq =>
      rw [heq]
      exact hnext
    · exact hw.le_nextID hlook

theorem find_register (hw : h.Wf) (hid : h.byID.lookup ms.id = none) (key : GoString) :
    (h.register ms).find key = if key = ms.ref.key then some ms else h.find key := by
  split
  next heq =>
    unfold Head.find
    rw [shards_register, if_pos heq, Option.bind_some, lookup_register, if_pos rfl]
  next hne =>
    refine find_congr (by rw [shards_register, if_neg hne]) (fun hk => ?_)
    obtain ⟨ms', hms', -⟩ := hw.of_shard hk
    rw [lookup_register, if_neg]
    rintro rfl
    rw [hid] at hms'
    cases hms'

theorem content_register (hw : h.Wf) (hid : h.byID.lookup ms.id = none)
    (hkey : h.shards.lookup ms.ref.key = none) (hempty : ms.samples = []) (key : GoString) :
    (h.register ms).content key = h.content key := by
  unfold Head.content
  rw [find_register hw hid]
  split
  next heq =>
    rw [Head.find, heq, hkey, Option.map_some, hempty]
    rfl
  · rfl

end Ozymandias.HeadModel
