import Ozymandias.HeadReplay
import Mathlib.Data.Finset.Card

/-!
The head's books: the map by key, the map by id, the index and the counts per
metric speak of the same series, through everything that creates, restores and
forgets them. Every operation is a sequence of four moves on the books, and
each move keeps them; the series' own chunks carry their invariant.
-/
namespace Ozymandias.HeadBooks

open WalFrame SeriesModel HeadSeries HeadRecords HeadModel HeadAppend HeadReplay
  GorillaChunk Peaks Postings IndexSelect

variable {o : Options}

def live (h : Head o) (id : ℕ) : Option SeriesRef := (h.byID.lookup id).map MemSeries.ref

def seriesOf (h : Head o) (metric : GoString) : Finset ℕ :=
  h.byID.keys.toFinset.filter
    (fun id => ((h.byID.lookup id).any (fun ms => decide (ms.ref.metric = metric))) = true)

variable {h : Head o} {σ : Type} {minValid : ℤ} {recs : List Record}

theorem mem_seriesOf {metric : GoString} {id : ℕ} :
    id ∈ seriesOf h metric ↔ ∃ ms, h.byID.lookup id = some ms ∧ ms.ref.metric = metric := by
  unfold seriesOf
  rw [Finset.mem_filter, List.mem_toFinset, ← AList.mem_keys, ← AList.lookup_isSome]
  cases h.byID.lookup id with
  | none => simp
  | some ms => simp

/-- The maps lead to each other, the index files the live series, and each metric's count is
the number of its series. -/
structure Books (h : Head o) : Prop where
  wf : h.Wf
  filed : Filed h.postings (live h)
  counted : ∀ metric, (h.perMetric.lookup metric).getD 0 = (seriesOf h metric).card

def Limited (h : Head o) : Prop :=
  0 < o.maxSeriesPerMetric → ∀ metric, (h.perMetric.lookup metric).getD 0 ≤ o.maxSeriesPerMetric

/-- What can happen to the books. Only a replay creates series without asking for the limit. -/
inductive Move (replaying : Bool) : Head o → Head o → Prop
  | write {h : Head o} {ms ms' : MemSeries o.blockRange} (hms : h.byID.lookup ms'.id = some ms)
      (href : ms'.ref = ms.ref) : Move replaying h (h.update ms')
  | create {h : Head o} (id : ℕ) (ref : SeriesRef) (logged : Bool)
      (hkey : h.shards.lookup ref.key = none) (hid : h.byID.lookup id = none)
      (hnext : id ≤ h.nextID)
      (hlimit : replaying = true ∨ ¬ (0 < o.maxSeriesPerMetric ∧
        o.maxSeriesPerMetric ≤ (h.perMetric.lookup ref.metric).getD 0)) :
      Move replaying h (h.register (MemSeries.fresh o.blockRange id ref logged))
  | forget {h : Head o} {id : ℕ} {ms : MemSeries o.blockRange} (hms : h.byID.lookup id = some ms) :
      Move replaying h (h.forget id ms.ref)
  | other {h h' : Head o} (hshards : h'.shards = h.shards) (hbyID : h'.byID = h.byID)
      (hmetric : h'.perMetric = h.perMetric) (hpostings : h'.postings = h.postings)
      (hnext : h.nextID ≤ h'.nextID) : Move replaying h h'

variable {r : Bool} {h h' : Head o} {id : ℕ} {ms ms' : MemSeries o.blockRange}
  {st st' : ReplayState o} {ref : SeriesRef} {m : GoString}

/-- What every move keeps. -/
theorem Move.nextID_le (hm : Move r h h') : h.nextID ≤ h'.nextID := by
  cases hm with
  | write hms href => exact le_rfl
  | create id ref logged hkey hid hnext hlimit => exact le_rfl
  | forget hms => exact le_of_eq (nextID_forget ..).symm
  | other hshards hbyID hmetric hpostings hnext => exact hnext

theorem live_update (hms : h.byID.lookup ms'.id = some ms) (href : ms'.ref = ms.ref) :
    live (h.update ms') = live h := by
  funext id
  unfold live
  rw [lookup_update]
  split
  next heq =>
    rw [heq, hms, Option.map_some, Option.map_some, href]
  · rfl

theorem live_register (h : Head o) (ms : MemSeries o.blockRange) :
    live (h.register ms) = Function.update (live h) ms.id (some ms.ref) := by
  funext id
  unfold live
  rw [lookup_register]
  by_cases hid : id = ms.id
  · rw [if_pos hid, hid, Function.update_self]
    rfl
  · rw [if_neg hid, Function.update_of_ne hid]

theorem live_forget (h : Head o) (id : ℕ) (ref : SeriesRef) :
    live (h.forget id ref) = Function.update (live h) id none := by
  funext id'
  unfold live
  rw [lookup_forget]
  by_cases hid : id' = id
  · rw [if_pos hid, hid, Function.update_self]
    rfl
  · rw [if_neg hid, Function.update_of_ne hid]

theorem mem_seriesOf_live :
    id ∈ seriesOf h m ↔ ∃ ref, live h id = some ref ∧ ref.metric = m := by
  rw [mem_seriesOf]
  unfold live
  simp

theorem seriesOf_eq_of_live (heq : live h' = live h) (metric : GoString) :
    seriesOf h' metric = seriesOf h metric := by
  ext id
  rw [mem_seriesOf_live, mem_seriesOf_live, heq]

theorem live_none (hid : h.byID.lookup id = none) : live h id = none := by
  unfold live
  rw [hid]
  rfl

theorem mem_seriesOf_update {x : Option SeriesRef} (hlive : live h' = Function.update (live h) id x)
    {id' : ℕ} : id' ∈ seriesOf h' m ↔
      if id' = id then ∃ ref, x = some ref ∧ ref.metric = m else id' ∈ seriesOf h m := by
  rw [mem_seriesOf_live, hlive, mem_seriesOf_live]
  split
  next heq => rw [heq, Function.update_self]
  next hne => rw [Function.update_of_ne hne]

/-- A new id joins its metric's series and no other's. -/
theorem seriesOf_insert (hlive : live h' = Function.update (live h) id (some ref))
    (hid : live h id = none) :
    seriesOf h' m =
      if m = ref.metric then insert id (seriesOf h m) else seriesOf h m := by
  ext id'
  rw [mem_seriesOf_update hlive]
  by_cases hmetric : m = ref.metric
  · split
    next heq => simp [heq, hmetric]
    next hne => simp [hne]
  · split
    next heq =>
      rw [mem_seriesOf_live, heq, hid]
      simp [Ne.symm hmetric]
    next => rfl

theorem seriesOf_erase (hlive : live h' = Function.update (live h) id none) :
    seriesOf h' m = (seriesOf h m).erase id := by
  ext id'
  rw [mem_seriesOf_update hlive]
  split
  next heq => simp [heq]
  next hne => simp [hne]

theorem count_create (h : Head o) (id : ℕ) (ref : SeriesRef) (logged : Bool) (metric : GoString) :
    ((h.register (MemSeries.fresh o.blockRange id ref logged)).perMetric.lookup metric).getD 0 =
      if metric = ref.metric then (h.perMetric.lookup metric).getD 0 + 1
      else (h.perMetric.lookup metric).getD 0 := by
  split
  next hmetric =>
    rw [hmetric]
    exact congrArg (Option.getD · 0) (AList.lookup_insert _)
  next hne => exact congrArg (Option.getD · 0) (AList.lookup_insert_ne hne)

theorem count_forget (hms : h.byID.lookup id = some ms) (metric : GoString) :
    ((h.forget id ms.ref).perMetric.lookup metric).getD 0 =
      if metric = ms.ref.metric then max ((h.perMetric.lookup metric).getD 0 - 1) 0
      else (h.perMetric.lookup metric).getD 0 := by
  unfold Head.forget
  rw [hms]
  dsimp only
  by_cases hmetric : metric = ms.ref.metric
  · rw [if_pos hmetric, hmetric]
    split
    · rw [AList.lookup_erase, Option.getD_none]
      omega
    · rw [AList.lookup_insert, Option.getD_some]
      omega
  · split
    · rw [AList.lookup_erase_ne hmetric]
    · rw [AList.lookup_insert_ne hmetric]

theorem books_write (hb : Books h) (hms : h.byID.lookup ms'.id = some ms)
    (href : ms'.ref = ms.ref) :
    Books (h.update ms') := by
  have hlive := live_update hms href
  have hshape := sameShape_update hms rfl (hb.wf.id_eq hms) href
  refine ⟨hshape.wf hb.wf, ?_, fun metric => ?_⟩
  · rw [hlive]
    exact hb.filed
  · rw [seriesOf_eq_of_live hlive]
    exact hb.counted metric

theorem books_create (hb : Books h) (ref : SeriesRef) (logged : Bool)
    (hkey : h.shards.lookup ref.key = none) (hid : h.byID.lookup id = none)
    (hnext : id ≤ h.nextID) :
    Books (h.register (MemSeries.fresh o.blockRange id ref logged)) := by
  have hlive : live (h.register (MemSeries.fresh o.blockRange id ref logged)) =
      Function.update (live h) id (some ref) := live_register h _
  refine ⟨wf_register hb.wf hid hkey hnext, ?_, fun metric => ?_⟩
  · rw [hlive]
    exact hb.filed.add (live_none hid) ref
  · have hfresh : id ∉ seriesOf h metric := by
      rw [mem_seriesOf, hid]
      simp
    rw [seriesOf_insert hlive (live_none hid), count_create, hb.counted]
    split
    · rw [Finset.card_insert_of_notMem hfresh, Nat.cast_succ]
    · rfl

theorem books_forget (hb : Books h) (hms : h.byID.lookup id = some ms) :
    Books (h.forget id ms.ref) := by
  have hlive := live_forget h id ms.ref
  have hold : live h id = some ms.ref := by
    unfold live
    rw [hms]
    rfl
  have hpost : (h.forget id ms.ref).postings = h.postings.delete id ms.ref := by
    unfold Head.forget
    rw [hms]
  refine ⟨wf_forget hb.wf hms, ?_, fun metric => ?_⟩
  · rw [hlive, hpost]
    exact hb.filed.delete (.inl hold)
  · rw [seriesOf_erase hlive, count_forget hms, hb.counted]
    have hmem : id ∈ seriesOf h metric ↔ metric = ms.ref.metric := by
      rw [mem_seriesOf, hms]
      simp [eq_comm]
    split
    next hmetric =>
      rw [Finset.card_erase_of_mem (hmem.mpr hmetric)]
      omega
    next hne => rw [Finset.erase_eq_of_notMem (mt hmem.mp hne)]

theorem Move.books (hm : Move r h h') (hb : Books h) : Books h' := by
  cases hm with
  | write hms href => exact books_write hb hms href
  | create id ref logged hkey hid hnext hlimit => exact books_create hb ref logged hkey hid hnext
  | forget hms => exact books_forget hb hms
  | other hshards hbyID hmetric hpostings hnext =>
    have hlive : live h' = live h := by
      unfold live
      rw [hbyID]
    refine ⟨⟨?_, ?_, ?_, ?_⟩, ?_, fun metric => ?_⟩
    · rw [hbyID]
      exact hb.wf.id_eq
    · rw [hbyID, hshards]
      exact hb.wf.shard_of
    · rw [hbyID, hshards]
      exact hb.wf.of_shard
    · rw [hbyID]
      exact fun hms => (hb.wf.le_nextID hms).trans hnext
    · rw [hpostings, hlive]
      exact hb.filed
    · rw [hmetric, seriesOf_eq_of_live hlive]
      exact hb.counted metric

/-- Without a replay no move passes the limit. -/
theorem Move.limited (hm : Move false h h') (hl : Limited h) : Limited h' := by
  intro hpos metric
  cases hm with
  | write hms href => exact hl hpos metric
  | create id ref logged hkey hid hnext hlimit =>
    rw [count_create]
    split
    next hmetric =>
      have hroom := hlimit.resolve_left (by decide)
      rw [hmetric]
      omega
    next => exact hl hpos metric
  | forget hms =>
    have hbound := hl hpos metric
    rw [count_forget hms]
    split <;> omega
  | other hshards hbyID hmetric hpostings hnext =>
    rw [hmetric]
    exact hl hpos metric

abbrev Moves (replaying : Bool) : Head o → Head o → Prop := Relation.ReflTransGen (Move replaying)

theorem Moves.books (hm : Moves r h h') (hb : Books h) : Books h' := by
  induction hm with
  | refl => exact hb
  | tail _ hstep ih => exact hstep.books ih

theorem Moves.limited (hm : Moves false h h') (hl : Limited h) : Limited h' := by
  induction hm with
  | refl => exact hl
  | tail _ hstep ih => exact hstep.limited ih

theorem Moves.nextID_le (hm : Moves r h h') : h.nextID ≤ h'.nextID := by
  induction hm with
  | refl => exact le_rfl
  | tail _ hstep ih => exact ih.trans hstep.nextID_le

theorem free_above (hb : Books h) {id : ℕ} (hid : h.nextID < id) : h.byID.lookup id = none := by
  cases hms : h.byID.lookup id with
  | none => rfl
  | some ms => exact absurd (hb.wf.le_nextID hms) (not_le.mpr hid)

theorem moves_getOrCreate (hb : Books h) (ref : SeriesRef) :
    Moves false h (h.getOrCreate ref).1 := by
  unfold Head.getOrCreate
  cases hkey : h.shards.lookup ref.key with
  | some id => exact .refl
  | none =>
    by_cases hlimit : 0 < o.maxSeriesPerMetric ∧
        o.maxSeriesPerMetric ≤ (h.perMetric.lookup ref.metric).getD 0
    · rw [if_pos hlimit]
      exact .single (.other rfl rfl rfl rfl le_rfl)
    · rw [if_neg hlimit]
      refine .tail (.single (@Move.other _ _ h { h with nextID := h.nextID + 1 } rfl rfl rfl rfl
        (Nat.le_succ _))) ?_
      exact .create (h.nextID + 1) ref false hkey (free_above hb (Nat.lt_succ_self _)) le_rfl
        (.inr hlimit)

theorem moves_resolve (hb : Books h) (minValid : ℤ) (batch : List (SeriesRef × Sample)) :
    Moves false h (h.resolve minValid batch).head := by
  induction batch generalizing h with
  | nil => exact .refl
  | cons p rest ih =>
    obtain ⟨ref, s⟩ := p
    have hcreate := moves_getOrCreate hb ref
    unfold Head.resolve
    split
    · exact ih hb
    · split
      next h' e heq =>
        rw [heq] at hcreate
        exact hcreate.trans (ih (hcreate.books hb))
      next h' id isNew heq =>
        rw [heq] at hcreate
        exact hcreate.trans (ih (hcreate.books hb))

/-- Writing a series through its pointer. -/
theorem moves_write (hb : Books h) (hms : h.byID.lookup id = some ms) (hid : ms'.id = ms.id)
    (href : ms'.ref = ms.ref) :
    Moves r h (h.update ms') := by
  refine .single (.write ?_ href)
  rw [hid, hb.wf.id_eq hms]
  exact hms

theorem moves_markPending (hb : Books h) (ids : List ℕ) :
    Moves false h (h.markPending ids).1 := by
  fun_induction Head.markPending h ids with
  | case1 => exact .refl
  | case2 h id ids hnone ih => exact ih hb
  | case3 h id ids ms hms hlogged ih => exact ih hb
  | case4 h id ids ms hms hlogged marked pending heq ih =>
    have hwrite : Moves false h (h.update (ms.setLogged true)) := moves_write hb hms rfl rfl
    rw [heq] at ih
    exact hwrite.trans (ih (hwrite.books hb))

theorem moves_unmarkPending (hb : Books h) (pending : List (ℕ × SeriesRef)) :
    Moves false h (h.unmarkPending pending) := by
  fun_induction Head.unmarkPending h pending with
  | case1 => exact .refl
  | case2 h id _ pending hnone ih => exact ih hb
  | case3 h id _ pending ms hms ih =>
    have hwrite : Moves false h (h.update (ms.setLogged false)) := moves_write hb hms rfl rfl
    exact hwrite.trans (ih (hwrite.books hb))

theorem moves_appendTo (hb : Books h) (id : ℕ) (s : Sample) (minValid : ℤ) :
    Moves r h (h.appendTo id s minValid).1 := by
  unfold Head.appendTo
  cases hms : h.byID.lookup id with
  | none => exact .refl
  | some ms => exact moves_write hb hms (id_appendTo ..) (ref_appendTo ..)

theorem moves_applyAll (hb : Books h) (minValid : ℤ) (batch : List (SeriesRef × Sample))
    (targets : List (Except HeadErr ℕ)) :
    Moves false h (h.applyAll minValid batch targets).1 := by
  induction batch generalizing h targets with
  | nil => exact .refl
  | cons p batch ih =>
    cases targets with
    | nil => exact .refl
    | cons target targets =>
      cases target with
      | error e => exact ih hb targets
      | ok id =>
        have happ : Moves false h (h.appendTo id p.2 minValid).1 :=
          moves_appendTo hb id p.2 minValid
        exact happ.trans (ih (happ.books hb) targets)

theorem moves_forgetEmpty (hb : Books h) (ids : List ℕ) :
    Moves false h (h.forgetEmpty ids) := by
  fun_induction Head.forgetEmpty h ids with
  | case1 => exact .refl
  | case2 h id ids hnone ih => exact ih hb
  | case3 h id ids ms hms hnil ih =>
    have hforget : Moves false h (h.forget id ms.ref) := .single (.forget hms)
    exact hforget.trans (ih (hforget.books hb))
  | case4 h id ids ms hms hne ih => exact ih hb

theorem moves_countDropped {α : Type} (h : Head o) (outcomes : List (Except HeadErr α)) :
    Moves false h (h.countDropped outcomes) :=
  .single (.other rfl rfl rfl rfl le_rfl)

theorem moves_prepare (hb : Books h) (batch : List (SeriesRef × Sample)) :
    Moves false (h.prepare batch).resolution.head (h.prepare batch).marked :=
  moves_markPending ((moves_resolve hb h.minValid batch).books hb) _

theorem moves_append (hb : Books h) (log : σ → List Record → σ × Bool) (w : σ)
    {refs : List SeriesRef} {samples : List Sample} (hlen : refs.length = samples.length) :
    Moves false (h.prepare (refs.zip samples)).resolution.head (h.append log w refs samples).1 := by
  have hb' := (moves_resolve hb h.minValid (refs.zip samples)).books hb
  have hmark := moves_prepare hb (refs.zip samples)
  set p := h.prepare (refs.zip samples)
  have hrollback : Moves false p.resolution.head p.rollback.1 := by
    have hun := moves_unmarkPending (hmark.books hb') p.pending
    have hforget := moves_forgetEmpty (hun.books (hmark.books hb')) p.resolution.created
    exact ((hmark.trans hun).trans hforget).trans (moves_countDropped _ _)
  rcases append_cases h log w refs samples with
    ⟨hne, -⟩ | ⟨-, ⟨-, happ⟩ | ⟨-, ⟨-, happ⟩ | ⟨-, happ⟩⟩⟩
  · exact absurd hlen hne
  · rw [happ]
    exact hrollback
  · rw [happ]
    exact hrollback
  · rw [happ]
    have happly := moves_applyAll (hmark.books hb') h.minValid (refs.zip samples)
      p.resolution.targets
    have hforget := moves_forgetEmpty (happly.books (hmark.books hb')) p.resolution.created
    exact ((hmark.trans happly).trans hforget).trans (moves_countDropped _ _)

theorem moves_truncateSeries (hb : Books h) (mint : ℤ) (id : ℕ) :
    Moves false h (h.truncateSeries mint id) := by
  unfold Head.truncateSeries
  cases hms : h.byID.lookup id with
  | none => exact .refl
  | some ms =>
    have hwrite : Moves false h (h.update (ms.truncate mint)) := moves_write hb hms rfl rfl
    dsimp only
    split
    · refine hwrite.tail ?_
      have hlook : (h.update (ms.truncate mint)).byID.lookup id = some (ms.truncate mint) := by
        rw [lookup_update, if_pos]
        exact (hb.wf.id_eq hms).symm
      have hforget : Move false _
        ((h.update (ms.truncate mint)).forget id (ms.truncate mint).ref) :=
        .forget hlook
      exact hforget
    · exact hwrite

theorem moves_truncateAll (hb : Books h) (mint : ℤ) (ids : List ℕ) :
    Moves false h (ids.foldl (fun h id => h.truncateSeries mint id) h) := by
  induction ids generalizing h with
  | nil => exact .refl
  | cons id ids ih =>
    have hstep := moves_truncateSeries hb mint id
    exact hstep.trans (ih (hstep.books hb))

theorem moves_truncate (hb : Books h) (mint : ℤ) : Moves false h (h.truncate mint) := by
  have hbound : Moves false h { h with minValid := mint } :=
    .single (.other rfl rfl rfl rfl le_rfl)
  exact hbound.trans (moves_truncateAll (hbound.books hb) mint _)

/-- A definition of the log; its id is not above the counter afterwards. -/
theorem moves_restoreSeries (hb : Books h) (id : ℕ) (ref : SeriesRef) :
    Moves true h (restoreSeries h id ref).1 ∧ id ≤ (restoreSeries h id ref).1.nextID := by
  unfold restoreSeries
  extract_lets counted
  have hcount : Moves true h counted := by
    simp only [counted]
    split
    next hlt =>
      exact .single (.other rfl rfl rfl rfl hlt.le)
    · exact .refl
  have hid : id ≤ counted.nextID := by
    simp only [counted]
    split
    · exact le_rfl
    next hge =>
      exact not_lt.mp hge
  have hbc := hcount.books hb
  cases hkey : counted.shards.lookup ref.key with
  | some existing => exact ⟨hcount, hid⟩
  | none =>
    cases hfree : counted.byID.lookup id with
    | some taken =>
      have hnext : Moves true counted { counted with nextID := counted.nextID + 1 } :=
        .single (.other rfl rfl rfl rfl (Nat.le_succ _))
      refine ⟨(hcount.trans hnext).tail ?_, hid.trans (Nat.le_succ _)⟩
      exact .create _ ref true hkey (free_above hbc (Nat.lt_succ_self _)) le_rfl (.inl rfl)
    | none => exact ⟨hcount.tail (.create id ref true hkey hfree hid (.inl rfl)), hid⟩

theorem moves_replaySample (hb : Books st.head) (minValid : ℤ) (s : LogSample) :
    Moves true st.head (replaySample minValid st s).head := by
  unfold replaySample
  cases st.byLogID.lookup s.id with
  | none => exact .refl
  | some ms =>
    have happ : Moves true st.head (st.head.appendTo ms s.sample minValid).1 :=
      moves_appendTo hb ms s.sample minValid
    dsimp only
    split
    all_goals
      rename_i heq
      rw [heq] at happ
      exact happ

theorem moves_replaySamples (hb : Books st.head) (minValid : ℤ) (batch : List LogSample) :
    Moves true st.head (batch.foldl (replaySample minValid) st).head := by
  induction batch generalizing st with
  | nil => exact .refl
  | cons s batch ih =>
    have hstep := moves_replaySample hb minValid s
    exact hstep.trans (ih (hstep.books hb))

theorem moves_replayRecord (hb : Books st.head) {rec : Record}
    (h : replayRecord minValid st rec = .ok st') : Moves true st.head st'.head := by
  unfold replayRecord at h
  split at h
  · split at h
    · cases h
    next id ref hdec =>
      cases h
      exact (moves_restoreSeries hb id ref).1
  · split at h
    · split at h
      · cases h
      next batch hdec =>
        cases h
        exact moves_replaySamples hb minValid batch
    · cases h
      exact .refl

theorem moves_replayRecords (hb : Books st.head) (h : replayRecords minValid st recs = .ok st') :
    Moves true st.head st'.head := by
  induction recs generalizing st with
  | nil =>
    cases h
    exact .refl
  | cons rec recs ih =>
    unfold replayRecords at h
    split at h
    · cases h
    next st₁ hrec =>
      have hstep := moves_replayRecord hb hrec
      exact hstep.trans (ih (hstep.books hb) h)

/-- A chunk holds some samples of one block range, between its first and its last time. -/
structure SoundChunk (r : ℤ) (c : MemChunk r) : Prop where
  nonempty : c.samples ≠ []
  capped : c.samples.length ≤ 120
  first : c.samples.head?.map Sample.t = some c.minT
  last : c.samples.getLast?.map Sample.t = some c.maxT
  oneBlock : ∀ s ∈ c.samples, blockOf s.t r = blockOf c.minT r

theorem soundChunk {r : ℤ} (c : MemChunk r) : SoundChunk r c where
  nonempty := by
    obtain ⟨s, rest, hs, -⟩ := c.exists_first
    rw [hs]
    exact List.cons_ne_nil _ _
  capped := c.capped
  first := c.minT_eq
  last := c.maxT_eq
  oneBlock := c.oneBlock

/-- The chunks of a series follow each other in time, up to the newest sample. -/
structure SoundSeries (r : ℤ) (ms : MemSeries r) : Prop where
  chunks : ∀ c ∈ ms.chunks, SoundChunk r c
  ascending : Ascending Sample.t ms.samples
  apart : ∀ before c after, ms.chunks = before ++ c :: after → ∀ c' ∈ after, c.maxT < c'.minT
  newest : ∀ s ∈ ms.samples, s.t ≤ ms.lastT
  attained : ms.chunks ≠ [] → ∃ s ∈ ms.samples, s.t = ms.lastT
  straddles : ∀ c ∈ ms.chunks, ∀ k : ℤ, c.minT < k * r → c.maxT < k * r

theorem soundSeries {r : ℤ} (hr : 0 < r) (ms : MemSeries r) : SoundSeries r ms where
  chunks c _ := soundChunk c
  ascending := ms.ascending
  apart before c after h c' hc' := ms.maxT_lt_minT before after c c' h hc'
  newest s hs := ms.le_lastT hs
  attained hne := by
    obtain ⟨front, s, hs, hst⟩ := ms.exists_last hne
    exact ⟨s, by rw [hs]; simp, hst⟩
  straddles c _ k hmin := by
    by_contra hmax
    obtain ⟨s, rest, hs, hst⟩ := c.exists_first
    have hbound := c.boundary hr k (not_lt.mp hmax) s (by rw [hs]; exact List.mem_cons_self)
    rw [hst] at hbound
    exact absurd hmin (not_lt.mpr hbound)

/-- A head with the ids that were ever used and whether a log was replayed into it. -/
structure Ledger (o : Options) where
  head : Head o
  used : Set ℕ
  replayed : Bool

def ids (h : Head o) : Set ℕ := { id | (h.byID.lookup id).isSome = true }

/-- The ids of the series once a batch is resolved, those created for it included. -/
def resolvedIDs (h : Head o) (refs : List SeriesRef) (samples : List Sample) : Set ℕ :=
  if refs.length = samples.length then ids (h.prepare (refs.zip samples)).resolution.head else ∅

def definedIDs (recs : List Record) : Set ℕ :=
  { id | ∃ rec ∈ recs, rec.typ = recordSeries ∧ ∃ ref, decodeSeries rec.data = .ok (id, ref) }

/-- One operation on a head. `Append` goes to any log, which may take the records or fail; the
ids of the series it created count as used even if they were forgotten again. A replay goes as
far as its records can be decoded. The 64-bit counter of ids has not passed its maximum. -/
inductive Step : Ledger o → Ledger o → Prop
  | append {σ : Type} {s : Ledger o} (log : σ → List Record → σ × Bool) (w : σ)
      (refs : List SeriesRef) (samples : List Sample)
      (hwrap : (s.head.append log w refs samples).1.nextID < 2 ^ 64) :
      Step s ⟨(s.head.append log w refs samples).1,
        s.used ∪ resolvedIDs s.head refs samples, s.replayed⟩
  | freeze {s : Ledger o} (mint : ℤ) : Step s { s with head := s.head.freeze mint }
  | truncate {s : Ledger o} (mint : ℤ) : Step s { s with head := s.head.truncate mint }
  | replay {s : Ledger o} (recs : List Record) (st : ReplayState o)
      (h : replayRecords s.head.minValid ⟨s.head, ∅, 0, 0⟩ recs = .ok st)
      (hwrap : st.head.nextID < 2 ^ 64) :
      Step s ⟨st.head, s.used ∪ ids st.head ∪ definedIDs recs, true⟩

def start (o : Options) : Ledger o := ⟨Head.new o, ∅, false⟩

def Reachable (s : Ledger o) : Prop := Relation.ReflTransGen Step (start o) s

structure Kept (s : Ledger o) : Prop where
  books : Books s.head
  used : ∀ id ∈ s.used, id ≤ s.head.nextID
  limited : s.replayed = false → Limited s.head

theorem books_new (o : Options) : Books (Head.new o) :=
  ⟨wf_new o, filed_new, fun _ => rfl⟩

theorem kept_start (o : Options) : Kept (start o) where
  books := books_new o
  used id hid := absurd hid (Set.notMem_empty id)
  limited _ hpos _ := hpos.le

theorem le_of_mem_ids (hb : Books h) (hid : id ∈ ids h) : id ≤ h.nextID := by
  obtain ⟨ms, hms⟩ := Option.isSome_iff_exists.mp hid
  exact hb.wf.le_nextID hms

theorem le_of_mem_definedIDs (hb : Books st.head) (h : replayRecords minValid st recs = .ok st')
    (hid : id ∈ definedIDs recs) : id ≤ st'.head.nextID := by
  induction recs generalizing st with
  | nil =>
    obtain ⟨rec, hrec, -⟩ := hid
    cases hrec
  | cons rec recs ih =>
    unfold replayRecords at h
    split at h
    · cases h
    next st₁ hrec =>
      have hstep := moves_replayRecord hb hrec
      have hb₁ := hstep.books hb
      obtain ⟨rec', hmem, htyp, ref, hdec⟩ := hid
      rcases List.mem_cons.mp hmem with rfl | hmem
      · have hrest := (moves_replayRecords hb₁ h).nextID_le
        unfold replayRecord at hrec
        rw [if_pos htyp, hdec] at hrec
        cases hrec
        exact (moves_restoreSeries hb id ref).2.trans hrest
      · exact ih hb₁ h ⟨rec', hmem, htyp, ref, hdec⟩

theorem kept_append {s : Ledger o} (hk : Kept s) (log : σ → List Record → σ × Bool) (w : σ)
    (refs : List SeriesRef) (samples : List Sample) :
    Kept ⟨(s.head.append log w refs samples).1,
      s.used ∪ resolvedIDs s.head refs samples, s.replayed⟩ := by
  unfold resolvedIDs
  by_cases hlen : refs.length = samples.length
  · have hresolve : Moves false s.head (s.head.prepare (refs.zip samples)).resolution.head :=
      moves_resolve hk.books s.head.minValid (refs.zip samples)
    have hb := hresolve.books hk.books
    have hmoves := moves_append hk.books log w hlen
    have hall : Moves false s.head (s.head.append log w refs samples).1 := hresolve.trans hmoves
    rw [if_pos hlen]
    refine ⟨hall.books hk.books, ?_, fun hno => hall.limited (hk.limited hno)⟩
    rintro id (hid | hid)
    · exact (hk.used id hid).trans hall.nextID_le
    · exact (le_of_mem_ids hb hid).trans hmoves.nextID_le
  · have hsame : (s.head.append log w refs samples).1 = s.head := by
      unfold Head.append
      rw [if_pos hlen]
    rw [if_neg hlen, hsame, Set.union_empty]
    exact hk

theorem Kept.moves {s : Ledger o} (hk : Kept s) (hm : Moves false s.head h) :
    Kept { s with head := h } where
  books := hm.books hk.books
  used id hid := (hk.used id hid).trans hm.nextID_le
  limited hno := hm.limited (hk.limited hno)

theorem kept_step {s s' : Ledger o} (hk : Kept s) (hstep : Step s s') : Kept s' := by
  cases hstep with
  | append log w refs samples hwrap => exact kept_append hk log w refs samples
  | freeze mint => exact hk.moves (.single (.other rfl rfl rfl rfl le_rfl))
  | truncate mint => exact hk.moves (moves_truncate hk.books mint)
  | replay recs st h hwrap =>
    have hm : Moves true s.head st.head := moves_replayRecords hk.books h
    refine ⟨hm.books hk.books, ?_, fun hno => Bool.noConfusion hno⟩
    rintro id ((hid | hid) | hid)
    · exact (hk.used id hid).trans hm.nextID_le
    · exact le_of_mem_ids (hm.books hk.books) hid
    · exact le_of_mem_definedIDs hk.books h hid

theorem kept_reachable {s : Ledger o} (h : Reachable s) : Kept s := by
  induction h with
  | refl => exact kept_start o
  | tail _ hstep ih => exact kept_step ih hstep

/-- A series that was not there before an `Append` has samples after it. -/
theorem filled_of_new (hw : h.Wf) (log : σ → List Record → σ × Bool) (w : σ) (refs : List SeriesRef)
    (samples : List Sample) (hms : (h.append log w refs samples).1.byID.lookup id = some ms)
    (hnew : h.byID.lookup id = none) : ms.chunks ≠ [] := by
  have hp := ready_prepare (refs.zip samples) hw
  set p := h.prepare (refs.zip samples)
  have hext := hp.resolves.extends_head
  have hwm := hp.marks.shape.wf hext.wf
  have hcreated : ∀ {g : Head o}, SameShape p.marked g →
      (g.forgetEmpty p.resolution.created).byID.lookup id = some ms → ms.chunks ≠ [] := by
    intro g hshape hlook
    have hf := forgets_empty (hshape.wf hwm) p.resolution.created
    obtain ⟨hkept, hfull⟩ := hf.kept hlook
    obtain ⟨ms₁, hms₁, -, -⟩ := hshape.lookup hkept
    obtain ⟨ms₀, hms₀, -, -⟩ := hp.marks.shape.lookup hms₁
    rcases hext.new hms₀ with hold | ⟨hmem, -⟩
    · rw [hnew] at hold
      cases hold
    · exact hfull hmem
  have hrollback : p.rollback.1.byID.lookup id = some ms → ms.chunks ≠ [] :=
    fun hlook => hcreated (unmarkPending_spec hwm p.pending).shape hlook
  rcases append_cases h log w refs samples with
    ⟨-, happ⟩ | ⟨-, ⟨-, happ⟩ | ⟨-, ⟨-, happ⟩ | ⟨-, happ⟩⟩⟩
  · rw [happ] at hms
    rw [hnew] at hms
    cases hms
  · rw [happ] at hms
    exact hrollback hms
  · rw [happ] at hms
    exact hrollback hms
  · rw [happ] at hms
    exact hcreated (sameShape_applyAll hwm h.minValid (refs.zip samples) p.resolution.targets) hms

structure Bookkeeping (s : Ledger o) : Prop where
  shards : ∀ key id, s.head.shards.lookup key = some id ↔
    ∃ ms, s.head.byID.lookup id = some ms ∧ ms.ref.key = key
  ids : ∀ id ms, s.head.byID.lookup id = some ms → ms.id = id
  index : Indexes s.head.postings.lookup (live s.head)
  used : ∀ id ∈ s.used, id ≤ s.head.nextID
  counts : ∀ metric, (s.head.perMetric.lookup metric).getD 0 = (seriesOf s.head metric).card
  limit : s.replayed = false → 0 < o.maxSeriesPerMetric →
    ∀ metric, (s.head.perMetric.lookup metric).getD 0 ≤ o.maxSeriesPerMetric
  series : ∀ id ms, s.head.byID.lookup id = some ms → SoundSeries o.blockRange ms
  filled : ∀ {σ : Type} (log : σ → List Record → σ × Bool) (w : σ) refs samples id ms,
    (s.head.append log w refs samples).1.byID.lookup id = some ms →
      s.head.byID.lookup id = none → ms.chunks ≠ []

/-- The books are kept through every run of appends, freezes, truncations and replays in which
the 64-bit counter of ids does not pass its maximum. -/
theorem bookkeeping_reachable {s : Ledger o} (h : Reachable s) : Bookkeeping s := by
  have hk := kept_reachable h
  have hw := hk.books.wf
  constructor
  · intro key id
    constructor
    · exact hw.of_shard
    · rintro ⟨ms, hms, rfl⟩
      exact hw.shard_of hms
  · exact fun id ms hms => hw.id_eq hms
  · exact hk.books.filed.indexes
  · exact hk.used
  · exact hk.books.counted
  · exact hk.limited
  · exact fun id ms _ => soundSeries o.blockRange_pos ms
  · exact fun log w refs samples id ms hms hnew =>
      filled_of_new hw log w refs samples hms hnew

def takesAll (_ : Unit) (_ : List Record) : Unit × Bool := ((), true)

def takesNone (_ : Unit) (_ : List Record) : Unit × Bool := ((), false)

def appended (s : Ledger o) (log : Unit → List Record → Unit × Bool)
    (batch : List (SeriesRef × Sample)) : Ledger o :=
  ⟨(s.head.append log () (batch.map Prod.fst) (batch.map Prod.snd)).1,
    s.used ∪ resolvedIDs s.head (batch.map Prod.fst) (batch.map Prod.snd), s.replayed⟩

def replayed (s : Ledger o) (entries : List LogEntry) : Ledger o :=
  ⟨(entries.foldl (replayEntry s.head.minValid) ⟨s.head, ∅, 0, 0⟩).head,
    s.used ∪ ids (entries.foldl (replayEntry s.head.minValid) ⟨s.head, ∅, 0, 0⟩).head ∪
      definedIDs (entries.map LogEntry.record), true⟩

def cpu : SeriesRef := ⟨[0x63], []⟩
def mem : SeriesRef := ⟨[0x6d], []⟩
def tagged : SeriesRef := ⟨[0x63], [⟨[0x6b], [0x76]⟩]⟩
def disk : SeriesRef := ⟨[0x64], []⟩

def oneEach : Options := Options.complete 0 1 false

/-- Two series; a batch with one above the limit that the log does not take; the older series is
truncated, and comes back from a log under another id. -/
def busy : Ledger oneEach :=
  let loaded := appended (start oneEach) takesAll [(cpu, ⟨1, 0⟩), (mem, ⟨10, 0⟩)]
  let failed := appended loaded takesNone [(tagged, ⟨20, 0⟩), (disk, ⟨20, 0⟩)]
  replayed { failed with head := failed.head.truncate 5 } [.series 7 cpu, .samples [⟨7, 30, 0⟩]]

theorem reachable_busy : Reachable busy := by
  refine (((Relation.ReflTransGen.single (.append takesAll () _ _ ?_)).tail
    (.append takesNone () _ _ ?_)).tail (.truncate 5)).tail
      (.replay _ _ (replayRecords_entries _ _ _) ?_)
  · decide +kernel
  · decide +kernel
  · decide +kernel

/-- The books after appends, a batch that was rolled back, a truncation and a replay. -/
theorem bookkeeping_reachable_busy : Reachable busy ∧ Bookkeeping busy ∧
    busy.head.byID.keys = [7, 2] ∧ busy.head.nextID = 7 ∧ busy.head.limitHits = 1 :=
  ⟨reachable_busy, bookkeeping_reachable reachable_busy, by decide +kernel, by decide +kernel,
    by decide +kernel⟩

def unlimited : Options := Options.complete 0 (-1) false

def oneSeries : Ledger unlimited := appended (start unlimited) takesAll [(cpu, ⟨1, 0⟩)]

/-- A negative limit is no limit: one series is more than the option says. -/
theorem negative_limit_exceeded :
    Reachable oneSeries ∧ oneSeries.replayed = false ∧
      unlimited.maxSeriesPerMetric < (oneSeries.head.perMetric.lookup cpu.metric).getD 0 :=
  ⟨.single (.append takesAll () _ _ (by decide)), rfl, by decide⟩

/-- The counter of ids as it is stored. -/
def nextUint64 (n : ℕ) : ℕ := (n + 1) % 2 ^ 64

def lastID : Ledger unlimited :=
  replayed (start unlimited) [.series 1 cpu, .series (2 ^ 64 - 1) mem]

/-- Why the counter may not pass its maximum: behind this log the second new series would be given
an id that is in use. -/
theorem ids_run_out : Reachable lastID ∧
    nextUint64 (nextUint64 lastID.head.nextID) ∈ ids lastID.head := by
  refine ⟨.single (.replay _ _ (replayRecords_entries _ _ _) (by decide +kernel)), ?_⟩
  show (lastID.head.byID.lookup (nextUint64 (nextUint64 lastID.head.nextID))).isSome = true
  decide +kernel

end Ozymandias.HeadBooks
