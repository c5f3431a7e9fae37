import Ozymandias.HeadAppend
import Ozymandias.WalRuns

/-!
Replay: a head from the records of its log. The log may repeat records and
lack samples records that a truncation gave up; ids are resolved through the
log's own definitions, several ids may mean one key. From every reading that
covers the log, replay rebuilds the same head: for each key the samples that
were newer than all before them, from the bound on.
-/

namespace Ozymandias.HeadReplay

open BitLists WalFrame WalLog SeriesModel HeadSeries HeadRecords HeadModel HeadAppend Peaks
  OrderedCover

variable {o : Options}

/-- The head's series for a definition in the log; it is created under the
log's id unless the key is there or the id is taken. -/
def restoreSeries (h : Head o) (id : ℕ) (ref : SeriesRef) : Head o × ℕ :=
  let h := if h.nextID < id then { h with nextID := id } else h
  match h.shards.lookup ref.key with
  | some existing => (h, existing)
  | none =>
    match h.byID.lookup id with
    | some _ =>
      (({ h with nextID := h.nextID + 1 }).register
        (MemSeries.fresh o.blockRange (h.nextID + 1) ref true), h.nextID + 1)
    | none => (h.register (MemSeries.fresh o.blockRange id ref true), id)

structure ReplayState (o : Options) where
  head : Head o
  byLogID : GoMap ℕ ℕ
  applied : ℕ
  skipped : ℕ

def replaySample (minValid : ℤ) (st : ReplayState o) (s : LogSample) : ReplayState o :=
  match st.byLogID.lookup s.id with
  | none => { st with skipped := st.skipped + 1 }
  | some ms =>
    match st.head.appendTo ms s.sample minValid with
    | (head, .error _) => { st with head := head, skipped := st.skipped + 1 }
    | (head, .ok true) => { st with head := head, applied := st.applied + 1 }
    | (head, .ok false) => { st with head := head }

def replayEntry (minValid : ℤ) (st : ReplayState o) : LogEntry → ReplayState o
  | .series id ref =>
    { st with
      head := (restoreSeries st.head id ref).1
      byLogID := st.byLogID.insert id (restoreSeries st.head id ref).2 }
  | .samples batch => batch.foldl (replaySample minValid) st

inductive ReplayErr where
  | series (e : DecodeErr)
  | samples (e : DecodeErr)
  | log (e : Corrupt)
  deriving DecidableEq

def replayRecord (minValid : ℤ) (st : ReplayState o) (rec : Record) :
    Except ReplayErr (ReplayState o) :=
  if rec.typ = recordSeries then
    match decodeSeries rec.data with
    | .error e => .error (.series e)
    | .ok (id, ref) => .ok (replayEntry minValid st (.series id ref))
  else if rec.typ = recordSamples then
    match decodeSamples rec.data with
    | .error e => .error (.samples e)
    | .ok batch => .ok (replayEntry minValid st (.samples batch))
  else .ok st

def replayRecords (minValid : ℤ) (st : ReplayState o) :
    List Record → Except ReplayErr (ReplayState o)
  | [] => .ok st
  | rec :: rest =>
    match replayRecord minValid st rec with
    | .error e => .error e
    | .ok st => replayRecords minValid st rest

def replay (h : Head o) (d : Dir (List Byte)) : Except ReplayErr (ReplayState o) :=
  match replayRecords h.minValid ⟨h, ∅, 0, 0⟩ (readLog d).records with
  | .error e => .error e
  | .ok st =>
    match (readLog d).err with
    | some e => .error (.log e)
    | none => .ok st

variable {batch : List LogSample} {h : Head o}

theorem record_injective : Function.Injective LogEntry.record := by
  intro e e' h
  have htyp : recordSamples ≠ recordSeries := by decide
  cases e with
  | series id ref =>
    cases e' with
    | series id' ref' =>
      have hdec : decodeSeries (encodeSeries id ref) = decodeSeries (encodeSeries id' ref') :=
        congrArg (decodeSeries ·.data) h
      rw [decodeSeries_encodeSeries, decodeSeries_encodeSeries] at hdec
      cases hdec
      rfl
    | samples batch' => exact absurd (congrArg Record.typ h).symm htyp
  | samples batch =>
    cases e' with
    | series id' ref' => exact absurd (congrArg Record.typ h) htyp
    | samples batch' =>
      have hdec : decodeSamples (encodeSamples batch) = decodeSamples (encodeSamples batch') :=
        congrArg (decodeSamples ·.data) h
      rw [decodeSamples_encodeSamples, decodeSamples_encodeSamples] at hdec
      cases hdec
      rfl

theorem replayRecord_record (minValid : ℤ) (st : ReplayState o) (e : LogEntry) :
    replayRecord minValid st e.record = .ok (replayEntry minValid st e) := by
  unfold replayRecord
  cases e with
  | series id ref =>
    have hdec : decodeSeries (LogEntry.series id ref).record.data = .ok (id, ref) :=
      decodeSeries_encodeSeries id ref
    rw [hdec]
    rfl
  | samples batch =>
    have hdec : decodeSamples (LogEntry.samples batch).record.data = .ok batch :=
      decodeSamples_encodeSamples batch
    rw [hdec]
    rfl

theorem replayRecords_entries (minValid : ℤ) (st : ReplayState o) (entries : List LogEntry) :
    replayRecords minValid st (entries.map LogEntry.record) =
      .ok (entries.foldl (replayEntry minValid) st) := by
  induction entries generalizing st with
  | nil => rfl
  | cons e entries ih =>
    rw [List.map_cons, replayRecords, replayRecord_record]
    exact ih _

structure Known (m : ℤ) (entries : List LogEntry) (st : ReplayState o) : Prop where
  wf : st.head.Wf
  minValid : st.head.minValid = m
  resolved : ∀ {id ref}, LogEntry.series id ref ∈ entries →
    ∃ sid, st.byLogID.lookup id = some sid ∧ st.head.shards.lookup ref.key = some sid
  series : ∀ {id ms}, st.head.byID.lookup id = some ms →
    ms.logged = true ∧ LogEntry.series id ms.ref ∈ entries
  ids : ∀ {id ref}, LogEntry.series id ref ∈ entries → id ≤ st.head.nextID

structure Restored (m : ℤ) (keyOf : ℕ → GoString) (entries : List LogEntry) (st : ReplayState o) :
    Prop where
  known : Known m entries st
  content : ∀ key, st.head.content key =
    (peaks Sample.t (events keyOf entries key)).filter (fun s => decide (m ≤ s.t))

section Steps

variable {m : ℤ} {keyOf : ℕ → GoString} {entries : List LogEntry} {st : ReplayState o}

structure Replayed (m : ℤ) (keyOf : ℕ → GoString) (batch : List LogSample)
    (st st' : ReplayState o) : Prop where
  byLogID : st'.byLogID = st.byLogID
  shape : SameShape st.head st'.head
  logged : ∀ id, (st'.head.byID.lookup id).map MemSeries.logged =
    (st.head.byID.lookup id).map MemSeries.logged
  content : ∀ key, st'.head.content key =
    ((batch.filter (fun s => decide (keyOf s.id = key))).map LogSample.sample).foldl
      (accept Sample.t m) (st.head.content key)

theorem replaySample_spec (hw : st.head.Wf) {s : LogSample} {sid : ℕ}
    (hlog : st.byLogID.lookup s.id = some sid)
    (hkey : st.head.shards.lookup (keyOf s.id) = some sid) :
    Replayed m keyOf [s] st (replaySample m st s) := by
  obtain ⟨ms, hms, hmsKey⟩ := hw.of_shard hkey
  have hoff : Offers m (fun _ => ms.ref.key) [⟨sid, s.t, s.v⟩] st.head
      (st.head.appendTo sid s.sample m).1 := offers_appendTo hw hms rfl m
  have hhead : (replaySample m st s).head = (st.head.appendTo sid s.sample m).1 ∧
      (replaySample m st s).byLogID = st.byLogID := by
    unfold replaySample
    rw [hlog]
    dsimp only
    rcases st.head.appendTo sid s.sample m with ⟨head, res⟩
    cases res with
    | error e => exact ⟨rfl, rfl⟩
    | ok b => cases b <;> exact ⟨rfl, rfl⟩
  refine ⟨hhead.2, ?_, ?_, ?_⟩
  · rw [hhead.1]
    exact hoff.shape
  · rw [hhead.1]
    exact hoff.logged
  · intro key
    have hoffered : (([⟨sid, s.t, s.v⟩] : List LogSample).filter
          (fun _ => decide (ms.ref.key = key))).map LogSample.sample =
        ([s].filter (fun s => decide (keyOf s.id = key))).map LogSample.sample := by
      by_cases heq : ms.ref.key = key
      · simp [heq, ← hmsKey, LogSample.sample]
      · simp [heq, ← hmsKey]
    rw [hhead.1, ← hoffered]
    exact hoff.content key

theorem Replayed.trans {batch' : List LogSample} {st' st'' : ReplayState o}
    (h : Replayed m keyOf batch st st') (h' : Replayed m keyOf batch' st' st'') :
    Replayed m keyOf (batch ++ batch') st st'' where
  byLogID := h'.byLogID.trans h.byLogID
  shape := h.shape.trans h'.shape
  logged id := (h'.logged id).trans (h.logged id)
  content key := by
    rw [h'.content, h.content, List.filter_append, List.map_append, List.foldl_append]

theorem replaySamples_spec (hw : st.head.Wf)
    (hres : ∀ s ∈ batch, ∃ sid, st.byLogID.lookup s.id = some sid ∧
      st.head.shards.lookup (keyOf s.id) = some sid) :
    Replayed m keyOf batch st (batch.foldl (replaySample m) st) := by
  induction batch generalizing st with
  | nil => exact ⟨rfl, SameShape.refl _, fun _ => rfl, fun _ => rfl⟩
  | cons s batch ih =>
    obtain ⟨sid, hlog, hkey⟩ := hres s List.mem_cons_self
    have hstep := replaySample_spec (m := m) hw hlog hkey
    refine hstep.trans (ih (hstep.shape.wf hw) ?_)
    intro s' hs'
    obtain ⟨sid', hlog', hkey'⟩ := hres s' (List.mem_cons_of_mem _ hs')
    exact ⟨sid', by rw [hstep.byLogID]; exact hlog', by rw [hstep.shape.shards]; exact hkey'⟩

/-- Only which definitions there are matters. -/
theorem Known.of_series (hk : Known m entries st) {entries' : List LogEntry}
    (hsame : ∀ id ref, LogEntry.series id ref ∈ entries' ↔ LogEntry.series id ref ∈ entries) :
    Known m entries' st where
  wf := hk.wf
  minValid := hk.minValid
  resolved hid := hk.resolved ((hsame _ _).mp hid)
  series hms := ⟨(hk.series hms).1, (hsame _ _).mpr (hk.series hms).2⟩
  ids hid := hk.ids ((hsame _ _).mp hid)

theorem Known.replayed (hk : Known m entries st) {st' : ReplayState o}
    (hrep : Replayed m keyOf batch st st') : Known m entries st' where
  wf := hrep.shape.wf hk.wf
  minValid := hrep.shape.minValid.trans hk.minValid
  resolved hid := by
    obtain ⟨sid, hlog, hkey⟩ := hk.resolved hid
    exact ⟨sid, by rw [hrep.byLogID]; exact hlog, by rw [hrep.shape.shards]; exact hkey⟩
  series {id ms} hms := by
    obtain ⟨ms', hms', -, href⟩ := hrep.shape.lookup hms
    have hlogged := hrep.logged id
    rw [hms, hms'] at hlogged
    obtain ⟨hl, hentry⟩ := hk.series hms'
    rw [← href]
    exact ⟨(Option.some.inj hlogged).trans hl, hentry⟩
  ids hid := by
    rw [hrep.shape.nextID]
    exact hk.ids hid

/-- Reading a definition, for the first time or again. -/
theorem Known.restore (hk : Known m entries st) (id : ℕ) (ref : SeriesRef)
    (hkey : ∀ {ref'}, LogEntry.series id ref' ∈ entries → ref'.key = ref.key) :
    Known m (entries ++ [.series id ref]) (replayEntry m st (.series id ref)) ∧
      ∀ key, (replayEntry m st (.series id ref)).head.content key = st.head.content key := by
  let counted : Head o := { st.head with nextID := max st.head.nextID id }
  have hcount : (if st.head.nextID < id then { st.head with nextID := id } else st.head) =
      counted := by
    split
    next hlt => simp only [counted, max_eq_right hlt.le]
    next hge => simp only [counted, max_eq_left (not_lt.mp hge)]
  have hwc : counted.Wf :=
    ⟨hk.wf.id_eq, hk.wf.shard_of, hk.wf.of_shard, fun hms => (hk.wf.le_nextID hms).trans
      (le_max_left _ _)⟩
  have hself : ∀ {ref'}, LogEntry.series id ref' ∈ entries ++ [.series id ref] →
    ref'.key = ref.key := by
    intro ref' hid'
    rcases List.mem_append.mp hid' with hid' | hid'
    · exact hkey hid'
    · rw [(LogEntry.series.inj (List.mem_singleton.mp hid')).2]
  have hother : ∀ {id' ref'}, id' ≠ id → LogEntry.series id' ref' ∈ entries ++ [.series id ref] →
      LogEntry.series id' ref' ∈ entries := by
    intro id' ref' hne hid'
    rcases List.mem_append.mp hid' with hid' | hid'
    · exact hid'
    · exact absurd (LogEntry.series.inj (List.mem_singleton.mp hid')).1 hne
  have hids : ∀ {id' ref'}, LogEntry.series id' ref' ∈ entries ++ [.series id ref] →
      id' ≤ counted.nextID := by
    intro id' ref' hid'
    by_cases heq : id' = id
    · rw [heq]
      exact le_max_right _ _
    · exact (hk.ids (hother heq hid')).trans (le_max_left _ _)
  cases hfind : st.head.shards.lookup ref.key with
  | some existing =>
    have hrestore : restoreSeries st.head id ref = (counted, existing) := by
      unfold restoreSeries
      simp only [hcount]
      dsimp only [counted]
      rw [hfind]
    simp only [replayEntry, hrestore]
    refine ⟨⟨hwc, hk.minValid, ?_, ?_, hids⟩, fun _ => rfl⟩
    · intro id' ref' hid'
      by_cases heq : id' = id
      · subst heq
        refine ⟨existing, AList.lookup_insert _, ?_⟩
        rw [hself hid']
        exact hfind
      · obtain ⟨sid, hlog, hs⟩ := hk.resolved (hother heq hid')
        exact ⟨sid, by rw [AList.lookup_insert_ne heq]; exact hlog, hs⟩
    · intro id' ms hms
      exact ⟨(hk.series hms).1, List.mem_append_left _ (hk.series hms).2⟩
  | none =>
    have hfree : st.head.byID.lookup id = none := by
      cases hms : st.head.byID.lookup id with
      | none => rfl
      | some ms =>
        have hshard := hk.wf.shard_of hms
        rw [hkey (hk.series hms).2, hfind] at hshard
        cases hshard
    let ms := MemSeries.fresh o.blockRange id ref true
    have hrestore : restoreSeries st.head id ref = (counted.register ms, id) := by
      unfold restoreSeries
      simp only [hcount]
      dsimp only [counted]
      rw [hfind, hfree]
    simp only [replayEntry, hrestore]
    refine ⟨⟨wf_register hwc hfree hfind (le_max_right _ _), hk.minValid, ?_, ?_, hids⟩,
      fun key => content_register hwc hfree hfind rfl key⟩
    · intro id' ref' hid'
      rw [shards_register]
      by_cases heq : id' = id
      · subst heq
        exact ⟨id', AList.lookup_insert _, if_pos (hself hid')⟩
      · obtain ⟨sid, hlog, hs⟩ := hk.resolved (hother heq hid')
        refine ⟨sid, by rw [AList.lookup_insert_ne heq]; exact hlog, ?_⟩
        rw [if_neg]
        · exact hs
        · intro hk'
          rw [hk'] at hs
          cases hfind.symm.trans hs
    · intro id' ms' hms'
      rw [lookup_register] at hms'
      split at hms'
      next heq =>
        cases hms'
        refine ⟨rfl, List.mem_append_right _ ?_⟩
        rw [heq]
        exact List.mem_singleton.mpr rfl
      · exact ⟨(hk.series hms').1, List.mem_append_left _ (hk.series hms').2⟩

end Steps

section Covering

variable {m M : ℤ} {keyOf : ℕ → GoString} {entries : List LogEntry} {key : GoString}
  {e : LogEntry} {st : ReplayState o}

theorem mem_events {s : LogSample} (hkey : keyOf s.id = key)
    (hs : s ∈ entries.flatMap LogEntry.batch) :
    s.sample ∈ events keyOf entries key :=
  List.mem_map_of_mem (List.mem_filter.mpr ⟨hs, decide_eq_true hkey⟩)

theorem exists_of_mem_events {x : Sample} (hx : x ∈ events keyOf entries key) :
    ∃ e ∈ entries, ∃ s ∈ e.batch, keyOf s.id = key ∧ s.sample = x := by
  obtain ⟨s, hs, rfl⟩ := List.mem_map.mp hx
  obtain ⟨hs, hkey⟩ := List.mem_filter.mp hs
  obtain ⟨e, he, hse⟩ := List.mem_flatMap.mp hs
  exact ⟨e, he, s, hse, of_decide_eq_true hkey, rfl⟩

/-- A samples record that has been read before changes nothing. -/
theorem Restored.again (hd : Declared keyOf entries) (hr : Restored m keyOf entries st)
    (he : e ∈ entries) : Restored m keyOf entries (replayEntry m st e) := by
  cases e with
  | series id ref =>
    obtain ⟨hk, hcontent⟩ :=
      hr.known.restore id ref (fun hid => (hd.key hid).symm.trans (hd.key he))
    refine ⟨hk.of_series ?_, fun key => (hcontent key).trans (hr.content key)⟩
    intro id' ref'
    rw [List.mem_append, List.mem_singleton]
    constructor
    · exact Or.inl
    · rintro (hid | heq)
      · exact hid
      · rw [heq]
        exact he
  | samples batch =>
    have hrep : Replayed m keyOf batch st (replayEntry m st (.samples batch)) := by
      refine replaySamples_spec hr.known.wf ?_
      intro s hs
      obtain ⟨ref, href⟩ := hd.sample (List.mem_flatMap.mpr ⟨_, he, hs⟩)
      rw [hd.key href]
      exact hr.known.resolved href
    refine ⟨hr.known.replayed hrep, ?_⟩
    intro key
    rw [hrep.content, hr.content, ← filter_foldl_push (ascending_peaks _ _)]
    rw [foldl_push_of_dominated (ascending_peaks _ _)]
    intro x hx
    refine dominated_peaks Sample.t ?_
    obtain ⟨s, hs, rfl⟩ := List.mem_map.mp hx
    obtain ⟨hs, hkey⟩ := List.mem_filter.mp hs
    exact mem_events (of_decide_eq_true hkey) (List.mem_flatMap.mpr ⟨_, he, hs⟩)

theorem Restored.next (hd : Declared keyOf (entries ++ [e])) (hr : Restored m keyOf entries st) :
    Restored m keyOf (entries ++ [e]) (replayEntry m st e) := by
  have hold : ∀ {id ref}, LogEntry.series id ref ∈ entries → keyOf id = ref.key :=
    fun hid => hd.key (List.mem_append_left _ hid)
  cases e with
  | series id ref =>
    obtain ⟨hk, hcontent⟩ := hr.known.restore id ref
      (fun hid => (hold hid).symm.trans (hd.key (by simp)))
    refine ⟨hk, fun key => ?_⟩
    rw [hcontent, hr.content]
    simp [events, LogEntry.batch]
  | samples batch =>
    have hrep : Replayed m keyOf batch st (replayEntry m st (.samples batch)) := by
      refine replaySamples_spec hr.known.wf ?_
      intro s hs
      obtain ⟨ref, href⟩ := hd.before rfl s hs
      rw [hold href]
      exact hr.known.resolved href
    refine ⟨(hr.known.replayed hrep).of_series (by simp), ?_⟩
    intro key
    rw [hrep.content, hr.content, ← filter_foldl_push (ascending_peaks _ _),
      events_append, peaks_append]
    simp [events, LogEntry.batch]

/-- Passing over what has been read, and over samples records that were given up. -/
theorem Restored.pass {more : List LogEntry}
    (hgap : ∀ key, ∀ x ∈ peaks Sample.t (events keyOf (entries ++ more) key), m ≤ x.t → M ≤ x.t)
    (hr : Restored m keyOf entries st) (hmore : ∀ e ∈ more, keepEntry M e = true → e ∈ entries) :
    Restored m keyOf (entries ++ more) st := by
  refine ⟨hr.known.of_series ?_, ?_⟩
  · intro id ref
    rw [List.mem_append]
    exact ⟨fun hid => hid.elim (fun hid => hid) (fun hid => hmore _ hid rfl), Or.inl⟩
  · intro key
    have hpeaks := hgap key
    rw [events_append, peaks_append] at hpeaks ⊢
    obtain ⟨zs, heq, hzs⟩ := foldl_push_eq (ascending_peaks Sample.t (events keyOf entries key))
      (events keyOf more key)
    rw [heq] at hpeaks ⊢
    have hnone : zs.filter (fun s => decide (m ≤ s.t)) = [] := by
      rw [List.filter_eq_nil_iff]
      intro z hz hm
      have hbound := hpeaks z (List.mem_append_right _ hz) (of_decide_eq_true hm)
      obtain ⟨hzmore, hlater⟩ := hzs z hz
      obtain ⟨e, he, s, hs, hkey, rfl⟩ := exists_of_mem_events hzmore
      have hkept : keepEntry M e = true := by
        cases e with
        | series id ref => rfl
        | samples batch => exact List.any_eq_true.mpr ⟨s, hs, decide_eq_true hbound⟩
      have hmem := mem_events hkey (List.mem_flatMap.mpr ⟨e, hmore e he hkept, hs⟩)
      exact not_dominated.mpr hlater (dominated_peaks Sample.t hmem)
    rw [List.filter_append, hnone, List.append_nil]
    exact hr.content key

theorem insensitive_replay (hd : Declared keyOf entries)
    (hgap : ∀ key, ∀ x ∈ peaks Sample.t (events keyOf entries key), m ≤ x.t → M ≤ x.t) :
    Insensitive (keepEntry M) entries (replayEntry (o := o) m)
      (fun n st => Restored m keyOf (entries.take n) st) where
  again n st e hr he := hr.again (hd.take n) he
  next st hs e ts hentries hr := by
    obtain ⟨htake, htake'⟩ := take_append_cons hs e ts
    rw [← hentries] at htake htake'
    have hd' := hd.take (hs.length + 1)
    rw [htake] at hr
    rw [htake'] at hd' ⊢
    exact hr.next hd'
  pass n n' st hr hle hmore := by
    have hsplit : entries.take n' = entries.take n ++ (entries.take n').drop n := by
      conv_lhs => rw [← List.take_append_drop n (entries.take n'), List.take_take,
        Nat.min_eq_left hle]
    rw [hsplit]
    refine hr.pass ?_ hmore
    intro key x hx
    rw [← hsplit] at hx
    refine hgap key x ?_
    rw [← List.take_append_drop n' entries, events_append]
    exact (peaks_grow _ _).subset hx

def Head.Fresh (h : Head o) : Prop := h.shards = ∅ ∧ h.byID = ∅

theorem restored_start (hf : Head.Fresh h) :
    Restored h.minValid keyOf [] (⟨h, ∅, 0, 0⟩ : ReplayState o) := by
  obtain ⟨shards, byID, perMetric, nextID, minValid, oooDropped, limitHits, postings⟩ := h
  obtain ⟨rfl, rfl⟩ := hf
  exact ⟨⟨⟨nofun, nofun, nofun, nofun⟩, rfl, by simp, nofun, by simp⟩, fun _ => rfl⟩

/-- Every reading that covers the log gives the same contents. -/
theorem restored_of_covers (hd : Declared keyOf entries)
    (hgap : ∀ key, ∀ x ∈ peaks Sample.t (events keyOf entries key), m ≤ x.t → M ≤ x.t)
    {read : List LogEntry} (hc : Covers (keepEntry M) entries read) (hf : Head.Fresh h)
    (hm : h.minValid = m) :
    Restored m keyOf entries (read.foldl (replayEntry m) ⟨h, ∅, 0, 0⟩) := by
  have hstart : Restored m keyOf (entries.take 0) (⟨h, ∅, 0, 0⟩ : ReplayState o) := by
    rw [← hm]
    exact restored_start hf
  have hrun := hc.run (insensitive_replay hd hgap) hstart
  rwa [List.take_length] at hrun

/-- Replay of the log on disk, whatever truncations have left of it. -/
theorem replay_of_good {s : WalRuns.State} (hg : WalRuns.Good s)
    (hhist : s.history = entries.map LogEntry.record)
    (hpolicy : ∀ r, keepForCheckpoint M r = true → s.policy r = true) (hd : Declared keyOf entries)
    (hgap : ∀ key, ∀ x ∈ peaks Sample.t (events keyOf entries key), m ≤ x.t → M ≤ x.t)
    (hf : Head.Fresh h) (hm : h.minValid = m) :
    ∃ st, replay h s.wal.dir = .ok st ∧ Restored m keyOf entries st := by
  obtain ⟨hquiet, hcovers⟩ := hg.covers
  have hkept := hcovers.mono hpolicy
  rw [hhist] at hkept
  obtain ⟨read, hread, hc⟩ := hkept.of_map record_injective
  simp only [keepForCheckpoint_record] at hc
  refine ⟨_, ?_, restored_of_covers hd hgap hc hf hm⟩
  unfold replay
  rw [hread, replayRecords_entries, hquiet, hm]

end Covering

end Ozymandias.HeadReplay
