import Ozymandias.HeadReplay

/-!
Appends that fail at the log. A call may fail at any byte of its records, when
the file is cut back to the last complete one, or at the sync after all of them
are written; the head is then as before, but the log is not. Replay restores
exactly what was acknowledged as long as no failed call leaves behind a
complete record with a sample newer than the newest one of its series.
-/

namespace Ozymandias.FailedAppend

open BitLists WalFrame WalLog SeriesModel HeadSeries HeadRecords HeadModel HeadAppend
  HeadReplay Peaks Varint

inductive Fault where
  | none
  | atByte (cut : ℕ)
  | atSync
  deriving DecidableEq

def logLocked (o : Options) (fault : Fault) (w : Wal (List Byte)) (recs : List Record) :
    Wal (List Byte) × Bool :=
  match w.log recs with
  | .error _ => (w, false)
  | .ok w' =>
    match fault with
    | .none => (w', true)
    | .atByte cut =>
      if cut < (frames recs).length then (w.failedLog recs cut, false) else (w', true)
    | .atSync => (w', !o.syncOnAppend)

def written (fault : Fault) (w : Wal (List Byte)) (recs : List Record) : List Record :=
  match w.log recs with
  | .error _ => []
  | .ok _ =>
    match fault with
    | .none => recs
    | .atByte cut => wholeBefore recs cut
    | .atSync => recs

structure Call where
  refs : List SeriesRef
  samples : List Sample
  fault : Fault
  deriving DecidableEq

def Call.batch (c : Call) : List (SeriesRef × Sample) := c.refs.zip c.samples

variable {o : Options}

structure Store (o : Options) where
  head : Head o
  wal : Wal (List Byte)

def emptyHead (o : Options) (minValid : ℤ) : Head o := { Head.new o with minValid := minValid }

def Store.start (o : Options) (minValid segmentSize : ℤ) : Store o :=
  ⟨emptyHead o minValid, openLog byteFormat segmentSize Dir.empty⟩

def Store.append (s : Store o) (c : Call) : Store o × AppendResult :=
  let (head, wal, result) := s.head.append (logLocked o c.fault) s.wal c.refs c.samples
  (⟨head, wal⟩, result)

def Store.run (s : Store o) (calls : List Call) : Store o :=
  calls.foldl (fun s c => (s.append c).1) s

def leftBehind (s : Store o) (c : Call) : List LogSample :=
  if c.refs.length ≠ c.samples.length then []
  else
    let entries := (s.head.prepare c.batch).entries
    (entries.take (written c.fault s.wal (entries.map LogEntry.record)).length).flatMap
      LogEntry.batch

/-- If the call fails, then nothing it has left in the log is newer than the
newest sample of the same series in the head. -/
def Harmless (s : Store o) (c : Call) : Prop :=
  failed (s.append c).2 = true → ∀ x ∈ leftBehind s c,
    ∃ ms, (s.head.prepare c.batch).resolution.head.byID.lookup x.id = some ms ∧
      Dominated Sample.t (s.head.content ms.ref.key) x.sample

/-- The call carried the sample for this key, and it was accepted. -/
def Carried (s : Store o) (c : Call) (key : GoString) (x : Sample) : Prop :=
  ∃ i ref, c.refs[i]? = some ref ∧ c.samples[i]? = some x ∧ ref.key = key ∧
    accepted (s.append c).2 i = true

/-- Every sample that a call reported as accepted is present with its value:
as it is if it was stored, and as an equal one if it is a duplicate. -/
def KeepsAccepted (s : Store o) (c : Call) (replayed : Head o) : Prop :=
  ∀ i ref x, c.refs[i]? = some ref → c.samples[i]? = some x →
    accepted (s.append c).2 i = true →
      if storedAt (s.append c).2 i then x ∈ replayed.content ref.key
      else ∃ y ∈ replayed.content ref.key, y.t = x.t ∧ floatEq y.v x.v = true

/-- No sample of a call that failed is present, unless it was there before or a
later call that was accepted carried it. -/
def HidesFailed (s : Store o) (c : Call) (later : List Call) (replayed : Head o) : Prop :=
  failed (s.append c).2 = true → ∀ (i : ℕ) (ref : SeriesRef) (x : Sample),
    c.refs[i]? = some ref → c.samples[i]? = some x →
    x ∈ replayed.content ref.key → x ∈ s.head.content ref.key ∨
      ∃ pre c' post, later = pre ++ c' :: post ∧
        Carried ((s.append c).1.run pre) c' ref.key x

/-- Replay of the log after these calls restores what was acknowledged. -/
def Faithful (o : Options) (minValid segmentSize : ℤ) (calls : List Call) : Prop :=
  ∃ st, replay (emptyHead o minValid) ((Store.start o minValid segmentSize).run calls).wal.dir =
      .ok st ∧
    ∀ pre c post, calls = pre ++ c :: post →
      KeepsAccepted ((Store.start o minValid segmentSize).run pre) c st.head ∧
        HidesFailed ((Store.start o minValid segmentSize).run pre) c post st.head

structure Tracks (s : Store o) (m : ℤ) (keyOf : ℕ → GoString) (entries : List LogEntry) : Prop where
  inLog : InLog s.head keyOf entries
  minValid : s.head.minValid = m
  good : WalRuns.Good ⟨s.wal, entries.map LogEntry.record, 0, fun _ => true⟩
  linked : WalRuns.linked s.wal = true
  bounded : ∀ x ∈ entries.flatMap LogEntry.batch, m ≤ x.t

theorem tracks_start (o : Options) (m segmentSize : ℤ) :
    Tracks (Store.start o m segmentSize) m (fun _ => []) [] := by
  have hw := wf_new o
  refine ⟨⟨⟨hw.id_eq, hw.shard_of, hw.of_shard, hw.le_nextID⟩, ⟨by simp, by simp⟩, ?_, by simp⟩,
    rfl, WalRuns.good_init segmentSize, WalRuns.linked_openSegment _ _ _ _, by simp⟩
  intro id ms hms
  cases hms

/-- What the log has of a call is a start of its records. -/
theorem written_isPrefix (fault : Fault) (w : Wal (List Byte)) (recs : List Record) :
    written fault w recs <+: recs := by
  unfold written
  cases w.log recs with
  | error e => exact List.nil_prefix
  | ok w' =>
    cases fault with
    | none | atSync => exact List.prefix_refl _
    | atByte cut => exact wholeBefore_initial recs cut

variable {recs : List Record} {w : Wal (List Byte)} {c : Call} {segmentSize : ℤ}

theorem accepted_of_log {w' : Wal (List Byte)} (hne : recs ≠ []) (hlog : w.log recs = .ok w') :
    Accepted recs := by
  refine ⟨hne, ?_⟩
  unfold Wal.log at hlog
  rw [if_neg hne] at hlog
  cases hcheck : recs.findSome? checkRecord with
  | none => exact findSome_checkRecord.mp hcheck
  | some e =>
    rw [hcheck] at hlog
    cases hlog

/-- The log after a call, written or not. -/
theorem good_logLocked {history : List Record} (hg : WalRuns.Good ⟨w, history, 0, fun _ => true⟩)
    (hl : WalRuns.linked w = true) (hne : recs ≠ []) (fault : Fault) :
    WalRuns.Good ⟨(logLocked o fault w recs).1, history ++ written fault w recs, 0, fun _ => true⟩ ∧
      WalRuns.linked (logLocked o fault w recs).1 = true ∧
      ((logLocked o fault w recs).2 = true → written fault w recs = recs) := by
  unfold logLocked written
  cases hlog : w.log recs with
  | error e =>
    rw [List.append_nil]
    exact ⟨hg, hl, by simp⟩
  | ok w' =>
    have hacc := accepted_of_log hne hlog
    have hwhole : WalRuns.Good ⟨w', history ++ recs, 0, fun _ => true⟩ := by
      have hstep := WalRuns.good_log hg hlog
      rwa [WalRuns.logged_of_linked hl] at hstep
    have hlinked := WalRuns.linked_log hl hlog
    cases fault with
    | none | atSync => exact ⟨hwhole, hlinked, fun _ => rfl⟩
    | atByte cut =>
      dsimp only
      split
      · have hstep : WalRuns.Good ⟨w.failedLog recs cut, _, 0, fun _ => true⟩ :=
          WalRuns.good_failedLog hg hacc
        rw [WalRuns.logged_of_linked hl] at hstep
        exact ⟨hstep, WalRuns.linked_failedLog hl recs cut, by simp⟩
      next hcut =>
        have hall := WalRecovery.wholeBefore_append recs [] (cut - (frames recs).length)
        rw [List.append_nil, Nat.add_sub_cancel' (not_lt.mp hcut)] at hall
        rw [hall, wholeBefore, List.append_nil]
        exact ⟨hwhole, hlinked, fun _ => rfl⟩

theorem failed_refused {α : Type} (flags : Option (List Bool)) (outs : List (Except HeadErr α)) :
    failed ⟨flags, rejections 0 outs⟩ = false := by
  unfold failed
  rw [List.any_eq_false]
  intro r hr
  have := index_of_mem_rejections hr
  simp
  omega

theorem failed_rollback (p : Prepared o) : failed p.rollback.2 = true := by
  unfold failed Prepared.rollback
  simp

/-- The four ways through a call. -/
theorem call_cases (s : Store o) (c : Call) :
    let p := s.head.prepare c.batch
    let logged := logLocked o c.fault s.wal (p.entries.map LogEntry.record)
    c.refs.length ≠ c.samples.length ∧
        s.append c = (s, ⟨none, [⟨-1, .mismatch c.refs.length c.samples.length⟩]⟩) ∨
      c.refs.length = c.samples.length ∧ (p.valid = [] ∧ s.append c = (⟨p.rollback.1, s.wal⟩,
            ⟨some (c.samples.map (fun _ => false)), rejections 0 p.resolution.targets⟩) ∨
          p.valid ≠ [] ∧ (logged.2 = false ∧ s.append c = (⟨p.rollback.1, logged.1⟩, p.rollback.2) ∨
              logged.2 = true ∧ s.append c = (⟨(p.commit s.head.minValid c.batch).1, logged.1⟩,
                (p.commit s.head.minValid c.batch).2))) := by
  intro p logged
  unfold Store.append
  rcases append_cases s.head (logLocked o c.fault) s.wal c.refs c.samples with
    ⟨hlen, happ⟩ | ⟨hlen, ⟨hvalid, happ⟩ | ⟨hvalid, ⟨hlog, happ⟩ | ⟨hlog, happ⟩⟩⟩
  all_goals rw [happ]
  · exact .inl ⟨hlen, rfl⟩
  · exact .inr ⟨hlen, .inl ⟨hvalid, rfl⟩⟩
  · exact .inr ⟨hlen, .inr ⟨hvalid, .inl ⟨hlog, rfl⟩⟩⟩
  · exact .inr ⟨hlen, .inr ⟨hvalid, .inr ⟨hlog, rfl⟩⟩⟩

structure Stepped (s : Store o) (c : Call) (m : ℤ) (keyOf : ℕ → GoString)
    (entries more : List LogEntry) (keyOf' : ℕ → GoString) : Prop where
  tracks : Tracks (s.append c).1 m keyOf' (entries ++ more)
  events_eq : ∀ key, events keyOf' (entries ++ more) key =
    events keyOf entries key ++ events keyOf' more key
  applied : failed (s.append c).2 = false → ∀ key, (s.append c).1.head.content key =
    (events keyOf' more key).foldl (accept Sample.t m) (s.head.content key)
  unchanged : failed (s.append c).2 = true →
    ∀ key, (s.append c).1.head.content key = s.head.content key
  left : failed (s.append c).2 = true → more.flatMap LogEntry.batch = leftBehind s c
  samples : ∀ x ∈ more.flatMap LogEntry.batch, ∃ ref ms, (ref, x.sample) ∈ c.batch ∧
    (s.head.prepare c.batch).resolution.head.byID.lookup x.id = some ms ∧
      ms.ref.key = ref.key ∧ keyOf' x.id = ref.key

section Call

variable {s : Store o} {m : ℤ} {keyOf : ℕ → GoString} {entries : List LogEntry}
  (ht : Tracks s m keyOf entries) (c : Call)
include ht

omit ht in
/-- A call that logs nothing. -/
theorem stepped_unlogged {keyOf' : ℕ → GoString} (htracks : Tracks (s.append c).1 m keyOf' entries)
    (hevents : ∀ key, events keyOf' entries key = events keyOf entries key)
    (hcontent : ∀ key, (s.append c).1.head.content key = s.head.content key)
    (hleft : failed (s.append c).2 = true → leftBehind s c = []) :
    Stepped s c m keyOf entries [] keyOf' where
  tracks := by
    rw [List.append_nil]
    exact htracks
  events_eq key := by
    rw [List.append_nil, hevents]
    simp [events]
  applied _ key := by
    rw [hcontent]
    rfl
  unchanged _ := hcontent
  left hf := (hleft hf).symm
  samples x hx := by cases hx

omit ht in
/-- The written entries of a call, from its records. -/
theorem written_entries (all : List LogEntry) (fault : Fault) (w : Wal (List Byte)) :
    written fault w (all.map LogEntry.record) =
      (all.take (written fault w (all.map LogEntry.record)).length).map LogEntry.record := by
  rw [List.map_take]
  exact List.prefix_iff_eq_take.mp (written_isPrefix fault w _)

theorem call_stepped : ∃ more keyOf', Stepped s c m keyOf entries more keyOf' := by
  have hready := ready_prepare c.batch ht.inLog.wf
  rcases call_cases s c with ⟨hlen, hstep⟩ | ⟨hlen, ⟨hvalid, hstep⟩ | ⟨hvalid, hcase⟩⟩
  · refine ⟨[], keyOf, stepped_unlogged c ?_ (fun _ => rfl) ?_ ?_⟩
    · rw [hstep]
      exact ht
    · intro key
      rw [hstep]
    · intro _
      unfold leftBehind
      rw [if_pos hlen]
  · obtain ⟨hin, hmin, hcontent⟩ := rollback_spec ht.inLog hready List.nil_prefix
    rw [List.append_nil] at hin
    refine ⟨[], keysWith (s.head.prepare c.batch).resolution.head keyOf,
      stepped_unlogged c ?_ ?_ ?_ ?_⟩
    · rw [hstep]
      exact ⟨hin, hmin.trans ht.minValid, ht.good, ht.linked, ht.bounded⟩
    · intro key
      have hevents := events_batch ht.inLog hready [] key
      rw [List.append_nil] at hevents
      rw [hevents]
      simp [events]
    · intro key
      rw [hstep]
      exact hcontent key
    · intro hf
      rw [hstep, failed_refused] at hf
      cases hf
  · let p := s.head.prepare c.batch
    let recs := p.entries.map LogEntry.record
    let kept := p.entries.take (written c.fault s.wal recs).length
    have hne : recs ≠ [] := by
      intro hnil
      apply hvalid
      have hnone : p.entries = [] := List.map_eq_nil_iff.mp hnil
      have hbatch := batch_logEntries p.pending p.valid
      change p.entries.flatMap LogEntry.batch = p.valid at hbatch
      rw [hnone] at hbatch
      exact hbatch.symm
    have hwritten : written c.fault s.wal recs = kept.map LogEntry.record :=
      written_entries p.entries c.fault s.wal
    have hkept : kept <+: p.entries := List.take_prefix _ _
    obtain ⟨hgood, hlinked, hall⟩ := good_logLocked ht.good ht.linked hne c.fault
    have hsamples : ∀ x ∈ kept.flatMap LogEntry.batch, x ∈ p.valid := by
      intro x hx
      rw [← batch_logEntries p.pending p.valid]
      obtain ⟨e, he, hxe⟩ := List.mem_flatMap.mp hx
      exact List.mem_flatMap.mpr ⟨e, hkept.subset he, hxe⟩
    have hbounded : ∀ x ∈ (entries ++ kept).flatMap LogEntry.batch, m ≤ x.t := by
      intro x hx
      rw [List.flatMap_append] at hx
      rcases List.mem_append.mp hx with hx | hx
      · exact ht.bounded x hx
      · obtain ⟨ref, ms, -, hle, -⟩ := hready.lookup (hsamples x hx)
        rw [ht.minValid] at hle
        exact hle
    rw [hwritten, ← List.map_append] at hgood
    have hkeys : ∀ x ∈ kept.flatMap LogEntry.batch, ∃ ref ms, (ref, x.sample) ∈ c.batch ∧
        p.resolution.head.byID.lookup x.id = some ms ∧ ms.ref.key = ref.key ∧
          keysWith p.resolution.head keyOf x.id = ref.key := by
      intro x hx
      obtain ⟨ref, ms, hmem, -, hms, hkey⟩ := hready.lookup (hsamples x hx)
      exact ⟨ref, ms, hmem, hms, hkey, (keysWith_of_lookup hms).trans hkey⟩
    refine ⟨kept, keysWith p.resolution.head keyOf, ?_⟩
    rcases hcase with ⟨hlog, hstep⟩ | ⟨hlog, hstep⟩
    · obtain ⟨hin, hmin, hcontent⟩ := rollback_spec ht.inLog hready hkept
      refine ⟨?_, events_batch ht.inLog hready kept, ?_, ?_, ?_, hkeys⟩
      · rw [hstep]
        exact ⟨hin, hmin.trans ht.minValid, hgood, hlinked, hbounded⟩
      · intro hf
        rw [hstep, failed_rollback] at hf
        cases hf
      · intro _ key
        rw [hstep]
        exact hcontent key
      · intro _
        unfold leftBehind
        rw [if_neg (not_not.mpr hlen)]
    · obtain ⟨hin, hmin, hcontent⟩ := commit_spec ht.inLog hready
      have hwhole : kept = p.entries := by
        have hmap : kept.map LogEntry.record = recs := hwritten.symm.trans (hall hlog)
        exact List.map_injective_iff.mpr record_injective hmap
      have hnot : failed (s.append c).2 = false := by
        rw [hstep]
        exact failed_refused _ _
      refine ⟨?_, events_batch ht.inLog hready kept, ?_, ?_, ?_, hkeys⟩
      · rw [hstep]
        refine ⟨?_, hmin.trans ht.minValid, hgood, hlinked, hbounded⟩
        rw [hwhole]
        exact hin
      · intro _ key
        rw [hstep, hwhole, ← ht.minValid]
        exact hcontent key
      · intro hf
        rw [hnot] at hf
        cases hf
      · intro hf
        rw [hnot] at hf
        cases hf

structure Truthful (s : Store o) (c : Call) : Prop where
  grows : ∀ key, ∀ x ∈ s.head.content key, x ∈ (s.append c).1.head.content key
  keeps : KeepsAccepted s c (s.append c).1.head
  only : ∀ key, ∀ x ∈ (s.append c).1.head.content key,
    x ∈ s.head.content key ∨ Carried s c key x

omit ht in
/-- A call that stores nothing and accepts nothing. -/
theorem truthful_unchanged (hcontent : ∀ key, (s.append c).1.head.content key = s.head.content key)
    (hnone : ∀ i ref x, c.refs[i]? = some ref → c.samples[i]? = some x →
      accepted (s.append c).2 i = false) : Truthful s c where
  grows key x hx := by
    rw [hcontent]
    exact hx
  keeps i ref x href hx hacc := by
    rw [hnone i ref x href hx] at hacc
    cases hacc
  only key x hx := by
    rw [hcontent] at hx
    exact Or.inl hx

omit ht in
theorem batch_getElem {i : ℕ} {ref : SeriesRef} {x : Sample} (href : c.refs[i]? = some ref)
    (hx : c.samples[i]? = some x) : c.batch[i]? = some (ref, x) :=
  List.getElem?_zip_eq_some.mpr ⟨href, hx⟩

theorem call_truthful : Truthful s c := by
  have hready := ready_prepare c.batch ht.inLog.wf
  set p := s.head.prepare c.batch
  obtain ⟨more, keyOf', hstepped⟩ := call_stepped ht c
  rcases call_cases s c with ⟨-, hstep⟩ | ⟨hlen,
    ⟨hvalid, hstep⟩ | ⟨hvalid, ⟨hlog, hstep⟩ | ⟨hlog, hstep⟩⟩⟩
  · refine truthful_unchanged c (hstepped.unchanged ?_) ?_
    · rw [hstep]
      rfl
    · intro i ref x _ _
      rw [hstep]
      rfl
  · obtain ⟨-, -, hcontent⟩ := rollback_spec ht.inLog hready List.nil_prefix
    refine truthful_unchanged c ?_ ?_
    · intro key
      rw [hstep]
      exact hcontent key
    · intro i ref x href hx
      have hlength := hready.resolves.targets.length_eq
      obtain ⟨t, ht'⟩ : ∃ t, p.resolution.targets[i]? = some t := by
        have hi := (List.getElem?_eq_some_iff.mp (batch_getElem c href hx)).1
        exact ⟨_, List.getElem?_eq_getElem (by omega)⟩
      cases t with
      | ok id =>
        have hid := ok_mem_targets hlength (List.mem_of_getElem? ht')
        rw [← hready.valid, show p.valid = [] from hvalid] at hid
        cases hid
      | error e =>
        obtain ⟨r, hr, hindex⟩ := rejected_of_error ht' 0
        have hrej : (rejections 0 p.resolution.targets).any
          (fun r => decide (r.index = i)) = true :=
          List.any_eq_true.mpr ⟨r, hr, decide_eq_true (by rw [hindex]; simp)⟩
        rw [hstep]
        unfold accepted
        rw [hrej]
        rfl
  · refine truthful_unchanged c (hstepped.unchanged ?_) ?_
    · rw [hstep]
      exact failed_rollback p
    · intro i ref x _ _
      rw [hstep]
      rfl
  · obtain ⟨outs, hresult, hout⟩ := commit_outcomes hready
    rw [hresult] at hstep
    have hhead : (s.append c).1.head = (p.commit s.head.minValid c.batch).1 := by rw [hstep]
    rw [← hhead] at hout
    refine ⟨hout.grows, ?_, ?_⟩
    · intro i ref x href hx hacc
      have hi := List.getElem?_eq_some_iff.mp (batch_getElem c href hx)
      obtain ⟨out, hio⟩ : ∃ out, outs[i]? = some out :=
        ⟨_, List.getElem?_eq_getElem (by rw [hout.length_eq]; exact hi.1)⟩
      have hzip : ((ref, x), out) ∈ c.batch.zip outs :=
        List.mem_of_getElem? (List.getElem?_zip_eq_some.mpr ⟨batch_getElem c href hx, hio⟩)
      rw [hstep] at hacc
      obtain ⟨b, rfl⟩ := (accepted_iff outs hio).mp hacc
      have hstored : storedAt (s.append c).2 i = b := by rw [hstep, storedAt_eq outs hio]
      rw [hstored]
      cases b with
      | true => exact hout.stored _ hzip
      | false => exact hout.duplicate _ hzip
    · intro key x hx
      rcases hout.only key x hx with hx | ⟨ref, hkey, hzip⟩
      · exact Or.inl hx
      · obtain ⟨i, hi⟩ := List.mem_iff_getElem?.mp hzip
        obtain ⟨hbatch, hio⟩ := List.getElem?_zip_eq_some.mp hi
        obtain ⟨href, hx⟩ := List.getElem?_zip_eq_some.mp hbatch
        refine Or.inr ⟨i, ref, href, hx, hkey, ?_⟩
        rw [hstep]
        exact (accepted_iff outs hio).mpr ⟨true, rfl⟩

end Call

variable {s : Store o} {m : ℤ} {keyOf : ℕ → GoString} {entries : List LogEntry}

theorem run_append (s : Store o) (calls more : List Call) :
    s.run (calls ++ more) = (s.run calls).run more := List.foldl_append

theorem run_tracks (ht : Tracks s m keyOf entries) (calls : List Call) :
    ∃ keyOf' entries', Tracks (s.run calls) m keyOf' entries' := by
  induction calls generalizing s keyOf entries with
  | nil => exact ⟨keyOf, entries, ht⟩
  | cons c calls ih =>
    obtain ⟨more, keyOf', hstepped⟩ := call_stepped ht c
    exact ih hstepped.tracks

theorem run_grows (ht : Tracks s m keyOf entries) (calls : List Call) (key : GoString) :
    ∀ x ∈ s.head.content key, x ∈ (s.run calls).head.content key := by
  induction calls generalizing s keyOf entries with
  | nil => exact fun x hx => hx
  | cons c calls ih =>
    obtain ⟨more, keyOf', hstepped⟩ := call_stepped ht c
    exact fun x hx => ih hstepped.tracks x ((call_truthful ht c).grows key x hx)

theorem run_only (ht : Tracks s m keyOf entries) (calls : List Call) (key : GoString) {x : Sample}
    (hx : x ∈ (s.run calls).head.content key) :
    x ∈ s.head.content key ∨ ∃ pre c post, calls = pre ++ c :: post ∧
      Carried (s.run pre) c key x := by
  induction calls generalizing s keyOf entries with
  | nil => exact Or.inl hx
  | cons c calls ih =>
    obtain ⟨more, keyOf', hstepped⟩ := call_stepped ht c
    rcases ih hstepped.tracks hx with hx | ⟨pre, c', post, rfl, hcarried⟩
    · rcases (call_truthful ht c).only key x hx with hx | hcarried
      · exact Or.inl hx
      · exact Or.inr ⟨[], c, calls, rfl, hcarried⟩
    · exact Or.inr ⟨c :: pre, c', post, rfl, hcarried⟩

/-- Replay of a store's log. -/
theorem replay_tracks (ht : Tracks s m keyOf entries) :
    ∃ st, replay (emptyHead o m) s.wal.dir = .ok st ∧
      ∀ key, st.head.content key = peaks Sample.t (events keyOf entries key) := by
  have hfresh : Head.Fresh (emptyHead o m) := ⟨rfl, rfl⟩
  obtain ⟨st, hst, hrestored⟩ := replay_of_good ht.good rfl (fun _ _ => rfl)
    ht.inLog.declared (fun _ _ _ h => h) hfresh rfl
  refine ⟨st, hst, fun key => ?_⟩
  rw [hrestored.content]
  refine List.filter_eq_self.mpr (fun x hx => decide_eq_true ?_)
  obtain ⟨e, he, y, hy, -, rfl⟩ := exists_of_mem_events (mem_of_mem_peaks hx)
  exact ht.bounded y (List.mem_flatMap.mpr ⟨e, he, hy⟩)

def Synced (s : Store o) (keyOf : ℕ → GoString) (entries : List LogEntry) : Prop :=
  ∀ key, s.head.content key = peaks Sample.t (events keyOf entries key)

theorem step_synced (ht : Tracks s m keyOf entries) (hs : Synced s keyOf entries)
    (hc : Harmless s c) :
    ∃ keyOf' entries', Tracks (s.append c).1 m keyOf' entries' ∧
      Synced (s.append c).1 keyOf' entries' := by
  obtain ⟨more, keyOf', hstepped⟩ := call_stepped ht c
  refine ⟨keyOf', entries ++ more, hstepped.tracks, fun key => ?_⟩
  rw [hstepped.events_eq, peaks_append, ← hs key]
  cases hf : failed (s.append c).2 with
  | false =>
    rw [hstepped.applied hf, foldl_accept_of_le]
    intro x hx
    obtain ⟨e, he, y, hy, -, rfl⟩ := exists_of_mem_events hx
    exact hstepped.tracks.bounded y (List.mem_flatMap.mpr ⟨e, List.mem_append_right _ he, hy⟩)
  | true =>
    rw [hstepped.unchanged hf, foldl_push_of_dominated (ascending_content _ _)]
    intro x hx
    obtain ⟨e, he, y, hy, hkey, rfl⟩ := exists_of_mem_events hx
    have hmem : y ∈ more.flatMap LogEntry.batch := List.mem_flatMap.mpr ⟨e, he, hy⟩
    obtain ⟨ref, ms, -, hms, hmsKey, hkey'⟩ := hstepped.samples y hmem
    rw [hstepped.left hf] at hmem
    obtain ⟨ms', hms', hdom⟩ := hc hf y hmem
    rw [hms] at hms'
    cases hms'
    rw [hmsKey, ← hkey', hkey] at hdom
    exact hdom

theorem run_synced {calls : List Call}
    (hc : ∀ pre c post, calls = pre ++ c :: post →
      Harmless ((Store.start o m segmentSize).run pre) c) :
    ∃ keyOf entries, Tracks ((Store.start o m segmentSize).run calls) m keyOf entries ∧
      Synced ((Store.start o m segmentSize).run calls) keyOf entries := by
  induction calls using List.reverseRecOn with
  | nil => exact ⟨_, _, tracks_start o m segmentSize, fun _ => rfl⟩
  | append_singleton calls c ih =>
    obtain ⟨keyOf, entries, ht, hs⟩ := ih (fun pre c' post hsplit =>
      hc pre c' (post ++ [c]) (by rw [hsplit]; simp))
    rw [run_append]
    exact step_synced ht hs (hc calls c [] rfl)

/-- A failed call that leaves something newer behind is visible in the replay. -/
theorem harmless_of_faithful {pre : List Call}
    (hpre : ∀ pre' c' post', pre = pre' ++ c' :: post' →
      Harmless ((Store.start o m segmentSize).run pre') c')
    (hfaithful : Faithful o m segmentSize (pre ++ [c])) :
    Harmless ((Store.start o m segmentSize).run pre) c := by
  obtain ⟨keyOf, entries, ht, hs⟩ := run_synced hpre
  obtain ⟨more, keyOf', hstepped⟩ := call_stepped ht c
  obtain ⟨st, hst, hcontent⟩ := replay_tracks hstepped.tracks
  obtain ⟨st', hst', hall⟩ := hfaithful
  have hrun : (Store.start o m segmentSize).run (pre ++ [c]) =
      (((Store.start o m segmentSize).run pre).append c).1 := run_append _ pre [c]
  rw [hrun, hst] at hst'
  cases hst'
  intro hf x hx
  rw [← hstepped.left hf] at hx
  obtain ⟨ref, ms, -, hms, hmsKey, hkey'⟩ := hstepped.samples x hx
  refine ⟨ms, hms, ?_⟩
  rw [hmsKey, hs ref.key]
  have hold := ascending_peaks Sample.t (events keyOf entries ref.key)
  obtain ⟨zs, heq, hzs⟩ := foldl_push_eq hold (events keyOf' more ref.key)
  have hdom := dominated_foldl_push hold (mem_events hkey' hx)
  cases zs with
  | nil =>
    rw [heq, List.append_nil] at hdom
    exact hdom
  | cons z zs =>
    exfalso
    obtain ⟨hz, hlater⟩ := hzs z List.mem_cons_self
    obtain ⟨e, he, y, hy, hykey, rfl⟩ := exists_of_mem_events hz
    obtain ⟨ref', ms', hmem, -, -, hkey''⟩ :=
      hstepped.samples y (List.mem_flatMap.mpr ⟨e, he, hy⟩)
    obtain ⟨i, hi⟩ := List.mem_iff_getElem?.mp hmem
    obtain ⟨href', hsample⟩ := List.getElem?_zip_eq_some.mp hi
    have hpresent : y.sample ∈ st.head.content ref'.key := by
      rw [hcontent, ← hkey'', hykey, hstepped.events_eq, peaks_append, heq]
      simp
    rcases (hall pre c [] rfl).2 hf i ref' y.sample href' hsample hpresent with
      hbefore | ⟨pre', c', post', hnil, -⟩
    · rw [hs, ← hkey'', hykey] at hbefore
      exact lt_irrefl _ (hlater _ hbefore)
    · simp at hnil

/-- Replay restores what was acknowledged after every call of a run, exactly if
every failed call leaves nothing newer behind than what the head has. -/
theorem replay_faithful_iff (o : Options) (minValid segmentSize : ℤ) (calls : List Call) :
    (∀ pre post, calls = pre ++ post → Faithful o minValid segmentSize pre) ↔
      ∀ pre c post, calls = pre ++ c :: post →
        Harmless ((Store.start o minValid segmentSize).run pre) c := by
  constructor
  · intro hfaithful pre c post hsplit
    induction hn : pre.length using Nat.strongRecOn generalizing pre c post with
    | ind n ih =>
      refine harmless_of_faithful ?_ (hfaithful (pre ++ [c]) post (by rw [hsplit]; simp))
      intro pre' c' post' hpre
      refine ih pre'.length ?_ pre' c' (post' ++ c :: post) (by rw [hsplit, hpre]; simp) rfl
      rw [← hn, hpre, List.length_append, List.length_cons]
      omega
  · intro hharmless calls' post hsplit
    have hcalls : ∀ pre c post', calls' = pre ++ c :: post' →
        Harmless ((Store.start o minValid segmentSize).run pre) c :=
      fun pre c post' hpre => hharmless pre c (post' ++ post) (by rw [hsplit, hpre]; simp)
    obtain ⟨keyOf, entries, ht, hs⟩ := run_synced hcalls
    obtain ⟨st, hst, hcontent⟩ := replay_tracks ht
    have hsame : ∀ key, st.head.content key =
        ((Store.start o minValid segmentSize).run calls').head.content key := by
      intro key
      rw [hcontent, hs]
    refine ⟨st, hst, ?_⟩
    intro pre c rest hpre
    obtain ⟨keyOf', entries', ht'⟩ := run_tracks (tracks_start o minValid segmentSize) pre
    obtain ⟨more, keyOf'', hstepped⟩ := call_stepped ht' c
    have hend : (Store.start o minValid segmentSize).run calls' =
        ((((Store.start o minValid segmentSize).run pre).append c).1).run rest := by
      rw [hpre, run_append]
      rfl
    constructor
    · intro i ref x href hx hacc
      have hkeeps := (call_truthful ht' c).keeps i ref x href hx hacc
      rw [hsame, hend]
      split at hkeeps
      · rw [if_pos ‹_›]
        exact run_grows hstepped.tracks rest _ x hkeeps
      · rw [if_neg ‹_›]
        obtain ⟨y, hy, hxy⟩ := hkeeps
        exact ⟨y, run_grows hstepped.tracks rest _ y hy, hxy⟩
    · intro hf i ref x href hx hpresent
      rw [hsame, hend] at hpresent
      rcases run_only hstepped.tracks rest _ hpresent with hbefore | hlater
      · rw [hstepped.unchanged hf] at hbefore
        exact Or.inl hbefore
      · exact Or.inr hlater

def series : SeriesRef := ⟨[0x63], []⟩

def unsynced : Call := ⟨[series], [⟨100, 0⟩], .atSync⟩

def earlier : Call := ⟨[series], [⟨50, 0⟩], .none⟩

def syncing : Options := Options.complete 0 0 true

def restored (calls : List Call) : List Sample :=
  match replay (emptyHead syncing minInt64)
    ((Store.start syncing minInt64 0).run calls).wal.dir with
  | .ok st => st.head.content series.key
  | .error _ => []

theorem restored_eq {calls : List Call} {st : ReplayState syncing}
    (h : replay (emptyHead syncing minInt64) ((Store.start syncing minInt64 0).run calls).wal.dir =
      .ok st) : restored calls = st.head.content series.key := by
  rw [restored, h]

/-- The sample of a call whose sync failed is there after replay, and one that
was acknowledged later is not. -/
theorem unsynced_sample_replayed :
    ¬ Faithful syncing minInt64 0 [unsynced] ∧ ¬ Faithful syncing minInt64 0
      [unsynced, earlier] := by
  constructor
  · rintro ⟨st, hst, hall⟩
    have hpresent : (⟨100, 0⟩ : Sample) ∈ st.head.content series.key := by
      rw [← restored_eq hst]
      decide +kernel
    have hfailed : failed ((Store.start syncing minInt64 0).append unsynced).2 = true := by
      decide +kernel
    rcases (hall [] unsynced [] rfl).2 hfailed 0 series _ rfl rfl hpresent with hold | hlater
    · exact absurd hold List.not_mem_nil
    · obtain ⟨pre, c, post, hnil, -⟩ := hlater
      simp at hnil
  · rintro ⟨st, hst, hall⟩
    have haccepted : accepted (((Store.start syncing minInt64 0).run [unsynced]).append earlier).2
      0 =
        true := by decide +kernel
    have hstored : storedAt (((Store.start syncing minInt64 0).run [unsynced]).append earlier).2 0 =
        true := by decide +kernel
    have hpresent := (hall [unsynced] earlier [] rfl).1 0 series ⟨50, 0⟩ rfl rfl haccepted
    rw [if_pos hstored, ← restored_eq hst] at hpresent
    exact absurd hpresent (by decide +kernel)

open WalTruncate WalRuns

/-- `truncateLog` for a cut, run for these segments, each time stopped behind so many operations. -/
def truncations (cutAt : ℤ) (d : Dir (List Byte)) (runs : List (ℕ × ℕ)) : Dir (List Byte) :=
  runs.foldl (fun d run => interrupted d run.1 (some (keepForCheckpoint cutAt)) run.2) d

theorem good_truncations (cutAt : ℤ) {s : State} (h : Good s)
    (hpolicy : ∀ r, keepForCheckpoint cutAt r = true → s.policy r = true) {runs : List (ℕ × ℕ)}
    (hbound : ∀ run ∈ runs, s.bound ≤ run.1) (hruns : runs.Pairwise (fun a b => a.1 ≤ b.1)) :
    ∃ s', Good s' ∧ s'.wal.dir = truncations cutAt s.wal.dir runs ∧ s'.history = s.history ∧
      ∀ r, keepForCheckpoint cutAt r = true → s'.policy r = true := by
  induction runs generalizing s with
  | nil => exact ⟨s, h, rfl, rfl, hpolicy⟩
  | cons run runs ih =>
    obtain ⟨hfirst, hrest⟩ := List.pairwise_cons.mp hruns
    have hgood := @good_truncate run.1 s h (some (keepForCheckpoint cutAt)) run.2
      (hbound run List.mem_cons_self) hpolicy
    exact ih hgood (fun _ hr => hr) hfirst hrest

/-- Opened again after a cut, the head refuses samples before the end of the newest block. It has
every other sample, wherever the truncations of the log have stopped. -/
theorem replay_after_cut (o : Options) (minValid segmentSize : ℤ) (calls : List Call)
    (hcalls : ∀ pre c post, calls = pre ++ c :: post →
      Harmless ((Store.start o minValid segmentSize).run pre) c) (s : Store o)
    (hs : s = (Store.start o minValid segmentSize).run calls) (cutAt blocksEnd : ℤ)
    (hend : ∀ key, ∀ x ∈ s.head.content key, blocksEnd ≤ x.t → cutAt ≤ x.t)
    (runs : List (ℕ × ℕ)) (hruns : runs.Pairwise (fun a b => a.1 ≤ b.1)) :
    ∃ st, replay (emptyHead o blocksEnd) (truncations cutAt s.wal.dir runs) = .ok st ∧
      ∀ key, st.head.content key = (s.head.content key).filter
        (fun x => decide (blocksEnd ≤ x.t)) := by
  subst hs
  obtain ⟨keyOf, entries, ht, hs⟩ := run_synced hcalls
  obtain ⟨s, hgood, hdir, hhistory, hpolicy⟩ := good_truncations cutAt ht.good
    (fun _ _ => rfl) (fun run _ => Nat.zero_le run.1) hruns
  have hgap : ∀ key, ∀ x ∈ peaks Sample.t (events keyOf entries key), blocksEnd ≤ x.t →
    cutAt ≤ x.t := by
    intro key
    rw [← hs key]
    exact hend key
  obtain ⟨st, hst, hrestored⟩ :=
    replay_of_good hgood hhistory hpolicy ht.inLog.declared hgap (h := emptyHead o blocksEnd)
      ⟨rfl, rfl⟩ rfl
  rw [hdir] at hst
  refine ⟨st, hst, fun key => ?_⟩
  rw [hrestored.content, hs key]

/-- A batch that is refused by the log leaves nothing behind. -/
theorem harmless_of_no_fault (s : Store o) (hc : c.fault = .none) : Harmless s c := by
  intro hfailed x hx
  rcases call_cases s c with ⟨hlen, -⟩ | ⟨-, ⟨-, hstep⟩ | ⟨-, ⟨hno, -⟩ | ⟨-, hstep⟩⟩⟩
  · rw [leftBehind, if_pos hlen] at hx
    cases hx
  · rw [hstep, failed_refused] at hfailed
    cases hfailed
  · unfold leftBehind written at hx
    unfold logLocked at hno
    rw [hc] at hno
    split at hno
    next hlog => simp [hlog] at hx
    next => cases hno
  · simp [hstep, Prepared.commit, failed_refused] at hfailed

/-- One sample, and a truncation that is stopped twice. -/
theorem one_sample_after_cut :
    ∃ st, replay (emptyHead syncing 5)
        (truncations 5 ((Store.start syncing 0 0).run [earlier]).wal.dir
          [(1, 3), (1, 7)]) = .ok st ∧
      ∀ key, st.head.content key =
        (((Store.start syncing 0 0).run [earlier]).head.content key).filter
        (fun x => decide (5 ≤ x.t)) := by
  refine replay_after_cut syncing 0 0 [earlier] (fun pre c post heq => ?_) _ rfl 5 5
    (fun _ _ _ h => h) _
    (by simp)
  have hc : c ∈ [earlier] := heq ▸ List.mem_append_cons_self
  exact harmless_of_no_fault _ (List.mem_singleton.mp hc ▸ rfl)

end Ozymandias.FailedAppend
