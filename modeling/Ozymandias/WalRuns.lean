import Ozymandias.WalCheckpoint

/-!
Runs of the log: calls of `Log` that succeed, fail or are torn by a crash,
repair and reopening, and truncations interrupted after any file operation.
The bytes on disk are followed as records, and every step keeps the checkpoint
invariant. The policy is the narrowest `keep` used so far and the bound the
last `before`: the caller never truncates to a lower segment, nor keeps again
what it once gave up.
-/

namespace Ozymandias.WalRuns

open BitLists WalFrame NumberedFiles WalLog WalRecovery WalTruncate WalCheckpoint FirstOccurrence
  OrderedCover

structure State where
  wal : Wal (List Byte)
  history : List Record
  bound : ℕ
  policy : Record → Bool

def linked {γ : Type} (w : Wal γ) : Bool := (w.dir.segments.find w.segment).isSome

def State.logged (s : State) (recs written : List Record) : List Record :=
  if linked (s.wal.rollFor byteFormat recs) then s.history ++ written else s.history

def tornWrite (w : Wal (List Byte)) (recs : List Record) (cut : ℕ) : Dir (List Byte) :=
  match w.dir.segments.find w.segment with
  | some c => { w.dir with segments := w.dir.segments.put w.segment (c ++ (frames recs).take cut) }
  | none => w.dir

def keeps (keep : Option (Record → Bool)) (r : Record) : Bool :=
  match keep with
  | some keep => keep r
  | none => false

inductive Step : State → State → Prop where
  | log (s : State) (recs : List Record) (w : Wal (List Byte)) (hlog : s.wal.log recs = .ok w) :
    Step s { s with wal := w, history := s.logged recs recs }
  /-- Writing fails inside a record, which is undone; those before it stay. -/
  | failedLog (s : State) (recs : List Record) (cut : ℕ) (hrecs : Accepted recs) :
    Step s
      { s with
        wal := s.wal.failedLog recs cut
        history := s.logged recs (wholeBefore recs cut) }
  /-- A crash during a call, then `Repair` and `Open`. -/
  | torn (s : State) (recs : List Record) (cut : ℕ) (segmentSize : ℤ) (didCut : Bool)
    (d : Dir (List Byte)) (hrecs : Accepted recs)
    (hnumber : (s.wal.rollFor byteFormat recs).segment < 10 ^ 8 ∨ OnBoundary recs cut)
    (hrepair : repair (tornWrite (s.wal.rollFor byteFormat recs) recs cut) = .ok (didCut, d)) :
    Step s
      { s with
        wal := openLog byteFormat segmentSize d
        history := s.logged recs (wholeBefore recs cut) }
  | reopen (s : State) (segmentSize : ℤ) (didCut : Bool) (d : Dir (List Byte))
    (hrepair : repair s.wal.dir = .ok (didCut, d)) :
    Step s { s with wal := openLog byteFormat segmentSize d }
  | truncate (s : State) (before : ℕ) (keep : Option (Record → Bool)) (k : ℕ)
    (hbefore : s.bound ≤ before) (hkeep : ∀ r, keeps keep r = true → s.policy r = true) :
    Step s
      { s with
        wal := { s.wal with dir := interrupted s.wal.dir before keep k }
        bound := before
        policy := keeps keep }

def init (segmentSize : ℤ) : State :=
  ⟨openLog byteFormat segmentSize Dir.empty, [], 0, fun _ => true⟩

def Reachable (segmentSize : ℤ) (s : State) : Prop :=
  Relation.ReflTransGen Step (init segmentSize) s

abbrev recordFiles : Format Record (List Record) := recordFormat Record.frameSize

/-- The handle stands at the end of its segment, and none is newer. -/
structure AtEnd (w : Wal (List Record)) : Prop where
  newest : ∀ e ∈ w.dir.segments.entries, e.1 ≤ w.segment
  size : ∀ c, w.dir.segments.find w.segment = some c → w.size = recordFiles.size c

structure Inv (s : State) (w : Wal (List Record)) (covered copies extra : List Record) : Prop where
  bytes : s.wal = w.map frames
  whole : Whole w.dir
  atEnd : AtEnd w
  holds : Holds s.policy s.bound w.dir s.history covered copies extra

def Good (s : State) : Prop := ∃ w covered copies extra, Inv s w covered copies extra

variable {c recs covered copies extra : List Record} {d d' : Dir (List Record)}
  {before : ℕ} {s : State}
  {γ ρ : Type}

section Handle

variable {policy : Record → Bool} {bound : ℕ} {w : Wal (List Record)} {history : List Record}

/-- Opening a segment that is there changes nothing; a new one is empty. -/
theorem openSegment_holds (hw : Whole d) (h : Holds policy bound d history covered copies extra)
    (size n : ℕ) (hn : ∀ e ∈ d.segments.entries, e.1 ≤ n) :
    AtEnd (WalLog.openSegment recordFiles d size n) ∧
      Whole (WalLog.openSegment recordFiles d size n).dir ∧
      Holds policy bound (WalLog.openSegment recordFiles d size n).dir history covered
        copies extra := by
  unfold WalLog.openSegment
  cases hfind : d.segments.find n with
  | some c =>
    refine ⟨⟨hn, ?_⟩, hw, h⟩
    intro c' hc'
    rw [hfind] at hc'
    cases hc'
    rfl
  | none =>
    refine ⟨⟨Files.le_of_mem_put hn, ?_⟩, whole_put hw n nofun,
      h.newSegment (Files.lt_of_find_eq_none hn hfind)⟩
    intro c' hc'
    rw [find_put] at hc'
    cases hc'
    rfl

theorem rollFor_holds (hend : AtEnd w) (hw : Whole w.dir)
    (h : Holds policy bound w.dir history covered copies extra) (recs : List Record) :
    AtEnd (w.rollFor recordFiles recs) ∧ Whole (w.rollFor recordFiles recs).dir ∧
      Holds policy bound (w.rollFor recordFiles recs).dir history covered copies extra := by
  unfold Wal.rollFor
  split
  · exact openSegment_holds hw h _ _ (fun e he => Nat.le_succ_of_le (hend.newest e he))
  · exact ⟨hend, hw, h⟩

/-- The segment that a handle at the end writes to. -/
theorem exists_older (hend : AtEnd w) (hfind : w.dir.segments.find w.segment = some c) :
    ∃ older, w.dir.segments.entries = older ++ [(w.segment, c)] :=
  ⟨_, w.dir.segments.entries_of_newest (Files.find_eq_some_iff.mp hfind) hend.newest⟩

theorem write_holds (hend : AtEnd w) (hw : Whole w.dir)
    (h : Holds policy bound w.dir history covered copies extra) {written : List Record}
    (hrecs : ∀ r ∈ written, r.Writable) :
    AtEnd (w.write recordFiles written) ∧ Whole (w.write recordFiles written).dir ∧
      ∃ extra', Holds policy bound (w.write recordFiles written).dir
        (if linked w then history ++ written else history) covered copies extra' := by
  unfold Wal.write linked
  cases hfind : w.dir.segments.find w.segment with
  | none =>
    refine ⟨⟨hend.newest, ?_⟩, hw, extra, h⟩
    intro c hc
    rw [hfind] at hc
    cases hc
  | some c =>
    obtain ⟨older, hentries⟩ := exists_older hend hfind
    refine ⟨⟨Files.le_of_mem_put hend.newest, ?_⟩, whole_write hw hfind hrecs,
      h.write hentries written⟩
    intro c' hc'
    rw [find_put] at hc'
    cases hc'
    rw [hend.size c hfind]
    simp [recordFormat]

end Handle

theorem linked_map (w : Wal (List Record)) : linked (w.map frames) = linked w := by
  unfold linked
  change ((w.dir.segments.map frames).find w.segment).isSome = _
  rw [Files.find_map, Option.isSome_map]

variable {w : Wal (List Record)} {cut : ℕ} {segmentSize : ℤ}

theorem Inv.dir (h : Inv s w covered copies extra) : s.wal.dir = w.dir.map frames := by
  rw [h.bytes]
  rfl

theorem Inv.logged (h : Inv s w covered copies extra) (recs written : List Record) :
    s.logged recs written =
      if linked (w.rollFor recordFiles recs) then s.history ++ written else s.history := by
  unfold State.logged
  rw [h.bytes, rollFor_map views_records_bytes, linked_map]

/-- A call whose first records reach the log, all of them or some. -/
theorem good_write (h : Inv s w covered copies extra) {written : List Record}
    (hrecs : ∀ r ∈ written, r.Writable) :
    Good { s with
      wal := (s.wal.rollFor byteFormat recs).write byteFormat written
      history := s.logged recs written } := by
  obtain ⟨hend, hw, hholds⟩ := rollFor_holds h.atEnd h.whole h.holds recs
  obtain ⟨hend', hw', extra', hholds'⟩ := write_holds hend hw hholds hrecs
  refine ⟨(w.rollFor recordFiles recs).write recordFiles written, covered, copies, extra', ?_, hw',
    hend', ?_⟩
  · change (s.wal.rollFor byteFormat recs).write byteFormat written = _
    rw [h.bytes, rollFor_map views_records_bytes, write_map views_records_bytes]
  · change Holds s.policy s.bound _ (s.logged recs written) covered copies extra'
    rw [h.logged]
    exact hholds'

theorem good_log (h : Good s) {w : Wal (List Byte)} (hlog : s.wal.log recs = .ok w) :
    Good { s with wal := w, history := s.logged recs recs } := by
  obtain ⟨w₀, covered, copies, extra, hinv⟩ := h
  unfold Wal.log at hlog
  by_cases hnil : recs = []
  · rw [if_pos hnil] at hlog
    cases hlog
    refine ⟨w₀, covered, copies, extra, hinv.bytes, hinv.whole, hinv.atEnd, ?_⟩
    have hsame : s.logged recs recs = s.history := by
      unfold State.logged
      rw [hnil, List.append_nil, ite_self]
    rw [hsame]
    exact hinv.holds
  · rw [if_neg hnil] at hlog
    cases hcheck : recs.findSome? checkRecord with
    | some e =>
      rw [hcheck] at hlog
      cases hlog
    | none =>
      rw [hcheck] at hlog
      cases hlog
      exact good_write hinv (findSome_checkRecord.mp hcheck)

theorem good_failedLog (h : Good s) (hrecs : Accepted recs) : Good { s with
      wal := s.wal.failedLog recs cut
      history := s.logged recs (wholeBefore recs cut) } := by
  obtain ⟨w, covered, copies, extra, hinv⟩ := h
  obtain ⟨hend, -, -⟩ := rollFor_holds hinv.atEnd hinv.whole hinv.holds recs
  have hundo : s.wal.failedLog recs cut =
      (s.wal.rollFor byteFormat recs).write byteFormat (wholeBefore recs cut) := by
    apply failedLog_eq
    rw [hinv.bytes, rollFor_map views_records_bytes]
    intro c hc
    change ((w.rollFor recordFiles recs).dir.segments.map frames).find _ = some c at hc
    rw [Files.find_map] at hc
    obtain ⟨recs', hrecs', rfl⟩ := Option.map_eq_some_iff.mp hc
    exact (hend.size recs' hrecs').trans (length_frames recs').symm
  rw [hundo]
  exact good_write hinv (fun r hr => hrecs.2 r ((wholeBefore_initial recs cut).subset hr))

/-- Repair and reopening of a directory without a torn record. -/
theorem good_open {history : List Record} (hw : Whole d)
    (h : Holds s.policy s.bound d history covered copies extra) (segmentSize : ℤ) :
    Good { s with wal := openLog byteFormat segmentSize (d.map frames), history := history } := by
  obtain ⟨hend, hw', hholds⟩ := openSegment_holds hw h _ _ Files.le_last
  refine ⟨openLog recordFiles segmentSize d, covered, copies, extra, ?_, hw', hend, hholds⟩
  exact openLog_map views_records_bytes segmentSize d

theorem good_torn (h : Good s) {didCut : Bool} {d : Dir (List Byte)} (hrecs : Accepted recs)
    (hnumber : (s.wal.rollFor byteFormat recs).segment < 10 ^ 8 ∨ OnBoundary recs cut)
    (hrepair : repair (tornWrite (s.wal.rollFor byteFormat recs) recs cut) = .ok (didCut, d)) :
    Good { s with
      wal := openLog byteFormat segmentSize d
      history := s.logged recs (wholeBefore recs cut) } := by
  obtain ⟨w, covered, copies, extra, hinv⟩ := h
  obtain ⟨hend, hw, hholds⟩ := rollFor_holds hinv.atEnd hinv.whole hinv.holds recs
  have hlogged := hinv.logged recs (wholeBefore recs cut)
  rw [hinv.bytes, rollFor_map views_records_bytes] at hnumber hrepair
  generalize w.rollFor recordFiles recs = rolled at hend hw hholds hlogged hnumber hrepair
  have hfind : (rolled.map frames).dir.segments.find (rolled.map frames).segment =
      (rolled.dir.segments.find rolled.segment).map frames :=
    Files.find_map frames rolled.segment rolled.dir.segments
  unfold tornWrite at hrepair
  unfold linked at hlogged
  rw [hfind] at hrepair
  cases hcur : rolled.dir.segments.find rolled.segment with
  | none =>
    rw [hcur] at hrepair hlogged
    change repair (rolled.dir.map frames) = _ at hrepair
    rw [repair_whole _ hw] at hrepair
    cases hrepair
    rw [hlogged]
    exact good_open hw hholds segmentSize
  | some c =>
    rw [hcur] at hrepair hlogged
    obtain ⟨older, hentries⟩ := exists_older hend hcur
    obtain ⟨didCut', hrepair'⟩ := repair_torn_call hentries hw hrecs.2 cut hnumber
    change repair { rolled.dir.map frames with
      segments := (rolled.dir.map frames).segments.put rolled.segment
        (frames c ++ (frames recs).take cut) } = _ at hrepair
    rw [hrepair'] at hrepair
    cases hrepair
    rw [hlogged]
    obtain ⟨extra', hholds'⟩ := hholds.write hentries (wholeBefore recs cut)
    refine good_open (whole_write hw hcur ?_) hholds' segmentSize
    exact fun r hr => hrecs.2 r ((wholeBefore_initial recs cut).subset hr)

theorem whole_of_subset (hw : Whole d) (hcp : ∀ e ∈ d'.checkpoints.entries, ∀ r ∈ e.2, r.Writable)
    (hseg : ∀ e ∈ d'.segments.entries, e ∈ d.segments.entries) : Whole d' :=
  whole_iff.mpr ⟨hcp, fun e he => (whole_iff.mp hw).2 e (hseg e he)⟩

theorem writable_kept (hw : Whole d) (before : ℕ) (keep : Record → Bool) :
    ∀ r ∈ keptRecords d before keep, r.Writable := by
  intro r hr
  rcases List.mem_append.mp (List.mem_filter.mp hr).1 with hr | hr
  · obtain ⟨e, he, hr⟩ := mem_recordsOf.mp hr
    exact (whole_iff.mp hw).1 e (Files.mem_keep.mp he).1 r hr
  · obtain ⟨e, he, hr⟩ := mem_recordsOf.mp hr
    exact (whole_iff.mp hw).2 e (Files.mem_keep.mp he).1 r hr

structure Survives (before : ℕ) (keep : Record → Bool) (d d' : Dir (List Record))
    (history : List Record) : Prop where
  whole : Whole d'
  segments : ∀ e ∈ d'.segments.entries, e ∈ d.segments.entries
  onward_eq : onward before d' = onward before d
  holds : ∃ covered copies extra, Holds keep before d' history covered copies extra

section Truncation

variable {policy : Record → Bool} {bound : ℕ} {history : List Record} {keep : Record → Bool}
  (hw : Whole d) (h : Holds policy bound d history covered copies extra) (hb : bound ≤ before)
include hw h hb

theorem survives_pruned (hk : ∀ r, keep r = true → policy r = true)
    (hp : Pruned before (published d before (keptRecords d before keep)) d') :
    Survives before keep d d' history := by
  refine ⟨?_, hp.leftover, congrArg recordsOf hp.surviving, _, _, _,
    ((h.raise hb).mono hk).pruned hp⟩
  refine whole_of_subset hw ?_ hp.leftover
  intro e he
  rcases Files.mem_put.mp (hp.old e he) with rfl | ⟨he, -⟩
  · exact writable_kept hw before keep
  · exact (whole_iff.mp hw).1 e he

theorem survives_dropped (hp : Pruned before d d') :
    Survives before (fun _ => false) d d' history := by
  refine ⟨?_, hp.leftover, congrArg recordsOf hp.surviving, _, _, _, (h.raise hb).dropped hp⟩
  exact whole_of_subset hw (fun e he => (whole_iff.mp hw).1 e (hp.old e he)) hp.leftover

theorem survives_unpublished (hk : ∀ r, keep r = true → policy r = true)
    (hseg : d'.segments = d.segments) (hcp : d'.checkpoints = d.checkpoints) :
    Survives before keep d d' history := by
  refine ⟨?_, ?_, ?_, _, _, _, ((h.raise hb).mono hk).of_eq hseg hcp⟩
  · refine whole_of_subset hw ?_ (by rw [hseg]; exact fun e he => he)
    rw [hcp]
    exact (whole_iff.mp hw).1
  · rw [hseg]
    exact fun e he => he
  · unfold onward
    rw [hseg]

theorem survives_truncate (keep : Option (Record → Bool))
    (hk : ∀ r, keeps keep r = true → policy r = true) (k : ℕ) :
    Survives before (keeps keep) d
      (runOps recordFiles d ((truncate readWhole d before keep).ops.take k)) history := by
  by_cases hd : (doomed d before).entries = []
  · rw [truncate_none d before keep hd, List.take_nil]
    exact survives_unpublished hw h hb hk rfl rfl
  · rw [truncate_whole d before keep hd]
    cases keep with
    | none =>
      refine survives_dropped hw h hb (pruned_run d _ ?_)
      exact fun op hop => removes_removals d op (List.mem_of_mem_take hop)
    | some keep =>
      rcases run_checkpoint Record.frameSize d before (keptRecords d before keep) k with h' | h'
      · exact survives_unpublished hw h hb hk h'.1 h'.2
      · exact survives_pruned hw h hb hk h'

end Truncation

theorem good_truncate (h : Good s) {keep : Option (Record → Bool)} {k : ℕ}
    (hbefore : s.bound ≤ before) (hkeep : ∀ r, keeps keep r = true → s.policy r = true) :
    Good { s with
      wal := { s.wal with dir := interrupted s.wal.dir before keep k }
      bound := before
      policy := keeps keep } := by
  obtain ⟨w, covered, copies, extra, hinv⟩ := h
  have hsurv := survives_truncate hinv.whole hinv.holds hbefore keep hkeep k
  obtain ⟨covered', copies', extra', hholds⟩ := hsurv.holds
  refine ⟨{ w with
      dir := runOps recordFiles w.dir ((truncate readWhole w.dir before keep).ops.take k) },
    covered', copies', extra', ?_, hsurv.whole, ?_, hholds⟩
  · change { s.wal with dir := interrupted s.wal.dir before keep k } = _
    rw [hinv.dir, interrupted_frames w.dir hinv.whole, hinv.bytes]
    rfl
  · refine ⟨fun e he => hinv.atEnd.newest e (hsurv.segments e he), ?_⟩
    intro c hc
    refine hinv.atEnd.size c (Files.find_eq_some_iff.mpr (hsurv.segments _ ?_))
    exact Files.find_eq_some_iff.mp hc

theorem good_init (segmentSize : ℤ) : Good (init segmentSize) := by
  have hwhole : Whole (Dir.empty : Dir (List Record)) := by
    intro e he
    cases he
  have hholds : Holds (fun _ => true) 0 (Dir.empty : Dir (List Record)) [] [] [] [] := by
    refine ⟨rfl, rfl, ?_, ?_, ?_, Covers.refl _ []⟩
    · exact nofun
    · exact nofun
    · exact nofun
  exact good_open (s := init segmentSize) hwhole hholds segmentSize

theorem good_step {s' : State} (h : Good s) (hstep : Step s s') : Good s' := by
  cases hstep with
  | log recs w hlog => exact good_log h hlog
  | failedLog recs cut hrecs => exact good_failedLog h hrecs
  | torn recs cut segmentSize didCut d hrecs hnumber hrepair =>
    exact good_torn h hrecs hnumber hrepair
  | reopen segmentSize didCut d hrepair =>
    obtain ⟨w, covered, copies, extra, hinv⟩ := h
    rw [hinv.dir, repair_whole w.dir hinv.whole] at hrepair
    cases hrepair
    exact good_open hinv.whole hinv.holds segmentSize
  | truncate before keep k hbefore hkeep => exact good_truncate h hbefore hkeep

theorem good_reachable (hs : Reachable segmentSize s) : Good s := by
  induction hs with
  | refl => exact good_init segmentSize
  | tail _ hstep ih => exact good_step ih hstep

theorem readLog_split (hw : Whole d) (before : ℕ) : (readLog (d.map frames)).records =
      recordsOf d.checkpoints ++ below before d ++ onward before d := by
  rw [(readLog_whole d hw).1, flatMap_files, ← below_append_onward before, List.append_assoc]

/-- The reader finds no damage, and what it reads covers the history. -/
theorem Good.covers (h : Good s) :
    (readLog s.wal.dir).err = none ∧ Covers s.policy s.history (readLog s.wal.dir).records := by
  obtain ⟨w, covered, copies, extra, hinv⟩ := h
  rw [hinv.dir]
  refine ⟨(readLog_whole w.dir hinv.whole).2, ?_⟩
  rw [readLog_split hinv.whole s.bound, hinv.holds.history_eq]
  exact hinv.holds.replay.extend _

variable (F : Format ρ γ)

theorem linked_openSegment (d : Dir γ) (segmentSize n : ℕ) :
    linked (WalLog.openSegment F d segmentSize n) = true := by
  unfold linked WalLog.openSegment
  cases hfind : d.segments.find n with
  | some c => simp [hfind]
  | none => simp [find_put]

theorem linked_rollFor {w : Wal γ} (h : linked w = true) (recs : List ρ) :
    linked (w.rollFor F recs) = true := by
  unfold Wal.rollFor
  split
  · exact linked_openSegment F _ _ _
  · exact h

theorem linked_write {w : Wal γ} (h : linked w = true) (recs : List ρ) :
    linked (w.write F recs) = true := by
  unfold linked at h ⊢
  obtain ⟨c, hc⟩ := Option.isSome_iff_exists.mp h
  unfold Wal.write
  simp [hc, find_put]

theorem linked_log {w w' : Wal (List Byte)} (h : linked w = true) (hlog : w.log recs = .ok w') :
    linked w' = true := by
  unfold Wal.log at hlog
  split at hlog
  · cases hlog
    exact h
  · split at hlog
    · cases hlog
    · cases hlog
      exact linked_write _ (linked_rollFor _ h recs) recs

theorem linked_failedLog {w : Wal (List Byte)} (h : linked w = true) (recs : List Record)
    (cut : ℕ) : linked (w.failedLog recs cut) = true := by
  have hroll := linked_rollFor byteFormat h recs
  unfold linked at hroll ⊢
  obtain ⟨c, hc⟩ := Option.isSome_iff_exists.mp hroll
  unfold Wal.failedLog
  simp [hc, find_put]

theorem logged_of_linked (h : linked s.wal = true) (recs written : List Record) :
    s.logged recs written = s.history ++ written := by
  unfold State.logged
  rw [if_pos (linked_rollFor byteFormat h recs)]

def surviving (b : Dir (List Byte)) (before : ℕ) : List Record :=
  (readLog { b with
    checkpoints := Files.empty
    segments := b.segments.keep (fun n => decide (before ≤ n)) }).records

def sourceRecords (b : Dir (List Byte)) (before : ℕ) : List Record :=
  (readLog (sources b before)).records

/-- No kept record is missing, each is first found where it was first logged,
and the segments from the number on follow. -/
structure LosesNothing (b : Dir (List Byte)) (history survivors : List Record)
    (keep : Record → Bool) : Prop where
  quiet : (readLog b).err = none
  records : ∃ replayed logged, (readLog b).records = replayed ++ survivors ∧
    history = logged ++ survivors ∧ SameFirsts keep replayed logged

/-- Replay is the kept records and the surviving segments, up to repetitions. -/
structure Exact (b : Dir (List Byte)) (old survivors : List Record) (keep : Record → Bool) :
    Prop where
  quiet : (readLog b).err = none
  records : ∃ kept, (readLog b).records = kept ++ survivors ∧ (∀ r ∈ kept, keep r = true) ∧
    kept.eraseDups = (old.filter keep).eraseDups

/-- There is no segment left to remove, and a checkpoint holds a record that is
not to be kept. -/
def Stale (b : Dir (List Byte)) (before : ℕ) (keep : Record → Bool) : Prop :=
  (doomed b before).entries = [] ∧
    ∃ e ∈ b.checkpoints.entries, ∃ r ∈ (scanFrom 0 e.2).records, keep r = false

section Replay

variable {keep : Record → Bool} {history : List Record}

theorem surviving_frames (hw : Whole d) (before : ℕ) :
    surviving (d.map frames) before = onward before d := by
  let part : Dir (List Record) :=
    { d with
      checkpoints := Files.empty
      segments := d.segments.keep (fun n => decide (before ≤ n)) }
  have hpart : Whole part := by
    refine whole_of_subset hw nofun ?_
    exact fun e he => (Files.mem_keep.mp he).1
  have hview : surviving (d.map frames) before = (readLog (part.map frames)).records := by
    simp only [part, Dir.map, Files.map_keep]
    rfl
  rw [hview, (readLog_whole part hpart).1, flatMap_files]
  rfl

theorem sourceRecords_frames (hw : Whole d) (before : ℕ) : sourceRecords (d.map frames) before =
      recordsOf (sources d before).checkpoints ++ below before d := by
  have hpart : Whole (sources d before) := by
    refine whole_of_subset hw ?_ (fun e he => (Files.mem_keep.mp he).1)
    exact fun e he => (whole_iff.mp hw).1 e (Files.mem_keep.mp he).1
  have hview : sources (d.map frames) before = (sources d before).map frames := by
    simp only [sources, doomed, Dir.map, Files.map_keep]
  unfold sourceRecords
  rw [hview, (readLog_whole _ hpart).1, flatMap_files]
  rfl

theorem losesNothing_of_survives (hs : Survives before keep d d' history) :
    LosesNothing (d'.map frames) history (onward before d) keep := by
  obtain ⟨covered, copies, extra, hholds⟩ := hs.holds
  refine ⟨(readLog_whole d' hs.whole).2, recordsOf d'.checkpoints ++ below before d',
    covered ++ extra, ?_, ?_, hholds.replay.sameFirsts⟩
  · rw [readLog_split hs.whole before, hs.onward_eq]
  · rw [← hs.onward_eq]
    exact hholds.history_eq

theorem stale_frames (hw : Whole d) (before : ℕ) (keep : Record → Bool) :
    Stale (d.map frames) before keep ↔
      (doomed d before).entries = [] ∧ ∃ r ∈ recordsOf d.checkpoints, keep r = false := by
  have hdoomed : (doomed (d.map frames) before).entries = [] ↔ (doomed d before).entries = [] := by
    change (Files.keep _ (d.segments.map frames)).entries = [] ↔ _
    rw [← Files.map_keep]
    exact List.map_eq_nil_iff
  unfold Stale
  rw [hdoomed]
  refine and_congr_right (fun _ => ?_)
  constructor
  · rintro ⟨e, he, r, hr, hno⟩
    obtain ⟨e', he', rfl⟩ := List.mem_map.mp he
    rw [scanFrom_whole e'.2 ((whole_iff.mp hw).1 e' he')] at hr
    exact ⟨r, mem_recordsOf.mpr ⟨e', he', hr⟩, hno⟩
  · rintro ⟨r, hr, hno⟩
    obtain ⟨e, he, hr⟩ := mem_recordsOf.mp hr
    refine ⟨(e.1, frames e.2), List.mem_map.mpr ⟨e, he, rfl⟩, r, ?_, hno⟩
    rw [scanFrom_whole e.2 ((whole_iff.mp hw).1 e he)]
    exact hr

/-- What a completed truncation leaves in front of the surviving segments is all
kept, unless there was nothing to remove and a checkpoint was left as it was. -/
theorem kept_of_complete (hbounded : ∀ e ∈ d.checkpoints.entries, e.1 ≤ before) :
    (∀ r ∈ recordsOf (runOps recordFiles d
      (truncate readWhole d before (some keep)).ops).checkpoints ++
        below before (runOps recordFiles d (truncate readWhole d before (some keep)).ops),
      keep r = true) ↔
      ¬ ((doomed d before).entries = [] ∧ ∃ r ∈ recordsOf d.checkpoints, keep r = false) := by
  by_cases hd : (doomed d before).entries = []
  · have hbelow : below before d = [] := by
      unfold below recordsOf Files.contents
      rw [hd]
      rfl
    rw [truncate_none d before _ hd]
    change (∀ r ∈ recordsOf d.checkpoints ++ below before d, keep r = true) ↔ _
    rw [hbelow]
    simp [hd]
  · rw [truncate_whole d before _ hd]
    obtain ⟨hseg, hcp⟩ := run_complete Record.frameSize d before (keptRecords d before keep)
    constructor
    · exact fun _ h => hd h.1
    · intro _ r hr
      rcases List.mem_append.mp hr with hr | hr
      · obtain ⟨e, he, hr⟩ := mem_recordsOf.mp hr
        rcases hcp e he with rfl | ⟨he, hlt⟩
        · exact (List.mem_filter.mp hr).2
        · exact absurd (hbounded e he) (by omega)
      · obtain ⟨e, he, -⟩ := mem_recordsOf.mp hr
        obtain ⟨hmem, hlt⟩ := Files.mem_keep.mp he
        exact absurd (hseg e hmem) (by simpa using hlt)

/-- The rerun after a crash, on records. -/
theorem exact_iff {policy : Record → Bool} {bound : ℕ} (hw : Whole d)
    (h : Holds policy bound d history covered copies extra) (hb : bound ≤ before)
    (hk : ∀ r, keep r = true → policy r = true) (hs : Survives before keep d d' history) :
    Exact (truncated (d'.map frames) before (some keep)) (sourceRecords (d.map frames) before)
        (onward before d) keep ↔
      ¬ Stale (d'.map frames) before keep := by
  obtain ⟨covered', copies', extra', hholds⟩ := hs.holds
  let rerun := (truncate readWhole d' before (some keep)).ops
  have hsame : ∀ r, keeps (some keep) r = true → keep r = true := fun r hr => hr
  have hdone := survives_truncate hs.whole hholds le_rfl (some keep) hsame rerun.length
  rw [List.take_length] at hdone
  obtain ⟨covered'', copies'', extra'', hholds''⟩ := hdone.holds
  set left := runOps recordFiles d' rerun
  have hbytes : truncated (d'.map frames) before (some keep) = left.map frames := by
    unfold truncated
    rw [truncate_frames d' hs.whole, runOps_map views_records_bytes]
  have hlogged : covered'' ++ extra'' = covered ++ extra ++ between bound before d := by
    have hhist := (h.raise hb).history_eq
    rw [hholds''.history_eq, hdone.onward_eq, hs.onward_eq, ← List.append_assoc] at hhist
    exact List.append_cancel_right hhist
  have hsources : (sources d before).checkpoints = d.checkpoints := by
    apply Files.ext
    exact List.filter_eq_self.mpr (fun e he => decide_eq_true ((h.bounded e he).trans hb))
  have hold : SameFirsts keep (sourceRecords (d.map frames) before) (covered'' ++ extra'') := by
    rw [sourceRecords_frames hw, hsources, hlogged, List.append_assoc]
    exact ((h.raise hb).mono hk).replay.sameFirsts
  have hleft : SameFirsts keep (recordsOf left.checkpoints ++ below before left)
      (sourceRecords (d.map frames) before) :=
    hholds''.replay.sameFirsts.trans (Eq.symm hold)
  have hrecords : (readLog (left.map frames)).records =
      recordsOf left.checkpoints ++ below before left ++ onward before d := by
    rw [readLog_split hdone.whole before, hdone.onward_eq, hs.onward_eq]
  rw [hbytes, stale_frames hs.whole, ← kept_of_complete hholds.bounded]
  constructor
  · rintro ⟨-, kept, hkept, hall, -⟩
    rw [hrecords] at hkept
    rw [List.append_cancel_right hkept]
    exact hall
  · intro hall
    refine ⟨(readLog_whole _ hdone.whole).2, _, hrecords, hall, ?_⟩
    unfold SameFirsts at hleft
    rw [List.filter_eq_self.mpr hall] at hleft
    exact hleft

end Replay

/-- Truncation from any reachable state, interrupted after any file operation.
It loses no kept record and keeps their order; running it again leaves exactly
the kept records and the surviving segments, unless no segment is left to
remove while a checkpoint holds a record that is not to be kept. -/
theorem interrupted_truncate_iff (segmentSize : ℤ) (s : State) (hs : Reachable segmentSize s)
    (before : ℕ) (keep : Record → Bool) (hbefore : s.bound ≤ before)
    (hkeep : ∀ r, keep r = true → s.policy r = true) (k : ℕ) :
    (truncate readStrict s.wal.dir before (some keep)).err = none ∧
      LosesNothing (interrupted s.wal.dir before (some keep) k) s.history
        (surviving s.wal.dir before) keep ∧
      (truncate readStrict (interrupted s.wal.dir before (some keep) k) before (some keep)).err =
        none ∧
      (Exact (truncated (interrupted s.wal.dir before (some keep) k) before (some keep))
          (sourceRecords s.wal.dir before) (surviving s.wal.dir before) keep ↔
        ¬ Stale (interrupted s.wal.dir before (some keep) k) before keep) := by
  obtain ⟨w, covered, copies, extra, hinv⟩ := good_reachable hs
  have hsurv := survives_truncate hinv.whole hinv.holds hbefore (some keep) hkeep k
  rw [hinv.dir, interrupted_frames w.dir hinv.whole, surviving_frames hinv.whole]
  refine ⟨?_, losesNothing_of_survives hsurv, ?_, ?_⟩
  · rw [truncate_frames w.dir hinv.whole, truncate_err]
  · rw [truncate_frames _ hsurv.whole, truncate_err]
  · exact exact_iff hinv.whole hinv.holds hbefore hkeep hsurv

def State.commit (s : State) (recs : List Record) : State :=
  { s with wal := s.wal.commit byteFormat recs, history := s.logged recs recs }

theorem step_commit (s : State) (recs : List Record) (hrecs : Accepted recs) :
    Step s (s.commit recs) := by
  refine .log s recs _ ?_
  unfold Wal.log
  rw [if_neg hrecs.1, findSome_checkRecord.mpr hrecs.2]

def first : Record := ⟨1, []⟩

def second : Record := ⟨2, []⟩

def third : Record := ⟨3, []⟩

def everything : Record → Bool := fun _ => true

def notFirst : Record → Bool := fun r => decide (r ≠ first)

def moved (s : State) : State :=
  { s with
    wal := { s.wal with dir := interrupted s.wal.dir 1 (some everything) 5 }
    bound := 1
    policy := keeps (some everything) }

/-- Three records, in a segment each; the first was moved to a checkpoint when
the third was not yet written. -/
def staleState : State := (moved (((init 1).commit [first]).commit [second])).commit [third]

theorem reachable_staleState : Reachable 1 staleState := by
  have hlogged := (Relation.ReflTransGen.single (step_commit (init 1) [first] (by decide))).tail
    (step_commit _ [second] (by decide))
  have hmoved := hlogged.tail (.truncate _ 1 (some everything) 5 (Nat.zero_le 1) (fun r _ => rfl))
  exact hmoved.tail (step_commit _ [third] (by decide))

/-- The truncation drops the first record and is interrupted before it removes
the old checkpoint; the rerun finds no segment to remove and leaves it there. -/
theorem superseded_checkpoint_stays :
    Reachable 1 staleState ∧ staleState.bound ≤ 2 ∧
      (∀ r, notFirst r = true → staleState.policy r = true) ∧
      sourceRecords staleState.wal.dir 2 = [first, second] ∧
      surviving staleState.wal.dir 2 = [third] ∧
      (readLog (truncated (interrupted staleState.wal.dir 2 (some notFirst) 4) 2
        (some notFirst))).records = [first, second, third] ∧
      ¬ Exact (truncated (interrupted staleState.wal.dir 2 (some notFirst) 4) 2 (some notFirst))
        (sourceRecords staleState.wal.dir 2) (surviving staleState.wal.dir 2) notFirst := by
  have hsurv : surviving staleState.wal.dir 2 = [third] := by decide +kernel
  have hrecords : (readLog (truncated (interrupted staleState.wal.dir 2 (some notFirst) 4) 2
      (some notFirst))).records = [first, second, third] := by decide +kernel
  refine ⟨reachable_staleState, by decide, fun r _ => rfl, by decide +kernel, hsurv, hrecords, ?_⟩
  rintro ⟨-, kept, hkept, hall, -⟩
  rw [hrecords, hsurv] at hkept
  have hmem : first ∈ kept := by
    have hsplit : [first, second] ++ [third] = kept ++ [third] := hkept
    rw [← List.append_cancel_right hsplit]
    simp
  exact absurd (hall first hmem) (by decide)

/-- The same crash point loses nothing. -/
theorem interrupted_truncate_at_superseded :
    Reachable 1 staleState ∧
      LosesNothing (interrupted staleState.wal.dir 2 (some notFirst) 4) staleState.history
        (surviving staleState.wal.dir 2) notFirst :=
  ⟨reachable_staleState,
    (interrupted_truncate_iff 1 staleState reachable_staleState 2 notFirst (by decide)
      (fun r _ => rfl) 4).2.1⟩

def onlySecond : Record → Bool := fun r => decide (r = second)

def twoCalls : State := ((init 1).commit [first, second]).commit [third]

/-- Why no truncation may keep what an earlier one refused: one that was interrupted behind its
rename has left a checkpoint without the first record, in front of the segment that still has it. -/
theorem wider_keep_reorders : Reachable 1 twoCalls ∧
    (readLog (truncated (interrupted twoCalls.wal.dir 1 (some onlySecond) 3) 1
      (some everything))).records = [second, first, second, third] := by
  refine ⟨?_, by decide +kernel⟩
  have hlogged := Relation.ReflTransGen.single (step_commit (init 1) [first, second] (by decide))
  exact hlogged.tail (step_commit _ [third] (by decide))

end Ozymandias.WalRuns
