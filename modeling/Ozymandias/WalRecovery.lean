import Ozymandias.WalLog

/-!
Crash recovery of the log. The directory is followed as the calls each segment
holds, so that a call is in one segment by construction; the bytes are a view of
that. A cut of the newest segment leaves its whole records and a piece of the
next one, the reader stops quietly there, and repair removes exactly the piece,
provided it reads the segment's number back from its name.
-/

namespace Ozymandias.WalRecovery

open BitLists WalFrame NumberedFiles WalLog

theorem ofDecimals_append (as : List ℕ) (d : ℕ) :
    ofDecimals (as ++ [d]) = 10 * ofDecimals as + d := by
  simp [ofDecimals]

variable (n : ℕ)

theorem ofDecimals_decimals : ofDecimals (decimals n) = n := by
  induction n using Nat.strong_induction_on with
  | h n ih =>
    rw [decimals]
    split
    · simp [ofDecimals]
    · rw [ofDecimals_append, ih (n / 10) (by omega)]
      omega

theorem length_decimals_le (k n : ℕ) (hk : 0 < k) : (decimals n).length ≤ k ↔ n < 10 ^ k := by
  induction k generalizing n with
  | zero => omega
  | succ k ih =>
    rw [decimals]
    split
    next hlt =>
      have : 10 ^ 1 ≤ 10 ^ (k + 1) := Nat.pow_le_pow_right (by omega) (by omega)
      simp
      omega
    next hge =>
      rw [List.length_append, List.length_singleton, Nat.add_le_add_iff_right, pow_succ]
      by_cases hk0 : k = 0
      · subst hk0
        have hpos : (decimals (n / 10)).length ≠ 0 := by
          rw [decimals]
          split <;> simp
        constructor
        · intro h
          exact absurd (Nat.le_zero.mp h) hpos
        · intro h
          omega
      · rw [ih (n / 10) (by omega), Nat.div_lt_iff_lt_mul (by omega)]

/-- A number of at most eight digits is read back from its name. -/
theorem segmentNumber_of_lt (hn : n < 10 ^ 8) : segmentNumber (.segment n) = n := by
  have hlen := (length_decimals_le 8 n (by omega)).mpr hn
  have hzeros : ∀ k (ds : List ℕ), ofDecimals (List.replicate k 0 ++ ds) = ofDecimals ds := by
    intro k ds
    induction k with
    | zero => rfl
    | succ k ih => exact ih
  have hshort : (paddedDecimals n).length ≤ 8 := by
    simp only [paddedDecimals, List.length_append, List.length_replicate]
    omega
  change ((ofDecimals ((paddedDecimals n).take 8) : ℕ) : ℤ) = n
  rw [List.take_of_length_le hshort, paddedDecimals, hzeros, ofDecimals_decimals]

/-- The leading digits of a number are at most the number. -/
theorem ofDecimals_take_le (k n : ℕ) : ofDecimals ((decimals n).take k) ≤ n := by
  induction n using Nat.strong_induction_on with
  | h n ih =>
    by_cases hlong : (decimals n).length ≤ k
    · rw [List.take_of_length_le hlong, ofDecimals_decimals]
    · rw [decimals] at hlong ⊢
      split
      next hlt =>
        rw [if_pos hlt, List.length_singleton] at hlong
        rw [show k = 0 by omega]
        simp [ofDecimals]
      next hge =>
        rw [if_neg hge, List.length_append, List.length_singleton] at hlong
        rw [List.take_append_of_le_length (by omega)]
        have := ih (n / 10) (by omega)
        omega

/-- A longer number is read back as a smaller one. -/
theorem segmentNumber_lt (hn : 10 ^ 8 ≤ n) : segmentNumber (.segment n) < n := by
  have hlen : ¬ (decimals n).length ≤ 8 := by
    rw [length_decimals_le 8 n (by omega)]
    omega
  have hsplit : decimals n = decimals (n / 10) ++ [n % 10] := by
    rw [decimals, if_neg (by omega)]
  have htake : (paddedDecimals n).take 8 = (decimals (n / 10)).take 8 := by
    unfold paddedDecimals
    rw [show 8 - (decimals n).length = 0 by omega, List.replicate_zero, List.nil_append, hsplit]
    apply List.take_append_of_le_length
    rw [hsplit, List.length_append, List.length_singleton] at hlen
    omega
  have hle := ofDecimals_take_le 8 (n / 10)
  change ((ofDecimals ((paddedDecimals n).take 8) : ℕ) : ℤ) < n
  rw [htake]
  omega

theorem segmentNumber_nonneg : 0 ≤ segmentNumber (.segment n) := Int.natCast_nonneg _

theorem not_stranded (s n : ℕ) : (!stranded s n) = decide (n ≤ s) := by
  by_cases h : n ≤ s
  · simp [stranded, h]
  · have h' : s < n := by omega
    simp [stranded, h']

structure Live {ρ γ : Type} (F : Format ρ γ) (w : Wal γ) (older : List (ℕ × γ)) (cur : γ) :
    Prop where
  entries : w.dir.segments.entries = older ++ [(w.segment, cur)]
  size : w.size = F.size cur

variable {ρ γ : Type} {F : Format ρ γ} (as bs : List Record) {c cur : γ} {f : Files γ} {w : Wal γ}
  {older : List (ℕ × γ)} {n : ℕ}

theorem find_last (hf : f.entries = older ++ [(n, c)]) :
    f.find n = some c := by
  rw [Files.find_eq_some_iff, hf]
  simp

theorem last_eq (hf : f.entries = older ++ [(n, c)]) : f.last = some (n, c) := by
  unfold Files.last
  rw [hf, List.getLast?_append]
  rfl

theorem live_write (hl : Live F w older cur)
    (hsize : ∀ c recs, F.size (F.write c recs) = F.size c + (recs.map F.frameSize).sum)
    (recs : List ρ) :
    Live F (w.write F recs) older (F.write cur recs) ∧
      (w.write F recs).dir.checkpoints = w.dir.checkpoints := by
  have hfind := find_last hl.entries
  unfold Wal.write
  rw [hfind]
  refine ⟨⟨Files.entries_put_last hl.entries, ?_⟩, rfl⟩
  rw [hsize, hl.size]

/-- Rolling opens an empty segment behind the newest one. -/
theorem live_openSegment (hl : Live F w older cur) :
    Live F (WalLog.openSegment F w.dir w.segmentSize (w.segment + 1))
        (older ++ [(w.segment, cur)]) F.empty ∧
      (WalLog.openSegment F w.dir w.segmentSize (w.segment + 1)).dir.checkpoints =
        w.dir.checkpoints ∧
      (WalLog.openSegment F w.dir w.segmentSize (w.segment + 1)).segment = w.segment + 1 := by
  have hnew : ∀ e ∈ w.dir.segments.entries, e.1 < w.segment + 1 :=
    fun e he => Nat.lt_succ_of_le (Files.le_of_mem_entries hl.entries e he)
  have hfind : w.dir.segments.find (w.segment + 1) = none := by
    by_contra hsome
    obtain ⟨c, hc⟩ := Option.ne_none_iff_exists'.mp hsome
    exact Nat.lt_irrefl _ (hnew _ (Files.find_eq_some_iff.mp hc))
  unfold WalLog.openSegment
  rw [hfind]
  refine ⟨⟨?_, rfl⟩, rfl, rfl⟩
  rw [← hl.entries]
  exact Files.entries_put_newest _ _ _ hnew

/-- A call is written to the newest segment, or to a new one of its own. -/
theorem live_commit (hl : Live F w older cur)
    (hsize : ∀ c recs, F.size (F.write c recs) = F.size c + (recs.map F.frameSize).sum)
    (recs : List ρ) :
    (w.commit F recs).dir.checkpoints = w.dir.checkpoints ∧
      (Live F (w.commit F recs) older (F.write cur recs) ∨
        Live F (w.commit F recs) (older ++ [(w.segment, cur)]) (F.write F.empty recs)) := by
  unfold Wal.commit Wal.rollFor
  split
  · obtain ⟨hroll, hcp, -⟩ := live_openSegment hl
    obtain ⟨hw, hcp'⟩ := live_write hroll hsize recs
    exact ⟨hcp'.trans hcp, Or.inr hw⟩
  · obtain ⟨hw, hcp⟩ := live_write hl hsize recs
    exact ⟨hcp, Or.inl hw⟩

def callBytes (calls : List (List Record)) : List Byte := frames calls.flatten

abbrev callFiles : Format Record (List (List Record)) := callFormat Record.frameSize

theorem size_write_calls (calls : List (List Record)) (recs : List Record) :
    callFiles.size (callFiles.write calls recs) =
      callFiles.size calls + (recs.map callFiles.frameSize).sum := by
  simp [callFormat]

def commits (w : Wal (List (List Record))) (calls : List (List Record)) :
    Wal (List (List Record)) :=
  calls.foldl (fun w recs => w.commit callFiles recs) w

/-- Later calls follow the earlier ones, whole and in order, whatever the rolls. -/
theorem live_commits {w : Wal (List (List Record))} {older : List (ℕ × List (List Record))}
    {cur : List (List Record)} (hl : Live callFiles w older cur) (calls : List (List Record)) :
    ∃ older' cur', Live callFiles (commits w calls) older' cur' ∧
      (commits w calls).dir.checkpoints = w.dir.checkpoints ∧
      (older'.map Prod.snd).flatten ++ cur' = (older.map Prod.snd).flatten ++ cur ++ calls := by
  induction calls generalizing w older cur with
  | nil => exact ⟨older, cur, hl, rfl, by simp⟩
  | cons recs rest ih =>
    obtain ⟨hcp, hnext⟩ := live_commit hl size_write_calls recs
    rcases hnext with hnext | hnext
    all_goals
      obtain ⟨older', cur', hl', hcp', hcalls⟩ := ih hnext
      refine ⟨older', cur', hl', hcp'.trans hcp, ?_⟩
      rw [hcalls]
      simp [callFormat]

theorem live_openLog_empty (F : Format ρ γ) (segmentSize : ℤ) :
    Live F (openLog F segmentSize Dir.empty) [] F.empty :=
  ⟨rfl, rfl⟩

theorem live_openLog {d : Dir γ} (hd : d.segments.entries = older ++ [(n, cur)]) (segmentSize : ℤ) :
    Live F (openLog F segmentSize d) older cur ∧ (openLog F segmentSize d).dir = d := by
  unfold openLog WalLog.openSegment
  rw [last_eq hd, Option.map_some, Option.getD_some, find_last hd]
  exact ⟨⟨hd, rfl⟩, rfl⟩

/-- The bytes on disk are the view of the run over calls. -/
theorem logCalls_bytes (w : Wal (List (List Record))) (calls : List (List Record)) :
    (w.map callBytes).logCalls calls = (commits w (acceptedCalls calls)).map callBytes := by
  rw [logCalls_eq]
  unfold commits
  generalize acceptedCalls calls = accepted
  induction accepted generalizing w with
  | nil => rfl
  | cons recs rest ih =>
    have hstep : (w.map callBytes).commit byteFormat recs =
      (w.commit callFiles recs).map callBytes :=
      commit_map views_calls_bytes w recs
    rw [List.foldl_cons, List.foldl_cons, ← ih, hstep]

/-- Whole files are replayed as their records, and reading goes on behind them. -/
theorem readFiles_whole (strict : Bool) (files : List (FileName × List Record))
    (hw : ∀ e ∈ files, ∀ r ∈ e.2, r.Writable) (pos : Position)
    (rest : List (FileName × List Byte)) :
    ∃ pos', readFiles strict pos (files.map (fun e => (e.1, frames e.2)) ++ rest) =
      ⟨files.flatMap Prod.snd ++ (readFiles strict pos' rest).records,
        (readFiles strict pos' rest).err, (readFiles strict pos' rest).pos⟩ := by
  induction files generalizing pos with
  | nil => exact ⟨pos, rfl⟩
  | cons e files ih =>
    obtain ⟨name, recs⟩ := e
    have hscan := scanFrom_whole recs (hw _ List.mem_cons_self) 0
    obtain ⟨pos', hread⟩ := ih (List.forall_mem_cons.mp hw).2
      ⟨some name, 0 + (frames recs).length, segmentNumber name⟩
    refine ⟨pos', ?_⟩
    rw [List.map_cons, List.cons_append, readFiles]
    simp only [hscan, hread, List.flatMap_cons, List.append_assoc]

theorem files_map {γ δ : Type} (g : γ → δ) (d : Dir γ) :
    (d.map g).files = d.files.map (fun e => (e.1, g e.2)) := by
  simp only [Dir.files, Dir.map, Files.map, List.map_append, List.map_map]
  rfl

theorem readLog_whole (d : Dir (List Record)) (hw : ∀ e ∈ d.files, ∀ r ∈ e.2, r.Writable) :
    (readLog (d.map frames)).records = d.files.flatMap Prod.snd ∧
      (readLog (d.map frames)).err = none := by
  obtain ⟨pos', hread⟩ := readFiles_whole false d.files hw ⟨none, 0, -1⟩ []
  rw [List.append_nil, ← files_map] at hread
  unfold readLog
  rw [hread]
  simp [readFiles]

/-- A log whose files were written by these calls: `older` and `newest` are its segments. -/
structure HoldsCalls (d : Dir (List (List Record))) (older : List (ℕ × List (List Record))) (n : ℕ)
    (newest : List (List Record)) : Prop where
  entries : d.segments.entries = older ++ [(n, newest)]
  writable : ∀ e ∈ d.files, ∀ recs ∈ e.2, ∀ r ∈ recs, r.Writable

/-- What the checkpoints and the older segments hold, in the order it is replayed. -/
def heldBefore (d : Dir (List (List Record))) (older : List (ℕ × List (List Record))) :
    List Record :=
  (d.checkpoints.contents.flatten ++ (older.map Prod.snd).flatten).flatten

variable {d : Dir (List (List Record))} {older : List (ℕ × List (List Record))}
  {newest : List (List Record)}

theorem HoldsCalls.files (hd : HoldsCalls d older n newest) :
    d.files = d.checkpoints.entries.map (fun e => (FileName.checkpoint e.1, e.2)) ++
      older.map (fun e => (FileName.segment e.1, e.2)) ++ [(FileName.segment n, newest)] := by
  unfold Dir.files
  rw [hd.entries, List.map_append, List.append_assoc]
  rfl

theorem HoldsCalls.writable_segments (hd : HoldsCalls d older n newest) :
    ∀ recs ∈ (older.map Prod.snd).flatten ++ newest, ∀ r ∈ recs, r.Writable := by
  intro recs hrecs
  rcases List.mem_append.mp hrecs with h | h
  · obtain ⟨calls, hcalls, hrecs'⟩ := List.mem_flatten.mp h
    obtain ⟨e, he, rfl⟩ := List.mem_map.mp hcalls
    refine hd.writable (.segment e.1, e.2) ?_ recs hrecs'
    rw [hd.files]
    simp [he]
  · refine hd.writable (.segment n, newest) ?_ recs h
    rw [hd.files]
    simp

theorem HoldsCalls.writable_checkpoints (hd : HoldsCalls d older n newest) :
    ∀ e ∈ d.checkpoints.entries, ∀ recs ∈ e.2, ∀ r ∈ recs, r.Writable := by
  intro e he
  exact hd.writable (.checkpoint e.1, e.2) (List.mem_append_left _ (List.mem_map.mpr ⟨e, he, rfl⟩))

theorem holdsCalls_of (hd : d.segments.entries = older ++ [(n, newest)])
    (hcp : ∀ e ∈ d.checkpoints.entries, ∀ recs ∈ e.2, ∀ r ∈ recs, r.Writable)
    (hw : ∀ recs ∈ (older.map Prod.snd).flatten ++ newest, ∀ r ∈ recs, r.Writable) :
    HoldsCalls d older n newest := by
  refine ⟨hd, fun e he recs hrecs => ?_⟩
  rcases List.mem_append.mp he with he | he
  · obtain ⟨e', he', rfl⟩ := List.mem_map.mp he
    exact hcp e' he' recs hrecs
  · rw [hd] at he
    obtain ⟨e', he', rfl⟩ := List.mem_map.mp he
    apply hw
    rcases List.mem_append.mp he' with he' | he'
    · exact List.mem_append_left _ (List.mem_flatten.mpr ⟨e'.2, List.mem_map_of_mem he', hrecs⟩)
    · rw [List.mem_singleton.mp he'] at hrecs
      exact List.mem_append_right _ hrecs

theorem bytes_eq_frames (d : Dir (List (List Record))) :
    d.map callBytes = (d.map List.flatten).map frames := by
  simp only [Dir.map, Files.map_map]
  rfl

theorem readLog_calls (hd : HoldsCalls d older n newest) :
    (readLog (d.map callBytes)).records = heldBefore d older ++ newest.flatten ∧
      (readLog (d.map callBytes)).err = none := by
  have hw : ∀ e ∈ (d.map List.flatten).files, ∀ r ∈ e.2, r.Writable := by
    rw [files_map]
    intro e he r hr
    obtain ⟨e', he', rfl⟩ := List.mem_map.mp he
    obtain ⟨recs, hrecs, hr⟩ := List.mem_flatten.mp hr
    exact hd.writable e' he' recs hrecs r hr
  rw [bytes_eq_frames]
  refine ⟨?_, (readLog_whole _ hw).2⟩
  rw [(readLog_whole _ hw).1, files_map, hd.files]
  simp [heldBefore, Files.contents, List.flatMap_def, List.flatten_flatten, Function.comp_def]

/-- Opening the log again and appending to it keeps what it held. -/
theorem readLog_logCalls (hd : HoldsCalls d older n newest) (segmentSize : ℤ)
    (later : List (List Record)) :
    (readLog ((openLog byteFormat segmentSize (d.map callBytes)).logCalls later).dir).records =
        heldBefore d older ++ newest.flatten ++ (acceptedCalls later).flatten ∧
      (readLog ((openLog byteFormat segmentSize (d.map callBytes)).logCalls
        later).dir).err = none := by
  have hopen : openLog byteFormat segmentSize (d.map callBytes) =
      (openLog callFiles segmentSize d).map callBytes :=
    openLog_map views_calls_bytes segmentSize d
  obtain ⟨hlive, hdir⟩ := live_openLog hd.entries segmentSize
  obtain ⟨older', cur', hlive', hcp, hcalls⟩ := live_commits hlive (acceptedCalls later)
  rw [hdir] at hcp
  rw [hopen, logCalls_bytes]
  have hheld : heldBefore (commits (openLog callFiles segmentSize d) (acceptedCalls later)).dir
    older' ++
      cur'.flatten = heldBefore d older ++ newest.flatten ++ (acceptedCalls later).flatten := by
    have hflat := congrArg List.flatten hcalls
    simp only [List.flatten_append] at hflat
    simp only [heldBefore, hcp, List.flatten_append, List.append_assoc, hflat]
  rw [← hheld]
  refine readLog_calls (holdsCalls_of hlive'.entries ?_ fun recs hrecs => ?_)
  · rw [hcp]
    exact hd.writable_checkpoints
  · rw [hcalls] at hrecs
    rcases List.mem_append.mp hrecs with hrecs | hrecs
    · exact hd.writable_segments recs hrecs
    · exact mem_acceptedCalls hrecs

def crash (d : Dir (List Byte)) (cut : ℕ) : Dir (List Byte) :=
  match d.segments.last with
  | none => d
  | some (n, bytes) => { d with segments := d.segments.put n (bytes.take cut) }

def OnBoundary (recs : List Record) (cut : ℕ) : Prop :=
  ((frames recs).take cut).length = (frames (wholeBefore recs cut)).length

/-- A file that is cut inside a record, or not at all, is quietly read up to
its last whole record. -/
theorem readFiles_cut (recs : List Record) (hw : ∀ r ∈ recs, r.Writable) (cut : ℕ) (name : FileName)
    (pos : Position) :
    readFiles false pos [(name, (frames recs).take cut)] = ⟨wholeBefore recs cut, none,
        ⟨some name, (frames (wholeBefore recs cut)).length, segmentNumber name⟩⟩ := by
  obtain ⟨damage, hscan, hends⟩ := scanFrom_cut recs hw cut
  cases damage with
  | none => simp [readFiles, hscan]
  | some d =>
    obtain ⟨cause, ends⟩ := d
    have hlen := hends cause ends rfl
    rw [readFiles]
    simp only [hscan]
    rw [if_pos (by simp [hlen])]

section Cut

variable (hd : HoldsCalls d older n newest) (cut : ℕ)
include hd

theorem entries_bytes : (d.map callBytes).segments.entries =
    older.map (fun e => (e.1, callBytes e.2)) ++ [(n, callBytes newest)] := by
  simp only [Dir.map, Files.map, hd.entries, List.map_append, List.map_cons, List.map_nil]

theorem crash_eq : crash (d.map callBytes) cut = { d.map callBytes with
      segments := (d.map callBytes).segments.put n ((callBytes newest).take cut) } := by
  unfold crash
  rw [last_eq (entries_bytes hd)]

theorem entries_crash : (crash (d.map callBytes) cut).segments.entries =
    older.map (fun e => (e.1, callBytes e.2)) ++ [(n, (callBytes newest).take cut)] := by
  rw [crash_eq hd]
  exact Files.entries_put_last (entries_bytes hd)

theorem readLog_crash : readLog (crash (d.map callBytes) cut) =
    ⟨heldBefore d older ++ wholeBefore newest.flatten cut, none,
      ⟨some (.segment n), (frames (wholeBefore newest.flatten cut)).length,
        segmentNumber (.segment n)⟩⟩ := by
  let intact : List (FileName × List (List Record)) :=
    d.checkpoints.entries.map (fun e => (FileName.checkpoint e.1, e.2)) ++
      older.map (fun e => (FileName.segment e.1, e.2))
  have hcp : (crash (d.map callBytes) cut).checkpoints = d.checkpoints.map callBytes := by
    rw [crash_eq hd]
    rfl
  have hfiles : (crash (d.map callBytes) cut).files =
      (intact.map (fun e => (e.1, e.2.flatten))).map (fun e => (e.1, frames e.2)) ++
        [(.segment n, (frames newest.flatten).take cut)] := by
    simp only [intact, Dir.files, hcp, Files.map, entries_crash hd, List.map_append, List.map_map,
      List.map_cons, List.append_assoc]
    rfl
  have hwIntact : ∀ e ∈ intact.map (fun e => (e.1, e.2.flatten)), ∀ r ∈ e.2, r.Writable := by
    intro e he r hr
    obtain ⟨e', he', rfl⟩ := List.mem_map.mp he
    obtain ⟨recs, hrecs, hr⟩ := List.mem_flatten.mp hr
    refine hd.writable e' ?_ recs hrecs r hr
    rw [hd.files]
    exact List.mem_append_left _ he'
  have hwNewest : ∀ r ∈ newest.flatten, r.Writable := by
    intro r hr
    obtain ⟨recs, hrecs, hr⟩ := List.mem_flatten.mp hr
    exact hd.writable_segments recs (List.mem_append_right _ hrecs) r hr
  obtain ⟨pos', hread⟩ := readFiles_whole false _ hwIntact ⟨none, 0, -1⟩
    [(.segment n, (frames newest.flatten).take cut)]
  rw [readFiles_cut _ hwNewest] at hread
  unfold readLog
  rw [hfiles, hread]
  simp [intact, heldBefore, Files.contents, List.flatMap_def, List.flatten_flatten,
    Function.comp_def]

/-- What repair should leave: the newest segment ends behind its last whole record. -/
def repaired (d : Dir (List (List Record))) (n : ℕ) (newest : List (List Record)) (cut : ℕ) :
    Dir (List (List Record)) :=
  { d with segments := d.segments.put n [wholeBefore newest.flatten cut] }

omit hd in
theorem repaired_bytes : (repaired d n newest cut).map callBytes = { d.map callBytes with
      segments := (d.map callBytes).segments.put n (frames (wholeBefore newest.flatten cut)) } := by
  simp [repaired, Dir.map, Files.map_put, callBytes]

theorem fileSize_crash : (crash (d.map callBytes) cut).fileSize (.segment n) =
    ((callBytes newest).take cut).length := by
  change (((crash (d.map callBytes) cut).segments.find n).getD []).length = _
  rw [find_last (entries_crash hd cut), Option.getD_some]

/-- A cut between two records leaves nothing to repair. -/
theorem repair_onBoundary (hb : OnBoundary newest.flatten cut) :
    repair (crash (d.map callBytes) cut) =
      .ok (false, (repaired d n newest cut).map callBytes) := by
  obtain ⟨piece, htake, -⟩ := take_frames newest.flatten cut
  have hpiece : piece = [] := by
    unfold OnBoundary at hb
    rw [htake, List.length_append] at hb
    exact List.length_eq_zero_iff.mp (by omega)
  rw [hpiece, List.append_nil] at htake
  unfold repair
  rw [readLog_crash hd]
  dsimp only
  unfold OnBoundary at hb
  rw [fileSize_crash hd, callBytes, if_pos hb, crash_eq hd, repaired_bytes, callBytes, htake]

/-- Otherwise the piece of a record is cut off, and then segments are removed by
the number read back from the file's name. -/
theorem repair_torn (hb : ¬ OnBoundary newest.flatten cut) : repair (crash (d.map callBytes) cut) =
      .ok (true, { (repaired d n newest cut).map callBytes with
        segments := ((repaired d n newest cut).map callBytes).segments.keep
          (fun m => !stranded (segmentNumber (.segment n)) m) }) := by
  obtain ⟨piece, htake, -⟩ := take_frames newest.flatten cut
  have hinitial : ((frames newest.flatten).take cut).take
      (frames (wholeBefore newest.flatten cut)).length =
        frames (wholeBefore newest.flatten cut) := by
    rw [htake, List.take_left']
    rfl
  have hfile : (crash (d.map callBytes) cut).truncateFile (.segment n)
      (frames (wholeBefore newest.flatten cut)).length =
        (repaired d n newest cut).map callBytes := by
    unfold Dir.truncateFile
    dsimp only
    rw [find_last (entries_crash hd cut), callBytes]
    dsimp only
    rw [hinitial, crash_eq hd]
    dsimp only
    rw [Files.put_put, repaired_bytes]
  unfold repair
  rw [readLog_crash hd]
  dsimp only
  unfold OnBoundary at hb
  rw [fileSize_crash hd, callBytes, if_neg hb]
  unfold truncateTail
  dsimp only
  rw [hfile]

theorem entries_repaired : ((repaired d n newest cut).map callBytes).segments.entries =
    older.map (fun e => (e.1, callBytes e.2)) ++
      [(n, frames (wholeBefore newest.flatten cut))] := by
  rw [repaired_bytes]
  exact Files.entries_put_last (entries_bytes hd)

theorem holdsCalls_repaired :
    HoldsCalls (repaired d n newest cut) older n [wholeBefore newest.flatten cut] := by
  refine holdsCalls_of (Files.entries_put_last hd.entries) hd.writable_checkpoints ?_
  intro recs hrecs r hr
  rcases List.mem_append.mp hrecs with hrecs | hrecs
  · exact hd.writable_segments recs (List.mem_append_left _ hrecs) r hr
  · rw [List.mem_singleton.mp hrecs] at hr
    obtain ⟨recs', hrecs', hr'⟩ :=
      List.mem_flatten.mp ((wholeBefore_initial newest.flatten cut).subset hr)
    exact hd.writable_segments recs' (List.mem_append_right _ hrecs') r hr'

/-- A name of at most eight digits: every segment stays. -/
theorem keep_of_lt (hn : n < 10 ^ 8) : ((repaired d n newest cut).map callBytes).segments.keep
        (fun m => !stranded (segmentNumber (.segment n)) m) =
      ((repaired d n newest cut).map callBytes).segments := by
  apply Files.ext
  apply List.filter_eq_self.mpr
  intro e he
  have hle := Files.le_of_mem_entries (entries_repaired hd cut) e he
  rw [segmentNumber_of_lt n hn]
  exact (not_stranded n e.1).trans (decide_eq_true hle)

omit hd in
/-- A longer name: the repaired segment itself goes. -/
theorem find_keep_of_ge (hn : 10 ^ 8 ≤ n) (f : Files (List Byte)) :
    (f.keep (fun m => !stranded (segmentNumber (.segment n)) m)).find n = none := by
  by_contra hsome
  obtain ⟨c, hc⟩ := Option.ne_none_iff_exists'.mp hsome
  have hmem := Files.find_eq_some_iff.mp hc
  have hkept := (List.mem_filter.mp hmem).2
  simp [stranded, segmentNumber_lt n hn, segmentNumber_nonneg n] at hkept

end Cut

/-- A crash that cut the newest segment is recovered from: `older` are the
records of the other segments, `newest` those of the one that was cut. -/
structure Recovers (b : Dir (List Byte)) (older : List Record) (n : ℕ) (newest : List Record)
    (cut : ℕ) : Prop where
  quiet : (readLog (crash b cut)).err = none
  records : (readLog (crash b cut)).records = older ++ wholeBefore newest cut
  repairs : ∃ didCut, repair (crash b cut) =
    .ok (didCut, { b with segments := b.segments.put n (frames (wholeBefore newest cut)) })
  later : ∀ (segmentSize : ℤ) (calls : List (List Record)) (didCut : Bool) (b' : Dir (List Byte)),
    repair (crash b cut) = .ok (didCut, b') →
      (readLog ((openLog byteFormat segmentSize b').logCalls calls).dir).err = none ∧
      (readLog ((openLog byteFormat segmentSize b').logCalls calls).dir).records =
        older ++ wholeBefore newest cut ++ (acceptedCalls calls).flatten

section Cut

variable (hd : HoldsCalls d older n newest) (cut : ℕ)
include hd

theorem repair_ok (h : n < 10 ^ 8 ∨ OnBoundary newest.flatten cut) :
    ∃ didCut, repair (crash (d.map callBytes) cut) =
      .ok (didCut, (repaired d n newest cut).map callBytes) := by
  by_cases hb : OnBoundary newest.flatten cut
  · exact ⟨false, repair_onBoundary hd cut hb⟩
  · refine ⟨true, ?_⟩
    rw [repair_torn hd cut hb, keep_of_lt hd cut (h.resolve_right hb)]

theorem recovers_of (h : n < 10 ^ 8 ∨ OnBoundary newest.flatten cut) :
    Recovers (d.map callBytes) (heldBefore d older) n newest.flatten cut := by
  obtain ⟨didCut, hrepair⟩ := repair_ok hd cut h
  refine ⟨?_, ?_, ⟨didCut, ?_⟩, ?_⟩
  · rw [readLog_crash hd]
  · rw [readLog_crash hd]
  · rw [hrepair, repaired_bytes]
  · intro segmentSize calls didCut' b' hb'
    rw [hrepair] at hb'
    cases hb'
    obtain ⟨hrecs, herr⟩ := readLog_logCalls (holdsCalls_repaired hd cut) segmentSize calls
    refine ⟨herr, ?_⟩
    rw [hrecs, List.flatten_singleton]
    rfl

/-- With a longer segment number a torn tail takes the whole segment with it. -/
theorem not_recovers (hn : 10 ^ 8 ≤ n) (hb : ¬ OnBoundary newest.flatten cut) :
    ¬ Recovers (d.map callBytes) (heldBefore d older) n newest.flatten cut := by
  intro hrec
  obtain ⟨didCut, hrepair⟩ := hrec.repairs
  rw [repair_torn hd cut hb] at hrepair
  have hdir := congrArg (fun b : Dir (List Byte) => b.segments.find n)
    (congrArg Prod.snd (Except.ok.inj hrepair))
  rw [find_keep_of_ge hn, find_last (Files.entries_put_last (entries_bytes hd))] at hdir
  cases hdir

end Cut

def Whole (d : Dir (List Record)) : Prop := ∀ e ∈ d.files, ∀ r ∈ e.2, r.Writable

section Whole

variable {d : Dir (List Record)} {c recs : List Record}

theorem whole_iff : Whole d ↔ (∀ e ∈ d.checkpoints.entries, ∀ r ∈ e.2, r.Writable) ∧
    ∀ e ∈ d.segments.entries, ∀ r ∈ e.2, r.Writable := by
  unfold Whole Dir.files
  rw [List.forall_mem_append, List.forall_mem_map, List.forall_mem_map]

theorem whole_put (hw : Whole d) (n : ℕ) (hc : ∀ r ∈ c, r.Writable) :
    Whole { d with segments := d.segments.put n c } := by
  refine whole_iff.mpr ⟨(whole_iff.mp hw).1, fun e he => ?_⟩
  rcases Files.mem_put.mp he with rfl | ⟨he, -⟩
  · exact hc
  · exact (whole_iff.mp hw).2 e he

theorem whole_write (hw : Whole d) (hc : d.segments.find n = some c)
    (hrecs : ∀ r ∈ recs, r.Writable) :
    Whole { d with segments := d.segments.put n (c ++ recs) } := by
  refine whole_put hw n (fun r hr => ?_)
  rcases List.mem_append.mp hr with hr | hr
  · exact (whole_iff.mp hw).2 (n, c) (Files.find_eq_some_iff.mp hc) r hr
  · exact hrecs r hr

end Whole

def endOf (pos : Position) (files : List (FileName × List Record)) : Position :=
  match files.getLast? with
  | none => pos
  | some e => ⟨some e.1, (frames e.2).length, segmentNumber e.1⟩

theorem readFiles_pos (strict : Bool) (files : List (FileName × List Record))
    (hw : ∀ e ∈ files, ∀ r ∈ e.2, r.Writable) (pos : Position) :
    (readFiles strict pos (files.map (fun e => (e.1, frames e.2)))).pos = endOf pos files := by
  induction files generalizing pos with
  | nil => rfl
  | cons e files ih =>
    have hscan := scanFrom_whole e.2 (hw e List.mem_cons_self) 0
    rw [List.map_cons, readFiles]
    simp only [hscan]
    rw [ih (List.forall_mem_cons.mp hw).2]
    cases files with
    | nil => simp [endOf]
    | cons e' files => rfl

theorem fileSize_frames (d : Dir (List Record)) (e : FileName × List Record) (he : e ∈ d.files) :
    (d.map frames).fileSize e.1 = (frames e.2).length := by
  rcases List.mem_append.mp he with he | he
  · obtain ⟨e', he', rfl⟩ := List.mem_map.mp he
    have hfind := Files.find_eq_some_iff.mpr he'
    change (((d.checkpoints.map frames).find e'.1).getD []).length = _
    rw [Files.find_map, hfind]
    rfl
  · obtain ⟨e', he', rfl⟩ := List.mem_map.mp he
    have hfind := Files.find_eq_some_iff.mpr he'
    change (((d.segments.map frames).find e'.1).getD []).length = _
    rw [Files.find_map, hfind]
    rfl

theorem repair_whole (d : Dir (List Record)) (hw : Whole d) :
    repair (d.map frames) = .ok (false, d.map frames) := by
  have hpos : (readLog (d.map frames)).pos = endOf ⟨none, 0, -1⟩ d.files := by
    unfold readLog
    rw [files_map]
    exact readFiles_pos false d.files hw _
  unfold repair
  dsimp only
  rw [(readLog_whole d hw).2]
  dsimp only
  rw [hpos]
  unfold endOf
  cases hlast : d.files.getLast? with
  | none => rfl
  | some e =>
    dsimp only
    rw [if_pos (fileSize_frames d e (List.mem_of_getLast? hlast))]

theorem wholeBefore_append (cut : ℕ) :
    wholeBefore (as ++ bs) ((frames as).length + cut) = as ++ wholeBefore bs cut := by
  induction as with
  | nil => simp [frames]
  | cons a as ih =>
    have hlen : (frames (a :: as)).length = a.frameSize + (frames as).length := by
      rw [frames_cons, List.length_append, length_frame]
    rw [List.cons_append, wholeBefore, hlen, if_pos (by omega),
      show a.frameSize + (frames as).length + cut - a.frameSize = (frames as).length + cut by omega,
      ih]
    rfl

theorem take_frames_append (cut : ℕ) :
    (frames (as ++ bs)).take ((frames as).length + cut) = frames as ++ (frames bs).take cut := by
  rw [frames_append, List.take_append, List.take_of_length_le (by omega), Nat.add_sub_cancel_left]

theorem onBoundary_append (cut : ℕ) :
    OnBoundary (as ++ bs) ((frames as).length + cut) ↔ OnBoundary bs cut := by
  unfold OnBoundary
  rw [take_frames_append, wholeBefore_append, frames_append, List.length_append, List.length_append]
  omega

/-- A call of which only some bytes reached the newest segment is cut back to
its whole records. -/
theorem repair_torn_call {d : Dir (List Record)} {older : List (ℕ × List Record)}
    {cur : List Record} (hd : d.segments.entries = older ++ [(n, cur)]) (hw : Whole d)
    {recs : List Record} (hrecs : ∀ r ∈ recs, r.Writable) (cut : ℕ)
    (hcond : n < 10 ^ 8 ∨ OnBoundary recs cut) :
    ∃ didCut, repair { d.map frames with
        segments := (d.map frames).segments.put n (frames cur ++ (frames recs).take cut) } =
      .ok (didCut,
        Dir.map frames { d with segments := d.segments.put n (cur ++ wholeBefore recs cut) }) := by
  let full : Dir (List (List Record)) :=
    Dir.map (fun recs => [recs]) { d with segments := d.segments.put n (cur ++ recs) }
  have hentries : full.segments.entries =
      older.map (fun e => (e.1, [e.2])) ++ [(n, [cur ++ recs])] := by
    simp only [full, Dir.map, Files.map, Files.entries_put_last hd, List.map_append,
      List.map_cons, List.map_nil]
  have hfull : HoldsCalls full (older.map (fun e => (e.1, [e.2]))) n [cur ++ recs] := by
    refine ⟨hentries, ?_⟩
    intro e he recs' hrecs' r hr
    rw [files_map] at he
    obtain ⟨e', he', rfl⟩ := List.mem_map.mp he
    rw [List.mem_singleton.mp hrecs'] at hr
    exact whole_write hw (find_last hd) hrecs e' he' r hr
  have hbytes : full.map callBytes =
      Dir.map frames { d with segments := d.segments.put n (cur ++ recs) } := by
    simp only [full, Dir.map, Files.map_map, callBytes, List.flatten_singleton]
  have hcrash : crash (full.map callBytes) ((frames cur).length + cut) = { d.map frames with
        segments := (d.map frames).segments.put n (frames cur ++ (frames recs).take cut) } := by
    rw [crash_eq hfull, hbytes, callBytes, List.flatten_singleton, take_frames_append]
    simp only [Dir.map, Files.map_put, Files.put_put]
  obtain ⟨didCut, hrepair⟩ := repair_ok hfull ((frames cur).length + cut) (hcond.imp id (by
      rw [List.flatten_singleton]
      exact (onBoundary_append cur recs cut).mpr))
  refine ⟨didCut, ?_⟩
  rw [← hcrash, hrepair, repaired_bytes, hbytes, List.flatten_singleton, wholeBefore_append]
  simp only [Dir.map, Files.map_put, Files.put_put]

/-- Without checkpoints it is enough that the calls of the segments can be written. -/
theorem holdsCalls_of_noCheckpoint (hd : d.segments.entries = older ++ [(n, newest)])
    (hcp : d.checkpoints = Files.empty)
    (hw : ∀ recs ∈ (older.map Prod.snd).flatten ++ newest, ∀ r ∈ recs, r.Writable) :
    HoldsCalls d older n newest :=
  holdsCalls_of hd (by rw [hcp]; simp [Files.empty]) hw

theorem heldBefore_of_noCheckpoint (older : List (ℕ × List (List Record)))
    (hcp : d.checkpoints = Files.empty) :
    heldBefore d older = (older.map Prod.snd).flatten.flatten := by
  simp [heldBefore, hcp, Files.contents, Files.empty]

/-- The calls a fresh log accepted, as its segments hold them. -/
theorem fresh_holdsCalls (segmentSize : ℤ) (calls : List (List Record)) :
    ∃ d older n newest, HoldsCalls d older n newest ∧ d.checkpoints = Files.empty ∧
      ((openLog byteFormat segmentSize Dir.empty).logCalls calls).dir = d.map callBytes ∧
      (older.map Prod.snd).flatten ++ newest = acceptedCalls calls := by
  have hopen : openLog byteFormat segmentSize Dir.empty =
      (openLog callFiles segmentSize Dir.empty).map callBytes :=
    openLog_map views_calls_bytes segmentSize Dir.empty
  obtain ⟨older, newest, hlive, hcp, hcalls⟩ :=
    live_commits (live_openLog_empty callFiles segmentSize) (acceptedCalls calls)
  have hcalls' : (older.map Prod.snd).flatten ++ newest = acceptedCalls calls := by
    simpa [callFormat] using hcalls
  refine ⟨_, older, _, newest, holdsCalls_of_noCheckpoint hlive.entries hcp ?_, hcp, ?_, hcalls'⟩
  · intro recs hrecs
    rw [hcalls'] at hrecs
    exact mem_acceptedCalls hrecs
  · rw [hopen, logCalls_bytes]
    rfl

/-- Crash recovery. A call is in one segment, and the calls are there in order;
a cut of the newest segment is recovered from exactly when its number is read
back from its name, or there is no piece of a record to remove. -/
theorem recovers_iff (segmentSize : ℤ) (calls : List (List Record)) (cut : ℕ) :
    ∃ older n newest,
      ((openLog byteFormat segmentSize Dir.empty).logCalls calls).dir.segments.entries =
        (older ++ [(n, newest)]).map (fun e => (e.1, callBytes e.2)) ∧
      (older.map Prod.snd).flatten ++ newest = acceptedCalls calls ∧
      (Recovers ((openLog byteFormat segmentSize Dir.empty).logCalls calls).dir
          (older.map Prod.snd).flatten.flatten n newest.flatten cut ↔
        n < 10 ^ 8 ∨ OnBoundary newest.flatten cut) := by
  obtain ⟨d, older, n, newest, hd, hcp, hdir, hcalls⟩ := fresh_holdsCalls segmentSize calls
  refine ⟨older, n, newest, ?_, hcalls, ?_⟩
  · rw [hdir, entries_bytes hd]
    simp
  · rw [hdir, ← heldBefore_of_noCheckpoint older hcp]
    constructor
    · intro hrec
      by_contra hno
      exact not_recovers hd cut (by omega) (fun hb => hno (Or.inr hb)) hrec
    · exact recovers_of hd cut

/-- With a segment size of one byte every call gets a segment of its own. -/
theorem live_replicate (recs : List Record) (hrecs : recs ≠ []) (k : ℕ) :
    Live callFiles (commits (openLog callFiles 1 Dir.empty) (List.replicate (k + 1) recs))
        ((List.range k).map (fun i => (i, [recs]))) [recs] ∧
      (commits (openLog callFiles 1 Dir.empty) (List.replicate (k + 1) recs)).segment = k ∧
      (commits (openLog callFiles 1 Dir.empty) (List.replicate (k + 1) recs)).segmentSize = 1 := by
  have hpos : 0 < (recs.map Record.frameSize).sum := by
    cases recs with
    | nil => exact absurd rfl hrecs
    | cons r rest =>
      have := frameSize_pos r
      simp only [List.map_cons, List.sum_cons]
      omega
  induction k with
  | zero =>
    obtain ⟨hw, -⟩ := live_write (live_openLog_empty callFiles 1) size_write_calls recs
    exact ⟨hw, rfl, rfl⟩
  | succ k ih =>
    unfold commits at ih ⊢
    rw [List.replicate_succ', List.foldl_append]
    generalize (List.replicate (k + 1) recs).foldl _ _ = w at ih
    obtain ⟨hlive, hseg, hsize⟩ := ih
    have hroll : w.rollFor callFiles recs =
        WalLog.openSegment callFiles w.dir w.segmentSize (w.segment + 1) := by
      have hw : w.size = (recs.map Record.frameSize).sum := by
        rw [hlive.size]
        simp [callFormat]
      unfold Wal.rollFor
      rw [if_pos]
      change 0 < w.size ∧ w.segmentSize < w.size + (recs.map Record.frameSize).sum
      omega
    obtain ⟨hopen, -, hseg'⟩ := live_openSegment hlive
    obtain ⟨hw, -⟩ := live_write hopen size_write_calls recs
    have hsize' : (WalLog.openSegment callFiles w.dir w.segmentSize (w.segment + 1)).segmentSize =
        w.segmentSize := by
      unfold WalLog.openSegment
      split <;> rfl
    rw [List.foldl_cons]
    unfold Wal.commit
    rw [hroll]
    refine ⟨?_, ?_, ?_⟩
    · rw [List.range_succ]
      simpa [callFormat, hseg] using hw
    · change (WalLog.openSegment _ _ _ _).segment = _
      rw [hseg', hseg]
    · change (WalLog.openSegment _ _ _ _).segmentSize = _
      rw [hsize', hsize]

theorem filter_range_le (s k : ℕ) (hs : s < k) :
    (List.range k).filter (fun i => decide (i ≤ s)) = List.range (s + 1) := by
  induction k with
  | zero => omega
  | succ k ih =>
    rw [List.range_succ, List.filter_append]
    rcases Nat.lt_succ_iff_lt_or_eq.mp hs with hlt | rfl
    · rw [ih hlt, List.filter_cons_of_neg (by simpa using hlt), List.filter_nil, List.append_nil]
    · rw [List.range_succ, List.filter_eq_self.mpr]
      · simp
      · intro i hi
        exact decide_eq_true (List.mem_range.mp hi).le

def tick : Record := ⟨1, []⟩

theorem writable_tick : tick.Writable := by decide

/-- Segments 0 to `k` with one record each. -/
theorem holdsCalls_ticks {k : ℕ}
    (hd : d.segments.entries = (List.range k).map (fun i => (i, [[tick]])) ++ [(k, [[tick]])])
    (hcp : d.checkpoints = Files.empty) :
    HoldsCalls d ((List.range k).map (fun i => (i, [[tick]]))) k [[tick]] := by
  refine holdsCalls_of_noCheckpoint hd hcp ?_
  intro recs hrecs r hr
  have hone : ((∃ x, x < k) ∧ recs = [tick]) ∨ recs = [tick] := by simpa using hrecs
  rw [hone.elim And.right id, List.mem_singleton] at hr
  rw [hr]
  exact writable_tick

theorem heldBefore_ticks (hcp : d.checkpoints = Files.empty) (k : ℕ) :
    heldBefore d ((List.range k).map (fun i => (i, [[tick]]))) = List.replicate k tick := by
  rw [heldBefore_of_noCheckpoint _ hcp]
  simp [Function.comp_def]

/-- What repair leaves of such a log if it reads the name of segment `k` as `s`. -/
theorem readLog_ticks_repaired {d : Dir (List (List Record))} {k s : ℕ} (hs : s < k)
    (hd : HoldsCalls d ((List.range k).map (fun i => (i, [[tick]]))) k [[tick]])
    (hcp : d.checkpoints = Files.empty) (b : Dir (List Byte))
    (hb : b = { (repaired d k [[tick]] 1).map callBytes with
      segments := ((repaired d k [[tick]] 1).map callBytes).segments.keep
        (fun m => !stranded s m) }) :
    (readLog b).records = List.replicate (s + 1) tick := by
  let d' : Dir (List (List Record)) := { repaired d k [[tick]] 1 with
    segments := (repaired d k [[tick]] 1).segments.keep (fun m => !stranded s m) }
  have hview : b = d'.map callBytes := by
    rw [hb]
    simp only [d', Dir.map, Files.map_keep]
  have hleft : d'.segments.entries = (List.range s).map (fun i => (i, [[tick]])) ++
    [(s, [[tick]])] := by
    have hmap : (List.range s).map (fun i => (i, [[tick]])) ++ [(s, [[tick]])] =
        (List.range (s + 1)).map (fun i => (i, [[tick]])) := by
      rw [List.range_succ, List.map_append]
      rfl
    rw [hmap, ← filter_range_le s k hs]
    simp only [d', Files.entries_keep, (holdsCalls_repaired hd 1).entries, not_stranded]
    rw [List.filter_append, List.filter_map, List.filter_cons_of_neg (by simpa using hs),
      List.filter_nil, List.append_nil]
    rfl
  have hread := (readLog_calls (holdsCalls_ticks hleft hcp)).1
  rw [hview, hread, heldBefore_ticks (d := d') hcp, List.replicate_succ']
  rfl

/-- A torn record in segment `k` of a log with one record in each segment: what
is left are the segments up to the number read back from the name of `k`. -/
theorem repair_ticks (k s : ℕ) (hk : segmentNumber (.segment k) = s) (hs : s < k) :
    ∃ b b' : Dir (List Byte),
      b = ((openLog byteFormat 1 Dir.empty).logCalls (List.replicate (k + 1) [tick])).dir ∧
      (readLog (crash b 1)).err = none ∧
      (readLog (crash b 1)).records = List.replicate k tick ∧
      repair (crash b 1) = .ok (true, b') ∧
      (readLog b').records = List.replicate (s + 1) tick := by
  have hacc : acceptedCalls (List.replicate (k + 1) [tick]) = List.replicate (k + 1) [tick] := by
    apply List.filter_eq_self.mpr
    intro recs hrecs
    rw [List.eq_of_mem_replicate hrecs]
    decide
  have hopen : openLog byteFormat 1 Dir.empty = (openLog callFiles 1 Dir.empty).map callBytes :=
    openLog_map views_calls_bytes 1 Dir.empty
  obtain ⟨hlive, hseg, -⟩ := live_replicate [tick] (by simp) k
  obtain ⟨-, -, -, hcp, -⟩ :=
    live_commits (live_openLog_empty callFiles 1) (List.replicate (k + 1) [tick])
  have hbytes := logCalls_bytes (openLog callFiles 1 Dir.empty) (List.replicate (k + 1) [tick])
  rw [← hopen, hacc] at hbytes
  generalize commits (openLog callFiles 1 Dir.empty) (List.replicate (k + 1) [tick]) = w
    at hlive hseg hcp hbytes
  have hd := holdsCalls_ticks (hseg ▸ hlive.entries) hcp
  have htorn : ¬ OnBoundary [[tick]].flatten 1 := by
    unfold OnBoundary
    decide
  have hwhole : wholeBefore [[tick]].flatten 1 = [] := rfl
  refine ⟨w.dir.map callBytes, _, ?_, ?_, ?_, repair_torn hd 1 htorn, ?_⟩
  · rw [hbytes]
    rfl
  · rw [readLog_crash hd]
  · rw [readLog_crash hd, hwhole, List.append_nil, heldBefore_ticks hcp]
  · exact readLog_ticks_repaired hs hd hcp _ (by rw [hk])

/-- The hundred millionth roll gives the first number of nine digits; a crash
inside the record written there makes repair drop that segment and all others
whose number is above its first eight digits. -/
theorem repair_drops_nine_digit_segments :
    ∃ b b' : Dir (List Byte),
      b = ((openLog byteFormat 1 Dir.empty).logCalls
        (List.replicate (10 ^ 8 + 1) [tick])).dir ∧
      (readLog (crash b 1)).err = none ∧
      (readLog (crash b 1)).records = List.replicate (10 ^ 8) tick ∧
      repair (crash b 1) = .ok (true, b') ∧
      (readLog b').records = List.replicate (10 ^ 7 + 1) tick := by
  apply repair_ticks (10 ^ 8) (10 ^ 7)
  · simp [segmentNumber, scanWidth8, paddedDecimals, decimals, ofDecimals]
  · omega

end Ozymandias.WalRecovery
