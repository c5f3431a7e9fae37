import Ozymandias.WalFrame
import Ozymandias.NumberedFiles

/-!
The write-ahead log over a directory of numbered files. A `Log` call rolls to a
new segment before writing, never inside a call; the reader replays the
checkpoints and then the segments, and is quiet only about damage that ends the
last file. How a file stores its records is a parameter: framed bytes are the
log on disk, a list of records or of whole calls is what it stands for, and the
operations commute with the change of view.
-/

namespace Ozymandias.WalLog

open BitLists WalFrame NumberedFiles

def defaultSegmentSize : ℕ := 32 * 2 ^ 20

/-- The log directory: published checkpoints, segments, and temporary files,
which no listing returns. -/
structure Dir (γ : Type) where
  checkpoints : Files γ
  segments : Files γ
  temps : Files γ

def Dir.empty {γ : Type} : Dir γ := ⟨Files.empty, Files.empty, Files.empty⟩

def Dir.map {γ δ : Type} (g : γ → δ) (d : Dir γ) : Dir δ :=
  ⟨d.checkpoints.map g, d.segments.map g, d.temps.map g⟩

structure Format (ρ γ : Type) where
  empty : γ
  write : γ → List ρ → γ
  size : γ → ℕ
  frameSize : ρ → ℕ

def byteFormat : Format Record (List Byte) :=
  ⟨[], fun bytes recs => bytes ++ frames recs, List.length, Record.frameSize⟩

def callFormat {ρ : Type} (frameSize : ρ → ℕ) : Format ρ (List (List ρ)) :=
  ⟨[], fun calls recs => calls ++ [recs], fun calls => (calls.flatten.map frameSize).sum, frameSize⟩

def recordFormat {ρ : Type} (frameSize : ρ → ℕ) : Format ρ (List ρ) :=
  ⟨[], fun old recs => old ++ recs, fun old => (old.map frameSize).sum, frameSize⟩

/-- An open log: the segment its handle stands for, and how far that is written. -/
structure Wal (γ : Type) where
  dir : Dir γ
  segmentSize : ℕ
  segment : ℕ
  size : ℕ

def Wal.map {γ δ : Type} (g : γ → δ) (w : Wal γ) : Wal δ :=
  ⟨w.dir.map g, w.segmentSize, w.segment, w.size⟩

section Operations

variable {ρ γ : Type} (F : Format ρ γ)

def openSegment (d : Dir γ) (segmentSize n : ℕ) : Wal γ :=
  match d.segments.find n with
  | some c => ⟨d, segmentSize, n, F.size c⟩
  | none => ⟨{ d with segments := d.segments.put n F.empty }, segmentSize, n, F.size F.empty⟩

def openLog (segmentSize : ℤ) (d : Dir γ) : Wal γ :=
  openSegment F d (if segmentSize ≤ 0 then defaultSegmentSize else segmentSize.toNat)
    ((d.segments.last.map Prod.fst).getD 0)

/-- Write behind the handle. Its file may have been removed meanwhile, and then
the bytes are in no directory. -/
def Wal.write (w : Wal γ) (recs : List ρ) : Wal γ :=
  { w with
    dir :=
      match w.dir.segments.find w.segment with
      | some c => { w.dir with segments := w.dir.segments.put w.segment (F.write c recs) }
      | none => w.dir
    size := w.size + (recs.map F.frameSize).sum }

def Wal.rollFor (w : Wal γ) (recs : List ρ) : Wal γ :=
  if 0 < w.size ∧ w.segmentSize < w.size + (recs.map F.frameSize).sum then
    openSegment F w.dir w.segmentSize (w.segment + 1)
  else w

def Wal.commit (w : Wal γ) (recs : List ρ) : Wal γ := (w.rollFor F recs).write F recs

end Operations

inductive LogErr where
  | reservedType
  | tooLarge (n : ℕ)
  deriving DecidableEq

def checkRecord (r : Record) : Option LogErr :=
  if r.typ = 0 then some .reservedType
  else if maxRecordSize < r.data.length then some (.tooLarge r.data.length)
  else none

/-- `Log`: a call with a record that cannot be written is refused as a whole. -/
def Wal.log (w : Wal (List Byte)) (recs : List Record) : Except LogErr (Wal (List Byte)) :=
  if recs = [] then .ok w
  else
    match recs.findSome? checkRecord with
    | some e => .error e
    | none => .ok (w.commit byteFormat recs)

/-- A call that is accepted and then fails behind `cut` bytes of its frames.
`undoPartial` cuts the file back to the end of the last complete record. -/
def Wal.failedLog (w : Wal (List Byte)) (recs : List Record) (cut : ℕ) : Wal (List Byte) :=
  let w := w.rollFor byteFormat recs
  let size := w.size + ((wholeBefore recs cut).map Record.frameSize).sum
  { w with
    dir :=
      match w.dir.segments.find w.segment with
      | some c => { w.dir with
          segments := w.dir.segments.put w.segment ((c ++ (frames recs).take cut).take size) }
      | none => w.dir
    size := size }

def Wal.logCalls (w : Wal (List Byte)) : List (List Record) → Wal (List Byte)
  | [] => w
  | recs :: rest =>
    match w.log recs with
    | .ok w' => w'.logCalls rest
    | .error _ => w.logCalls rest

def Accepted (recs : List Record) : Prop := recs ≠ [] ∧ ∀ r ∈ recs, r.Writable

instance (recs : List Record) : Decidable (Accepted recs) := by
  unfold Accepted
  infer_instance

def acceptedCalls (calls : List (List Record)) : List (List Record) :=
  calls.filter (fun recs => decide (Accepted recs))

inductive FileName where
  | checkpoint (n : ℕ)
  | segment (n : ℕ)
  deriving DecidableEq

def decimals (n : ℕ) : List ℕ :=
  if n < 10 then [n] else decimals (n / 10) ++ [n % 10]

def paddedDecimals (n : ℕ) : List ℕ :=
  List.replicate (8 - (decimals n).length) 0 ++ decimals n

def ofDecimals (digits : List ℕ) : ℕ := digits.foldl (fun n d => 10 * n + d) 0

/-- `Sscanf` with `%08d`: the eight is a field width, and no more digits are read. -/
def scanWidth8 (digits : List ℕ) : ℕ := ofDecimals (digits.take 8)

def segmentNumber : FileName → ℤ
  | .checkpoint _ => -1
  | .segment n => scanWidth8 (paddedDecimals n)

structure Position where
  file : Option FileName
  offset : ℕ
  segment : ℤ
  deriving DecidableEq

structure Corrupt where
  file : FileName
  offset : ℕ
  cause : Damage
  deriving DecidableEq

structure Replay where
  records : List Record
  err : Option Corrupt
  pos : Position
  deriving DecidableEq

def readFiles (strict : Bool) (pos : Position) : List (FileName × List Byte) → Replay
  | [] => ⟨[], none, pos⟩
  | (name, bytes) :: rest =>
    let s := scanFrom 0 bytes
    let pos : Position := ⟨some name, s.off, segmentNumber name⟩
    match s.damage with
    | none => { readFiles strict pos rest with
                records := s.records ++ (readFiles strict pos rest).records }
    | some (cause, ends) =>
      if rest.isEmpty && !strict && decide (bytes.length ≤ ends) then ⟨s.records, none, pos⟩
      else ⟨s.records, some ⟨name, s.off, cause⟩, pos⟩

def Dir.files {γ : Type} (d : Dir γ) : List (FileName × γ) :=
  d.checkpoints.entries.map (fun e => (.checkpoint e.1, e.2)) ++
    d.segments.entries.map (fun e => (.segment e.1, e.2))

def readLog (d : Dir (List Byte)) : Replay := readFiles false ⟨none, 0, -1⟩ d.files

def Dir.truncateFile (d : Dir (List Byte)) (name : FileName) (n : ℕ) : Dir (List Byte) :=
  match name with
  | .checkpoint k =>
    match d.checkpoints.find k with
    | some c => { d with checkpoints := d.checkpoints.put k (c.take n) }
    | none => d
  | .segment k =>
    match d.segments.find k with
    | some c => { d with segments := d.segments.put k (c.take n) }
    | none => d

def stranded (segment : ℤ) (n : ℕ) : Bool := decide (0 ≤ segment) && decide (segment < n)

/-- `TruncateTail`: cut the file of the position and drop the segments after it. -/
def truncateTail (d : Dir (List Byte)) (pos : Position) : Dir (List Byte) :=
  match pos.file with
  | none => d
  | some name =>
    let d := d.truncateFile name pos.offset
    { d with segments := d.segments.keep (fun n => !stranded pos.segment n) }

def Dir.fileSize (d : Dir (List Byte)) : FileName → ℕ
  | .checkpoint k => ((d.checkpoints.find k).getD []).length
  | .segment k => ((d.segments.find k).getD []).length

/-- `Repair`: whether anything was cut, and the directory; damage that is not a
torn tail is returned and nothing is cut. -/
def repair (d : Dir (List Byte)) : Except Corrupt (Bool × Dir (List Byte)) :=
  let r := readLog d
  match r.err with
  | some e => .error e
  | none =>
    match r.pos.file with
    | none => .ok (false, d)
    | some name =>
      if d.fileSize name = r.pos.offset then .ok (false, d)
      else .ok (true, truncateTail d r.pos)

/-- `g` turns one format's files into the other's. -/
structure Views {ρ γ δ : Type} (F : Format ρ γ) (G : Format ρ δ) (g : γ → δ) : Prop where
  empty : g F.empty = G.empty
  write : ∀ c recs, g (F.write c recs) = G.write (g c) recs
  size : ∀ c, G.size (g c) = F.size c
  frameSize : G.frameSize = F.frameSize

theorem length_frames (recs : List Record) :
    (frames recs).length = (recs.map Record.frameSize).sum := by
  induction recs with
  | nil => rfl
  | cons r recs ih => rw [frames_cons, List.length_append, length_frame, ih]; rfl

theorem views_calls_bytes :
    Views (callFormat Record.frameSize) byteFormat (fun calls => frames calls.flatten) where
  empty := rfl
  write calls recs := by simp [callFormat, byteFormat, frames_append]
  size calls := length_frames calls.flatten
  frameSize := rfl

theorem views_records_bytes : Views (recordFormat Record.frameSize) byteFormat frames where
  empty := rfl
  write old recs := frames_append old recs
  size old := length_frames old
  frameSize := rfl

section Views

variable {ρ γ δ : Type} {F : Format ρ γ} {G : Format ρ δ} {g : γ → δ} (hv : Views F G g)
include hv

theorem openSegment_map (d : Dir γ) (segmentSize n : ℕ) :
    openSegment G (d.map g) segmentSize n = (openSegment F d segmentSize n).map g := by
  have hfind : (d.map g).segments.find n = (d.segments.find n).map g :=
    Files.find_map g n d.segments
  unfold openSegment
  rw [hfind]
  cases d.segments.find n with
  | none =>
    simp only [Option.map_none, Wal.map, Dir.map, Files.map_put]
    rw [← hv.empty, hv.size]
  | some c => simp only [Option.map_some, Wal.map, hv.size]

theorem openLog_map (segmentSize : ℤ) (d : Dir γ) :
    openLog G segmentSize (d.map g) = (openLog F segmentSize d).map g := by
  have hlast : ((d.map g).segments.last.map Prod.fst) = d.segments.last.map Prod.fst := by
    change ((d.segments.map g).last.map Prod.fst) = _
    rw [Files.last_map, Option.map_map]
    rfl
  unfold openLog
  rw [hlast]
  exact openSegment_map hv d _ _

variable (w : Wal γ) (recs : List ρ)

theorem write_map : (w.map g).write G recs = (w.write F recs).map g := by
  have hfind : (w.map g).dir.segments.find w.segment = (w.dir.segments.find w.segment).map g :=
    Files.find_map g w.segment w.dir.segments
  unfold Wal.write
  simp only [Wal.map] at hfind ⊢
  rw [hfind, hv.frameSize]
  cases w.dir.segments.find w.segment with
  | none => rfl
  | some c => simp only [Option.map_some, Dir.map, Files.map_put, hv.write]

theorem rollFor_map : (w.map g).rollFor G recs = (w.rollFor F recs).map g := by
  unfold Wal.rollFor
  rw [hv.frameSize]
  change (if 0 < w.size ∧ w.segmentSize < w.size + _ then
    openSegment G (w.dir.map g) w.segmentSize (w.segment + 1) else w.map g) = _
  rw [openSegment_map hv]
  split <;> rfl

theorem commit_map : (w.map g).commit G recs = (w.commit F recs).map g := by
  unfold Wal.commit
  rw [rollFor_map hv, write_map hv]

end Views

/-- A failed call leaves its complete records, provided the handle knows where
its file ends. -/
theorem failedLog_eq (w : Wal (List Byte)) (recs : List Record) (cut : ℕ)
    (hsize : ∀ c, (w.rollFor byteFormat recs).dir.segments.find
      (w.rollFor byteFormat recs).segment = some c → (w.rollFor byteFormat recs).size = c.length) :
    w.failedLog recs cut = (w.rollFor byteFormat recs).write byteFormat (wholeBefore recs cut) := by
  unfold Wal.failedLog Wal.write
  generalize w.rollFor byteFormat recs = rolled at hsize
  dsimp only
  cases hfind : rolled.dir.segments.find rolled.segment with
  | none => rfl
  | some c =>
    obtain ⟨piece, htake, -⟩ := take_frames recs cut
    have hcut : (c ++ (frames recs).take cut).take
        (rolled.size + ((wholeBefore recs cut).map Record.frameSize).sum) =
          c ++ frames (wholeBefore recs cut) := by
      rw [hsize c hfind, ← length_frames, htake, ← List.append_assoc, ← List.length_append,
        List.take_left]
    dsimp only
    rw [hcut]
    rfl

theorem findSome_checkRecord {recs : List Record} :
    recs.findSome? checkRecord = none ↔ ∀ r ∈ recs, r.Writable := by
  rw [List.findSome?_eq_none_iff]
  apply forall₂_congr
  intro r _
  unfold checkRecord Record.Writable
  split
  next ht =>
    exact ⟨fun h => absurd h (by simp), fun h => absurd ht h.1⟩
  next ht =>
    split
    · exact ⟨fun h => absurd h (by simp), fun h => by omega⟩
    · exact ⟨fun _ => ⟨ht, by omega⟩, fun _ => rfl⟩

/-- A sequence of `Log` calls is the accepted ones, each written in one piece. -/
theorem logCalls_eq (w : Wal (List Byte)) (calls : List (List Record)) :
    w.logCalls calls = (acceptedCalls calls).foldl (fun w recs => w.commit byteFormat recs) w := by
  induction calls generalizing w with
  | nil => rfl
  | cons recs rest ih =>
    unfold Wal.logCalls Wal.log acceptedCalls
    by_cases hnil : recs = []
    · have hno : ¬ Accepted recs := fun h => h.1 hnil
      rw [if_pos hnil, List.filter_cons_of_neg (by simpa using hno)]
      exact ih w
    · rw [if_neg hnil]
      cases hcheck : recs.findSome? checkRecord with
      | none =>
        have hyes : Accepted recs := ⟨hnil, findSome_checkRecord.mp hcheck⟩
        rw [List.filter_cons_of_pos (by simpa using hyes)]
        exact ih _
      | some e =>
        have hno : ¬ Accepted recs := by
          intro h
          rw [findSome_checkRecord.mpr h.2] at hcheck
          cases hcheck
        rw [List.filter_cons_of_neg (by simpa using hno)]
        exact ih w

theorem mem_acceptedCalls {calls : List (List Record)} {recs : List Record}
    (h : recs ∈ acceptedCalls calls) : ∀ r ∈ recs, r.Writable :=
  (of_decide_eq_true (List.mem_filter.mp h).2 : Accepted recs).2

end Ozymandias.WalLog
