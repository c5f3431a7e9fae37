import Ozymandias.LogRecords
import Ozymandias.LogSearch
import Ozymandias.WalSegments
import Mathlib.Data.List.AList

/-!
The log store as a machine: batches appended to the log and to the heads of
their streams, heads sealed into blocks day by day, days expired, crashes at any
point in between, and the recovery that an opening does. The log is followed as
its records; a chunk file is followed as its blocks, each the entries it was
built from.
-/
namespace Ozymandias.LogStore

open BitLists WalFrame WalLog WalTruncate WalSegments LogRecords LogSearch TimeMerge

/-- What the store reads of a log: its timestamp and its labels, the labels it is filed under once
there are too many streams, and its body. -/
structure Schema (Log Label : Type) where
  ts : Log → ℤ
  labels : Log → Label
  overflow : Label → Label
  overflow_overflow : ∀ x, overflow (overflow x) = overflow x
  encodeLog : Log → List Byte
  decodeLog : List Byte → Option Log
  decode_encode : ∀ l, decodeLog (encodeLog l) = some l

structure Options where
  maxStreams : ℕ
  walSegmentSize : ℤ

def msPerDay : ℤ := 86400000

def dayOf (ms : ℤ) : ℤ := ms / msPerDay

variable {Log Label : Type} [DecidableEq Label]

/-- `streamFor`: the stream of some labels, and the catalog, which may have grown by it. -/
def streamFor (S : Schema Log Label) (opts : Options) (catalog : List Label) (ls : Label) :
    ℕ × List Label :=
  if ls ∈ catalog then (catalog.idxOf ls, catalog)
  else if opts.maxStreams ≤ catalog.length then
    if S.overflow ls ∈ catalog then (catalog.idxOf (S.overflow ls), catalog)
    else (catalog.length, catalog ++ [S.overflow ls])
  else (catalog.length, catalog ++ [ls])

def streamsFor (S : Schema Log Label) (opts : Options) (catalog : List Label) :
    List Log → List ℕ × List Label
  | [] => ([], catalog)
  | l :: rest =>
    let first := streamFor S opts catalog (S.labels l)
    let others := streamsFor S opts first.2 rest
    (first.1 :: others.1, others.2)

/-- The unsealed logs of a stream, in arrival order, and the segment of the log that holds the
oldest. -/
structure Head (Log : Type) where
  entries : List (Entry Log)
  seg : ℤ

def Head.empty : Head Log := ⟨[], 0⟩

def Head.add (h : Head Log) (e : Entry Log) (seg : ℤ) : Head Log :=
  ⟨h.entries ++ [e], if h.entries = [] then seg else h.seg⟩

abbrev Heads (Log : Type) := ℕ → Head Log

def addTo (heads : Heads Log) (st : ℕ) (e : Entry Log) (seg : ℤ) : Heads Log :=
  Function.update heads st ((heads st).add e seg)

def entriesFrom (S : Schema Log Label) (base : ℕ) : List Log → List (Entry Log)
  | [] => []
  | l :: rest => ⟨S.ts l, base, l⟩ :: entriesFrom S (base + 1) rest

def addAll (heads : Heads Log) (seg : ℤ) : List (ℕ × Entry Log) → Heads Log
  | [] => heads
  | (st, e) :: rest => addAll (addTo heads st e seg) seg rest

abbrev ChunkKey := ℕ × ℤ

abbrev Chunks (Log : Type) := AList (fun _ : ChunkKey => List (List (Entry Log)))

def blocksAt (c : Chunks Log) (k : ChunkKey) : List (List (Entry Log)) := (c.lookup k).getD []

def addBlock (c : Chunks Log) (k : ChunkKey) (block : List (Entry Log)) : Chunks Log :=
  c.insert k (blocksAt c k ++ [block])

def lastSeq (block : List (Entry Log)) : ℕ := (block.map Entry.seq).foldr max 0

def sealedUpTo (c : Chunks Log) (k : ChunkKey) : ℕ := ((blocksAt c k).map lastSeq).foldr max 0

def dayGroups : List (Entry Log) → List (ℤ × List (Entry Log))
  | [] => []
  | e :: es =>
    match dayGroups es with
    | [] => [(dayOf e.ts, [e])]
    | (day, group) :: rest =>
      if day = dayOf e.ts then (day, e :: group) :: rest
      else (dayOf e.ts, [e]) :: (day, group) :: rest

def sortedEntries (h : Head Log) : List (Entry Log) := sortBy Entry.key h.entries

inductive StoreErr where
  | record (e : RecordErr)
  | entry (seq : ℕ)
  deriving DecidableEq

structure Recovered (Log Label : Type) where
  catalog : List Label
  seq : ℕ
  heads : Heads Log

def loadChunks (catalog : List Label) (c : Chunks Log) : Chunks Log :=
  c.entries.foldl (fun m e => if e.1.1 < catalog.length then m.insert e.1 e.2 else m) ∅

def maxSeq (c : Chunks Log) : ℕ :=
  (c.entries.map (fun e => (e.2.map lastSeq).foldr max 0)).foldr max 0

/-- One entry of the log: skipped if the chunk of its stream and day is sealed beyond it. -/
def replayEntry (S : Schema Log Label) (opts : Options) (c : Chunks Log) (seg : ℤ)
    (r : Recovered Log Label) (seq : ℕ) (body : List Byte) :
    Except StoreErr (Recovered Log Label) :=
  match S.decodeLog body with
  | none => .error (.entry seq)
  | some l =>
    let found := streamFor S opts r.catalog (S.labels l)
    if seq ≤ sealedUpTo c (found.1, dayOf (S.ts l)) then
      .ok ⟨found.2, max r.seq seq, r.heads⟩
    else .ok ⟨found.2, max r.seq seq, addTo r.heads found.1 ⟨S.ts l, seq, l⟩ seg⟩

def replayBodies (S : Schema Log Label) (opts : Options) (c : Chunks Log) (seg : ℤ) (base : ℕ)
    (r : Recovered Log Label) : List (List Byte) → Except StoreErr (Recovered Log Label)
  | [] => .ok r
  | body :: rest =>
    match replayEntry S opts c seg r base body with
    | .error e => .error e
    | .ok r => replayBodies S opts c seg (base + 1) r rest

def replayRecord (S : Schema Log Label) (opts : Options) (c : Chunks Log) (seg : ℤ)
    (r : Recovered Log Label) (rec : Record) : Except StoreErr (Recovered Log Label) :=
  if rec.typ ≠ walRecordLogs then .ok r
  else
    match decodeWALRecord rec.data with
    | .error e => .error (.record e)
    | .ok (base, bodies) => replayBodies S opts c seg base r bodies

def replayRecords (S : Schema Log Label) (opts : Options) (c : Chunks Log)
    (r : Recovered Log Label) : List (ℤ × Record) → Except StoreErr (Recovered Log Label)
  | [] => .ok r
  | (seg, rec) :: rest =>
    match replayRecord S opts c seg r rec with
    | .error e => .error e
    | .ok r => replayRecords S opts c r rest

/-- The records in the order they are replayed, each with the number the reader reports for its
file. -/
def replayed (d : Dir (List Record)) : List (ℤ × Record) :=
  d.files.flatMap (fun f => f.2.map (fun rec => (segmentNumber f.1, rec)))

def recover (S : Schema Log Label) (opts : Options) (catalog : List Label) (c : Chunks Log)
    (d : Dir (List Record)) : Except StoreErr (Recovered Log Label) :=
  let loaded := loadChunks catalog c
  replayRecords S opts loaded ⟨catalog, maxSeq loaded, fun _ => Head.empty⟩ (replayed d)

/-- Where a seal is: the groups still to be written; a block written and not published; all
published. -/
inductive Phase (Log : Type) where
  | idle
  | sealing (st : ℕ) (groups : List (ℤ × List (Entry Log)))
  | written (st : ℕ) (day : ℤ) (group : List (Entry Log)) (groups : List (ℤ × List (Entry Log)))
  | truncating

structure Memory (Log : Type) where
  seq : ℕ
  heads : Heads Log
  published : Chunks Log
  phase : Phase Log

inductive Process (Log : Type) where
  | down (d : Dir (List Record))
  | up (wal : Wal (List Record)) (mem : Memory Log)

/-- The catalog and the chunk files, the process, and two ledgers: the logs of acknowledged appends
that were not deleted, and the deleted ones whose numbers were not given out again. -/
structure State (Log Label : Type) where
  catalog : List Label
  chunks : Chunks Log
  process : Process Log
  live : List (Entry Log)
  gone : List (Entry Log)

inductive Action (Log : Type) where
  | append (batch : List Log)
  | refused (batch : List Log)
  | failedLog (batch : List Log) (cut : ℕ)
  | failedSync (batch : List Log)
  | crashLogging (batch : List Log) (cut : ℕ)
  | sealBegin (st : ℕ)
  | sealWrite
  | publish
  | sealAbort
  | sealEnd
  | truncate (k : ℕ)
  | crashTruncating (k : ℕ)
  | expire (k : ChunkKey)
  | crash
  | reopen

abbrev recordFiles : Format Record (List Record) := recordFormat Record.frameSize

def reused (gone : List (Entry Log)) (entries : List (Entry Log)) : List (Entry Log) :=
  gone.filter (fun e => e.seq ∉ entries.map Entry.seq)

/-- The segment that the oldest unsealed entry is in: everything before it may go. -/
def safeSegment (segment : ℕ) (streams : ℕ) (heads : Heads Log) : ℕ :=
  ((List.range streams).foldl
    (fun safe st => if (heads st).entries = [] then safe else min safe (heads st).seg)
    (segment : ℤ)).toNat

section Step

variable (S : Schema Log Label) (opts : Options)

structure Prepared (Log Label : Type) where
  catalog : List Label
  streams : List ℕ
  entries : List (Entry Log)
  records : List Record

def prepare (catalog : List Label) (seq : ℕ) (batch : List Log) : Prepared Log Label :=
  let streams := streamsFor S opts catalog batch
  ⟨streams.2, streams.1, entriesFrom S (seq + 1) batch,
    batchRecords (seq + 1) (batch.map S.encodeLog)⟩

variable [DecidableEq Log]

def step (s : State Log Label) : Action Log → Option (State Log Label)
  | .append batch =>
    match s.process with
    | .up wal ⟨seq, heads, published, .idle⟩ =>
      let p := prepare S opts s.catalog seq batch
      if batch ≠ [] ∧ seq + batch.length < maxUint64 ∧ ∀ r ∈ p.records, r.Writable then
        let wal := wal.commit recordFiles p.records
        some { s with
          catalog := p.catalog
          process := .up wal ⟨seq + batch.length,
            addAll heads wal.segment (p.streams.zip p.entries), published, .idle⟩
          live := s.live ++ p.entries
          gone := reused s.gone p.entries }
      else none
    | _ => none
  | .refused batch =>
    match s.process with
    | .up wal ⟨seq, heads, published, .idle⟩ =>
      let p := prepare S opts s.catalog seq batch
      if ∃ r ∈ p.records, ¬ r.Writable then
        some { s with
          catalog := p.catalog
          process := .up wal ⟨seq, heads, published, .idle⟩ }
      else none
    | _ => none
  | .failedLog batch cut =>
    match s.process with
    | .up wal ⟨seq, heads, published, .idle⟩ =>
      let p := prepare S opts s.catalog seq batch
      if batch ≠ [] ∧ seq + batch.length < maxUint64 ∧ ∀ r ∈ p.records, r.Writable then
        some { s with
          catalog := p.catalog
          process := .up ((wal.rollFor recordFiles p.records).write recordFiles
            (wholeBefore p.records cut)) ⟨seq, heads, published, .idle⟩ }
      else none
    | _ => none
  | .failedSync batch =>
    match s.process with
    | .up wal ⟨seq, heads, published, .idle⟩ =>
      let p := prepare S opts s.catalog seq batch
      if batch ≠ [] ∧ seq + batch.length < maxUint64 ∧ ∀ r ∈ p.records, r.Writable then
        some { s with
          catalog := p.catalog
          process := .up (wal.commit recordFiles p.records)
            ⟨seq + batch.length, heads, published, .idle⟩
          gone := reused s.gone p.entries }
      else none
    | _ => none
  | .crashLogging batch cut =>
    match s.process with
    | .up wal ⟨seq, _, _, .idle⟩ =>
      let p := prepare S opts s.catalog seq batch
      let rolled := wal.rollFor recordFiles p.records
      if batch ≠ [] ∧ seq + batch.length < maxUint64 ∧ (∀ r ∈ p.records, r.Writable) ∧
          rolled.segment < 10 ^ 8 then
        some { s with
          catalog := p.catalog
          process := .down (rolled.write recordFiles (wholeBefore p.records cut)).dir
          gone := reused s.gone p.entries }
      else none
    | _ => none
  | .sealBegin st =>
    match s.process with
    | .up wal ⟨seq, heads, published, .idle⟩ =>
      if (heads st).entries = [] then none
      else some { s with
        process := .up wal
          ⟨seq, heads, published, .sealing st (dayGroups (sortedEntries (heads st)))⟩ }
    | _ => none
  | .sealWrite =>
    match s.process with
    | .up wal ⟨seq, heads, published, .sealing st ((day, group) :: groups)⟩ =>
      some { s with
        chunks := addBlock s.chunks (st, day) group
        process := .up wal ⟨seq, heads, published, .written st day group groups⟩ }
    | _ => none
  | .publish =>
    match s.process with
    | .up wal ⟨seq, heads, published, .written st day group groups⟩ =>
      let head : Head Log :=
        ⟨(heads st).entries.filter (fun e => dayOf e.ts ≠ day), (heads st).seg⟩
      some { s with
        process := .up wal ⟨seq, Function.update heads st head,
          addBlock published (st, day) group, .sealing st groups⟩ }
    | _ => none
  | .sealAbort =>
    match s.process with
    | .up wal ⟨seq, heads, published, .sealing _ _⟩ =>
      some { s with process := .up wal ⟨seq, heads, published, .idle⟩ }
    | _ => none
  | .sealEnd =>
    match s.process with
    | .up wal ⟨seq, heads, published, .sealing _ []⟩ =>
      some { s with process := .up wal ⟨seq, heads, published, .truncating⟩ }
    | _ => none
  | .truncate k =>
    match s.process with
    | .up wal ⟨seq, heads, published, .truncating⟩ =>
      let safe := safeSegment wal.segment s.catalog.length heads
      let wal := { wal with dir := pruned Record.frameSize wal.dir safe k }
      some { s with process := .up wal ⟨seq, heads, published, .idle⟩ }
    | _ => none
  | .crashTruncating k =>
    match s.process with
    | .up wal ⟨_, heads, _, .truncating⟩ =>
      let safe := safeSegment wal.segment s.catalog.length heads
      some { s with process := .down (pruned Record.frameSize wal.dir safe k) }
    | _ => none
  | .expire k =>
    match s.process with
    | .up wal ⟨seq, heads, published, .idle⟩ =>
      let deleted := (blocksAt s.chunks k).flatten
      if (published.lookup k).isSome then
        some { s with
          chunks := s.chunks.erase k
          process := .up wal ⟨seq, heads, published.erase k, .idle⟩
          live := s.live.filter (fun e => e ∉ deleted)
          gone := s.gone ++ deleted }
      else none
    | _ => none
  | .crash =>
    match s.process with
    | .up wal _ => some { s with process := .down wal.dir }
    | .down _ => none
  | .reopen =>
    match s.process with
    | .down d =>
      match recover S opts s.catalog s.chunks d with
      | .error _ => none
      | .ok r => some { s with
          catalog := r.catalog
          process := .up (openLog recordFiles opts.walSegmentSize d)
            ⟨r.seq, r.heads, loadChunks s.catalog s.chunks, .idle⟩ }
    | .up _ _ => none

end Step

def State.init : State Log Label := ⟨[], ∅, .down Dir.empty, [], []⟩

end Ozymandias.LogStore
