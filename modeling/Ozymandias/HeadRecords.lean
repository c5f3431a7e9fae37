import Ozymandias.Varint
import Ozymandias.SeriesModel
import Ozymandias.WalFrame

/-!
The records the head writes to its log: one defines a series under an id, one
carries samples by id. Both are read back from their bytes. A checkpoint keeps
every definition and each record that still has a sample the head would accept.
-/

namespace Ozymandias.HeadRecords

open BitLists WalFrame SeriesModel Varint

structure LogSample where
  id : ℕ
  t : ℤ
  v : BitVec 64
  deriving DecidableEq

def LogSample.sample (s : LogSample) : Sample := ⟨s.t, s.v⟩

def recordSeries : Byte := 1

def recordSamples : Byte := 2

inductive DecodeErr where
  | truncatedUvarint
  | truncatedVarint
  | truncatedFloat64
  | stringExceeds (n remaining : ℕ)
  | tooManyTags (n size : ℕ)
  | tooManySamples (n size : ℕ)
  deriving DecidableEq

def readUvarint : Reader DecodeErr ℕ := Reader.orFail uvarint .truncatedUvarint

def readVarint : Reader DecodeErr ℤ := Reader.orFail varint .truncatedVarint

def readUint64 : Reader DecodeErr (BitVec 64) := Reader.orFail uint64 .truncatedFloat64

def readStr : Reader DecodeErr GoString := str .truncatedUvarint .stringExceeds

theorem decodes_readUvarint (n : ℕ) : Decodes readUvarint (appendUvarint n) n :=
  decodes_orFail (uvarint_append n) _

theorem decodes_readVarint (t : ℤ) : Decodes readVarint (appendVarint t) t :=
  decodes_orFail (varint_append t) _

theorem decodes_readUint64 (v : BitVec 64) : Decodes readUint64 (appendUint64 v) v :=
  decodes_orFail (uint64_append v) _

theorem decodes_readStr (s : GoString) : Decodes readStr (appendString s) s := decodes_str _ _ s

def encodeTag (t : Tag) : List Byte := appendString t.key ++ appendString t.value

def encodeSeries (id : ℕ) (ref : SeriesRef) : List Byte :=
  appendUvarint id ++ appendString ref.metric ++ appendUvarint ref.tags.length ++
    ref.tags.flatMap encodeTag

def readTag : Reader DecodeErr Tag := fun bytes => do
  let ((key, value), rest) ← readPair readStr readStr bytes
  return (⟨key, value⟩, rest)

def decodeSeries (bytes : List Byte) : Except DecodeErr (ℕ × SeriesRef) := do
  let (id, rest) ← readUvarint bytes
  let (metric, rest) ← readStr rest
  let (n, rest) ← readUvarint rest
  if bytes.length / 2 < n then throw (.tooManyTags n bytes.length)
  let (tags, _) ← readMany readTag n rest
  return (id, ⟨metric, tags⟩)

theorem decodes_readTag (t : Tag) : Decodes readTag (encodeTag t) t := by
  intro rest
  unfold readTag encodeTag
  rw [((decodes_readStr t.key).pair (decodes_readStr t.value)) rest]
  rfl

theorem decodeSeries_encodeSeries (id : ℕ) (ref : SeriesRef) :
    decodeSeries (encodeSeries id ref) = .ok (id, ref) := by
  have hbytes : encodeSeries id ref = appendUvarint id ++ (appendString ref.metric ++
      (appendUvarint ref.tags.length ++ (ref.tags.flatMap encodeTag ++ []))) := by
    simp [encodeSeries]
  have htag : ∀ t : Tag, 2 ≤ (encodeTag t).length := by
    intro t
    have hkey := length_appendString_pos t.key
    have hvalue := length_appendString_pos t.value
    unfold encodeTag
    rw [List.length_append]
    omega
  have hcount : ¬ (encodeSeries id ref).length / 2 < ref.tags.length := by
    have := le_length_flatMap htag ref.tags
    simp only [encodeSeries, List.length_append]
    omega
  have hid : readUvarint (encodeSeries id ref) = .ok (id, appendString ref.metric ++
      (appendUvarint ref.tags.length ++ (ref.tags.flatMap encodeTag ++ []))) := by
    rw [hbytes]
    exact decodes_readUvarint id _
  unfold decodeSeries
  simp only [hid, bind, Except.bind]
  rw [decodes_readStr]
  simp only
  rw [decodes_readUvarint]
  simp only [if_neg hcount]
  rw [decodes_many decodes_readTag]
  rfl

def encodeSample (s : LogSample) : List Byte :=
  appendUvarint s.id ++ (appendVarint s.t ++ appendUint64 s.v)

def encodeSamples (samples : List LogSample) : List Byte :=
  appendUvarint samples.length ++ samples.flatMap encodeSample

def readSample : Reader DecodeErr LogSample := fun bytes => do
  let ((id, t, v), rest) ← readPair readUvarint (readPair readVarint readUint64) bytes
  return (⟨id, t, v⟩, rest)

def decodeSamples (bytes : List Byte) : Except DecodeErr (List LogSample) := do
  let (n, rest) ← readUvarint bytes
  if bytes.length / 3 + 1 < n then throw (.tooManySamples n bytes.length)
  let (samples, _) ← readMany readSample n rest
  return samples

theorem decodes_readSample (s : LogSample) : Decodes readSample (encodeSample s) s := by
  intro rest
  unfold readSample encodeSample
  rw [((decodes_readUvarint s.id).pair
    ((decodes_readVarint s.t).pair (decodes_readUint64 s.v))) rest]
  rfl

theorem decodeSamples_encodeSamples (samples : List LogSample) :
    decodeSamples (encodeSamples samples) = .ok samples := by
  have hsample : ∀ s : LogSample, 3 ≤ (encodeSample s).length := by
    intro s
    have hv : (appendUint64 s.v).length = 8 := length_leBytes 8 _
    simp only [encodeSample, List.length_append]
    omega
  have hcount : ¬ (encodeSamples samples).length / 3 + 1 < samples.length := by
    have := le_length_flatMap hsample samples
    simp only [encodeSamples, List.length_append]
    omega
  have hn : readUvarint (encodeSamples samples) =
      .ok (samples.length, samples.flatMap encodeSample ++ []) := by
    rw [List.append_nil]
    exact decodes_readUvarint _ _
  unfold decodeSamples
  simp only [hn, bind, Except.bind, if_neg hcount]
  rw [decodes_many decodes_readSample]
  rfl

inductive LogEntry where
  | series (id : ℕ) (ref : SeriesRef)
  | samples (batch : List LogSample)
  deriving DecidableEq

def LogEntry.record : LogEntry → Record
  | .series id ref => ⟨recordSeries, encodeSeries id ref⟩
  | .samples batch => ⟨recordSamples, encodeSamples batch⟩

def LogEntry.batch : LogEntry → List LogSample
  | .series _ _ => []
  | .samples batch => batch

/-- The policy of a truncation, given the time before which the head refuses. -/
def keepForCheckpoint (minValid : ℤ) (r : Record) : Bool :=
  if r.typ = recordSeries then true
  else if r.typ = recordSamples then
    match decodeSamples r.data with
    | .error _ => true
    | .ok decoded => decoded.any (fun s => decide (minValid ≤ s.t))
  else false

def keepEntry (minValid : ℤ) : LogEntry → Bool
  | .series _ _ => true
  | .samples batch => batch.any (fun s => decide (minValid ≤ s.t))

theorem keepForCheckpoint_record (minValid : ℤ) (e : LogEntry) :
    keepForCheckpoint minValid e.record = keepEntry minValid e := by
  cases e with
  | series id ref => rfl
  | samples batch =>
    have hdec : decodeSamples (LogEntry.samples batch).record.data = .ok batch :=
      decodeSamples_encodeSamples batch
    unfold keepForCheckpoint
    rw [hdec]
    rfl

end Ozymandias.HeadRecords
