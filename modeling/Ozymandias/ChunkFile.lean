import Ozymandias.HeadSelect

/-!
The chunks file of a block: a header, and behind it one record per chunk with
its length, its encoding and a checksum. The index locates a record by offset
and length, and reading one takes it apart again. A chunk's samples are read
through the decoder, and only those of a window are kept.
-/
namespace Ozymandias.ChunkFile

open BitLists WalFrame SeriesModel Varint BlockModel HeadSelect GorillaChunk ChunkRoundTrip
  ChunkCoding BitStream

def chunksMagic : ℕ := 0x4f5a4348

def chunksVersion : Byte := 1

def chunksHeaderLen : ℕ := 5

def encodingGorilla : Byte := 1

def maxChunkLen : ℕ := 2 ^ 20

inductive ChunkFileErr where
  | shortHeader
  | badMagic (got : ℕ)
  | badVersion (got : Byte)
  | badRecord (off recLen : ℕ)
  | pastEnd (off recLen size : ℕ)
  | badLength (off : ℕ)
  | corrupt (off got want : ℕ)
  deriving DecidableEq

def chunksHeader : List Byte := putUint32 chunksMagic ++ [chunksVersion]

/-- A file under construction; `off` is where the next record goes. -/
structure ChunkWriter where
  file : List Byte
  off : ℕ
  deriving DecidableEq

def ChunkWriter.new : ChunkWriter := ⟨chunksHeader, chunksHeaderLen⟩

def chunkRecord (encoding : Byte) (data : List Byte) : List Byte :=
  appendUvarint (data.length + 1) ++ (encoding :: data) ++
    putUint32 (crc32c (encoding :: data)).toNat

def ChunkWriter.write (w : ChunkWriter) (encoding : Byte) (data : List Byte) :
    ChunkWriter × ℕ × ℕ :=
  (⟨w.file ++ chunkRecord encoding data, w.off + (chunkRecord encoding data).length⟩, w.off,
    (chunkRecord encoding data).length)

def openChunkReader (file : List Byte) : Except ChunkFileErr Unit :=
  if file.length < chunksHeaderLen then .error .shortHeader
  else if uint32 file ≠ chunksMagic then .error (.badMagic (uint32 file))
  else if file.getD 4 0 ≠ chunksVersion then .error (.badVersion (file.getD 4 0))
  else .ok ()

def chunkAt (file : List Byte) (off recLen : ℕ) : Except ChunkFileErr (Byte × List Byte) :=
  if recLen < 6 ∨ maxChunkLen < recLen then .error (.badRecord off recLen)
  else if file.length < off ∨ file.length - off < recLen then
    .error (.pastEnd off recLen file.length)
  else
    let rec' := (file.drop off).take recLen
    match uvarint rec' with
    | none => .error (.badLength off)
    | some (length, rest) =>
      let used := rec'.length - rest.length
      if recLen ≤ used + 4 ∨ length ≠ recLen - 4 - used then .error (.badLength off)
      else
        let body := rest.take length
        let want := uint32 (rest.drop length)
        let got := (crc32c body).toNat
        if got ≠ want then .error (.corrupt off got want)
        else .ok (body.headD 0, body.tail)

theorem length_chunkRecord (encoding : Byte) (data : List Byte) :
    (chunkRecord encoding data).length =
      (appendUvarint (data.length + 1)).length + (data.length + 1) + 4 := by
  simp only [chunkRecord, putUint32, List.length_append, List.length_cons, List.length_nil]

/-- A record is read back, wherever it stands. -/
theorem chunkAt_record {file front back : List Byte} {encoding : Byte} {data : List Byte}
    (hfile : file = front ++ chunkRecord encoding data ++ back)
    (hsmall : (chunkRecord encoding data).length ≤ maxChunkLen) :
    chunkAt file front.length (chunkRecord encoding data).length = .ok (encoding, data) := by
  have hlen := length_chunkRecord encoding data
  have hpos := length_appendUvarint_pos (data.length + 1)
  have hsize : file.length =
      front.length + (chunkRecord encoding data).length + back.length := by
    rw [hfile, List.length_append, List.length_append]
  have hrec : (file.drop front.length).take (chunkRecord encoding data).length =
      chunkRecord encoding data := by
    rw [hfile, List.append_assoc, List.drop_left, List.take_left]
  set body := encoding :: data with hbody
  have huvarint : uvarint (chunkRecord encoding data) = some (data.length + 1,
      body ++ putUint32 (crc32c body).toNat) := by
    rw [chunkRecord, List.append_assoc]
    exact uvarint_append _ _
  have htail : (body ++ putUint32 (crc32c body).toNat).length = data.length + 5 := by
    simp [hbody, putUint32]
  have htake : (body ++ putUint32 (crc32c body).toNat).take (data.length + 1) = body :=
    List.take_left' rfl
  have hcrc : uint32 ((body ++ putUint32 (crc32c body).toNat).drop (data.length + 1)) =
      (crc32c body).toNat := by
    rw [List.drop_left' (show body.length = data.length + 1 from rfl), uint32_crc]
  unfold chunkAt
  rw [if_neg (by omega), if_neg (by omega)]
  dsimp only
  rw [hrec, huvarint]
  dsimp only
  rw [if_neg (by omega), htake, hcrc, if_neg (by simp)]
  rfl

def emptyHeap : GoSlices.Heap := ⟨0, fun _ => []⟩

def encodeChunk (samples : List Sample) : Except ChunkErr (List Byte) := do
  let (h, a) ← writeFresh emptyHeap (samples.map point)
  return a.c.bytes h

/-- The samples of a window, from an iterator; the loop stops behind the window. -/
def readFrom (start stop : ℤ) : ℕ → Iterator → List Sample × Iterator
  | 0, it => ([], it)
  | fuel + 1, it =>
    match it.next with
    | (false, it') => ([], it')
    | (true, it') =>
      if it'.t.toInt < start then readFrom start stop fuel it'
      else if stop < it'.t.toInt then ([], it')
      else (⟨it'.t.toInt, it'.v⟩ :: (readFrom start stop fuel it').1,
        (readFrom start stop fuel it').2)

def readChunk (data : List Byte) (start stop : ℤ) : Except ChunkErr (List Sample) :=
  let p := emptyHeap.alloc data data.length
  match fromBytes p.2 with
  | .error e => .error e
  | .ok c =>
    let it := c.iterator p.1
    let r := readFrom start stop (it.total + 1) it
    match r.2.err with
    | some e => .error e
    | none => .ok r.1

def unpoint (p : Point) : Sample := ⟨p.t.toInt, p.v⟩

theorem unpoint_point {s : Sample} (h : InRange s) : unpoint (point s) = s := by
  unfold unpoint
  rw [toInt_point h]
  rfl

theorem readFrom_spec {e : Coder} {total : ℕ} {pre : List Bool} {it : Iterator} (start stop : ℤ)
    (ps : List Point) (fuel : ℕ) (hfuel : ps.length < fuel) (htotal : e.n + ps.length = total)
    (hwin : WindowOk e.leading e.trailing) (hf : Follows e total pre (e.runBits ps) it) :
    (readFrom start stop fuel it).1 = BlockModel.readWindow start stop (ps.map unpoint) ∧
      (readFrom start stop fuel it).2.err = none := by
  induction ps generalizing e pre it fuel with
  | nil =>
    obtain ⟨fuel, rfl⟩ : ∃ f, fuel = f + 1 := ⟨fuel - 1, by omega⟩
    rw [readFrom, hf.next_done htotal]
    exact ⟨rfl, hf.err⟩
  | cons p rest ih =>
    obtain ⟨fuel, rfl⟩ : ∃ f, fuel = f + 1 := ⟨fuel - 1, by omega⟩
    rw [List.length_cons] at hfuel htotal
    obtain ⟨it₁, hnext, hf₁⟩ := next_spec p (by omega) hwin hf
    have hn₁ : (e.step p).n + rest.length = total := by
      change e.n + 1 + rest.length = total
      omega
    obtain ⟨hrest, herr⟩ := ih fuel (by omega) hn₁ (e.windowOk_step p hwin) hf₁
    have ht : it₁.t.toInt = p.t.toInt := congrArg BitVec.toInt hf₁.t
    have hv : it₁.v = p.v := hf₁.v
    have hp : (unpoint p).t = p.t.toInt := rfl
    rw [readFrom, hnext, List.map_cons, BlockModel.readWindow, hp]
    dsimp only
    rw [ht, hv]
    split_ifs
    · exact ⟨hrest, herr⟩
    · exact ⟨rfl, hf₁.err⟩
    · rw [hrest]
      exact ⟨rfl, herr⟩

theorem length_uvarintBits_le (k : ℕ) (u : BitVec 64) (hu : u.toNat < 128 ^ (k + 1)) :
    (uvarintBits u).length ≤ 8 * (k + 1) := by
  induction k generalizing u with
  | zero =>
    rw [uvarintBits, if_neg (by omega), length_lowBits]
  | succ k ih =>
    rw [uvarintBits]
    split
    · have hdiv : (u >>> 7).toNat < 128 ^ (k + 1) := by
        rw [BitVec.toNat_ushiftRight, Nat.shiftRight_eq_div_pow]
        exact (Nat.div_lt_iff_lt_mul (by omega)).mpr (by rw [← pow_succ]; exact hu)
      have := ih (u >>> 7) hdiv
      rw [List.length_append, length_lowBits]
      omega
    · rw [length_lowBits]
      omega

theorem length_uvarintBits (u : BitVec 64) : (uvarintBits u).length ≤ 80 :=
  length_uvarintBits_le 9 u (lt_of_lt_of_le u.isLt (by decide))

theorem length_dodBits (dod : BitVec 64) : (dodBits dod).length ≤ 80 := by
  unfold dodBits dodBuckets
  simp only [dodBitsIn]
  split_ifs <;> simp

theorem length_valueBits (prev : BitVec 64) (leading trailing : ℕ) (v : BitVec 64) :
    (valueBits prev leading trailing v).length ≤ 80 := by
  unfold valueBits
  dsimp only
  split_ifs
  · simp
  · simp
    omega
  · simp
    omega

theorem length_sampleBits (e : Coder) (p : Point) : (e.sampleBits p).length ≤ 160 := by
  have hfirst := length_uvarintBits (zigzag p.t)
  have hsecond := length_uvarintBits (zigzag (p.t - e.t))
  have hdod := length_dodBits (p.t - e.t - e.delta)
  have hvalue := length_valueBits e.v e.leading e.trailing p.v
  unfold Coder.sampleBits
  split_ifs
  · rw [List.length_append, length_lowBits]
    omega
  · rw [List.length_append]
    omega
  · rw [List.length_append]
    omega

theorem length_runBits (e : Coder) (ps : List Point) : (e.runBits ps).length ≤ 160 * ps.length := by
  induction ps generalizing e with
  | nil => simp [Coder.runBits]
  | cons p rest ih =>
    have hone := length_sampleBits e p
    have hrest := ih (e.step p)
    rw [Coder.runBits, List.length_append, List.length_cons]
    omega

/-- What the writer makes of a chunk's samples: a small record, whose data is read back. -/
theorem encodeChunk_spec {samples : List Sample} (hlen : samples.length ≤ maxSamplesPerChunk)
    (hasc : Peaks.Ascending Sample.t samples) (hrange : ∀ s ∈ samples, InRange s) :
    ∃ data, encodeChunk samples = .ok data ∧
      (∀ encoding, (chunkRecord encoding data).length ≤ maxChunkLen) ∧
      ∀ start stop, readChunk data start stop =
        .ok (samples.filter (fun s => inWindow start stop s.t)) := by
  have hfits : Fits (samples.map point) := by
    refine ⟨by rw [List.length_map]; exact hlen, List.pairwise_map.mpr ?_⟩
    refine List.Pairwise.imp_of_mem ?_ hasc
    intro s s' hs hs' hlt
    rw [toInt_point (hrange s hs), toInt_point (hrange s' hs')]
    exact hlt
  obtain ⟨h, a, hwrite, hw⟩ := writeFresh_spec emptyHeap hfits
  have hbytes := hw.encodes.bytes
  set data := h.read a.c.b.stream
  have hback : (samples.map point).map unpoint = samples := by
    rw [List.map_map]
    exact (List.map_congr_left (fun s hs => unpoint_point (hrange s hs))).trans (List.map_id _)
  refine ⟨data, ?_, fun encoding => ?_, fun start stop => ?_⟩
  · unfold encodeChunk
    rw [hwrite]
    rfl
  · have hbits := length_runBits Coder.start (samples.map point)
    have huvarint := length_appendUvarint_le 3 (data.length + 1)
    rw [List.length_map] at hbits
    rw [length_chunkRecord]
    have hdata : data.length ≤ 2402 := by
      rw [hbytes, List.length_append, length_pack]
      simp only [putUint16, List.length_cons, List.length_nil]
      unfold maxSamplesPerChunk at hlen
      omega
    unfold maxChunkLen
    omega
  · have hvalid := GoSlices.valid_alloc emptyHeap data data.length
    have henc : Encodes (samples.map point) (emptyHeap.alloc data data.length).1
        (emptyHeap.alloc data data.length).2 := ⟨hvalid, by rw [GoSlices.read_alloc, hbytes]⟩
    unfold readChunk
    dsimp only
    generalize emptyHeap.alloc data data.length = p at henc
    have hf := Encodes.follows (c := ⟨⟨p.2, 0⟩, true⟩) henc hfits.1
    obtain ⟨hread, herr⟩ := readFrom_spec start stop (samples.map point)
      ((samples.map point).length + 1) (Nat.lt_succ_self _) (Nat.zero_add _) (Or.inl rfl) hf
    rw [hback, readWindow_eq hasc] at hread
    rw [henc.fromBytes_eq]
    dsimp only
    rw [hf.total, herr]
    exact congrArg Except.ok hread

/-- The samples of a head's chunk stand for its bytes: they are encoded, and decode to themselves.
-/
theorem decodes_memChunk {r : ℤ} (ms : HeadSeries.MemSeries r) {c : HeadSeries.MemChunk r}
    (hc : c ∈ ms.chunks) (hrange : ∀ s ∈ c.samples, InRange s) :
    ∃ data, encodeChunk c.samples = .ok data ∧ ∀ start stop,
      readChunk data start stop = .ok (c.samples.filter (fun s => inWindow start stop s.t)) := by
  obtain ⟨data, hencode, -, hread⟩ :=
    encodeChunk_spec c.capped (ms.ascending.of_mem_flatMap hc) hrange
  exact ⟨data, hencode, hread⟩

end Ozymandias.ChunkFile
