import Ozymandias.BitReading

/-!
The Gorilla chunk: a big-endian sample count, then a bit stream of delta-of-delta
timestamps and XOR-coded values. The appender carries the encoder state, the
iterator the decoder state, and a chunk wrapped around foreign bytes is resumed
by replaying it and copying the bytes before the first write.
-/

namespace Ozymandias.GorillaChunk

open BitLists GoSlices BitStream

def maxSamplesPerChunk : ℕ := 120

def headerLen : ℕ := 2

def noWindow : ℕ := 0xff

structure Point where
  t : BitVec 64
  v : BitVec 64
  deriving DecidableEq

structure Chunk where
  b : BStream
  borrowed : Bool
  deriving DecidableEq

def putUint16 (n : ℕ) : List Byte := [BitVec.ofNat 8 (n / 256), BitVec.ofNat 8 n]

def uint16 (bytes : List Byte) : ℕ := (bytes.getD 0 0).toNat * 256 + (bytes.getD 1 0).toNat

def newChunk (h : Heap) : Heap × Chunk :=
  let p := h.alloc [0, 0] 64
  (p.1, ⟨⟨p.2, 0⟩, false⟩)

def fromBytes (s : Slice) : Except ChunkErr Chunk :=
  if s.len < headerLen then .error (.shortHeader s.len) else .ok ⟨⟨s, 0⟩, true⟩

def Chunk.bytes (h : Heap) (c : Chunk) : List Byte := h.read c.b.stream

def Chunk.numSamples (h : Heap) (c : Chunk) : ℕ :=
  if c.b.stream.len < headerLen then 0 else uint16 (c.bytes h)

structure Appender where
  c : Chunk
  t : BitVec 64
  v : BitVec 64
  delta : BitVec 64
  leading : ℕ
  trailing : ℕ
  deriving DecidableEq

/-- A size class of the delta of deltas: code word, its length, payload bits. -/
structure DodBucket where
  code : BitVec 64
  codeBits : ℕ
  bits : ℕ
  deriving DecidableEq

def dodBuckets : List DodBucket :=
  [⟨0b0, 1, 0⟩, ⟨0b10, 2, 14⟩, ⟨0b110, 3, 17⟩, ⟨0b1110, 4, 20⟩, ⟨0b1111, 4, 64⟩]

def outOfRange (nbits : ℕ) (dod : BitVec 64) : Bool :=
  decide (nbits < 64) &&
    (decide (dod.toInt < -(2 ^ (nbits - 1))) || decide (dod.toInt > 2 ^ (nbits - 1) - 1))

def writeDODIn : List DodBucket → BitVec 64 → Buf → Buf
  | [], _, s => s
  | k :: rest, dod, s =>
    if k.bits = 0 then
      if dod = 0#64 then writeBits k.code k.codeBits s else writeDODIn rest dod s
    else if outOfRange k.bits dod then writeDODIn rest dod s
    else writeBits dod k.bits (writeBits k.code k.codeBits s)

def writeDOD (dod : BitVec 64) (s : Buf) : Buf := writeDODIn dodBuckets dod s

def clampLeading (leading : ℕ) : ℕ := if 32 ≤ leading then 31 else leading

def reusesWindow (leading trailing : ℕ) (x : BitVec 64) : Bool :=
  leading != noWindow && decide (leading ≤ clampLeading x.clz.toNat) &&
    decide (trailing ≤ x.ctz.toNat)

def writeValue (prev : BitVec 64) (leading trailing : ℕ) (v : BitVec 64) (s : Buf) :
    Buf × ℕ × ℕ :=
  let x := v ^^^ prev
  if x = 0#64 then (writeBit false s, leading, trailing)
  else
    let s := writeBit true s
    if reusesWindow leading trailing x then
      (writeBits (x >>> trailing) (64 - leading - trailing) (writeBit false s), leading, trailing)
    else
      let leading' := clampLeading x.clz.toNat
      let trailing' := x.ctz.toNat
      let sigbits := 64 - leading' - trailing'
      let s := writeBit true s
      let s := writeBits (BitVec.ofNat 64 leading') 5 s
      let s := writeBits (BitVec.ofNat 64 sigbits &&& 0x3f#64) 6 s
      (writeBits (x >>> trailing') sigbits s, leading', trailing')

def storeCount (n : ℕ) (h : Heap) (s : Slice) : Heap :=
  (h.store s 0 (BitVec.ofNat 8 (n / 256))).store s 1 (BitVec.ofNat 8 n)

/-- The switch of `Append` on the number of samples before this one: the bits
of the sample, and the window it leaves. -/
def Appender.writeSample (a : Appender) (n : ℕ) (p : Point) (s : Buf) : Buf × ℕ × ℕ :=
  if n = 0 then (writeBits p.v 64 (writeVarint p.t s), a.leading, a.trailing)
  else if n = 1 then
    writeValue a.v a.leading a.trailing p.v (writeVarint (p.t - a.t) s)
  else writeValue a.v a.leading a.trailing p.v (writeDOD (p.t - a.t - a.delta) s)

def Appender.append (h : Heap) (a : Appender) (p : Point) : Except ChunkErr (Heap × Appender) :=
  let n := a.c.numSamples h
  if maxSamplesPerChunk ≤ n then .error .full
  else if n ≠ 0 ∧ p.t.toInt ≤ a.t.toInt then .error (.notAfter p.t.toInt a.t.toInt)
  else
    let delta := if n = 0 then a.delta else p.t - a.t
    let w := a.writeSample n p (h, a.c.b)
    .ok (storeCount (n + 1) w.1.1 w.1.2.stream,
      ⟨{ a.c with b := w.1.2 }, p.t, p.v, delta, w.2.1, w.2.2⟩)

def Appender.appendAll (h : Heap) (a : Appender) : List Point → Except ChunkErr (Heap × Appender)
  | [] => .ok (h, a)
  | p :: rest => do
    let (h, a) ← a.append h p
    appendAll h a rest

structure Iterator where
  br : BReader
  total : ℕ
  read : ℕ
  t : BitVec 64
  v : BitVec 64
  delta : BitVec 64
  leading : ℕ
  trailing : ℕ
  err : Option ChunkErr
  deriving DecidableEq

def Chunk.iterator (h : Heap) (c : Chunk) : Iterator :=
  if c.b.stream.len < headerLen then ⟨newBReader [], 0, 0, 0, 0, 0, 0, 0, some .endOfStream⟩
  else
    ⟨newBReader ((c.bytes h).drop headerLen), c.numSamples h, 0, 0, 0, 0, noWindow, 0, none⟩

def readOnes (ones : ℕ) (r : BReader) : Except ChunkErr (ℕ × BReader) :=
  if ones < 4 then do
    let (bit, r) ← readBit r
    if bit then readOnes (ones + 1) r else return (ones, r)
  else return (ones, r)
termination_by 4 - ones

def signExtendTo64 (nbits : ℕ) (u : BitVec 64) : BitVec 64 :=
  if nbits < 64 ∧ (u &&& (1#64 <<< (nbits - 1)) != 0#64) = true then
    u ||| (BitVec.allOnes 64 <<< nbits)
  else u

def readDOD (r : BReader) : Except ChunkErr (BitVec 64 × BReader) := do
  let (ones, r) ← readOnes 0 r
  if ones = 0 then return (0#64, r)
  else
    let nbits := if ones = 1 then 14 else if ones = 2 then 17 else if ones = 3 then 20 else 64
    let (u, r) ← readBits nbits r
    return (signExtendTo64 nbits u, r)

def readWindow (r : BReader) : Except ChunkErr ((ℕ × ℕ) × BReader) := do
  let (leading, r) ← readBits 5 r
  let (sigbits, r) ← readBits 6 r
  let sigbits := if sigbits.toNat = 0 then 64 else sigbits.toNat
  return ((leading.toNat, (64 + 256 - leading.toNat - sigbits) % 256), r)

def readSignificant (prev : BitVec 64) (leading trailing : ℕ) (r : BReader) :
    Except ChunkErr ((BitVec 64 × ℕ × ℕ) × BReader) :=
  if leading = noWindow then .error .windowReused
  else
    let sigbits : ℤ := 64 - leading - trailing
    if sigbits ≤ 0 ∨ sigbits > 64 then .error (.impossibleWindow sigbits)
    else do
      let (u, r) ← readBits sigbits.toNat r
      return ((prev ^^^ (u <<< trailing), leading, trailing), r)

def readValue (prev : BitVec 64) (leading trailing : ℕ) (r : BReader) :
    Except ChunkErr ((BitVec 64 × ℕ × ℕ) × BReader) := do
  let (changed, r) ← readBit r
  if changed then
    let (newWindow, r) ← readBit r
    let (w, r) ← if newWindow then readWindow r else pure ((leading, trailing), r)
    readSignificant prev w.1 w.2 r
  else return ((prev, leading, trailing), r)

/-- The body of `Next` for an iterator that has samples left. A failed read
leaves the iterator with its error; the fields it had already set are never
looked at again. -/
def Iterator.decode (it : Iterator) : Except ChunkErr Iterator := do
  if it.read = 0 then
    let (t, r) ← readVarint it.br
    let (v, r) ← readBits 64 r
    return { it with br := r, t := t, v := v, read := it.read + 1 }
  else
    let (delta, r) ←
      if it.read = 1 then readVarint it.br
      else do
        let (dod, r) ← readDOD it.br
        pure (it.delta + dod, r)
    let ((v, leading, trailing), r) ← readValue it.v it.leading it.trailing r
    return { it with br := r, t := it.t + delta, v := v, delta := delta, leading := leading,
                     trailing := trailing, read := it.read + 1 }

def Iterator.next (it : Iterator) : Bool × Iterator :=
  if it.err ≠ none ∨ it.total ≤ it.read then (false, it)
  else
    match it.decode with
    | .ok it' => (true, it')
    | .error e => (false, { it with err := some e })

def Iterator.drainFrom : ℕ → Iterator → List Point × Iterator
  | 0, it => ([], it)
  | fuel + 1, it =>
    match it.next with
    | (true, it') => (⟨it'.t, it'.v⟩ :: (drainFrom fuel it').1, (drainFrom fuel it').2)
    | (false, it') => ([], it')

/-- The loop ends by itself: every round reads one of `total` samples, and one
more call reports the end. -/
def Iterator.drain (it : Iterator) : List Point × Iterator := it.drainFrom (it.total + 1)

def Chunk.own (n : ℕ) (h : Heap) (c : Chunk) : Heap × Chunk :=
  if c.borrowed then
    let p := h.alloc (c.bytes h) (max n c.b.stream.len + 64)
    (p.1, ⟨{ c.b with stream := p.2 }, false⟩)
  else (h, c)

/-- An appender positioned at the end of the chunk. A chunk with samples is
replayed to recover the encoder state and the bit cursor. -/
def Chunk.appender (h : Heap) (c : Chunk) : Except ChunkErr (Heap × Appender) :=
  if c.numSamples h = 0 then
    let p := c.own headerLen h
    .ok (p.1, ⟨p.2, 0, 0, 0, noWindow, 0⟩)
  else
    let it := (c.iterator h).drain.2
    match it.err with
    | some e => .error (.cannotResume e)
    | none =>
      let last := if it.br.count = 8 then headerLen + it.br.pos else headerLen + it.br.pos + 1
      let count := if it.br.count = 8 then 0 else it.br.count
      let p := c.own last h
      .ok (p.1, ⟨{ p.2 with b := ⟨{ p.2.b.stream with len := last }, count⟩ },
        it.t, it.v, it.delta, it.leading, it.trailing⟩)

end Ozymandias.GorillaChunk
