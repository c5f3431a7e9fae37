import Ozymandias.GoSlices

/-!
The chunk encoder's bit writer and bit reader. The writer keeps the number of
free bits of its last byte and writes whole bytes when it is aligned; the
reader keeps the number of unread bits of the byte it stands on. A writer
state denotes a bit list behind a fixed byte prefix, a reader state the bits
it has still to see, and every operation is specified on those lists.
-/

namespace Ozymandias.BitStream

open BitLists GoSlices

inductive ChunkErr where
  | endOfStream
  | varintOverflow
  | windowReused
  | impossibleWindow (bits : ℤ)
  | full
  | notAfter (t prev : ℤ)
  | shortHeader (len : ℕ)
  | cannotResume (cause : ChunkErr)
  deriving DecidableEq

/-- An append-only bit writer; `count` is how many bits of the last byte are
free, and 0 means the next bit needs a new byte. -/
structure BStream where
  stream : Slice
  count : ℕ
  deriving DecidableEq

abbrev Buf := Heap × BStream

def appendByte (x : Byte) (count : ℕ) (s : Buf) : Buf :=
  ((s.1.push s.2.stream x).1, ⟨(s.1.push s.2.stream x).2, count⟩)

def writeBit (bit : Bool) (s : Buf) : Buf :=
  let s₁ := if s.2.count = 0 then appendByte 0 8 s else s
  let last := s₁.2.stream.len - 1
  let h :=
    if bit then
      s₁.1.store s₁.2.stream last
        ((s₁.1.read s₁.2.stream).getD last 0 ||| (1#8 <<< (s₁.2.count - 1)))
    else s₁.1
  (h, { s₁.2 with count := s₁.2.count - 1 })

def writeAligned : ℕ → BitVec 64 → Buf → Buf × BitVec 64 × ℕ
  | n + 8, u, s =>
    if s.2.count = 0 then writeAligned n (u <<< 8) (appendByte ((u >>> 56).setWidth 8) 0 s)
    else (s, u, n + 8)
  | n, u, s => (s, u, n)

def writeEach : ℕ → BitVec 64 → Buf → Buf
  | 0, _, s => s
  | n + 1, u, s => writeEach n (u <<< 1) (writeBit (u &&& (1#64 <<< 63) != 0#64) s)

def writeBits (u : BitVec 64) (nbits : ℕ) (s : Buf) : Buf :=
  if nbits = 0 then s
  else
    let u₁ := if nbits < 64 then u <<< (64 - nbits) else u
    let r := writeAligned nbits u₁ s
    writeEach r.2.2 r.2.1 r.1

def writeByte (v : Byte) (s : Buf) : Buf := writeBits (v.setWidth 64) 8 s

def writeUvarint (u : BitVec 64) (s : Buf) : Buf :=
  if 0x80 ≤ u.toNat then writeUvarint (u >>> 7) (writeByte (u.setWidth 8 ||| 0x80#8) s)
  else writeByte (u.setWidth 8) s
termination_by u.toNat
decreasing_by
  simp only [BitVec.toNat_ushiftRight, Nat.shiftRight_eq_div_pow]
  omega

def zigzag (v : BitVec 64) : BitVec 64 := if v.slt 0#64 then ~~~(v <<< 1) else v <<< 1

def writeVarint (v : BitVec 64) (s : Buf) : Buf := writeUvarint (zigzag v) s

/-- A cursor over a byte string; `count` is how many bits of the byte at `pos`
are unread, and 8 means the byte is untouched. -/
structure BReader where
  stream : List Byte
  pos : ℕ
  count : ℕ
  deriving DecidableEq

def newBReader (bytes : List Byte) : BReader := ⟨bytes, 0, 8⟩

def readBit (r : BReader) : Except ChunkErr (Bool × BReader) :=
  if r.stream.length ≤ r.pos then .error .endOfStream
  else
    let r₁ := if r.count = 0 then { r with pos := r.pos + 1, count := 8 } else r
    if r₁.stream.length ≤ r₁.pos then .error .endOfStream
    else
      let r₂ := { r₁ with count := r₁.count - 1 }
      .ok ((r₂.stream.getD r₂.pos 0 &&& (1#8 <<< r₂.count)) != 0#8, r₂)

def readAligned : ℕ → BitVec 64 → BReader → Except ChunkErr (BitVec 64 × ℕ × BReader)
  | n + 8, u, r =>
    if r.count = 8 then
      if r.stream.length ≤ r.pos then .error .endOfStream
      else
        readAligned n ((u <<< 8) ||| (r.stream.getD r.pos 0).setWidth 64)
          { r with pos := r.pos + 1 }
    else .ok (u, n + 8, r)
  | n, u, r => .ok (u, n, r)

def readEach : ℕ → BitVec 64 → BReader → Except ChunkErr (BitVec 64 × BReader)
  | 0, u, r => .ok (u, r)
  | n + 1, u, r => do
    let (bit, r) ← readBit r
    readEach n (pushBit u bit) r

def readBits (nbits : ℕ) (r : BReader) : Except ChunkErr (BitVec 64 × BReader) := do
  let (u, n, r) ← readAligned nbits 0 r
  readEach n u r

def readByte (r : BReader) : Except ChunkErr (Byte × BReader) := do
  let (u, r) ← readBits 8 r
  return (u.setWidth 8, r)

def readUvarint (shift : ℕ) (u : BitVec 64) (r : BReader) : Except ChunkErr (BitVec 64 × BReader) :=
  if 64 ≤ shift then .error .varintOverflow
  else do
    let (v, r) ← readByte r
    let u := u ||| ((v &&& 0x7f#8).setWidth 64 <<< shift)
    if v.toNat < 0x80 then return (u, r) else readUvarint (shift + 7) u r
termination_by 64 - shift

def unzigzag (u : BitVec 64) : BitVec 64 :=
  if u &&& 1#64 != 0#64 then ~~~(u >>> 1) else u >>> 1

def readVarint (r : BReader) : Except ChunkErr (BitVec 64 × BReader) := do
  let (u, r) ← readUvarint 0 0 r
  return (unzigzag u, r)

def freeBits (n : ℕ) : ℕ := (8 - n % 8) % 8

/-- A writer state denotes the bits written behind the byte prefix `hdr`. -/
structure Holds (hdr : List Byte) (bits : List Bool) (s : Buf) : Prop where
  valid : s.1.Valid s.2.stream
  bytes : s.1.read s.2.stream = hdr ++ pack bits
  count : s.2.count = freeBits bits.length

/-- `f` appends exactly `out`, whatever was written before, and touches no
array but its own. -/
def Emits (f : Buf → Buf) (out : List Bool) : Prop :=
  ∀ hdr bits s, Holds hdr bits s →
    Holds hdr (bits ++ out) (f s) ∧ Keeps s.1 s.2.stream (f s).1 (f s).2.stream

theorem emits_id : Emits (fun s => s) [] := by
  intro hdr bits s hs
  exact ⟨by simpa using hs, Keeps.refl _ _ hs.valid⟩

theorem emits_comp {f g : Buf → Buf} {out out' : List Bool}
    (hf : Emits f out) (hg : Emits g out') : Emits (fun s => g (f s)) (out ++ out') := by
  intro hdr bits s hs
  obtain ⟨hs₁, hk₁⟩ := hf hdr bits s hs
  obtain ⟨hs₂, hk₂⟩ := hg hdr (bits ++ out) (f s) hs₁
  exact ⟨by simpa [List.append_assoc] using hs₂, hk₁.trans hk₂⟩

variable (u : BitVec 64) (n : ℕ)

theorem freeBits_eq_zero : freeBits n = 0 ↔ n % 8 = 0 := by
  unfold freeBits
  omega

/-- A write into a fresh byte. -/
theorem pack_snoc_aligned (bits : List Bool) (bit : Bool) (h : bits.length % 8 = 0) :
    pack (bits ++ [bit]) = pack bits ++ [if bit then 1#8 <<< 7 else 0] := by
  rw [pack_append (bits.length / 8) bits [bit] (by omega), pack_short [bit] (by simp) (by simp)]
  cases bit <;> rfl

/-- A write into the last, partly filled byte. -/
theorem pack_snoc_partial (bits : List Bool) (bit : Bool) (h : bits.length % 8 ≠ 0) :
    ∃ front last, pack bits = front ++ [last] ∧ pack (bits ++ [bit]) =
        front ++ [if bit then last ||| (1#8 <<< (freeBits bits.length - 1)) else last] := by
  obtain ⟨pre, tail, heq, hpre, htail⟩ := exists_split bits
  have hne : tail ≠ [] := by
    intro hnil
    rw [hnil, List.length_nil] at htail
    omega
  have hfree : freeBits bits.length - 1 = 7 - tail.length := by
    unfold freeBits
    omega
  refine ⟨pack pre, packByte tail, ?_, ?_⟩
  · conv_lhs => rw [heq]
    rw [pack_append _ pre tail hpre, pack_short tail hne (by omega)]
  · rw [hfree, ← packByte_snoc tail bit (by omega)]
    conv_lhs => rw [heq, List.append_assoc]
    have hshort : pack (tail ++ [bit]) = [packByte (tail ++ [bit])] :=
      pack_short _ (by simp) (by simp; omega)
    rw [pack_append _ pre _ hpre, hshort]

/-- A bit goes into the last byte, where there is room. -/
theorem writeBit_last {hdr front : List Byte} {bits : List Bool} {bit : Bool}
    {s : Buf} {last : Byte} (h0 : s.2.count ≠ 0) (hvalid : s.1.Valid s.2.stream)
    (hread : s.1.read s.2.stream = front ++ [last])
    (hpack : hdr ++ pack (bits ++ [bit]) =
      front ++ [if bit then last ||| (1#8 <<< (s.2.count - 1)) else last])
    (hcount : s.2.count - 1 = freeBits (bits ++ [bit]).length) :
    Holds hdr (bits ++ [bit]) (writeBit bit s) ∧
      Keeps s.1 s.2.stream (writeBit bit s).1 (writeBit bit s).2.stream := by
  have hidx : s.2.stream.len - 1 = front.length := by
    rw [← length_read _ _ hvalid, hread]
    simp
  cases bit
  · refine ⟨⟨?_, ?_, ?_⟩, ?_⟩
    · simpa [writeBit, h0] using hvalid
    · simp only [writeBit, if_neg h0]
      simpa [hpack] using hread
    · simpa [writeBit, h0] using hcount
    · simpa [writeBit, h0] using Keeps.refl _ _ hvalid
  · have hstore := keeps_store _ _ hvalid (s.2.stream.len - 1)
      ((s.1.read s.2.stream).getD (s.2.stream.len - 1) 0 ||| (1#8 <<< (s.2.count - 1)))
    refine ⟨⟨?_, ?_, ?_⟩, ?_⟩
    · simpa [writeBit, h0] using hstore.valid
    · simp only [writeBit, if_neg h0, if_pos]
      rw [read_store, hread, hidx, hpack]
      simp
    · simpa [writeBit, h0] using hcount
    · simpa [writeBit, h0] using hstore

theorem emits_writeBit (bit : Bool) : Emits (writeBit bit) [bit] := by
  intro hdr bits s hs
  by_cases h0 : s.2.count = 0
  · have hmod : bits.length % 8 = 0 := (freeBits_eq_zero _).mp (hs.count ▸ h0)
    have hk := keeps_push s.1 s.2.stream hs.valid 0
    have hfresh : writeBit bit s = writeBit bit (appendByte 0 8 s) := by
      simp [writeBit, appendByte, h0]
    have hread : (appendByte 0 8 s).1.read (appendByte 0 8 s).2.stream =
      (hdr ++ pack bits) ++ [0] := by
      rw [← hs.bytes]
      exact read_push s.1 s.2.stream hs.valid 0
    have hpack : hdr ++ pack (bits ++ [bit]) =
        (hdr ++ pack bits) ++ [if bit then 0 ||| (1#8 <<< (8 - 1)) else 0] := by
      rw [pack_snoc_aligned bits bit hmod, List.append_assoc]
      rfl
    have hcount : 8 - 1 = freeBits (bits ++ [bit]).length := by
      simp only [freeBits, List.length_append, List.length_singleton]
      omega
    obtain ⟨hholds, hkeeps⟩ := writeBit_last (by simp [appendByte]) hk.valid hread hpack hcount
    rw [hfresh]
    exact ⟨hholds, hk.trans hkeeps⟩
  · have hmod : bits.length % 8 ≠ 0 := fun h => h0 (hs.count.trans ((freeBits_eq_zero _).mpr h))
    obtain ⟨front, last, hold, hnew⟩ := pack_snoc_partial bits bit hmod
    have hread : s.1.read s.2.stream = (hdr ++ front) ++ [last] := by
      rw [hs.bytes, hold, List.append_assoc]
    refine writeBit_last h0 hs.valid hread ?_ ?_
    · rw [hnew, hs.count, List.append_assoc]
    · rw [hs.count]
      simp only [freeBits, List.length_append, List.length_singleton]
      omega

theorem topBit_test : (u &&& (1#64 <<< 63) != 0#64) = u.getMsbD 0 := by
  rw [and_bit_ne_zero u 63 (by omega), BitVec.getMsbD_eq_getLsbD]
  simp

theorem emits_writeEach (u : BitVec 64) : Emits (writeEach n u) (topBits n u) := by
  induction n generalizing u with
  | zero => exact emits_id
  | succ n ih =>
    rw [topBits_succ, ← topBit_test]
    exact emits_comp (emits_writeBit _) (ih (u <<< 1))

/-- One aligned byte. -/
theorem holds_push (hdr : List Byte) (bits : List Bool) (s : Buf) (hs : Holds hdr bits s)
    (h0 : s.2.count = 0) (u : BitVec 64) :
    Holds hdr (bits ++ topBits 8 u) (appendByte ((u >>> 56).setWidth 8) 0 s) where
  valid := (keeps_push _ _ hs.valid _).valid
  bytes := by
    have hmod : bits.length % 8 = 0 := (freeBits_eq_zero _).mp (hs.count ▸ h0)
    rw [appendByte, read_push _ _ hs.valid, hs.bytes,
      pack_append (bits.length / 8) bits _ (by omega),
      pack_short (topBits 8 u) (by simp [topBits]) (by simp), packByte_topBits u (by omega),
      List.append_assoc]
  count := by
    have hmod : bits.length % 8 = 0 := (freeBits_eq_zero _).mp (hs.count ▸ h0)
    simp only [appendByte, freeBits, List.length_append, length_topBits]
    omega

/-- The fast path writes some of the top bits and hands over the others. -/
theorem writeAligned_spec (u : BitVec 64) (hdr : List Byte) (bits : List Bool) (s : Buf)
    (hs : Holds hdr bits s) :
    ∃ m, m + (writeAligned n u s).2.2 = n ∧ (writeAligned n u s).2.1 = u <<< m ∧
      Holds hdr (bits ++ topBits m u) (writeAligned n u s).1 ∧
      Keeps s.1 s.2.stream (writeAligned n u s).1.1 (writeAligned n u s).1.2.stream := by
  induction n using Nat.strong_induction_on generalizing u bits s with
  | h n ih =>
    by_cases hgo : 8 ≤ n ∧ s.2.count = 0
    · obtain ⟨n', rfl⟩ : ∃ n', n = n' + 8 := ⟨n - 8, by omega⟩
      have hstep := holds_push hdr bits s hs hgo.2 u
      obtain ⟨m, hm, hu, hholds, hkeep⟩ := ih n' (by omega) (u <<< 8) _ _ hstep
      rw [writeAligned, if_pos hgo.2]
      refine ⟨8 + m, ?_, ?_, ?_, (keeps_push _ _ hs.valid _).trans hkeep⟩
      · omega
      · rw [BitVec.shiftLeft_add]
        exact hu
      · rw [topBits_add, ← List.append_assoc]
        exact hholds
    · have hstop : writeAligned n u s = (s, u, n) := by
        unfold writeAligned
        split
        next n' heq =>
          rw [if_neg (fun h0 => hgo ⟨by omega, h0⟩)]
        · rfl
      rw [hstop]
      exact ⟨0, Nat.zero_add n, by simp, by simpa [topBits] using hs, Keeps.refl _ _ hs.valid⟩

/-- Writing bits appends exactly the low bits of the value. -/
theorem emits_writeBits (hn : n ≤ 64) : Emits (writeBits u n) (lowBits n u) := by
  intro hdr bits s hs
  by_cases h0 : n = 0
  · subst h0
    simpa [writeBits, lowBits] using emits_id hdr bits s hs
  · have hu : (if n < 64 then u <<< (64 - n) else u) = u <<< (64 - n) := by
      split
      · rfl
      · rw [show 64 - n = 0 by omega, BitVec.shiftLeft_zero]
    obtain ⟨m, hm, hrest, hholds, hkeep⟩ :=
      writeAligned_spec n (u <<< (64 - n)) hdr bits s hs
    set w := writeAligned n (u <<< (64 - n)) s
    obtain ⟨hholds', hkeep'⟩ := emits_writeEach w.2.2 w.2.1 hdr _ _ hholds
    have hout : topBits m (u <<< (64 - n)) ++ topBits w.2.2 w.2.1 = lowBits n u := by
      rw [hrest, ← topBits_add, hm, topBits_shiftLeft n u hn]
    rw [List.append_assoc, hout] at hholds'
    simp only [writeBits, if_neg h0, hu]
    exact ⟨hholds', hkeep.trans hkeep'⟩

theorem emits_writeByte (v : Byte) : Emits (writeByte v) (lowBits 8 v) :=
  emits_writeBits (v.setWidth 64) 8 (by omega)

def uvarintBits (u : BitVec 64) : List Bool :=
  if 0x80 ≤ u.toNat then lowBits 8 (u.setWidth 8 ||| 0x80#8) ++ uvarintBits (u >>> 7)
  else lowBits 8 (u.setWidth 8)
termination_by u.toNat
decreasing_by
  simp only [BitVec.toNat_ushiftRight, Nat.shiftRight_eq_div_pow]
  omega

theorem emits_writeUvarint : Emits (writeUvarint u) (uvarintBits u) := by
  induction u using uvarintBits.induct with
  | case1 u hge ih =>
    rw [uvarintBits, if_pos hge]
    intro hdr bits s hs
    rw [writeUvarint, if_pos hge]
    exact emits_comp (emits_writeByte _) ih hdr bits s hs
  | case2 u hlt =>
    rw [uvarintBits, if_neg hlt]
    intro hdr bits s hs
    rw [writeUvarint, if_neg hlt]
    exact emits_writeByte _ hdr bits s hs

end Ozymandias.BitStream
