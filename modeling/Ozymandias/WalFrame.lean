import Ozymandias.BitLists

/-!
Record framing of the write-ahead log. A record is a payload length, a type, a
checksum of the payload and the payload. The reader either finds a record, the
clean end of the file, or damage; damage comes with the offset up to which it
could reach if it were the last thing written, which is what tells a torn tail
from corruption further back.
-/

namespace Ozymandias.WalFrame

open BitLists

def headerSize : ℕ := 9

def maxRecordSize : ℕ := 16 * 2 ^ 20

structure Record where
  typ : Byte
  data : List Byte
  deriving DecidableEq

def crcBit (crc : BitVec 32) : BitVec 32 :=
  if crc.getLsbD 0 then (crc >>> 1) ^^^ 0x82F63B78#32 else crc >>> 1

def crcByte (crc : BitVec 32) (b : Byte) : BitVec 32 :=
  crcBit^[8] (crc ^^^ b.setWidth 32)

def crc32c (data : List Byte) : BitVec 32 := ~~~(data.foldl crcByte (BitVec.allOnes 32))

example : crc32c [0x01, 0x02, 0x6d] = 0x3c8ede5b#32 := by decide +kernel

def putUint32 (n : ℕ) : List Byte :=
  [BitVec.ofNat 8 (n / 2 ^ 24), BitVec.ofNat 8 (n / 2 ^ 16), BitVec.ofNat 8 (n / 2 ^ 8),
    BitVec.ofNat 8 n]

def uint32 (bytes : List Byte) : ℕ :=
  (bytes.getD 0 0).toNat * 2 ^ 24 + (bytes.getD 1 0).toNat * 2 ^ 16 +
    (bytes.getD 2 0).toNat * 2 ^ 8 + (bytes.getD 3 0).toNat

def Record.header (r : Record) : List Byte :=
  putUint32 r.data.length ++ [r.typ] ++ putUint32 (crc32c r.data).toNat

def Record.frame (r : Record) : List Byte := r.header ++ r.data

def Record.frameSize (r : Record) : ℕ := headerSize + r.data.length

def frames (recs : List Record) : List Byte := recs.flatMap Record.frame

def Record.Writable (r : Record) : Prop := r.typ ≠ 0 ∧ r.data.length ≤ maxRecordSize

instance (r : Record) : Decidable r.Writable := by
  unfold Record.Writable
  infer_instance

inductive Damage where
  | shortHeader (n : ℕ)
  | implausibleHeader (typ : Byte) (length : ℕ)
  | shortPayload (n length : ℕ)
  | crcMismatch (got want : ℕ)
  deriving DecidableEq

inductive ReadResult where
  | eof
  | record (r : Record)
  | damaged (cause : Damage) (ends : ℕ)
  deriving DecidableEq

def readRecord (off : ℕ) (rest : List Byte) : ReadResult :=
  if rest.length = 0 then .eof
  else if rest.length < headerSize then .damaged (.shortHeader rest.length) (off + rest.length)
  else
    let length := uint32 rest
    let typ := rest.getD 4 0
    let want := uint32 (rest.drop 5)
    let body := rest.drop headerSize
    if typ = 0 ∨ maxRecordSize < length then
      .damaged (.implausibleHeader typ length) (off + headerSize + maxRecordSize)
    else if body.length < length then
      .damaged (.shortPayload body.length length) (off + headerSize + body.length)
    else
      let payload := body.take length
      let got := (crc32c payload).toNat
      if got ≠ want then .damaged (.crcMismatch got want) (off + headerSize + length)
      else .record ⟨typ, payload⟩

variable (r : Record) (recs : List Record)

theorem length_header : r.header.length = headerSize := rfl

theorem length_frame : r.frame.length = r.frameSize := by
  simp [Record.frame, Record.frameSize, length_header]

theorem frameSize_pos : 0 < r.frameSize := by
  unfold Record.frameSize headerSize
  omega

theorem uint32_putUint32 (n : ℕ) (rest : List Byte) (hn : n < 2 ^ 32) :
    uint32 (putUint32 n ++ rest) = n := by
  simp only [uint32, putUint32, List.cons_append, List.getD_cons_zero,
    List.getD_cons_succ, BitVec.toNat_ofNat]
  omega

theorem uint32_crc (data : List Byte) :
    uint32 (putUint32 (crc32c data).toNat) = (crc32c data).toNat := by
  have h := uint32_putUint32 (crc32c data).toNat [] (crc32c data).isLt
  rwa [List.append_nil] at h

/-- The fields of a header, read back through whatever follows it. -/
theorem header_fields (hw : r.Writable) (body : List Byte) :
    uint32 (r.header ++ body) = r.data.length ∧ (r.header ++ body).getD 4 0 = r.typ ∧
      uint32 ((r.header ++ body).drop 5) = (crc32c r.data).toNat ∧
      (r.header ++ body).drop headerSize = body := by
  have hlen : r.data.length < 2 ^ 32 := lt_of_le_of_lt hw.2 (by decide)
  refine ⟨?_, rfl, uint32_putUint32 _ body (crc32c r.data).isLt, rfl⟩
  exact uint32_putUint32 _ _ hlen

/-- Behind an intact header the reader looks at the payload only. -/
theorem readRecord_header (hw : r.Writable) (off : ℕ) (body : List Byte) :
    readRecord off (r.header ++ body) =
      if body.length < r.data.length then
        .damaged (.shortPayload body.length r.data.length) (off + headerSize + body.length)
      else if (crc32c (body.take r.data.length)).toNat ≠ (crc32c r.data).toNat then
        .damaged (.crcMismatch (crc32c (body.take r.data.length)).toNat (crc32c r.data).toNat)
          (off + headerSize + r.data.length)
      else .record ⟨r.typ, body.take r.data.length⟩ := by
  obtain ⟨hlength, htyp, hwant, hbody⟩ := header_fields r hw body
  have hlen : (r.header ++ body).length = headerSize + body.length := by
    rw [List.length_append, length_header]
  have hpos : 0 < headerSize := by decide
  have hok : ¬ (r.typ = 0 ∨ maxRecordSize < r.data.length) := by
    rintro (h | h)
    · exact hw.1 h
    · exact absurd hw.2 (by omega)
  unfold readRecord
  rw [if_neg (by omega), if_neg (by omega), hlength, htyp, hwant, hbody, if_neg hok]

theorem readRecord_frame (hw : r.Writable) (off : ℕ) (rest : List Byte) :
    readRecord off (r.frame ++ rest) = .record r := by
  unfold Record.frame
  rw [List.append_assoc, readRecord_header r hw, if_neg (by simp), List.take_left' rfl,
    if_neg (by simp)]

/-- A proper nonempty piece of a frame is damage that reaches exactly to its end. -/
theorem readRecord_torn (hw : r.Writable) (off : ℕ) (piece : List Byte) (hne : piece ≠ [])
    (hpre : piece <+: r.frame) (hlt : piece.length < r.frame.length) :
    ∃ cause, readRecord off piece = .damaged cause (off + piece.length) := by
  have hpos : piece.length ≠ 0 := fun h => hne (List.length_eq_zero_iff.mp h)
  by_cases hshort : piece.length < headerSize
  · refine ⟨.shortHeader piece.length, ?_⟩
    unfold readRecord
    rw [if_neg hpos, if_pos hshort]
  · obtain ⟨m, hm⟩ : ∃ m, piece.length = headerSize + m := ⟨piece.length - headerSize, by omega⟩
    have hsize : r.frame.length = headerSize + r.data.length := length_frame r
    have hsplit : piece = r.header ++ r.data.take m := by
      rw [List.prefix_iff_eq_take.mp hpre, hm, Record.frame, List.take_append, length_header,
        Nat.add_sub_cancel_left, List.take_of_length_le (by rw [length_header]; omega)]
    have hbody : (r.data.take m).length = m := by
      rw [List.length_take]
      omega
    refine ⟨.shortPayload m r.data.length, ?_⟩
    rw [hm, hsplit, readRecord_header r hw, hbody, if_pos (by omega), Nat.add_assoc]

variable {off : ℕ} {rest : List Byte}

/-- A record found lies wholly in the bytes it was found in. -/
theorem frameSize_le_of_readRecord {r : Record} (h : readRecord off rest = .record r) :
    r.frameSize ≤ rest.length := by
  unfold readRecord at h
  dsimp only at h
  split_ifs at h with hne hhdr hok hlen hcrc
  cases h
  simp only [Record.frameSize, List.length_take, List.length_drop] at hlen ⊢
  omega

structure Scan where
  records : List Record
  off : ℕ
  damage : Option (Damage × ℕ)
  deriving DecidableEq

def scanFrom (off : ℕ) (rest : List Byte) : Scan :=
  match _h : readRecord off rest with
  | .eof => ⟨[], off, none⟩
  | .damaged cause ends => ⟨[], off, some (cause, ends)⟩
  | .record r =>
    let s := scanFrom (off + r.frameSize) (rest.drop r.frameSize)
    ⟨r :: s.records, s.off, s.damage⟩
termination_by rest.length
decreasing_by
  have hle := frameSize_le_of_readRecord _h
  have hpos := frameSize_pos r
  simp only [List.length_drop]
  omega

theorem scanFrom_nil (off : ℕ) : scanFrom off [] = ⟨[], off, none⟩ := by
  rw [scanFrom]
  rfl

theorem scanFrom_damaged {cause : Damage} {ends : ℕ}
    (h : readRecord off rest = .damaged cause ends) :
    scanFrom off rest = ⟨[], off, some (cause, ends)⟩ := by
  rw [scanFrom]
  split
  all_goals
    rename_i heq
    rw [h] at heq
    cases heq
  rfl

theorem scanFrom_frame (hw : r.Writable) (off : ℕ) (rest : List Byte) :
    scanFrom off (r.frame ++ rest) =
      ⟨r :: (scanFrom (off + r.frameSize) rest).records, (scanFrom (off + r.frameSize) rest).off,
        (scanFrom (off + r.frameSize) rest).damage⟩ := by
  have hread := readRecord_frame r hw off rest
  have hdrop : (r.frame ++ rest).drop r.frameSize = rest := by
    rw [← length_frame, List.drop_left]
  rw [scanFrom]
  split
  all_goals
    rename_i heq
    rw [hread] at heq
    cases heq
  simp only [hdrop]

theorem frames_cons : frames (r :: recs) = r.frame ++ frames recs :=
  rfl

theorem frames_append (as bs : List Record) : frames (as ++ bs) = frames as ++ frames bs :=
  List.flatMap_append ..

/-- Whole frames are read as their records, and the scan goes on behind them. -/
theorem scanFrom_frames (hw : ∀ r ∈ recs, r.Writable) (off : ℕ) (rest : List Byte) :
    scanFrom off (frames recs ++ rest) =
      ⟨recs ++ (scanFrom (off + (frames recs).length) rest).records,
        (scanFrom (off + (frames recs).length) rest).off,
        (scanFrom (off + (frames recs).length) rest).damage⟩ := by
  induction recs generalizing off with
  | nil => simp [frames]
  | cons r recs ih =>
    have hlen : off + (frames (r :: recs)).length =
        off + r.frameSize + (frames recs).length := by
      rw [frames_cons, List.length_append, length_frame, Nat.add_assoc]
    rw [frames_cons, List.append_assoc, scanFrom_frame r (hw r List.mem_cons_self),
      ih (List.forall_mem_cons.mp hw).2, ← frames_cons, hlen]
    rfl

theorem scanFrom_whole (hw : ∀ r ∈ recs, r.Writable) (off : ℕ) :
    scanFrom off (frames recs) = ⟨recs, off + (frames recs).length, none⟩ := by
  have h := scanFrom_frames recs hw off []
  rw [scanFrom_nil] at h
  simpa using h

def wholeBefore : List Record → ℕ → List Record
  | [], _ => []
  | r :: recs, cut => if r.frameSize ≤ cut then r :: wholeBefore recs (cut - r.frameSize) else []

theorem wholeBefore_initial (cut : ℕ) : wholeBefore recs cut <+: recs := by
  induction recs generalizing cut with
  | nil => exact List.nil_prefix
  | cons r recs ih =>
    unfold wholeBefore
    split
    · exact (List.prefix_cons_inj r).mpr (ih _)
    · exact List.nil_prefix

/-- A cut file is its whole records and a proper piece of the next one. -/
theorem take_frames (cut : ℕ) :
    ∃ piece, (frames recs).take cut = frames (wholeBefore recs cut) ++ piece ∧
      (piece = [] ∨ ∃ r ∈ recs, piece <+: r.frame ∧ piece.length < r.frame.length) := by
  induction recs generalizing cut with
  | nil => exact ⟨[], by simp [frames, wholeBefore], Or.inl rfl⟩
  | cons r recs ih =>
    unfold wholeBefore
    split
    next hle =>
      obtain ⟨piece, htake, hpiece⟩ := ih (cut - r.frameSize)
      refine ⟨piece, ?_, ?_⟩
      · rw [frames_cons, List.take_append, length_frame, htake, frames_cons, List.append_assoc,
          List.take_of_length_le (by rw [length_frame]; exact hle)]
      · rcases hpiece with h | ⟨r', hr', h⟩
        · exact Or.inl h
        · exact Or.inr ⟨r', List.mem_cons_of_mem _ hr', h⟩
    next hgt =>
      have hzero : cut - r.frame.length = 0 := by
        rw [length_frame]
        omega
      refine ⟨r.frame.take cut, ?_, Or.inr ⟨r, List.mem_cons_self, List.take_prefix .., ?_⟩⟩
      · rw [frames_cons, List.take_append, hzero]
        simp [frames]
      · rw [List.length_take, length_frame]
        omega

/-- Scanning a cut file: the whole records, and damage, if any, to the end of the file. -/
theorem scanFrom_cut (hw : ∀ r ∈ recs, r.Writable) (cut : ℕ) :
    ∃ damage, scanFrom 0 ((frames recs).take cut) =
        ⟨wholeBefore recs cut, (frames (wholeBefore recs cut)).length, damage⟩ ∧
      ∀ cause ends, damage = some (cause, ends) → ends = ((frames recs).take cut).length := by
  obtain ⟨piece, htake, hpiece⟩ := take_frames recs cut
  have hw' : ∀ r ∈ wholeBefore recs cut, r.Writable :=
    fun r hr => hw r ((wholeBefore_initial recs cut).subset hr)
  by_cases hnil : piece = []
  · refine ⟨none, ?_, by simp⟩
    rw [htake, hnil, List.append_nil, scanFrom_whole _ hw', Nat.zero_add]
  · obtain ⟨r, hr, hpre, hlt⟩ := hpiece.resolve_left hnil
    obtain ⟨cause, hread⟩ := readRecord_torn r (hw r hr)
      (0 + (frames (wholeBefore recs cut)).length) piece hnil hpre hlt
    refine ⟨some (cause, 0 + (frames (wholeBefore recs cut)).length + piece.length), ?_, ?_⟩
    · rw [htake, scanFrom_frames _ hw', scanFrom_damaged hread]
      simp
    · intro cause' ends h
      cases h
      rw [htake, List.length_append, Nat.zero_add]

end Ozymandias.WalFrame
