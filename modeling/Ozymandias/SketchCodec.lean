import Ozymandias.SketchKept
import Ozymandias.Varint

/-!
Stored sketches. The six aggregates are written as they are, the buckets of each
store as differences of their indices with counts that are varints if all of them
are whole, and a long payload is compressed. The bounds of the decoder never
refuse what the encoder writes, so a stored sketch reads back as it was.
-/
namespace Ozymandias.SketchCodec

open BitLists Varint Loops SketchStore SketchMerge SketchWire SketchKept

def formatVersion : Byte := 1
def codecRaw : Byte := 0
def codecZstd : Byte := 1
def countsFloat : Byte := 0
def countsIntegral : Byte := 1
def maxDecompressedValue : ℕ := 2 ^ 20
def compressionFloor : ℕ := 128

/-- How float64 values are written. The bits of a value that a float64 can have read back as the
value, and a whole number that a float64 can have converts to itself. -/
structure FloatBits where
  Rep : ℚ → Prop
  bits : SketchMerge.Num → BitVec 64
  ofBits : BitVec 64 → SketchMerge.Num
  ofUint64 : ℕ → ℚ
  ofBits_bits : ∀ q, Rep q → ofBits (bits (.finite q)) = .finite q
  ofUint64_cast : ∀ n : ℕ, Rep n → ofUint64 n = n

/-- A compression that reads back whatever the decoder's memory has room for. -/
structure Zstd where
  compress : List Byte → List Byte
  decompress : List Byte → Option (List Byte)
  round_trip : ∀ p, p.length ≤ maxDecompressedValue → decompress (compress p) = some p

inductive CodecErr where
  | empty
  | zstd
  | codec (b : Byte)
  | short (n : ℕ)
  | version (b : Byte)
  | beforeRun
  | flags (b : Byte)
  | bucketCount
  | tooMany (n : ℕ)
  | bucketIndex (i : ℕ)
  | indexRange (index : ℤ)
  | count (i : ℕ)
  | trailing (n : ℕ)
  | wire (e : WireErr)
  deriving DecidableEq

section Codec

variable (B : FloatBits) (Z : Zstd)

def isWhole : SketchMerge.Num → Bool
  | .finite q => decide (q.den = 1) && decide (0 ≤ q) && decide (q < 2 ^ 64)
  | _ => false

def wholeOf : SketchMerge.Num → ℕ
  | .finite q => q.num.toNat
  | _ => 0

def appendCount (whole : Bool) (count : SketchMerge.Num) : List Byte :=
  if whole then appendUvarint (wholeOf count) else appendUint64 (B.bits count)

def appendRun (whole : Bool) : ℤ → List WireBin → List Byte
  | _, [] => []
  | prev, b :: rest => appendVarint (b.index - prev) ++ appendCount B whole b.count ++
      appendRun whole b.index rest

def appendBins (bins : List WireBin) : List Byte :=
  let whole := bins.all (fun b => isWhole b.count)
  (if whole then countsIntegral else countsFloat) :: appendUvarint bins.length ++
    appendRun B whole 0 bins

def aggregatesOf (w : WireSketch) : List SketchMerge.Num :=
  [w.gamma, w.count, w.sum, w.min, w.max, w.zeros]

def encodePayload (w : WireSketch) : List Byte :=
  formatVersion :: (aggregatesOf w).flatMap (fun x => appendUint64 (B.bits x)) ++
    appendBins B w.bins ++
    appendBins B w.negBins

def encodeValue (s : Sketch) : List Byte :=
  let payload := encodePayload B (toWire s)
  if payload.length < compressionFloor then codecRaw :: payload
  else if payload.length ≤ (Z.compress payload).length then codecRaw :: payload
  else codecZstd :: Z.compress payload

def readCount (whole : Bool) (i : ℕ) : Reader CodecErr SketchMerge.Num := fun p =>
  if whole then
    match uvarint p with
    | none => .error (.count i)
    | some (c, p) => .ok (.finite (B.ofUint64 c), p)
  else
    match uint64 p with
    | none => .error (.count i)
    | some (v, p) => .ok (B.ofBits v, p)

def readRun (whole : Bool) : ℕ → ℕ → ℤ → Reader CodecErr (List WireBin)
  | 0, _, _, p => .ok ([], p)
  | n + 1, i, prev, p =>
    match varint p with
    | none => .error (.bucketIndex i)
    | some (delta, p) =>
      if prev + delta < minInt32 ∨ maxInt32 < prev + delta then .error (.indexRange (prev + delta))
      else do
        let (count, p) ← readCount B whole i p
        let (rest, p) ← readRun whole n (i + 1) (prev + delta) p
        return (⟨prev + delta, count⟩ :: rest, p)

def readBins : Reader CodecErr (List WireBin)
  | [] => .error .beforeRun
  | flags :: p =>
    if countsIntegral.toNat < flags.toNat then .error (.flags flags)
    else
      match uvarint p with
      | none => .error .bucketCount
      | some (n, p) =>
        if maxBins < n then .error (.tooMany n)
        else readRun B (decide (flags = countsIntegral)) n 0 0 p

def headerLen : ℕ := 1 + 6 * 8

def decodePayload (p : List Byte) : Except CodecErr Sketch :=
  if p.length < headerLen then .error (.short p.length)
  else
    match p with
    | [] => .error (.short 0)
    | version :: p =>
      if version ≠ formatVersion then .error (.version version)
      else do
        let (gamma, p) ← Reader.orFail uint64 (.short 0) p
        let (count, p) ← Reader.orFail uint64 (.short 0) p
        let (sum, p) ← Reader.orFail uint64 (.short 0) p
        let (min, p) ← Reader.orFail uint64 (.short 0) p
        let (max, p) ← Reader.orFail uint64 (.short 0) p
        let (zeros, p) ← Reader.orFail uint64 (.short 0) p
        let (pos, p) ← readBins B p
        let (neg, p) ← readBins B p
        if p ≠ [] then .error (.trailing p.length)
        else
          match fromWire ⟨B.ofBits gamma, B.ofBits count, B.ofBits sum, B.ofBits min, B.ofBits max,
            B.ofBits zeros, pos, neg⟩ with
          | .error e => .error (.wire e)
          | .ok s => .ok s

def decodeValue : List Byte → Except CodecErr Sketch
  | [] => .error .empty
  | codec :: payload =>
    if codec = codecRaw then decodePayload B payload
    else if codec = codecZstd then
      match Z.decompress payload with
      | none => .error .zstd
      | some payload => decodePayload B payload
    else .error (.codec codec)

def RepNum : SketchMerge.Num → Prop
  | .finite q => B.Rep q
  | _ => False

variable {s : Sketch} {w : WireSketch} {whole : Bool} {B} {count : SketchMerge.Num}
  {bins : List WireBin} {n : ℕ}

/-- What the conversion of a whole number keeps. -/
theorem wholeOf_spec (h : isWhole count = true) :
    wholeOf count < 2 ^ 64 ∧ count = .finite (wholeOf count : ℕ) := by
  cases count with
  | nan | infinite negative => cases h
  | finite q =>
    simp only [isWhole, Bool.and_eq_true, decide_eq_true_eq] at h
    obtain ⟨⟨hden, hnonneg⟩, hlt⟩ := h
    have hnum : ((q.num.toNat : ℕ) : ℤ) = q.num := Int.toNat_of_nonneg (Rat.num_nonneg.mpr hnonneg)
    have hq : ((q.num.toNat : ℕ) : ℚ) = q := by
      rw [← Int.cast_natCast, hnum]
      exact Rat.coe_int_num_of_den_eq_one hden
    rw [← hq] at hlt
    exact ⟨by exact_mod_cast hlt, congrArg SketchMerge.Num.finite hq.symm⟩

theorem ofBits_of_rep {x : SketchMerge.Num} (h : RepNum B x) : B.ofBits (B.bits x) = x := by
  cases x with
  | nan | infinite negative => exact h.elim
  | finite q => exact B.ofBits_bits q h

theorem readCount_append (hrep : RepNum B count)
    (hwhole : whole = true → isWhole count = true) (i : ℕ) (rest : List Byte) :
    readCount B whole i (appendCount B whole count ++ rest) = .ok (count, rest) := by
  cases whole with
  | false =>
    simp only [readCount, appendCount, Bool.false_eq_true, if_false]
    rw [uint64_append]
    dsimp only
    rw [ofBits_of_rep hrep]
  | true =>
    obtain ⟨-, hcount⟩ := wholeOf_spec (hwhole rfl)
    rw [hcount] at hrep
    simp only [readCount, appendCount, if_true]
    rw [uvarint_append]
    dsimp only
    rw [B.ofUint64_cast _ hrep, ← hcount]

structure Writable (bins : List WireBin) : Prop where
  rep : ∀ b ∈ bins, RepNum B b.count
  range : ∀ b ∈ bins, minInt32 ≤ b.index ∧ b.index ≤ maxInt32

theorem readRun_append (h : Writable (B := B) bins)
    (hwhole : whole = true → ∀ b ∈ bins, isWhole b.count = true) (i : ℕ) (prev : ℤ)
    (rest : List Byte) :
    readRun B whole bins.length i prev (appendRun B whole prev bins ++ rest) = .ok
      (bins, rest) := by
  induction bins generalizing i prev with
  | nil => rfl
  | cons b bins ih =>
    have hb := List.mem_cons_self (a := b) (l := bins)
    obtain ⟨hlow, hhigh⟩ := h.range b hb
    have hnext : prev + (b.index - prev) = b.index := by omega
    have hrest := ih ⟨fun b' hb' => h.rep b' (List.mem_cons_of_mem _ hb'),
      fun b' hb' => h.range b' (List.mem_cons_of_mem _ hb')⟩
      (fun hw b' hb' => hwhole hw b' (List.mem_cons_of_mem _ hb')) (i + 1) b.index
    rw [List.length_cons, appendRun, List.append_assoc, List.append_assoc, readRun, varint_append]
    dsimp only
    rw [hnext, if_neg (by omega)]
    refine bind_eq_ok.mpr ⟨_, readCount_append (h.rep b hb) (fun hw => hwhole hw b hb) i _, ?_⟩
    exact bind_eq_ok.mpr ⟨_, hrest, rfl⟩

theorem readBins_append (h : Writable (B := B) bins) (hlen : bins.length ≤ maxBins)
    (rest : List Byte) :
    readBins B (appendBins B bins ++ rest) = .ok (bins, rest) := by
  unfold appendBins
  have hflags : ∀ whole : Bool,
      ¬countsIntegral.toNat < (if whole then countsIntegral else countsFloat).toNat ∧
        decide ((if whole then countsIntegral else countsFloat) = countsIntegral) = whole := by
          decide
  obtain ⟨hknown, hwhole⟩ := hflags (bins.all (fun b => isWhole b.count))
  rw [List.cons_append, List.cons_append, List.append_assoc, readBins, if_neg hknown,
    uvarint_append]
  dsimp only
  rw [if_neg (not_lt.mpr hlen), hwhole]
  exact readRun_append h List.all_eq_true.mp 0 0 rest

structure WritableSketch (w : WireSketch) : Prop where
  aggregates : ∀ x ∈ aggregatesOf w, RepNum B x
  bins : Writable (B := B) w.bins
  negBins : Writable (B := B) w.negBins
  bins_length : w.bins.length ≤ maxBins
  negBins_length : w.negBins.length ≤ maxBins

/-- Reading a payload gives the sketch of what was written, or the error of its checks. -/
theorem decodePayload_encodePayload (h : WritableSketch (B := B) w) (hs : fromWire w = .ok s) :
    decodePayload B (encodePayload B w) = .ok s := by
  have hread : ∀ x rest, Reader.orFail uint64 (CodecErr.short 0) (appendUint64 (B.bits x) ++ rest) =
      .ok (B.bits x, rest) := fun x => decodes_orFail (uint64_append (B.bits x)) _
  have hagg : ∀ x ∈ aggregatesOf w, B.ofBits (B.bits x) = x :=
    fun x hx => ofBits_of_rep (h.aggregates x hx)
  have hbytes : encodePayload B w = formatVersion :: (appendUint64 (B.bits w.gamma) ++
      (appendUint64 (B.bits w.count) ++
        (appendUint64 (B.bits w.sum) ++ (appendUint64 (B.bits w.min) ++
      (appendUint64 (B.bits w.max) ++ (appendUint64 (B.bits w.zeros) ++ (appendBins B w.bins ++
      (appendBins B w.negBins ++ [])))))))) := by
    simp [encodePayload, aggregatesOf]
  unfold decodePayload
  rw [hbytes]
  dsimp only
  refine bind_eq_ok.mpr
    ⟨_, hread _ _, bind_eq_ok.mpr ⟨_, hread _ _, bind_eq_ok.mpr ⟨_, hread _ _, ?_⟩⟩⟩
  refine bind_eq_ok.mpr
    ⟨_, hread _ _, bind_eq_ok.mpr ⟨_, hread _ _, bind_eq_ok.mpr ⟨_, hread _ _, ?_⟩⟩⟩
  refine bind_eq_ok.mpr ⟨_, readBins_append h.bins h.bins_length _, ?_⟩
  refine bind_eq_ok.mpr ⟨_, readBins_append h.negBins h.negBins_length _, ?_⟩
  rw [if_neg (fun hne => hne rfl), hagg w.gamma (by simp [aggregatesOf]),
    hagg w.count (by simp [aggregatesOf]),
    hagg w.sum (by simp [aggregatesOf]), hagg w.min (by simp [aggregatesOf]),
    hagg w.max (by simp [aggregatesOf]), hagg w.zeros (by simp [aggregatesOf]), hs]

theorem length_appendCount_le (hwhole : whole = true → isWhole count = true) :
    (appendCount B whole count).length ≤ 10 := by
  cases whole with
  | false =>
    rw [appendCount, if_neg Bool.false_ne_true, appendUint64, length_leBytes]
    omega
  | true =>
    obtain ⟨hlt, -⟩ := wholeOf_spec (hwhole rfl)
    exact length_appendUvarint_le 9 _ (lt_of_lt_of_le hlt (by decide))

theorem zigzag_lt {t : ℤ} (hlow : -n ≤ t) (hhigh : t ≤ n) : zigzag t < 2 * n + 1 := by
  cases t with
  | ofNat m =>
    show 2 * m < 2 * n + 1
    have : m ≤ n := Int.ofNat_le.mp hhigh
    omega
  | negSucc m =>
    show 2 * m + 1 < 2 * n + 1
    omega

theorem length_appendRun_le (whole : Bool) (prev : ℤ)
    (hrange : ∀ b ∈ bins, minInt32 ≤ b.index ∧ b.index ≤ maxInt32)
    (hwhole : whole = true → ∀ b ∈ bins, isWhole b.count = true)
    (hprev : minInt32 ≤ prev ∧ prev ≤ maxInt32) :
    (appendRun B whole prev bins).length ≤ 15 * bins.length := by
  induction bins generalizing prev with
  | nil => exact Nat.zero_le _
  | cons b bins ih =>
    obtain ⟨hb, hbins⟩ := List.forall_mem_cons.mp hrange
    have hrest := ih b.index hbins (fun hw b' hb' => hwhole hw b' (List.mem_cons_of_mem _ hb')) hb
    have hcount := length_appendCount_le (B := B) (fun hw => hwhole hw b List.mem_cons_self)
    have hdelta : (appendVarint (b.index - prev)).length ≤ 5 := by
      refine length_appendUvarint_le 4 _
        (lt_of_lt_of_le (zigzag_lt (n := 2 ^ 32) ?_ ?_) (by decide))
      · unfold minInt32 maxInt32 at *
        omega
      · unfold minInt32 maxInt32 at *
        omega
    rw [appendRun, List.length_append, List.length_append, List.length_cons]
    omega

theorem length_appendBins_le (h : Writable (B := B) bins) (hlen : bins.length ≤ maxBins) :
    (appendBins B bins).length ≤ 3 + 15 * bins.length := by
  have hsize : (appendUvarint bins.length).length ≤ 2 :=
    length_appendUvarint_le 1 _ (lt_of_le_of_lt hlen (by decide))
  have hrun := length_appendRun_le (B := B) (bins.all (fun b => isWhole b.count)) 0 h.range
    List.all_eq_true.mp (by decide)
  unfold appendBins
  rw [List.length_append, List.length_cons]
  omega

/-- A payload is far below what the decoder is ready to decompress. -/
theorem length_encodePayload_le (h : WritableSketch (B := B) w) :
    (encodePayload B w).length ≤ maxDecompressedValue := by
  have hbins := length_appendBins_le h.bins h.bins_length
  have hneg := length_appendBins_le h.negBins h.negBins_length
  have hbins_length := h.bins_length
  have hneg_length := h.negBins_length
  have hhead : ((aggregatesOf w).flatMap (fun x => appendUint64 (B.bits x))).length = 48 := by
    simp [aggregatesOf, appendUint64, length_leBytes]
  rw [encodePayload, List.length_append, List.length_append, List.length_cons]
  unfold maxDecompressedValue maxBins at *
  omega

theorem decodeValue_encodeValue {s' : Sketch} (h : WritableSketch (B := B) (toWire s))
    (hs : fromWire (toWire s) = .ok s') : decodeValue B Z (encodeValue B Z s) = .ok s' := by
  have hpayload := decodePayload_encodePayload h hs
  have hraw : decodeValue B Z (codecRaw :: encodePayload B (toWire s)) = .ok s' := by
    exact hpayload
  unfold encodeValue
  dsimp only
  split
  · exact hraw
  · split
    · exact hraw
    · rw [decodeValue, Z.round_trip _ (length_encodePayload_le h)]
      exact hpayload

structure RepSketch (s : Sketch) : Prop where
  aggregates : ∀ x ∈ aggregatesOf (toWire s), RepNum B x
  bins : ∀ b ∈ (toWire s).bins, RepNum B b.count
  negBins : ∀ b ∈ (toWire s).negBins, RepNum B b.count

theorem writable_toWireBins {bs : List Bin} (hfine : Fine none bs)
    (hrep : ∀ b ∈ toWireBins bs, RepNum B b.count) : Writable (B := B) (toWireBins bs) := by
  refine ⟨hrep, fun b hb => ?_⟩
  obtain ⟨b', hb', rfl⟩ := List.mem_map.mp hb
  exact hfine.range b' hb'

theorem writable_toWire {d : ℚ} (h : Keeps s d) (hrep : RepSketch (B := B) s) :
    WritableSketch (B := B) (toWire s) := by
  obtain ⟨added, hpos, hposRange⟩ := h.pos
  obtain ⟨more, hneg, hnegRange⟩ := h.neg
  refine ⟨hrep.aggregates, writable_toWireBins (fine_bins hpos hposRange) hrep.bins,
    writable_toWireBins (fine_bins hneg hnegRange) hrep.negBins, ?_, ?_⟩
  · show (toWireBins s.pos.bins).length ≤ maxBins
    rw [toWireBins, List.length_map]
    exact length_bins hpos
  · show (toWireBins s.neg.bins).length ≤ maxBins
    rw [toWireBins, List.length_map]
    exact length_bins hneg

/-- A sketch is written as a payload that passes the checks exactly if what the payloads in its
history are off, added up, is within the slack of its count; then both that payload and the stored
bytes read back as the sketch. -/
theorem encodings_lose_nothing (ceilLog : ℚ → ℚ → ℤ) (s : Sketch) (d : ℚ) (h : Made ceilLog s d) :
    (validateSketch (toWire s) = .ok () ↔ |d| ≤ slackOf s.count) ∧
      (|d| ≤ slackOf s.count → ∃ s', fromWire (toWire s) = .ok s' ∧ s'.gamma = s.gamma ∧
        SameSummary s' s ∧
        (RepSketch (B := B) s → decodeValue B Z (encodeValue B Z s) = .ok s')) := by
  have hkeeps := keeps_made h
  refine ⟨passes_toWire_iff hkeeps, fun hslack => ?_⟩
  obtain ⟨s', hs', hgamma, hsame⟩ := fromWire_toWire hkeeps hslack
  refine ⟨s', hs', hgamma, hsame, fun hrep => ?_⟩
  exact decodeValue_encodeValue Z (writable_toWire hkeeps hrep) hs'

end Codec

def wholeBits : FloatBits where
  Rep q := q.den = 1 ∧ -2 ^ 63 ≤ q.num ∧ q.num < 2 ^ 63
  bits x := match x with
    | .finite q => BitVec.ofInt 64 q.num
    | _ => 0
  ofBits v := .finite v.toInt
  ofUint64 n := n
  ofBits_bits q h := by
    obtain ⟨hden, hlow, hhigh⟩ := h
    have hint : (BitVec.ofInt 64 q.num).toInt = q.num := by
      rw [BitVec.toInt_ofInt]
      exact Int.bmod_eq_of_le (by simpa using hlow) (by simpa using hhigh)
    rw [hint, Rat.coe_int_num_of_den_eq_one hden]
  ofUint64_cast _ _ := rfl

def stored : Zstd := ⟨id, some, fun _ _ => rfl⟩

theorem repNum_wholeBits (n : ℤ) (h : n.natAbs < 2 ^ 63) : RepNum wholeBits (.finite n) := by
  refine ⟨rfl, ?_, ?_⟩
  · show -2 ^ 63 ≤ n
    omega
  · show n < 2 ^ 63
    omega

def overfull : WireSketch :=
  ⟨.finite 2, .finite 2000000, .finite 9, .finite (-3), .finite 4, .finite 1,
    [⟨0, .finite 1999990⟩, ⟨2, .finite 5⟩], [⟨1, .finite 5⟩]⟩

def overfullContent : Content :=
  ⟨2, 2000000, 9, 1, [⟨0, 1999990⟩, ⟨2, 5⟩], [⟨1, 5⟩]⟩

theorem passes_overfull : Passes overfull overfullContent :=
  ⟨rfl, rfl, rfl, rfl, rfl, rfl, by decide +kernel, by decide +kernel, by decide +kernel,
    fun _ => ⟨-3, 4, rfl, rfl, by decide +kernel⟩,
    fine_cons.mpr ⟨by decide +kernel, by decide, nofun,
      fine_cons.mpr ⟨by decide +kernel, by decide, by rintro p ⟨⟩; decide, fine_nil⟩⟩,
    fine_cons.mpr ⟨by decide +kernel, by decide, nofun, fine_nil⟩,
    by decide, by decide, by decide +kernel⟩

def overfullSketch : Sketch :=
  ⟨2, addBins Store.empty overfullContent.pos, addBins Store.empty overfullContent.neg,
    1, 2000000, 9, (-3 : ℚ), (4 : ℚ)⟩

theorem fromWire_overfull : fromWire overfull = .ok overfullSketch :=
  fromWire_of_counted passes_overfull (by decide +kernel) rfl rfl (by decide +kernel)

def upwards : ℚ → ℚ → ℤ := fun _ v => v.ceil

def observed : Sketch :=
  observe upwards (observe upwards overfullSketch (.finite (-5), .finite 2)) (.finite 7, .finite 1)

theorem made_observed : Made upwards observed 1 := by
  have hoff : off overfullContent = 1 := by decide +kernel
  rw [← hoff]
  exact .observe _ _ _ (.observe _ _ _ (.payload _ _ _ passes_overfull fromWire_overfull))

/-- The merge of a sketch from such a payload, with more observations, and another one. -/
def merged : Sketch := ((observed.merge overfullSketch).toOption).getD observed

theorem merge_observed : observed.merge overfullSketch = .ok merged := by
  have hok : observed.merge overfullSketch = .ok _ := if_neg (fun hne => hne rfl)
  rw [merged, hok]
  rfl

theorem made_merged : Made upwards merged 2 := by
  have hoff : off overfullContent = 1 := by decide +kernel
  have hother : Made upwards overfullSketch (off overfullContent) :=
    .payload _ _ _ passes_overfull fromWire_overfull
  have hmerge := made_observed.merge _ _ _ _ _ hother merge_observed
  rwa [hoff, one_add_one_eq_two] at hmerge

theorem rep_merged : RepSketch (B := wholeBits) merged := by
  have haggregates : aggregatesOf (toWire merged) =
      ([2, 4000003, 15, -5, 7, 2] : List ℤ).map (fun n => .finite n) := by decide +kernel
  have hbins : (toWire merged).bins.map WireBin.count =
      ([3999980, 10, 1] : List ℤ).map (fun n => .finite n) := by decide +kernel
  have hneg : (toWire merged).negBins.map WireBin.count =
      ([10, 2] : List ℤ).map (fun n => .finite n) := by decide +kernel
  have hrep : ∀ ns : List ℤ, (∀ n ∈ ns, n.natAbs < 2 ^ 63) →
      ∀ x ∈ ns.map (fun n : ℤ => SketchMerge.Num.finite n), RepNum wholeBits x := by
    intro ns hns x hx
    obtain ⟨n, hn, rfl⟩ := List.mem_map.mp hx
    exact repNum_wholeBits n (hns n hn)
  refine ⟨?_, fun b hb => ?_, fun b hb => ?_⟩
  · rw [haggregates]
    exact hrep _ (by decide)
  · have hcount := List.mem_map_of_mem (f := WireBin.count) hb
    rw [hbins] at hcount
    exact hrep _ (by decide) _ hcount
  · have hcount := List.mem_map_of_mem (f := WireBin.count) hb
    rw [hneg] at hcount
    exact hrep _ (by decide) _ hcount

/-- Two payloads are off by one each, which is within the slack of four million observations. -/
theorem merged_reads_back :
    Made upwards merged 2 ∧ validateSketch (toWire merged) = .ok () ∧
      ∃ s', fromWire (toWire merged) = .ok s' ∧ s'.gamma = merged.gamma ∧ SameSummary s' merged ∧
        decodeValue wholeBits stored (encodeValue wholeBits stored merged) = .ok s' := by
  have hslack : |(2 : ℚ)| ≤ slackOf merged.count := by decide +kernel
  obtain ⟨hvalid, hread⟩ :=
    encodings_lose_nothing (B := wholeBits) stored upwards merged 2 made_merged
  obtain ⟨s', hs', hgamma, hsame, hdecode⟩ := hread hslack
  exact ⟨made_merged, hvalid.mpr hslack, s', hs', hgamma, hsame, hdecode rep_merged⟩

def unbalanced : WireSketch :=
  ⟨.finite 2, .finite 0, .finite 0, .finite 0, .finite 0, .finite 0,
    [⟨0, .finite (1 / 2 ^ 30)⟩], []⟩

def sliver : Bin := ⟨0, 1 / 2 ^ 30⟩

theorem fine_sliver : Fine none [sliver] :=
  fine_cons.mpr ⟨by decide +kernel, by decide, nofun, fine_nil⟩

theorem passes_unbalanced : Passes unbalanced ⟨2, 0, 0, 0, [sliver], []⟩ :=
  ⟨rfl, rfl, rfl, rfl, rfl, rfl, by decide +kernel, le_refl _, le_refl _,
    fun hcount => absurd hcount (lt_irrefl _), fine_sliver,
    fine_nil, by decide, by decide, by decide +kernel⟩

theorem fromWire_of_invalid {e : WireErr} (h : validateSketch w = .error e) :
    fromWire w = .error e := by
  unfold fromWire
  rw [h]
  rfl

/-- What two accepted payloads are off adds up in their merge beyond what the checks accept. -/
theorem merge_of_two_payloads_fails_validation :
    ∃ s m, fromWire unbalanced = .ok s ∧ s.merge s = .ok m ∧
      Made (fun _ _ => 0) m (1 / 2 ^ 30 + 1 / 2 ^ 30) ∧
      validateSketch (toWire m) = .error (.mismatch (1 / 2 ^ 29) 0) ∧
      fromWire (toWire m) = .error (.mismatch (1 / 2 ^ 29) 0) := by
  have hs := fromWire_of_empty passes_unbalanced rfl
  have hoff : off ⟨2, 0, 0, 0, [sliver], []⟩ = 1 / 2 ^ 30 := by decide +kernel
  have hmade : Made (fun _ _ => 0) _ _ := .payload _ _ _ passes_unbalanced hs
  rw [hoff] at hmade
  refine ⟨_, _, hs, if_neg (fun hne => hne rfl), ?_, ?_, ?_⟩
  · exact hmade.merge _ _ _ _ _ hmade (if_neg (fun hne => hne rfl))
  · decide +kernel
  · exact fromWire_of_invalid (by decide +kernel)

end Ozymandias.SketchCodec
