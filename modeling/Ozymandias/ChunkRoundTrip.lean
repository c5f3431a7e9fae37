import Ozymandias.ChunkCoding
import Ozymandias.Loops

/-!
A whole chunk, written and read back. Appender and iterator keep the same coder
state (sample count, last sample, last delta, XOR window); a sample is coded
against it and moves it on. An append is one step of the coder on the writing
side, `Next` the same step on the reading side, and a run of either follows by
induction over the samples.
-/

namespace Ozymandias.ChunkRoundTrip

open BitLists GoSlices BitStream BitReading GorillaChunk ChunkCoding

structure Coder where
  n : ℕ
  t : BitVec 64
  v : BitVec 64
  delta : BitVec 64
  leading : ℕ
  trailing : ℕ

def Coder.start : Coder := ⟨0, 0, 0, 0, noWindow, 0⟩

def Coder.sampleBits (e : Coder) (p : Point) : List Bool :=
  if e.n = 0 then uvarintBits (zigzag p.t) ++ lowBits 64 p.v
  else if e.n = 1 then
    uvarintBits (zigzag (p.t - e.t)) ++ valueBits e.v e.leading e.trailing p.v
  else dodBits (p.t - e.t - e.delta) ++ valueBits e.v e.leading e.trailing p.v

def Coder.step (e : Coder) (p : Point) : Coder :=
  let w := if e.n = 0 then (e.leading, e.trailing) else valueWindow e.v e.leading e.trailing p.v
  ⟨e.n + 1, p.t, p.v, if e.n = 0 then e.delta else p.t - e.t, w.1, w.2⟩

def Coder.run (e : Coder) (ps : List Point) : Coder := ps.foldl Coder.step e

def Coder.runBits (e : Coder) : List Point → List Bool
  | [] => []
  | p :: rest => e.sampleBits p ++ (e.step p).runBits rest

variable {a : Appender} {bits : List Bool} {c : Chunk} {e : Coder} {h : Heap} {it : Iterator}
  (p : Point) {pre : List Bool} {ps : List Point} {rest : List Bool}

theorem Coder.run_append (e : Coder) (ps qs : List Point) :
    e.run (ps ++ qs) = (e.run ps).run qs := List.foldl_append ..

theorem Coder.runBits_append (e : Coder) (ps qs : List Point) :
    e.runBits (ps ++ qs) = e.runBits ps ++ (e.run ps).runBits qs := by
  induction ps generalizing e with
  | nil => rfl
  | cons p rest ih =>
    simp only [List.cons_append, Coder.runBits, ih, List.append_assoc]
    rfl

theorem Coder.run_n (e : Coder) (ps : List Point) : (e.run ps).n = e.n + ps.length := by
  induction ps generalizing e with
  | nil => rfl
  | cons p rest ih =>
    have h := ih (e.step p)
    rw [List.length_cons]
    change ((e.step p).run rest).n = _
    rw [h]
    change e.n + 1 + rest.length = _
    omega

theorem Coder.windowOk_step (e : Coder) (p : Point) (hw : WindowOk e.leading e.trailing) :
    WindowOk (e.step p).leading (e.step p).trailing := by
  unfold Coder.step
  by_cases hn : e.n = 0
  · simpa [hn] using hw
  · simpa [hn] using windowOk_valueWindow e.v e.leading e.trailing p.v hw

def Coder.Accepts (e : Coder) (ps : List Point) : Prop :=
  e.n + ps.length ≤ maxSamplesPerChunk ∧ (e.n ≠ 0 → ∀ p ∈ ps, e.t.toInt < p.t.toInt) ∧
    ps.Pairwise (fun p q => p.t.toInt < q.t.toInt)

theorem Coder.Accepts.tail {p : Point} {rest : List Point} (h : e.Accepts (p :: rest)) :
    (e.step p).Accepts rest := by
  obtain ⟨hlen, -, hasc⟩ := h
  rw [List.pairwise_cons] at hasc
  refine ⟨?_, fun _ => hasc.1, hasc.2⟩
  rw [List.length_cons] at hlen
  change e.n + 1 + rest.length ≤ _
  omega

theorem Coder.Accepts.later {qs : List Point} (h : e.Accepts (ps ++ qs)) :
    (e.run ps).Accepts qs := by
  induction ps generalizing e with
  | nil => exact h
  | cons p rest ih => exact ih h.tail

/-- The appender carries the coder's state and the chunk holds its bits. -/
structure Writes (e : Coder) (bits : List Bool) (h : Heap) (a : Appender) : Prop where
  holds : Holds (putUint16 e.n) bits (h, a.c.b)
  t : a.t = e.t
  v : a.v = e.v
  delta : a.delta = e.delta
  leading : a.leading = e.leading
  trailing : a.trailing = e.trailing

theorem uint16_putUint16 (n : ℕ) (rest : List Byte) (hn : n < 2 ^ 16) :
    uint16 (putUint16 n ++ rest) = n := by
  simp only [uint16, putUint16, List.cons_append, List.getD_cons_zero,
    List.getD_cons_succ, BitVec.toNat_ofNat]
  omega

variable {n total : ℕ} {s : Slice}

theorem numSamples_of_holds (hn : n < 2 ^ 16) (hc : Holds (putUint16 n) bits (h, c.b)) :
    c.numSamples h = n := by
  have hlen := length_read _ _ hc.valid
  rw [hc.bytes, List.length_append] at hlen
  change 2 + _ = c.b.stream.len at hlen
  rw [Chunk.numSamples, if_neg (by unfold headerLen; omega), Chunk.bytes]
  rw [hc.bytes, uint16_putUint16 n _ hn]

/-- Rewriting the header keeps the bits behind it. -/
theorem storeCount_spec {s : Buf} (hs : Holds (putUint16 n) bits s) (m : ℕ) :
    Holds (putUint16 m) bits (storeCount m s.1 s.2.stream, s.2) ∧
      Keeps s.1 s.2.stream (storeCount m s.1 s.2.stream) s.2.stream := by
  have hk₁ := keeps_store s.1 s.2.stream hs.valid 0 (BitVec.ofNat 8 (m / 256))
  have hk₂ := keeps_store _ s.2.stream hk₁.valid 1 (BitVec.ofNat 8 m)
  refine ⟨⟨hk₂.valid, ?_, hs.count⟩, hk₁.trans hk₂⟩
  change Heap.read (Heap.store (Heap.store _ _ _ _) _ _ _) _ = _
  rw [read_store, read_store, hs.bytes]
  rfl

theorem emits_writeSample (hw : Writes e bits h a) (p : Point) :
    Emits (fun s => (a.writeSample e.n p s).1) (e.sampleBits p) := by
  unfold Appender.writeSample Coder.sampleBits
  rw [hw.t, hw.v, hw.delta, hw.leading, hw.trailing]
  by_cases h0 : e.n = 0
  · simp only [h0]
    exact emits_comp (emits_writeUvarint (zigzag p.t)) (emits_writeBits p.v 64 le_rfl)
  by_cases h1 : e.n = 1
  · simp only [if_neg h0, if_pos h1]
    exact emits_comp (emits_writeUvarint (zigzag (p.t - e.t)))
      (emits_writeValue e.v e.leading e.trailing p.v)
  · simp only [if_neg h0, if_neg h1]
    exact emits_comp (emits_writeDODIn dodBuckets (p.t - e.t - e.delta) (by decide))
      (emits_writeValue e.v e.leading e.trailing p.v)

theorem writeSample_window (hw : Writes e bits h a) (p : Point) (s : Buf) :
    (a.writeSample e.n p s).2 = ((e.step p).leading, (e.step p).trailing) := by
  unfold Appender.writeSample Coder.step
  rw [hw.v, hw.leading, hw.trailing]
  by_cases h0 : e.n = 0
  · simp [h0]
  · by_cases h1 : e.n = 1 <;> simp [h0, h1, writeValue_window]

/-- One append is one step of the coder, and touches no array but the chunk's. -/
theorem append_spec (hw : Writes e bits h a) {p : Point} {rest : List Point}
    (hacc : e.Accepts (p :: rest)) :
    ∃ h' a', a.append h p = .ok (h', a') ∧ Writes (e.step p) (bits ++ e.sampleBits p) h' a' ∧
      Keeps h a.c.b.stream h' a'.c.b.stream := by
  obtain ⟨hlen, hafter, -⟩ := hacc
  rw [List.length_cons, maxSamplesPerChunk] at hlen
  have hn := numSamples_of_holds (by omega) hw.holds
  obtain ⟨hholds, hkeep⟩ := emits_writeSample hw p _ _ _ hw.holds
  obtain ⟨hcount, hkeep'⟩ := storeCount_spec hholds (e.n + 1)
  have hwin := writeSample_window hw p (h, a.c.b)
  let w := a.writeSample e.n p (h, a.c.b)
  refine ⟨storeCount (e.n + 1) w.1.1 w.1.2.stream,
    ⟨{ a.c with b := w.1.2 }, p.t, p.v, if e.n = 0 then a.delta else p.t - a.t, w.2.1, w.2.2⟩,
    ?_, ⟨hcount, rfl, rfl, ?_, ?_, ?_⟩, hkeep.trans hkeep'⟩
  · have hnot : ¬ (e.n ≠ 0 ∧ p.t.toInt ≤ a.t.toInt) := by
      rintro ⟨h0, hle⟩
      have hlt := hafter h0 p List.mem_cons_self
      rw [hw.t] at hle
      omega
    unfold Appender.append
    rw [hn, if_neg (by unfold maxSamplesPerChunk; omega), if_neg hnot]
  · rw [hw.delta, hw.t]
    rfl
  · exact congrArg Prod.fst hwin
  · exact congrArg Prod.snd hwin

theorem appendAll_spec (hw : Writes e bits h a) (hacc : e.Accepts ps) :
    ∃ h' a', a.appendAll h ps = .ok (h', a') ∧ Writes (e.run ps) (bits ++ e.runBits ps) h' a' ∧
      Keeps h a.c.b.stream h' a'.c.b.stream := by
  induction ps generalizing e bits h a with
  | nil =>
    exact ⟨h, a, rfl, by simpa [Coder.run, Coder.runBits] using hw, Keeps.refl _ _ hw.holds.valid⟩
  | cons p rest ih =>
    obtain ⟨h₁, a₁, happ, hw₁, hk₁⟩ := append_spec hw hacc
    obtain ⟨h₂, a₂, hall, hw₂, hk₂⟩ := ih hw₁ hacc.tail
    refine ⟨h₂, a₂, ?_, by simpa [Coder.run, Coder.runBits] using hw₂, hk₁.trans hk₂⟩
    rw [Appender.appendAll, happ]
    exact hall

/-- A fresh chunk's appender stands at the start. -/
theorem newChunk_appender (h : Heap) :
    ∃ h' a, (newChunk h).2.appender (newChunk h).1 = .ok (h', a) ∧ Writes Coder.start [] h' a := by
  have hholds : Holds (putUint16 0) [] ((newChunk h).1, (newChunk h).2.b) :=
    ⟨valid_alloc h [0, 0] 64, (read_alloc h [0, 0] 64).trans (by simp [putUint16]), rfl⟩
  have hn := numSamples_of_holds (by omega) hholds
  refine ⟨(newChunk h).1, ⟨(newChunk h).2, 0, 0, 0, noWindow, 0⟩, ?_, hholds, rfl, rfl, rfl,
    rfl, rfl⟩
  rw [Chunk.appender, if_pos hn]
  rfl

/-- The iterator carries the coder's state and stands behind its bits. -/
structure Follows (e : Coder) (total : ℕ) (pre rest : List Bool) (it : Iterator) : Prop where
  sees : Sees pre rest it.br
  total : it.total = total
  read : it.read = e.n
  t : it.t = e.t
  v : it.v = e.v
  delta : it.delta = e.delta
  leading : it.leading = e.leading
  trailing : it.trailing = e.trailing
  err : it.err = none

/-- The delta of a later sample, coded directly once and then by its change. -/
theorem reads_delta (e : Coder) (p : Point) : Reads (fun r => if e.n = 1 then readVarint r
      else readDOD r >>= fun q => .ok (e.delta + q.1, q.2))
      (if e.n = 1 then uvarintBits (zigzag (p.t - e.t)) else dodBits (p.t - e.t - e.delta))
      (p.t - e.t) := by
  by_cases h1 : e.n = 1
  · simp only [if_pos h1]
    exact reads_readVarint (p.t - e.t)
  · simp only [if_neg h1]
    have h := reads_map (reads_readDOD (p.t - e.t - e.delta)) (fun dod => e.delta + dod)
    rw [BitVec.add_comm, BitVec.sub_add_cancel] at h
    exact h

theorem decode_first (hn : e.n = 0) (hf : Follows e total pre (e.sampleBits p ++ rest) it) :
    ∃ it', it.decode = .ok it' ∧ Follows (e.step p) total (pre ++ e.sampleBits p) rest it' := by
  have hsees := hf.sees
  simp only [Coder.sampleBits, hn, if_pos, List.append_assoc] at hsees ⊢
  obtain ⟨r₁, hread₁, hr₁⟩ := reads_readVarint p.t pre _ it.br hsees
  obtain ⟨r₂, hread₂, hr₂⟩ := reads_word p.v _ rest r₁ hr₁
  refine ⟨{ it with br := r₂, t := p.t, v := p.v, read := it.read + 1 }, ?_, ?_⟩
  · unfold Iterator.decode
    rw [if_pos (hf.read.trans hn), hread₁]
    change (readBits 64 r₁ >>= fun q => _) = _
    rw [hread₂]
    rfl
  · refine ⟨by simpa [List.append_assoc] using hr₂, hf.total, ?_, rfl, rfl, ?_, ?_, ?_, hf.err⟩
    · change it.read + 1 = e.n + 1
      rw [hf.read]
    all_goals simp [Coder.step, hn, hf.delta, hf.leading, hf.trailing]

theorem decode_later (hn : e.n ≠ 0) (hwin : WindowOk e.leading e.trailing)
    (hf : Follows e total pre (e.sampleBits p ++ rest) it) :
    ∃ it', it.decode = .ok it' ∧ Follows (e.step p) total (pre ++ e.sampleBits p) rest it' := by
  have hbits : e.sampleBits p =
      (if e.n = 1 then uvarintBits (zigzag (p.t - e.t)) else dodBits (p.t - e.t - e.delta)) ++
        valueBits e.v e.leading e.trailing p.v := by
    unfold Coder.sampleBits
    rw [if_neg hn]
    split <;> rfl
  have hsees := hf.sees
  rw [hbits, List.append_assoc] at hsees
  obtain ⟨r₁, hread₁, hr₁⟩ := reads_delta e p pre _ it.br hsees
  obtain ⟨r₂, hread₂, hr₂⟩ := reads_readValue e.v e.leading e.trailing p.v hwin _ rest r₁ hr₁
  let w := valueWindow e.v e.leading e.trailing p.v
  refine ⟨{ it with br := r₂, t := it.t + (p.t - e.t), v := p.v, delta := p.t - e.t,
                    leading := w.1, trailing := w.2, read := it.read + 1 }, ?_, ?_⟩
  · have hread : it.read ≠ 0 := hf.read ▸ hn
    unfold Iterator.decode
    rw [if_neg hread, hf.delta, hf.v, hf.leading, hf.trailing, hf.read]
    by_cases h1 : e.n = 1
    · simp only [if_pos h1] at hread₁ ⊢
      rw [hread₁]
      change (readValue e.v e.leading e.trailing r₁ >>= fun q => _) = _
      rw [hread₂]
      rfl
    · simp only [if_neg h1] at hread₁ ⊢
      obtain ⟨q, hdod, hq⟩ := Loops.bind_eq_ok.mp hread₁
      obtain ⟨hdelta, rfl⟩ := Prod.mk.inj (Except.ok.inj hq)
      rw [hdod]
      change (readValue e.v e.leading e.trailing q.2 >>= fun q' => _) = _
      rw [hread₂, hdelta]
      rfl
  · refine ⟨?_, hf.total, ?_, ?_, rfl, ?_, ?_, ?_, hf.err⟩
    · rw [hbits, ← List.append_assoc]
      exact hr₂
    · change it.read + 1 = e.n + 1
      rw [hf.read]
    · change it.t + (p.t - e.t) = p.t
      rw [hf.t, BitVec.add_comm, BitVec.sub_add_cancel]
    all_goals simp [Coder.step, hn, w]

/-- `Next` undoes one append. -/
theorem next_spec (hn : e.n < total) (hwin : WindowOk e.leading e.trailing)
    (hf : Follows e total pre (e.sampleBits p ++ rest) it) :
    ∃ it', it.next = (true, it') ∧ Follows (e.step p) total (pre ++ e.sampleBits p) rest it' := by
  have hdecode : ∃ it', it.decode = .ok it' ∧
      Follows (e.step p) total (pre ++ e.sampleBits p) rest it' := by
    by_cases h0 : e.n = 0
    · exact decode_first p h0 hf
    · exact decode_later p h0 hwin hf
  obtain ⟨it', hok, hf'⟩ := hdecode
  refine ⟨it', ?_, hf'⟩
  have hmore : ¬ (it.err ≠ none ∨ it.total ≤ it.read) := by
    rw [hf.err, hf.total, hf.read]
    simp only [ne_eq, not_true_eq_false, false_or]
    omega
  rw [Iterator.next, if_neg hmore, hok]

theorem Follows.next_done {bits : List Bool} (hf : Follows e total pre bits it)
    (htotal : e.n = total) :
    it.next = (false, it) := by
  rw [Iterator.next, if_pos (Or.inr (by rw [hf.total, hf.read, htotal]))]

theorem drainFrom_spec (ps : List Point) (fuel : ℕ) (hfuel : ps.length < fuel)
    (htotal : e.n + ps.length = total) (hwin : WindowOk e.leading e.trailing)
    (hf : Follows e total pre (e.runBits ps) it) :
    ∃ it', it.drainFrom fuel = (ps, it') ∧
      Follows (e.run ps) total (pre ++ e.runBits ps) [] it' := by
  induction ps generalizing e pre it fuel with
  | nil =>
    obtain ⟨fuel, rfl⟩ : ∃ f, fuel = f + 1 := ⟨fuel - 1, by omega⟩
    refine ⟨it, ?_, by simpa [Coder.run, Coder.runBits] using hf⟩
    rw [Iterator.drainFrom, hf.next_done htotal]
  | cons p rest ih =>
    obtain ⟨fuel, rfl⟩ : ∃ f, fuel = f + 1 := ⟨fuel - 1, by omega⟩
    rw [List.length_cons] at hfuel htotal
    obtain ⟨it₁, hnext, hf₁⟩ := next_spec p (by omega) hwin hf
    have hn₁ : (e.step p).n + rest.length = total := by
      change e.n + 1 + rest.length = total
      omega
    obtain ⟨it₂, hdrain, hf₂⟩ := ih fuel (by omega) hn₁ (e.windowOk_step p hwin) hf₁
    refine ⟨it₂, ?_, by simpa [Coder.run, Coder.runBits] using hf₂⟩
    rw [Iterator.drainFrom, hnext]
    simp only [hdrain, hf₁.t, hf₁.v]
    rfl

structure Encodes (ps : List Point) (h : Heap) (s : Slice) : Prop where
  valid : h.Valid s
  bytes : h.read s = putUint16 ps.length ++ pack (Coder.start.runBits ps)

theorem Encodes.len (he : Encodes ps h s) :
    s.len = headerLen + (pack (Coder.start.runBits ps)).length := by
  rw [← length_read h s he.valid, he.bytes, List.length_append]
  rfl

theorem Encodes.fromBytes_eq (he : Encodes ps h s) : fromBytes s = .ok ⟨⟨s, 0⟩, true⟩ := by
  have hlen := he.len
  rw [fromBytes, if_neg (by omega)]

theorem Encodes.numSamples_eq (he : Encodes ps h c.b.stream) (hn : ps.length ≤ maxSamplesPerChunk) :
    c.numSamples h = ps.length := by
  have hlen := he.len
  unfold maxSamplesPerChunk at hn
  rw [Chunk.numSamples, if_neg (by omega), Chunk.bytes, he.bytes, uint16_putUint16 _ _ (by omega)]

/-- A new iterator stands before all of the bits. -/
theorem Encodes.follows (he : Encodes ps h c.b.stream) (hn : ps.length ≤ maxSamplesPerChunk) :
    Follows Coder.start ps.length [] (Coder.start.runBits ps) (c.iterator h) := by
  have hlen := he.len
  have hnum := he.numSamples_eq hn
  have hit : c.iterator h =
      ⟨newBReader (pack (Coder.start.runBits ps)), ps.length, 0, 0, 0, 0, noWindow, 0, none⟩ := by
    rw [Chunk.iterator, if_neg (by omega), hnum, Chunk.bytes, he.bytes]
    rfl
  rw [hit]
  exact ⟨⟨rfl, rfl, le_rfl⟩, rfl, rfl, rfl, rfl, rfl, rfl, rfl, rfl⟩

/-- Iterating over an encoding yields its samples and ends behind its bits. -/
theorem Encodes.drain_spec (he : Encodes ps h c.b.stream) (hn : ps.length ≤ maxSamplesPerChunk) :
    ∃ it, (c.iterator h).drain = (ps, it) ∧
      Follows (Coder.start.run ps) ps.length (Coder.start.runBits ps) [] it := by
  have hf := he.follows hn
  have htotal : (c.iterator h).total = ps.length := hf.total
  unfold Iterator.drain
  rw [htotal]
  exact drainFrom_spec ps (ps.length + 1) (by omega) (Nat.zero_add _) (Or.inl rfl) hf

def writeFresh (h : Heap) (ps : List Point) : Except ChunkErr (Heap × Appender) := do
  let (h, a) ← (newChunk h).2.appender (newChunk h).1
  a.appendAll h ps

def Fits (ps : List Point) : Prop :=
  ps.length ≤ maxSamplesPerChunk ∧ ps.Pairwise (fun p q => p.t.toInt < q.t.toInt)

theorem Fits.accepts (hp : Fits ps) : Coder.start.Accepts ps :=
  ⟨by simpa [Coder.start] using hp.1, fun h => absurd rfl h, hp.2⟩

theorem Writes.encodes (hw : Writes (Coder.start.run ps) (Coder.start.runBits ps) h a) :
    Encodes ps h a.c.b.stream := by
  refine ⟨hw.holds.valid, ?_⟩
  have hb := hw.holds.bytes
  rw [Coder.run_n] at hb
  simpa [Coder.start] using hb

theorem writeFresh_spec (h : Heap) (hp : Fits ps) : ∃ h' a, writeFresh h ps = .ok (h', a) ∧
      Writes (Coder.start.run ps) (Coder.start.runBits ps) h' a := by
  obtain ⟨h₀, a₀, hnew, hw₀⟩ := newChunk_appender h
  obtain ⟨h₁, a₁, hall, hw₁, -⟩ := appendAll_spec hw₀ hp.accepts
  refine ⟨h₁, a₁, ?_, hw₁⟩
  rw [writeFresh, hnew]
  exact hall

/-- Round trip: appending an increasing list of samples to a fresh chunk
succeeds, and iterating over its bytes yields the list and ends without error. -/
theorem iterate_fromBytes_writeFresh (h : Heap) (ps : List Point)
    (hlen : ps.length ≤ maxSamplesPerChunk)
    (hasc : ps.Pairwise (fun p q => p.t.toInt < q.t.toInt)) :
    ∃ h' a c it, writeFresh h ps = .ok (h', a) ∧ a.c.numSamples h' = ps.length ∧
      fromBytes a.c.b.stream = .ok c ∧ c.bytes h' = a.c.bytes h' ∧
      (c.iterator h').drain = (ps, it) ∧ it.next = (false, it) ∧ it.err = none := by
  obtain ⟨h', a, hwrite, hw⟩ := writeFresh_spec h ⟨hlen, hasc⟩
  have he := hw.encodes
  obtain ⟨it, hdrain, hf⟩ := Encodes.drain_spec he hlen
  refine ⟨h', a, _, it, hwrite, he.numSamples_eq hlen, he.fromBytes_eq, rfl, hdrain, ?_, hf.err⟩
  exact hf.next_done (by rw [Coder.run_n]; exact Nat.zero_add _)

theorem iterate_fromBytes_writeFresh_wrapping :
    ∃ h' a c it, writeFresh ⟨0, fun _ => []⟩
        [⟨BitVec.intMin 64, 0#64⟩, ⟨0#64, 1#64⟩, ⟨BitVec.intMax 64, 1#64⟩] = .ok (h', a) ∧
      a.c.numSamples h' = 3 ∧ fromBytes a.c.b.stream = .ok c ∧ c.bytes h' = a.c.bytes h' ∧
      (c.iterator h').drain =
        ([⟨BitVec.intMin 64, 0#64⟩, ⟨0#64, 1#64⟩, ⟨BitVec.intMax 64, 1#64⟩], it) ∧
      it.next = (false, it) ∧ it.err = none :=
  iterate_fromBytes_writeFresh _ _ (by decide) (by decide)

end Ozymandias.ChunkRoundTrip
