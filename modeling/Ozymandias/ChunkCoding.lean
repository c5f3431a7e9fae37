import Ozymandias.GorillaChunk

/-!
One sample of a chunk as a bit list. Each half of a sample, the delta of deltas
and the XOR-coded value, is described once by the bits it stands for; the
writer emits exactly those bits and the reader turns them back into the number,
whatever the alignment of the stream.
-/

namespace Ozymandias.ChunkCoding

open BitLists BitStream BitReading GorillaChunk

def dodBitsIn : List DodBucket → BitVec 64 → List Bool
  | [], _ => []
  | k :: rest, dod =>
    if k.bits = 0 then
      if dod = 0#64 then lowBits k.codeBits k.code else dodBitsIn rest dod
    else if outOfRange k.bits dod then dodBitsIn rest dod
    else lowBits k.codeBits k.code ++ lowBits k.bits dod

def dodBits (dod : BitVec 64) : List Bool := dodBitsIn dodBuckets dod

theorem emits_writeDODIn (buckets : List DodBucket) (dod : BitVec 64)
    (hk : ∀ k ∈ buckets, k.codeBits ≤ 64 ∧ k.bits ≤ 64) :
    Emits (writeDODIn buckets dod) (dodBitsIn buckets dod) := by
  induction buckets with
  | nil => exact emits_id
  | cons k rest ih =>
    have hrest := ih (List.forall_mem_cons.mp hk).2
    obtain ⟨hcode, hbits⟩ := hk k List.mem_cons_self
    intro hdr bits s hs
    unfold writeDODIn dodBitsIn
    split
    · split
      · exact emits_writeBits k.code k.codeBits hcode hdr bits s hs
      · exact hrest hdr bits s hs
    · split
      · exact hrest hdr bits s hs
      · exact emits_comp (emits_writeBits k.code k.codeBits hcode)
          (emits_writeBits dod k.bits hbits) hdr bits s hs

variable (prev : BitVec 64) (leading trailing : ℕ) (v : BitVec 64) (dod : BitVec 64)
  (x : BitVec 64) {n ones : ℕ}

/-- One more one in front. -/
theorem reads_readOnes_cons {bits : List Bool} (hones : ones < 4)
    (h : Reads (readOnes (ones + 1)) bits n) : Reads (readOnes ones) (true :: bits) n := by
  intro pre rest r hr
  rw [readOnes, if_pos hones]
  exact reads_bind (reads_readBit true) h pre rest r hr

/-- The reader counts the ones in front of the terminating zero. -/
theorem reads_readOnes (j ones : ℕ) (hj : ones + j < 4) :
    Reads (readOnes ones) (List.replicate j true ++ [false]) (ones + j) := by
  induction j generalizing ones with
  | zero =>
    intro pre rest r hr
    rw [readOnes, if_pos (by omega)]
    exact reads_bind (reads_readBit false) (reads_pure ones) pre rest r hr
  | succ j ih =>
    rw [show ones + (j + 1) = ones + 1 + j by omega]
    exact reads_readOnes_cons (by omega) (ih (ones + 1) (by omega))

/-- Four ones need no terminator. -/
theorem reads_readOnes_four (j ones : ℕ) (hj : ones + j = 4) :
    Reads (readOnes ones) (List.replicate j true) 4 := by
  induction j generalizing ones with
  | zero =>
    intro pre rest r hr
    refine ⟨r, ?_, by simpa using hr⟩
    rw [readOnes, show ones = 4 by omega]
    rfl
  | succ j ih => exact reads_readOnes_cons (by omega) (ih (ones + 1) (by omega))

/-- A value in range is the sign extension of its low bits. -/
theorem signExtend_signExtend_of_inRange (n : ℕ) (dod : BitVec 64) (hn : 0 < n) (hn' : n < 64)
    (hin : outOfRange n dod = false) : (dod.signExtend n).signExtend 64 = dod := by
  obtain ⟨m, rfl⟩ : ∃ m, n = m + 1 := ⟨n - 1, by omega⟩
  simp only [outOfRange, hn', decide_true, Bool.true_and, Nat.add_sub_cancel,
    Bool.or_eq_false_iff, decide_eq_false_iff_not] at hin
  apply BitVec.eq_of_toInt_eq
  rw [BitVec.toInt_signExtend_of_le (by omega),
    BitVec.toInt_signExtend_eq_toInt_bmod_of_le dod (by omega)]
  have hpow : ((2 ^ (m + 1) : ℕ) : ℤ) = 2 * 2 ^ m := by
    push_cast
    exact pow_succ' 2 m
  apply Int.bmod_eq_of_le_mul_two
  · omega
  · omega

theorem signExtendTo64_lowBits (n : ℕ) (dod : BitVec 64) (hn : 0 < n) (hn' : n ≤ 64)
    (hin : outOfRange n dod = false) :
    signExtendTo64 n (ofBits 64 (lowBits n dod)) = dod := by
  by_cases h64 : n = 64
  · subst h64
    rw [signExtendTo64, if_neg (by omega), ofBits_lowBits]
  · have hlt : n < 64 := by omega
    have hext := signExtend_signExtend_of_inRange n dod hn hlt hin
    have hmsb : (dod.signExtend n).msb = dod.getLsbD (n - 1) := by
      rw [BitVec.msb_eq_getLsbD_last, BitVec.getLsbD_signExtend, if_pos (by omega),
        decide_eq_true (by omega : n - 1 < n), Bool.true_and]
    have hhigh : ∀ i, i < 64 → n ≤ i → dod.getLsbD i = dod.getLsbD (n - 1) := by
      intro i hi hni
      conv_lhs => rw [← hext]
      rw [BitVec.getLsbD_signExtend, if_neg (by omega), hmsb, decide_eq_true hi, Bool.true_and]
    have hsign := and_bit_ne_zero (ofBits 64 (lowBits n dod)) (n - 1) (by omega)
    rw [getLsbD_ofBits_lowBits _ _ _ (by omega)] at hsign
    apply BitVec.eq_of_getLsbD_eq
    intro i hi
    have hlow := getLsbD_ofBits_lowBits n dod i hi
    rw [signExtendTo64, hsign]
    by_cases hb : dod.getLsbD (n - 1) = true
    · rw [if_pos ⟨hlt, by simp [hb]; omega⟩, BitVec.getLsbD_or, hlow, BitVec.getLsbD_shiftLeft]
      by_cases hin' : i < n
      · simp [hin']
      · rw [hhigh i hi (by omega), hb, BitVec.getLsbD_allOnes]
        simp [hi, show i - n < 64 by omega]
    · rw [if_neg (by simp [hb]), hlow]
      by_cases hin' : i < n
      · simp [hin']
      · rw [hhigh i hi (by omega)]
        simp [hb]

/-- The payload of a size class behind its code word. -/
theorem reads_dodPayload {code : List Bool} (hcode : Reads (readOnes 0) code ones)
    (hones : ones ≠ 0)
    (hwidth : (if ones = 1 then 14 else if ones = 2 then 17 else if ones = 3 then 20 else 64) = n)
    (hn : 0 < n) (hn' : n ≤ 64) (hin : outOfRange n dod = false) :
    Reads readDOD (code ++ lowBits n dod) dod := by
  have hpayload := reads_map (reads_lowBits n dod) (signExtendTo64 n)
  rw [signExtendTo64_lowBits n dod hn hn' hin] at hpayload
  refine reads_bind hcode ?_
  simp only [if_neg hones, hwidth]
  exact hpayload

/-- The first size class that holds the value decides. -/
theorem reads_dodBitsIn {k : DodBucket} {rest : List DodBucket} {dod : BitVec 64}
    (hcode : Reads (readOnes 0) (lowBits k.codeBits k.code) ones) (hones : ones ≠ 0)
    (hwidth : (if ones = 1 then 14 else if ones = 2 then 17 else if ones = 3 then 20 else 64) =
      k.bits)
    (hn : 0 < k.bits) (hn' : k.bits ≤ 64)
    (hrest : outOfRange k.bits dod = true → Reads readDOD (dodBitsIn rest dod) dod) :
    Reads readDOD (dodBitsIn (k :: rest) dod) dod := by
  cases hin : outOfRange k.bits dod with
  | false =>
    have hpayload := reads_dodPayload dod hcode hones hwidth hn hn' hin
    simpa [dodBitsIn, hn.ne', hin] using hpayload
  | true => simpa [dodBitsIn, hn.ne', hin] using hrest hin

theorem reads_readDOD : Reads readDOD (dodBits dod) dod := by
  unfold dodBits dodBuckets
  by_cases h0 : dod = 0#64
  · subst h0
    exact reads_bind (reads_readOnes 0 0 (by omega)) (reads_pure 0#64)
  rw [show ∀ rest, dodBitsIn (⟨0b0, 1, 0⟩ :: rest) dod = dodBitsIn rest dod by
    simp [dodBitsIn, h0]]
  refine reads_dodBitsIn (reads_readOnes 1 0 (by omega)) (by omega) (by decide)
    (by decide) (by decide)
    fun _ => ?_
  refine reads_dodBitsIn (reads_readOnes 2 0 (by omega)) (by omega) (by decide)
    (by decide) (by decide)
    fun _ => ?_
  refine reads_dodBitsIn (reads_readOnes 3 0 (by omega)) (by omega) (by decide)
    (by decide) (by decide)
    fun _ => ?_
  refine reads_dodBitsIn (reads_readOnes_four 4 0 (by omega)) (by omega) (by decide) (by decide)
    (by decide) fun hout => ?_
  simp [outOfRange] at hout

def valueBits (prev : BitVec 64) (leading trailing : ℕ) (v : BitVec 64) : List Bool :=
  let x := v ^^^ prev
  if x = 0#64 then [false]
  else if reusesWindow leading trailing x then
    [true, false] ++ lowBits (64 - leading - trailing) (x >>> trailing)
  else
    let leading' := clampLeading x.clz.toNat
    let trailing' := x.ctz.toNat
    let sigbits := 64 - leading' - trailing'
    [true, true] ++ lowBits 5 (BitVec.ofNat 64 leading') ++
      lowBits 6 (BitVec.ofNat 64 sigbits &&& 0x3f#64) ++ lowBits sigbits (x >>> trailing')

def valueWindow (prev : BitVec 64) (leading trailing : ℕ) (v : BitVec 64) : ℕ × ℕ :=
  let x := v ^^^ prev
  if x = 0#64 ∨ reusesWindow leading trailing x = true then (leading, trailing)
  else (clampLeading x.clz.toNat, x.ctz.toNat)

def WindowOk (leading trailing : ℕ) : Prop :=
  leading = noWindow ∨ leading ≤ 31 ∧ leading + trailing < 64

theorem emits_writeValue : Emits (fun s => (writeValue prev leading trailing v s).1)
      (valueBits prev leading trailing v) := by
  unfold valueBits writeValue
  by_cases hx : v ^^^ prev = 0#64
  · simp only [hx]
    exact emits_writeBit false
  · by_cases hr : reusesWindow leading trailing (v ^^^ prev) = true
    · simp only [hx, hr, if_true]
      exact emits_comp (emits_comp (emits_writeBit true) (emits_writeBit false))
        (emits_writeBits _ _ (by omega))
    · simp only [hx, hr]
      exact emits_comp (emits_comp
        (emits_comp (emits_comp (emits_writeBit true) (emits_writeBit true))
        (emits_writeBits _ 5 (by omega))) (emits_writeBits _ 6 (by omega)))
        (emits_writeBits _ _ (by omega))

theorem writeValue_window (s : Buf) :
    (writeValue prev leading trailing v s).2 = valueWindow prev leading trailing v := by
  unfold valueWindow writeValue
  by_cases hx : v ^^^ prev = 0#64
  · simp [hx]
  · by_cases hr : reusesWindow leading trailing (v ^^^ prev) = true <;> simp [hx, hr]

theorem getLsbD_of_clz (i : ℕ) (hi : 64 - x.clz.toNat ≤ i) : x.getLsbD i = false := by
  apply Nat.testBit_lt_two_pow
  calc x.toNat < 2 ^ (64 - x.clz.toNat) := BitVec.toNat_lt_two_pow_sub_clz
    _ ≤ 2 ^ i := Nat.pow_le_pow_right (by omega) hi

/-- A nonzero word has its lowest one below its highest. -/
theorem clz_add_ctz_lt (hx : x ≠ 0#64) : x.clz.toNat + x.ctz.toNat < 64 := by
  by_contra hge
  have htrue := BitVec.getLsbD_true_ctz_of_ne_zero hx
  rw [getLsbD_of_clz x _ (by omega)] at htrue
  exact Bool.false_ne_true htrue

theorem clampLeading_le (n : ℕ) : clampLeading n ≤ n ∧ clampLeading n ≤ 31 := by
  unfold clampLeading
  split <;> omega

theorem windowOk_valueWindow (hw : WindowOk leading trailing) :
    WindowOk (valueWindow prev leading trailing v).1 (valueWindow prev leading trailing v).2 := by
  unfold valueWindow
  by_cases hkeep : v ^^^ prev = 0#64 ∨ reusesWindow leading trailing (v ^^^ prev) = true
  · rw [if_pos hkeep]
    exact hw
  · have hx : v ^^^ prev ≠ 0#64 := fun h => hkeep (Or.inl h)
    have hsum := clz_add_ctz_lt _ hx
    have hclamp := clampLeading_le (v ^^^ prev).clz.toNat
    rw [if_neg hkeep]
    exact Or.inr ⟨hclamp.2, by omega⟩

/-- The significant bits inside a window that covers the word give it back. -/
theorem shiftLeft_significant (leading trailing : ℕ) (hl : leading ≤ x.clz.toNat)
    (ht : trailing ≤ x.ctz.toNat) :
    ofBits 64 (lowBits (64 - leading - trailing) (x >>> trailing)) <<< trailing = x := by
  apply BitVec.eq_of_getLsbD_eq
  intro i hi
  rw [BitVec.getLsbD_shiftLeft]
  by_cases hlow : i < trailing
  · have hz : x.getLsbD i = false := BitVec.getLsbD_false_of_lt_ctz (by omega)
    simp [hlow, hz]
  · rw [getLsbD_ofBits_lowBits _ _ _ (by omega), BitVec.getLsbD_ushiftRight,
      show trailing + (i - trailing) = i by omega]
    by_cases hhigh : i < 64 - leading
    · simp [hi, hlow, show i - trailing < 64 - leading - trailing by omega]
    · rw [getLsbD_of_clz x i (by omega)]
      simp

theorem toNat_ofBits_lowBits (n : ℕ) (u : BitVec 64) (hn : n ≤ 64) :
    (ofBits 64 (lowBits n u)).toNat = u.toNat % 2 ^ n := by
  have heq : ofBits 64 (lowBits n u) = (u.setWidth n).setWidth 64 := by
    apply BitVec.eq_of_getLsbD_eq
    intro i hi
    rw [getLsbD_ofBits_lowBits _ _ _ hi, BitVec.getLsbD_setWidth]
    simp [hi]
  rw [heq, BitVec.toNat_setWidth, BitVec.toNat_setWidth]
  apply Nat.mod_eq_of_lt
  calc u.toNat % 2 ^ n < 2 ^ n := Nat.mod_lt _ (Nat.two_pow_pos n)
    _ ≤ 2 ^ 64 := Nat.pow_le_pow_right (by omega) hn

/-- A window description, with the full width written as 0. -/
theorem reads_readWindow (hl : leading ≤ 31) (hsum : leading + trailing < 64) :
    Reads readWindow (lowBits 5 (BitVec.ofNat 64 leading) ++
      lowBits 6 (BitVec.ofNat 64 (64 - leading - trailing) &&& 0x3f#64)) (leading, trailing) := by
  intro pre rest r hr
  obtain ⟨r₁, hread₁, hr₁⟩ := reads_lowBits 5 (BitVec.ofNat 64 leading) pre _ r
    (by simpa [List.append_assoc] using hr)
  obtain ⟨r₂, hread₂, hr₂⟩ := reads_lowBits 6
    (BitVec.ofNat 64 (64 - leading - trailing) &&& 0x3f#64) _ rest r₁ hr₁
  refine ⟨r₂, ?_, by simpa [List.append_assoc] using hr₂⟩
  have hlead : (ofBits 64 (lowBits 5 (BitVec.ofNat 64 leading))).toNat = leading := by
    rw [toNat_ofBits_lowBits _ _ (by omega), BitVec.toNat_ofNat]
    omega
  have hsig : (ofBits 64
    (lowBits 6 (BitVec.ofNat 64 (64 - leading - trailing) &&& 0x3f#64))).toNat =
        (64 - leading - trailing) % 64 := by
    rw [toNat_ofBits_lowBits _ _ (by omega), BitVec.toNat_and]
    change ((64 - leading - trailing) % 2 ^ 64 &&& (2 ^ 6 - 1)) % 2 ^ 6 = _
    rw [Nat.and_two_pow_sub_one_eq_mod]
    omega
  unfold readWindow
  rw [hread₁]
  change (readBits 6 r₁ >>= fun p => _) = _
  rw [hread₂]
  change Except.ok ((_, _), r₂) = Except.ok ((_, _), r₂)
  rw [hsig]
  congr 3
  split <;> omega

/-- The changed bits of a word that its window covers. -/
theorem reads_readSignificant (prev v : BitVec 64) (leading trailing : ℕ) (hl31 : leading ≤ 31)
    (hsum : leading + trailing < 64) (hl : leading ≤ (v ^^^ prev).clz.toNat)
    (ht : trailing ≤ (v ^^^ prev).ctz.toNat) :
    Reads (readSignificant prev leading trailing)
      (lowBits (64 - leading - trailing) ((v ^^^ prev) >>> trailing)) (v, leading, trailing) := by
  have hread := reads_map (reads_lowBits (64 - leading - trailing) ((v ^^^ prev) >>> trailing))
    (fun u => (prev ^^^ (u <<< trailing), leading, trailing))
  have hback : prev ^^^ (v ^^^ prev) = v := by
    rw [BitVec.xor_comm v prev, ← BitVec.xor_assoc, BitVec.xor_self, BitVec.zero_xor]
  rw [shiftLeft_significant _ _ _ hl ht, hback] at hread
  have hwidth : ((64 : ℤ) - leading - trailing).toNat = 64 - leading - trailing := by omega
  have hnone : leading ≠ noWindow := by
    unfold noWindow
    omega
  have hsize : ¬((64 : ℤ) - leading - trailing ≤ 0 ∨ (64 : ℤ) - leading - trailing > 64) := by omega
  unfold readSignificant
  simp only [if_neg hnone, if_neg hsize, hwidth]
  exact hread

/-- A changed value: the window flag, the window if it is new, then the bits. -/
theorem reads_readValue_changed {wbits sbits : List Bool} {leading' trailing' : ℕ}
    (prev v : BitVec 64) (leading trailing : ℕ) (fresh : Bool)
    (hwin : Reads (fun r => if fresh then readWindow r else pure ((leading, trailing), r)) wbits
      (leading', trailing'))
    (hsig : Reads (readSignificant prev leading' trailing') sbits (v, leading', trailing')) :
    Reads (readValue prev leading trailing) ([true] ++ ([fresh] ++ (wbits ++ sbits)))
      (v, leading', trailing') := by
  refine reads_bind (reads_readBit true) ?_
  refine reads_bind (reads_readBit fresh) ?_
  have hrest := reads_bind (k := fun p => readSignificant prev p.1.1 p.1.2 p.2) hwin hsig
  cases fresh <;> exact hrest

/-- Reading a value back, with the window it leaves for the next one. -/
theorem reads_readValue (hw : WindowOk leading trailing) :
    Reads (readValue prev leading trailing) (valueBits prev leading trailing v)
      (v, valueWindow prev leading trailing v) := by
  unfold valueBits valueWindow
  by_cases hx : v ^^^ prev = 0#64
  · have hv : v = prev := by simpa using hx
    subst hv
    simp only [hx, true_or]
    exact reads_bind (reads_readBit false) (reads_pure (v, leading, trailing))
  by_cases hreuse : reusesWindow leading trailing (v ^^^ prev) = true
  · simp only [hx, hreuse, or_true]
    simp only [reusesWindow, Bool.and_eq_true, bne_iff_ne, decide_eq_true_eq] at hreuse
    obtain ⟨⟨hnone, hl⟩, ht⟩ := hreuse
    obtain ⟨hl31, hsum⟩ := hw.resolve_left hnone
    exact reads_readValue_changed prev v leading trailing false (reads_pure _)
      (reads_readSignificant prev v leading trailing hl31 hsum (hl.trans (clampLeading_le _).1) ht)
  · rw [if_neg hx, if_neg hreuse, if_neg (by simp [hx, hreuse])]
    obtain ⟨hl, hl31⟩ := clampLeading_le (v ^^^ prev).clz.toNat
    have hsum := clz_add_ctz_lt _ hx
    have h := reads_readValue_changed prev v leading trailing true
      (reads_readWindow (clampLeading (v ^^^ prev).clz.toNat) (v ^^^ prev).ctz.toNat
        hl31 (by omega))
      (reads_readSignificant prev v _ _ hl31 (by omega) hl le_rfl)
    simpa only [List.cons_append, List.nil_append] using h

end Ozymandias.ChunkCoding
