import Ozymandias.BitStream

/-!
What the bit reader returns on a packed bit list. A reader that has consumed a
prefix of the list sees the rest of it; the two cursor states at a byte
boundary (no bit of the old byte unread, or the new byte untouched) denote the
same position. Reading undoes writing for bits, bytes and signed varints.
-/

namespace Ozymandias.BitReading

open BitLists BitStream

/-- The reader stands behind `pre` in the packed list `pre ++ rest`. -/
structure Sees (pre rest : List Bool) (r : BReader) : Prop where
  stream : r.stream = pack (pre ++ rest)
  cursor : 8 * r.pos + 8 = pre.length + r.count
  count_le : r.count ≤ 8

/-- `f` consumes exactly `out` and returns `a`, whatever surrounds it. -/
def Reads {α : Type} (f : BReader → Except ChunkErr (α × BReader)) (out : List Bool)
    (a : α) : Prop :=
  ∀ pre rest r, Sees pre (out ++ rest) r → ∃ r', f r = .ok (a, r') ∧ Sees (pre ++ out) rest r'

variable (bits : List Bool) (u : BitVec 64) {α : Type}

theorem reads_pure (a : α) : Reads (fun r => .ok (a, r)) [] a := by
  intro pre rest r hr
  exact ⟨r, rfl, by simpa using hr⟩

variable {a : α} {f : BReader → Except ChunkErr (α × BReader)} {out : List Bool} {β : Type}

/-- A read and what is read next. -/
theorem reads_bind {k : α × BReader → Except ChunkErr (β × BReader)} {out' : List Bool} {b : β}
    (hf : Reads f out a) (hk : Reads (fun r => k (a, r)) out' b) :
    Reads (fun r => f r >>= k) (out ++ out') b := by
  intro pre rest r hr
  rw [List.append_assoc] at hr
  obtain ⟨r₁, hf₁, hr₁⟩ := hf pre (out' ++ rest) r hr
  obtain ⟨r₂, hk₂, hr₂⟩ := hk (pre ++ out) rest r₁ hr₁
  rw [List.append_assoc] at hr₂
  refine ⟨r₂, ?_, hr₂⟩
  dsimp only
  rw [hf₁]
  exact hk₂

theorem reads_map (hf : Reads f out a) (g : α → β) :
    Reads (fun r => f r >>= fun p => .ok (g p.1, p.2)) out (g a) := by
  have h := reads_bind (k := fun p => .ok (g p.1, p.2)) hf (reads_pure (g a))
  rw [List.append_nil] at h
  exact h

variable (pre rest : List Bool) (bit : Bool)

/-- The bit under the cursor is the first bit of the rest. -/
theorem bit_at_cursor (pos k : ℕ) (hpos : pre.length = 8 * pos + k) (hk : k < 8) :
    ((pack (pre ++ bit :: rest)).getD pos 0).getLsbD (7 - k) = bit := by
  have hlen : pre.length < (pre ++ bit :: rest).length := by simp
  have hget := getMsbD_pack (pre ++ bit :: rest) pre.length hlen
  rw [show pre.length / 8 = pos by omega, show pre.length % 8 = k by omega,
    BitVec.getMsbD_eq_getLsbD] at hget
  simpa [hk] using hget

theorem byte_at_cursor (pos k : ℕ) (hpos : pre.length = 8 * pos + k) (hk : k < 8) :
    pos < (pack (pre ++ bit :: rest)).length := by
  simp only [length_pack, List.length_append, List.length_cons]
  omega

theorem reads_readBit : Reads readBit [bit] bit := by
  intro pre rest r hr
  have hstream := hr.stream
  have hcursor := hr.cursor
  have hcount := hr.count_le
  rw [List.singleton_append] at hstream
  by_cases h0 : r.count = 0
  · have hpos : pre.length = 8 * (r.pos + 1) + 0 := by omega
    have hin := byte_at_cursor pre rest bit (r.pos + 1) 0 hpos (by omega)
    have hbit := bit_at_cursor pre rest bit (r.pos + 1) 0 hpos (by omega)
    refine ⟨{ r with pos := r.pos + 1, count := 7 }, ?_, ⟨?_, ?_, ?_⟩⟩
    · simp only [readBit, h0, if_pos, hstream]
      rw [if_neg (by omega), if_neg (by omega)]
      rw [and_bit_ne_zero _ _ (by omega)]
      simpa using hbit
    · simpa using hstream
    · simp
      omega
    · simp
  · have hpos : pre.length = 8 * r.pos + (8 - r.count) := by omega
    have hin := byte_at_cursor pre rest bit r.pos (8 - r.count) hpos (by omega)
    have hbit := bit_at_cursor pre rest bit r.pos (8 - r.count) hpos (by omega)
    refine ⟨{ r with count := r.count - 1 }, ?_, ⟨?_, ?_, ?_⟩⟩
    · simp only [readBit, if_neg h0, hstream]
      rw [if_neg (by omega), and_bit_ne_zero _ _ (by omega)]
      rw [show 7 - (8 - r.count) = r.count - 1 by omega] at hbit
      rw [if_neg (by omega), hbit]
    · simpa using hstream
    · simp
      omega
    · simp
      omega

theorem reads_readEach :
    Reads (readEach bits.length u) bits (bits.foldl pushBit u) := by
  induction bits generalizing u with
  | nil => exact reads_pure u
  | cons bit bits ih => exact reads_bind (reads_readBit bit) (ih (pushBit u bit))

/-- Shifting a whole byte in is shifting in its eight bits. -/
theorem foldl_pushBit_byte (u : BitVec 64) (bits : List Bool) (hlen : bits.length = 8) :
    bits.foldl pushBit u = (u <<< 8) ||| (packByte bits).setWidth 64 := by
  apply BitVec.eq_of_getLsbD_eq
  intro i hi
  rw [getLsbD_foldl_pushBit bits u i hi, hlen, BitVec.getLsbD_or, BitVec.getLsbD_shiftLeft,
    BitVec.getLsbD_setWidth]
  by_cases hlt : i < 8
  · have hget := getMsbD_packByte bits (by omega) (7 - i) (by omega)
    rw [BitVec.getMsbD_eq_getLsbD] at hget
    simp only [show 8 - 1 - (7 - i) = i by omega, show 7 - i < 8 by omega, decide_true,
      Bool.true_and] at hget
    rw [hget]
    simp [hi, hlt]
  · rw [BitVec.getLsbD_of_ge (packByte bits) i (by omega)]
    simp [hi, hlt]

/-- The aligned fast path reads some whole bytes and hands over the others. -/
theorem readAligned_spec (r : BReader) (hr : Sees pre (bits ++ rest) r) :
    ∃ done todo r', bits = done ++ todo ∧
      readAligned bits.length u r = .ok (done.foldl pushBit u, todo.length, r') ∧
      Sees (pre ++ done) (todo ++ rest) r' := by
  induction hn : bits.length using Nat.strong_induction_on generalizing bits u pre r with
  | h n ih =>
    by_cases hgo : 8 ≤ n ∧ r.count = 8
    · have hsplit : bits = bits.take 8 ++ bits.drop 8 := (List.take_append_drop 8 bits).symm
      have htake : (bits.take 8).length = 8 := by simp; omega
      have hpos : pre.length = 8 * r.pos := by
        have := hr.cursor
        omega
      have hpack : r.stream = pack pre ++ packByte (bits.take 8) :: pack (bits.drop 8 ++ rest) := by
        have hne : bits ++ rest ≠ [] := by
          intro hnil
          rw [(List.append_eq_nil_iff.mp hnil).1, List.length_nil] at hn
          omega
        rw [hr.stream, pack_append r.pos pre _ hpos, pack_of_ne_nil _ hne,
          List.take_append_of_le_length (by omega), List.drop_append_of_le_length (by omega)]
      have hlenpre : (pack pre).length = r.pos := by simp; omega
      have hnext : Sees (pre ++ bits.take 8) (bits.drop 8 ++ rest) { r with pos := r.pos + 1 } := by
        refine ⟨?_, ?_, hr.count_le⟩
        · rw [List.append_assoc, ← List.append_assoc (bits.take 8), ← hsplit]
          exact hr.stream
        · rw [List.length_append, htake]
          change 8 * (r.pos + 1) + 8 = pre.length + 8 + r.count
          omega
      obtain ⟨done, todo, r', hdt, hread, hsees⟩ := ih (bits.drop 8).length (by simp; omega)
        (bits.drop 8) ((bits.take 8).foldl pushBit u) _ _ hnext rfl
      refine ⟨bits.take 8 ++ done, todo, r', ?_, ?_, ?_⟩
      · rw [List.append_assoc, ← hdt]
        exact hsplit
      · obtain ⟨n', rfl⟩ : ∃ n', n = n' + 8 := ⟨n - 8, by omega⟩
        rw [readAligned, if_pos hgo.2, if_neg (by rw [hpack]; simp; omega)]
        have hbyte : r.stream.getD r.pos 0 = packByte (bits.take 8) := by
          rw [hpack, List.getD_append_right _ _ _ _ (by omega), hlenpre]
          simp
        rw [hbyte, ← foldl_pushBit_byte u _ htake, List.foldl_append]
        rw [List.length_drop, hn] at hread
        exact hread
      · rw [← List.append_assoc]
        exact hsees
    · refine ⟨[], bits, r, rfl, ?_, by simpa using hr⟩
      unfold readAligned
      split
      next n' heq =>
        rw [if_neg (fun h8 => hgo ⟨by omega, h8⟩)]
        simp [hn]
      · simp [hn]

/-- Reading as many bits as were written gives them back. -/
theorem reads_readBits :
    Reads (readBits bits.length) bits (ofBits 64 bits) := by
  intro pre rest r hr
  obtain ⟨done, todo, r₁, hdt, hread, hsees⟩ := readAligned_spec bits 0 pre rest r hr
  obtain ⟨r₂, hread₂, hsees₂⟩ := reads_readEach todo (done.foldl pushBit 0) _ rest r₁ hsees
  refine ⟨r₂, ?_, ?_⟩
  · rw [readBits, hread]
    change readEach todo.length _ r₁ = _
    rw [hread₂, ← List.foldl_append, ← hdt]
    rfl
  · rw [List.append_assoc, ← hdt] at hsees₂
    exact hsees₂

theorem reads_lowBits {w : ℕ} (n : ℕ) (u : BitVec w) :
    Reads (readBits n) (lowBits n u) (ofBits 64 (lowBits n u)) := by
  have h := reads_readBits (lowBits n u)
  rw [length_lowBits] at h
  exact h

theorem reads_word : Reads (readBits 64) (lowBits 64 u) u := by
  have h := reads_lowBits 64 u
  rw [ofBits_lowBits] at h
  exact h

theorem reads_readByte (v : Byte) : Reads readByte (lowBits 8 v) v := by
  have h := reads_map (reads_lowBits 8 v) (fun u : BitVec 64 => u.setWidth 8)
  have hv : (ofBits 64 (lowBits 8 v)).setWidth 8 = v := by
    apply BitVec.eq_of_getLsbD_eq
    intro i hi
    rw [BitVec.getLsbD_setWidth, getLsbD_ofBits_lowBits _ _ _ (by omega)]
    simp [hi]
  rw [hv] at h
  exact h

theorem getLsbD_low7 (v : Byte) (i : ℕ) :
    (v &&& 0x7f#8).getLsbD i = (decide (i < 7) && v.getLsbD i) := by
  have hmask : ∀ j < 8, (0x7f#8).getLsbD j = decide (j < 7) := by decide
  rw [BitVec.getLsbD_and, Bool.and_comm]
  by_cases h8 : i < 8
  · rw [hmask i h8]
  · rw [BitVec.getLsbD_of_ge v i (by omega), Bool.and_false, Bool.and_false]

/-- A group of seven bits and the groups above it make the number. -/
theorem uvarint_step (shift : ℕ) (b : Byte) (hb : ∀ i, i < 7 → b.getLsbD i = u.getLsbD i) :
    ((b &&& 0x7f#8).setWidth 64 <<< shift) ||| ((u >>> 7) <<< (shift + 7)) = u <<< shift := by
  apply BitVec.eq_of_getLsbD_eq
  intro i hi
  rw [BitVec.getLsbD_or, BitVec.getLsbD_shiftLeft, BitVec.getLsbD_shiftLeft,
    BitVec.getLsbD_shiftLeft, BitVec.getLsbD_setWidth, getLsbD_low7]
  by_cases hlow : i < shift
  · simp [hlow, show i < shift + 7 by omega]
  · by_cases hmid : i < shift + 7
    · have h7 : i - shift < 7 := by omega
      simp [hmid, h7, hb _ h7, show i - shift < 64 by omega]
    · have h7 : ¬ i - shift < 7 := by omega
      have hidx : 7 + (i - (shift + 7)) = i - shift := by omega
      simp [hlow, hmid, h7, hidx]

theorem cont_byte_ge : 0x80 ≤ (u.setWidth 8 ||| 0x80#8).toNat := by
  have h : (u.setWidth 8 ||| 0x80#8).msb = true := by
    simp
    exact Or.inr (by decide)
  have := BitVec.msb_eq_true_iff_two_mul_ge.mp h
  omega

theorem reads_readUvarint (shift : ℕ) (acc : BitVec 64) (hshift : shift < 64)
    (hu : u.toNat < 2 ^ (64 - shift)) :
    Reads (readUvarint shift acc) (uvarintBits u) (acc ||| (u <<< shift)) := by
  induction u using uvarintBits.induct generalizing shift acc with
  | case1 u hge ih =>
    have hroom : 7 < 64 - shift := by
      by_contra hle
      have hpow : 2 ^ (64 - shift) ≤ 2 ^ 7 := Nat.pow_le_pow_right (by omega) (by omega)
      omega
    have hsmall : (u >>> 7).toNat < 2 ^ (64 - (shift + 7)) := by
      rw [BitVec.toNat_ushiftRight, Nat.shiftRight_eq_div_pow]
      apply Nat.div_lt_of_lt_mul
      rw [← Nat.pow_add, show 7 + (64 - (shift + 7)) = 64 - shift by omega]
      exact hu
    have hb : ∀ i, i < 7 → (u.setWidth 8 ||| 0x80#8).getLsbD i = u.getLsbD i := by
      intro i hi
      have hmask : ∀ j < 7, (0x80#8).getLsbD j = false := by decide
      rw [BitVec.getLsbD_or, hmask i hi]
      simp
      omega
    have hrec := ih (shift + 7)
      (acc ||| (((u.setWidth 8 ||| 0x80#8) &&& 0x7f#8).setWidth 64 <<< shift)) (by omega) hsmall
    rw [BitVec.or_assoc, uvarint_step u shift _ hb] at hrec
    rw [uvarintBits, if_pos hge]
    intro pre rest r hr
    rw [readUvarint, if_neg (by omega)]
    refine reads_bind (reads_readByte (u.setWidth 8 ||| 0x80#8)) ?_ pre rest r hr
    simp only [if_neg (not_lt.mpr (cont_byte_ge u))]
    exact hrec
  | case2 u hlt =>
    have hb : (u.setWidth 8).toNat < 0x80 := by
      rw [BitVec.toNat_setWidth]
      omega
    have hlow : ((u.setWidth 8 &&& 0x7f#8).setWidth 64 : BitVec 64) = u := by
      apply BitVec.eq_of_getLsbD_eq
      intro i hi
      rw [BitVec.getLsbD_setWidth, getLsbD_low7]
      by_cases h7 : i < 7
      · simp [hi, h7, show i < 8 by omega]
      · have hzero : u.getLsbD i = false := by
          apply Nat.testBit_lt_two_pow
          calc u.toNat < 2 ^ 7 := by omega
            _ ≤ 2 ^ i := Nat.pow_le_pow_right (by omega) (by omega)
        simp [hzero]
    rw [uvarintBits, if_neg hlt, ← List.append_nil (lowBits 8 _)]
    intro pre rest r hr
    rw [readUvarint, if_neg (by omega)]
    refine reads_bind (reads_readByte (u.setWidth 8)) ?_ pre rest r hr
    simp only [if_pos hb, hlow]
    exact reads_pure _

theorem unzigzag_zigzag (v : BitVec 64) : unzigzag (zigzag v) = v := by
  have hodd : ∀ u : BitVec 64, (u &&& 1#64 != 0#64) = u.getLsbD 0 := by
    intro u
    simpa using and_bit_ne_zero u 0 (by omega)
  unfold unzigzag zigzag
  rw [hodd, BitVec.slt_zero_eq_msb]
  cases hm : v.msb
  all_goals
    apply BitVec.eq_of_getLsbD_eq
    intro i hi
    rw [BitVec.msb_eq_getLsbD_last] at hm
    by_cases h63 : i = 63
    · subst h63
      simpa using hm.symm
    · simp [show 1 + i < 64 by omega, show i < 64 by omega]

theorem reads_readVarint (v : BitVec 64) : Reads readVarint (uvarintBits (zigzag v)) v := by
  have hu : (zigzag v).toNat < 2 ^ (64 - 0) := (zigzag v).isLt
  have h := reads_map (reads_readUvarint (zigzag v) 0 0 (by omega) hu) unzigzag
  have hz : (0#64 ||| zigzag v <<< 0) = zigzag v := by simp
  rw [show (0 : BitVec 64) = 0#64 from rfl, hz, unzigzag_zigzag] at h
  exact h

end Ozymandias.BitReading
