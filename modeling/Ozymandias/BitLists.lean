import Mathlib.Data.List.GetD
import Mathlib.Data.List.Induction
import Mathlib.Tactic.Ring

/-!
Bit lists, most significant bit first, and their packing into bytes. A value
contributes its low or its top bits, a fold over single bits rebuilds it, and
packing fills the last byte with zero bits. Appending behind a whole number of
bytes is concatenation, and any other append changes only the last byte.
-/

namespace Ozymandias.BitLists

abbrev Byte := BitVec 8

instance : LawfulBEq Byte := inferInstance

def lowBits {w : ℕ} (n : ℕ) (u : BitVec w) : List Bool :=
  (List.range n).map fun i => u.getLsbD (n - 1 - i)

def topBits {w : ℕ} (n : ℕ) (u : BitVec w) : List Bool :=
  (List.range n).map u.getMsbD

def pushBit {w : ℕ} (u : BitVec w) (bit : Bool) : BitVec w :=
  if bit then (u <<< 1) ||| 1#w else u <<< 1

def ofBits (w : ℕ) (bits : List Bool) : BitVec w := bits.foldl pushBit 0

variable (bits : List Bool) (n : ℕ) {w : ℕ} (u : BitVec w)

@[simp] theorem length_lowBits : (lowBits n u).length = n := by
  simp [lowBits]

@[simp] theorem length_topBits : (topBits n u).length = n := by
  simp [topBits]

theorem topBits_succ :
    topBits (n + 1) u = u.getMsbD 0 :: topBits n (u <<< 1) := by
  simp only [topBits, List.range_succ_eq_map, List.map_cons, List.map_map]
  congr 1
  apply List.map_congr_left
  intro i _
  simp only [Function.comp_apply, BitVec.getMsbD_shiftLeft]

theorem topBits_add (m n : ℕ) (u : BitVec w) :
    topBits (m + n) u = topBits m u ++ topBits n (u <<< m) := by
  simp only [topBits, List.range_add, List.map_append, List.map_map]
  congr 1
  apply List.map_congr_left
  intro i _
  simp [Nat.add_comm]

/-- Left-aligning the low bits of a word makes them its top bits. -/
theorem topBits_shiftLeft (hn : n ≤ w) :
    topBits n (u <<< (w - n)) = lowBits n u := by
  apply List.map_congr_left
  intro i hi
  have hi' : i < n := List.mem_range.mp hi
  rw [BitVec.getMsbD_shiftLeft, BitVec.getMsbD_eq_getLsbD]
  have hidx : w - 1 - (i + (w - n)) = n - 1 - i := by omega
  by_cases hin : i + (w - n) < w
  · simp [hin, hidx]
  · omega

theorem getLsbD_pushBit (bit : Bool) (i : ℕ) (hi : i < w) :
    (pushBit u bit).getLsbD i = if i = 0 then bit else u.getLsbD (i - 1) := by
  unfold pushBit
  rcases Nat.eq_zero_or_pos i with rfl | hpos
  · cases bit <;> simp [hi]
  · have h0 : i ≠ 0 := by omega
    have hprev : i - 1 < w := by omega
    cases bit <;> simp [h0, hi, BitVec.getLsbD_eq_getElem hprev]

/-- Every bit of a folded list is read back at its own weight, below the bits that were there. -/
theorem getLsbD_foldl_pushBit (i : ℕ) (hi : i < w) : (bits.foldl pushBit u).getLsbD i =
      if i < bits.length then bits.getD (bits.length - 1 - i) false else u.getLsbD
        (i - bits.length) := by
  induction bits using List.reverseRecOn generalizing i with
  | nil => simp
  | append_singleton bits bit ih =>
    rw [List.foldl_append, List.foldl_cons, List.foldl_nil, getLsbD_pushBit _ _ _ hi]
    by_cases h0 : i = 0
    · subst h0
      simp
    · rw [if_neg h0, ih (i - 1) (by omega), List.length_append, List.length_singleton]
      by_cases hlt : i - 1 < bits.length
      · rw [if_pos hlt, if_pos (by omega), List.getD_append _ _ _ _ (by omega)]
        congr 1
        omega
      · rw [if_neg hlt, if_neg (by omega)]
        congr 1
        omega

theorem getLsbD_ofBits (i : ℕ) (hi : i < w) : (ofBits w bits).getLsbD i =
      if i < bits.length then bits.getD (bits.length - 1 - i) false else false := by
  have h := getLsbD_foldl_pushBit bits (0 : BitVec w) i hi
  rwa [BitVec.ofNat_eq_ofNat, BitVec.getLsbD_zero] at h

theorem getD_lowBits (i : ℕ) (hi : i < n) : (lowBits n u).getD i false = u.getLsbD (n - 1 - i) := by
  simp [lowBits, hi]

/-- Folding the low bits of a value gives that value cut to them. -/
theorem getLsbD_ofBits_lowBits {v : ℕ} (u : BitVec v) (i : ℕ) (hi : i < w) :
    (ofBits w (lowBits n u)).getLsbD i = (decide (i < n) && u.getLsbD i) := by
  rw [getLsbD_ofBits _ _ hi, length_lowBits]
  by_cases hin : i < n
  · rw [getD_lowBits _ _ _ (by omega)]
    have hidx : n - 1 - (n - 1 - i) = i := by omega
    simp [hin, hidx]
  · simp [hin]

theorem ofBits_lowBits : ofBits w (lowBits w u) = u := by
  apply BitVec.eq_of_getLsbD_eq
  intro i hi
  rw [getLsbD_ofBits_lowBits _ _ _ hi]
  simp [hi]

/-- Testing a value against a mask of one bit. -/
theorem and_bit_ne_zero (k : ℕ) (hk : k < w) : (u &&& (1#w <<< k) != 0#w) = u.getLsbD k := by
  have hmask : 1#w <<< k = BitVec.twoPow w k := rfl
  rw [hmask, BitVec.and_twoPow]
  cases hbit : u.getLsbD k
  · simp
  · have hne : BitVec.twoPow w k ≠ 0#w := by
      intro h
      have hget := congrArg (fun v : BitVec w => v.getLsbD k) h
      simp [hk] at hget
    simpa using hne

def packByte (bits : List Bool) : Byte := ofBits 8 bits <<< (8 - bits.length)

theorem getMsbD_packByte (hlen : bits.length ≤ 8) (i : ℕ) (hi : i < 8) :
    (packByte bits).getMsbD i = bits.getD i false := by
  rw [BitVec.getMsbD_eq_getLsbD, packByte, BitVec.getLsbD_shiftLeft]
  by_cases hin : i < bits.length
  · have hsub : 8 - 1 - i - (8 - bits.length) = bits.length - 1 - i := by omega
    rw [hsub, getLsbD_ofBits _ _ (by omega), if_pos (by omega)]
    have hidx : bits.length - 1 - (bits.length - 1 - i) = i := by omega
    simp [hi, hidx]
    omega
  · have hlt : 8 - 1 - i < 8 - bits.length := by omega
    rw [List.getD_eq_default _ _ (by omega)]
    simp [hlt]

theorem byte_ext {a b : Byte} (h : ∀ i, i < 8 → a.getMsbD i = b.getMsbD i) : a = b := by
  apply BitVec.eq_of_getMsbD_eq
  exact fun i hi => h i hi

/-- Setting the next free bit of a partly filled byte. -/
theorem packByte_snoc (bit : Bool) (hlen : bits.length < 8) : packByte (bits ++ [bit]) =
      if bit then packByte bits ||| (1#8 <<< (7 - bits.length)) else packByte bits := by
  apply byte_ext
  intro i hi
  rw [getMsbD_packByte _ (by simp; omega) i hi]
  have hone : (1#8 <<< (7 - bits.length)).getMsbD i = decide (i = bits.length) := by
    by_cases heq : i = bits.length
    · subst heq
      simp
      omega
    · simp [heq]
      omega
  have hold : (packByte bits).getMsbD i = bits.getD i false :=
    getMsbD_packByte bits (by omega) i hi
  have hnew : (bits ++ [bit]).getD i false =
      if i = bits.length then bit else bits.getD i false := by
    by_cases heq : i = bits.length
    · subst heq
      simp
    · rw [if_neg heq]
      by_cases hlt : i < bits.length
      · exact List.getD_append _ _ _ _ hlt
      · rw [List.getD_eq_default _ _ (by simp; omega), List.getD_eq_default _ _ (by omega)]
  rw [hnew]
  cases bit
  · by_cases heq : i = bits.length
    · have hdef : bits.getD i false = false := List.getD_eq_default _ _ (by omega)
      rw [if_pos heq, if_neg (by simp), hold, hdef]
    · rw [if_neg heq, if_neg (by simp), hold]
  · rw [if_pos rfl, BitVec.getMsbD_or, hold, hone]
    by_cases heq : i = bits.length
    · simp [heq]
    · simp [heq]

def pack (bits : List Bool) : List Byte :=
  if bits = [] then [] else packByte (bits.take 8) :: pack (bits.drop 8)
termination_by bits.length
decreasing_by
  have hpos : 0 < bits.length := List.length_pos_iff.mpr ‹_›
  simp only [List.length_drop]
  omega

@[simp] theorem pack_nil : pack [] = [] := by rw [pack]; simp

theorem pack_of_ne_nil (h : bits ≠ []) :
    pack bits = packByte (bits.take 8) :: pack (bits.drop 8) := by
  rw [pack, if_neg h]

theorem pack_short (h : bits ≠ []) (hlen : bits.length ≤ 8) :
    pack bits = [packByte bits] := by
  rw [pack_of_ne_nil bits h, List.take_of_length_le hlen, List.drop_of_length_le hlen, pack_nil]

/-- Packing behind a whole number of bytes is concatenation. -/
theorem pack_append (k : ℕ) (pre bits : List Bool) (hpre : pre.length = 8 * k) :
    pack (pre ++ bits) = pack pre ++ pack bits := by
  induction k generalizing pre with
  | zero =>
    have hnil : pre = [] := List.length_eq_zero_iff.mp hpre
    simp [hnil]
  | succ k ih =>
    have hne : pre ≠ [] := by
      intro h
      simp [h] at hpre
    have hne' : pre ++ bits ≠ [] := by simp [hne]
    rw [pack_of_ne_nil _ hne', pack_of_ne_nil _ hne, List.take_append_of_le_length (by omega),
      List.drop_append_of_le_length (by omega), ih (pre.drop 8) (by simp; omega)]
    rfl

@[simp] theorem length_pack : (pack bits).length = (bits.length + 7) / 8 := by
  induction hn : bits.length using Nat.strongRecOn generalizing bits with
  | ind n ih =>
    by_cases h : bits = []
    · simp [h] at hn ⊢
      omega
    · have hpos : 0 < bits.length := List.length_pos_iff.mpr h
      rw [pack_of_ne_nil bits h, List.length_cons]
      have hrec := ih (bits.drop 8).length (by simp; omega) (bits.drop 8) rfl
      rw [hrec, List.length_drop]
      omega

/-- The whole bytes of a list and the bits of its last, unfinished byte. -/
theorem exists_split : ∃ pre tail, bits = pre ++ tail ∧ pre.length = 8 * (bits.length / 8) ∧
      tail.length = bits.length % 8 := by
  refine ⟨bits.take (8 * (bits.length / 8)), bits.drop (8 * (bits.length / 8)),
    (List.take_append_drop _ _).symm, ?_, ?_⟩
  · simp
    omega
  · simp
    omega

/-- Reading one bit back out of the packed bytes. -/
theorem getMsbD_pack (i : ℕ) (hi : i < bits.length) :
    ((pack bits).getD (i / 8) 0).getMsbD (i % 8) = bits.getD i false := by
  induction hn : bits.length using Nat.strongRecOn generalizing bits i with
  | ind n ih =>
    have hne : bits ≠ [] := by
      intro h
      simp [h] at hi
    rw [pack_of_ne_nil bits hne]
    by_cases hfirst : i < 8
    · have hdiv : i / 8 = 0 := by omega
      have hmod : i % 8 = i := by omega
      rw [hdiv, hmod, List.getD_cons_zero, getMsbD_packByte _ (List.length_take_le 8 bits) i hfirst]
      simp [hfirst]
    · have hdiv : i / 8 = (i - 8) / 8 + 1 := by omega
      have hmod : i % 8 = (i - 8) % 8 := by omega
      rw [hdiv, hmod, List.getD_cons_succ,
        ih (bits.drop 8).length (by simp; omega) (bits.drop 8) (i - 8) (by simp; omega) rfl]
      simp only [List.getD_eq_getElem?_getD, List.getElem?_drop]
      congr 2
      omega

theorem packByte_topBits (hw : 8 ≤ w) :
    packByte (topBits 8 u) = (u >>> (w - 8)).setWidth 8 := by
  apply byte_ext
  intro i hi
  rw [getMsbD_packByte _ (by simp) i hi]
  have hget : (topBits 8 u).getD i false = u.getMsbD i := by
    simp [topBits, hi]
  rw [hget, BitVec.getMsbD_eq_getLsbD, BitVec.getMsbD_eq_getLsbD, BitVec.getLsbD_setWidth]
  have hidx : w - 8 + (8 - 1 - i) = w - 1 - i := by omega
  simp [hi, hidx, show i < w by omega]
  omega

section Costs

variable {α β : Type} {f : α → List β}

/-- Each element costs at least `k` bytes. -/
theorem le_length_flatMap {k : ℕ} (h : ∀ a, k ≤ (f a).length) (as : List α) :
    k * as.length ≤ (as.flatMap f).length := by
  induction as with
  | nil => simp
  | cons a as ih =>
    have := h a
    rw [List.flatMap_cons, List.length_append, List.length_cons, Nat.mul_succ]
    omega

theorem length_le_flatMap (h : ∀ a, 0 < (f a).length) (as : List α) :
    as.length ≤ (as.flatMap f).length := by
  have := le_length_flatMap h as
  omega

end Costs

end Ozymandias.BitLists
