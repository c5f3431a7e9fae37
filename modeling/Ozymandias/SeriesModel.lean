import Ozymandias.BitLists

/-!
Series, samples and the block grid, shared by the head, the log records and the
blocks. A string is a sequence of bytes. A series is identified by its key; the
sample's value is a 64-bit pattern, compared the way floating-point equality
does.
-/

namespace Ozymandias.SeriesModel

open BitLists

abbrev GoString := List Byte

instance memStringsDecidable (s : GoString) (l : List GoString) : Decidable (s ∈ l) := inferInstance

structure Tag where
  key : GoString
  value : GoString
  deriving DecidableEq

def colon : Byte := 0x3a

def comma : Byte := 0x2c

def bar : Byte := 0x7c

def Tag.string (t : Tag) : GoString :=
  if t.value = [] then t.key else t.key ++ [colon] ++ t.value

structure SeriesRef where
  metric : GoString
  tags : List Tag
  deriving DecidableEq

def SeriesRef.key (s : SeriesRef) : GoString :=
  s.metric ++ [bar] ++ [comma].intercalate (s.tags.map Tag.string)

structure Sample where
  t : ℤ
  v : BitVec 64
  deriving DecidableEq

structure SeriesSamples where
  series : SeriesRef
  samples : List Sample
  deriving DecidableEq

def isNaN (v : BitVec 64) : Bool :=
  v.extractLsb' 52 11 == BitVec.allOnes 11 && v.extractLsb' 0 52 != 0

def isZero (v : BitVec 64) : Bool := v.extractLsb' 0 63 == 0

/-- `==` on float64: NaN is unequal to everything, and the two zeros are equal. -/
def floatEq (v w : BitVec 64) : Bool := !isNaN v && !isNaN w && (v == w || isZero v && isZero w)

def blockOf (t rangeMs : ℤ) : ℤ :=
  let q := t.tdiv rangeMs
  if t.tmod rangeMs ≠ 0 ∧ (decide (t < 0) ≠ decide (rangeMs < 0)) then q - 1 else q

/-- It rounds towards negative infinity. -/
theorem blockOf_eq (t rangeMs : ℤ) (hr : 0 < rangeMs) : blockOf t rangeMs = t / rangeMs := by
  have hneg : decide (rangeMs < 0) = false := decide_eq_false (by omega)
  have hdvd : t.tmod rangeMs = 0 ↔ rangeMs ∣ t := Int.dvd_iff_tmod_eq_zero.symm
  have hsign : rangeMs.sign = 1 := Int.sign_eq_one_of_pos hr
  unfold blockOf
  rw [hneg, Int.tdiv_eq_ediv]
  by_cases ht : t < 0
  · by_cases hd : rangeMs ∣ t
    · rw [if_neg (by simp [hdvd, hd]), if_pos (Or.inr hd), Int.add_zero]
    · rw [if_pos (by simp [hdvd, hd, ht])]
      omega
  · rw [if_neg (by simp [ht]), if_pos (Or.inl (by omega)), Int.add_zero]

end Ozymandias.SeriesModel
