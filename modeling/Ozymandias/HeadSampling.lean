import Mathlib.Data.Rat.Floor
import Mathlib.Order.Interval.Set.Nat
import Ozymandias.Codings

/-!
Head sampling in three languages. A trace is kept when a hash of its id's low
half is below the rate. The agent and the Node library look at the last sixteen
units of an id of 32, in lower case; the Python library at all 32 characters, in
either case. They agree on an id that all accept or none does, and on every id
whose hash is not below the rate. The hash permutes the low halves, so that a rate
keeps its share of them.
-/

namespace Ozymandias.HeadSampling

open Codings

def samplingMultiplier : ℕ := 1111111111111111111

def hash (low : ℕ) : ℕ := low * samplingMultiplier % 2 ^ 64

def threshold (rate : ℚ) : ℕ := ⌊rate * 2 ^ 64⌋₊

def keeps (low : Option ℕ) (rate : ℚ) : Bool :=
  if ¬0 < rate then false
  else if 1 ≤ rate then true
  else
    match low with
    | none => false
    | some low => hash low < threshold rate

def isLowerHex (c : ℕ) : Bool := (48 ≤ c && c ≤ 57) || (97 ≤ c && c ≤ 102)
def isHex (c : ℕ) : Bool := isLowerHex c || (65 ≤ c && c ≤ 70)

def hexDigit (c : ℕ) : ℕ := if c ≤ 57 then c - 48 else if c ≤ 70 then c - 65 + 10 else c - 97 + 10

def hexFrom (low : ℕ) (s : List ℕ) : ℕ := s.foldl (fun low c => low * 16 + hexDigit c) low

def lowFrom (low : ℕ) : List ℕ → Option ℕ
  | [] => some low
  | c :: s =>
    if isLowerHex c then lowFrom ((low <<< 4 ||| hexDigit c) % 2 ^ 64) s else none

def lowGo (id : List ℕ) : Option ℕ := if id.length ≠ 32 then none else lowFrom 0 (id.drop 16)

def lowPy (id : List ℕ) : Option ℕ :=
  if id.length ≠ 32 ∨ ¬id.all isHex then none else some (hexFrom 0 (id.drop 16))

def lowNode (id : List ℕ) : Option ℕ :=
  if id.length ≠ 32 then none
  else if ¬(id.drop 16).all isLowerHex then none else some (hexFrom 0 (id.drop 16))

def sampleKeepGo (id : List ℕ) (rate : ℚ) : Bool := keeps (lowGo id) rate
def sampleKeepPy (id : List ℕ) (rate : ℚ) : Bool := keeps (lowPy id) rate
def sampleKeepNode (id : List ℕ) (rate : ℚ) : Bool := keeps (lowNode id) rate

def LowerId (units : List ℕ) : Prop := units.length = 32 ∧ ∀ u ∈ units.drop 16, isLowerHex u = true

def HexId (id : List ℕ) : Prop := id.length = 32 ∧ ∀ c ∈ id, isHex c = true

def lowHalf (id : List ℕ) : ℕ := hexFrom 0 (id.drop (id.length - 16))

variable {s id : List ℕ} {rate : ℚ} {low k : ℕ} {c : Coding}

theorem isLowerHex_iff {u : ℕ} : isLowerHex u = true ↔ 48 ≤ u ∧ u ≤ 57 ∨ 97 ≤ u ∧ u ≤ 102 := by
  simp [isLowerHex]

theorem bijOn_hexDigit : Set.BijOn hexDigit {u | isLowerHex u = true} (Set.Iio 16) := by
  simp only [isLowerHex_iff]
  refine ⟨fun u hu => ?_, fun u hu v hv huv => ?_, fun d hd => ?_⟩
  · rw [Set.mem_ofPred_eq] at hu
    unfold hexDigit
    rw [Set.mem_Iio]
    split_ifs <;> omega
  · rw [Set.mem_ofPred_eq] at hu hv
    unfold hexDigit at huv
    split_ifs at huv <;> omega
  · rw [Set.mem_Iio] at hd
    refine ⟨if d < 10 then 48 + d else 87 + d, ?_, ?_⟩
    · rw [Set.mem_ofPred_eq]
      split_ifs <;> omega
    · unfold hexDigit
      split_ifs <;> omega

/-- The shift and the bits set in it are a sum, and the wrap-around is lost in the hash. -/
theorem lowFrom_spec {low' : ℕ} (hmod : low ≡ low' [MOD 2 ^ 64])
    (h : ∀ u ∈ s, isLowerHex u = true) :
    ∃ v, lowFrom low s = some v ∧ v ≡ hexFrom low' s [MOD 2 ^ 64] := by
  induction s generalizing low low' with
  | nil => exact ⟨low, rfl, hmod⟩
  | cons c s ih =>
    obtain ⟨hc, hs⟩ := List.forall_mem_cons.mp h
    have hdigit : hexDigit c < 2 ^ 4 := bijOn_hexDigit.mapsTo hc
    rw [lowFrom, if_pos hc]
    refine ih ?_ hs
    rw [← Nat.shiftLeft_add_eq_or_of_lt hdigit, Nat.shiftLeft_eq]
    exact (Nat.mod_modEq _ _).trans ((hmod.mul_right _).add_right _)

theorem lowFrom_eq_none (h : ¬∀ u ∈ s, isLowerHex u = true) : lowFrom low s = none := by
  fun_induction lowFrom low s with
  | case1 => exact absurd nofun h
  | case2 low c s hc ih => exact ih fun hs => h (List.forall_mem_cons.mpr ⟨hc, hs⟩)
  | case3 => rfl

def Reads (low : Option ℕ) (accepted : Prop) (value : ℕ) : Prop :=
  (accepted → ∃ v, low = some v ∧ v ≡ value [MOD 2 ^ 64]) ∧ (¬accepted → low = none)

theorem Reads.keeps_iff {low : Option ℕ} {accepted : Prop} {value : ℕ}
    (h : Reads low accepted value) (hpos : 0 < rate) (hlt : rate < 1) :
    keeps low rate = true ↔ accepted ∧ hash value < threshold rate := by
  unfold keeps
  rw [if_neg (not_not.mpr hpos), if_neg (not_le.mpr hlt)]
  by_cases ha : accepted
  · obtain ⟨v, hv, hmod⟩ := h.1 ha
    have hhash : hash v = hash value := hmod.mul_right _
    simp [hv, ha, hhash]
  · simp [h.2 ha, ha]

/-- The last sixteen units of an accepted id are its last sixteen characters. -/
theorem lowHalf_of_lowerId (hid : IsText id) (h : LowerId (c.text id)) :
    hexFrom 0 ((c.text id).drop 16) = lowHalf id := by
  have hascii : ∀ u ∈ (c.text id).drop 16, u < 128 := by
    intro u hu
    have hlower := isLowerHex_iff.mp (h.2 u hu)
    omega
  obtain ⟨front, hfront, -⟩ := text_eq_append hid (List.take_append_drop 16 _).symm hascii
  have hlen : ((c.text id).drop 16).length = 16 := by rw [List.length_drop, h.1]
  unfold lowHalf
  generalize (c.text id).drop 16 = low at hfront hlen
  rw [hfront, List.length_append, hlen, Nat.add_sub_cancel, List.drop_left]

theorem lowGo_reads (hid : IsText id) :
    Reads (lowGo (c.text id)) (LowerId (c.text id)) (lowHalf id) := by
  unfold lowGo
  constructor
  · intro h
    rw [if_neg (not_not.mpr h.1), ← lowHalf_of_lowerId hid h]
    exact lowFrom_spec (Nat.ModEq.refl 0) h.2
  · intro h
    split
    · rfl
    next hlen =>
      exact lowFrom_eq_none fun hlow => h ⟨not_not.mp hlen, hlow⟩

theorem lowNode_reads (hid : IsText id) :
    Reads (lowNode (c.text id)) (LowerId (c.text id)) (lowHalf id) := by
  unfold lowNode
  constructor
  · intro h
    rw [if_neg (not_not.mpr h.1), if_neg (not_not.mpr (List.all_eq_true.mpr h.2)),
      lowHalf_of_lowerId hid h]
    exact ⟨_, rfl, Nat.ModEq.refl _⟩
  · intro h
    split
    · rfl
    next hlen =>
      exact if_pos fun hlow => h ⟨not_not.mp hlen, List.all_eq_true.mp hlow⟩

theorem lowPy_reads (id : List ℕ) : Reads (lowPy id) (HexId id) (lowHalf id) := by
  have hiff : (id.length ≠ 32 ∨ ¬id.all isHex) ↔ ¬HexId id := by
    rw [HexId, List.all_eq_true, not_and_or]
  unfold lowPy
  constructor
  · intro h
    rw [if_neg (fun hbad => hiff.mp hbad h), lowHalf, h.1]
    exact ⟨_, rfl, Nat.ModEq.refl _⟩
  · exact fun h => if_pos (hiff.mpr h)

/-- The tracers decide alike at rates that leave no choice, on ids that all of them accept or all
refuse, and where the hash drops the trace anyway. -/
theorem decisions_agree_iff (id : List ℕ) (hid : IsText id) (rate : ℚ) :
    (sampleKeepGo (utf8.text id) rate = sampleKeepPy id rate ∧
      sampleKeepNode (utf16.text id) rate = sampleKeepPy id rate) ↔
    rate ≤ 0 ∨ 1 ≤ rate ∨
      ((LowerId (utf8.text id) ↔ HexId id) ∧ (LowerId (utf16.text id) ↔ HexId id)) ∨
      threshold rate ≤ hash (lowHalf id) := by
  unfold sampleKeepGo sampleKeepNode sampleKeepPy
  rcases le_or_gt rate 0 with hzero | hpos
  · simp [keeps, hzero]
  rcases le_or_gt 1 rate with hone | hlt
  · simp [keeps, hone]
  have hgo := (lowGo_reads (c := utf8) hid).keeps_iff hpos hlt
  have hnode := (lowNode_reads (c := utf16) hid).keeps_iff hpos hlt
  have hpy := (lowPy_reads id).keeps_iff hpos hlt
  rw [or_iff_right (not_le.mpr hpos), or_iff_right (not_le.mpr hlt), Bool.eq_iff_iff,
    Bool.eq_iff_iff (a := keeps (lowNode _) rate), hgo, hnode, hpy, ← not_lt]
  by_cases hkept : hash (lowHalf id) < threshold rate
  · simp only [hkept, and_true, not_true, or_false]
  · simp only [hkept, and_false, not_false_eq_true, or_true, and_self]

def oddId : List ℕ := 103 :: List.replicate 31 48

theorem isText_oddId : IsText oddId := by
  unfold IsText
  decide

def plainId : List ℕ := List.replicate 31 48 ++ [102]

/-- An id that all three accept at a rate of one half, and one that Python refuses at a rate so
low that nothing is kept. -/
theorem decisions_agree_between :
    (sampleKeepGo (utf8.text plainId) (1 / 2) = sampleKeepPy plainId (1 / 2) ∧
      sampleKeepNode (utf16.text plainId) (1 / 2) = sampleKeepPy plainId (1 / 2)) ∧
    sampleKeepGo (utf8.text oddId) (1 / 2 ^ 65) = sampleKeepPy oddId (1 / 2 ^ 65) ∧
      sampleKeepNode (utf16.text oddId) (1 / 2 ^ 65) = sampleKeepPy oddId (1 / 2 ^ 65) := by
  have hplain : IsText plainId := by
    unfold IsText
    decide
  have hgo : LowerId (utf8.text plainId) := by
    unfold LowerId
    decide
  have hnode : LowerId (utf16.text plainId) := by
    unfold LowerId
    decide
  have hpy : HexId plainId := by
    unfold HexId
    decide
  have hzero : threshold (1 / 2 ^ 65) = 0 := by
    unfold threshold
    rw [Nat.floor_eq_zero]
    norm_num
  refine ⟨(decisions_agree_iff plainId hplain (1 / 2)).mpr (.inr (.inr (.inl ?_))),
    (decisions_agree_iff oddId isText_oddId (1 / 2 ^ 65)).mpr (.inr (.inr (.inr ?_)))⟩
  · exact ⟨iff_of_true hgo hpy, iff_of_true hnode hpy⟩
  · rw [hzero]
    exact Nat.zero_le _

/-- An id whose first half is not hexadecimal is refused in Python only. -/
theorem odd_id_splits : sampleKeepGo (utf8.text oddId) (1 / 2) = true ∧
    sampleKeepNode (utf16.text oddId) (1 / 2) = true ∧ sampleKeepPy oddId (1 / 2) = false := by
  have hpy : lowPy oddId = none := by decide
  have hthreshold : 0 < threshold (1 / 2) := by
    unfold threshold
    norm_num
  have hkeeps : keeps (some 0) (1 / 2) = true := by
    unfold keeps
    rw [if_neg (by norm_num), if_neg (by norm_num)]
    exact decide_eq_true hthreshold
  unfold sampleKeepGo sampleKeepNode sampleKeepPy
  rw [hpy]
  refine ⟨hkeeps, hkeeps, ?_⟩
  unfold keeps
  rw [if_neg (by norm_num), if_neg (by norm_num)]

def lowerTexts (k : ℕ) : Set (List ℕ) := {s | s.length = k ∧ ∀ u ∈ s, isLowerHex u = true}

theorem mem_lowerTexts_succ :
    s ∈ lowerTexts (k + 1) ↔ ∃ t ∈ lowerTexts k, ∃ u, isLowerHex u = true ∧ s = t ++ [u] := by
  constructor
  · rintro ⟨hlen, hs⟩
    obtain ⟨t, u, rfl⟩ := (List.eq_nil_or_concat' s).resolve_left (by rintro rfl; cases hlen)
    obtain ⟨ht, hu⟩ := List.forall_mem_append.mp hs
    exact ⟨t, ⟨by simpa using hlen, ht⟩, u, hu u List.mem_cons_self, rfl⟩
  · rintro ⟨t, ⟨hlen, ht⟩, u, hu, rfl⟩
    exact ⟨by simp [hlen], List.forall_mem_append.mpr ⟨ht, by simpa using hu⟩⟩

theorem hexFrom_append (t : List ℕ) (u : ℕ) :
    hexFrom 0 (t ++ [u]) = hexFrom 0 t * 16 + hexDigit u :=
  List.foldl_append

/-- Every number of so many digits has one text. -/
theorem bijOn_hexFrom (k : ℕ) : Set.BijOn (hexFrom 0) (lowerTexts k) (Set.Iio (16 ^ k)) := by
  induction k with
  | zero =>
    have hnil : lowerTexts 0 = {[]} := by
      ext s
      simp +contextual [lowerTexts]
    rw [hnil]
    simp [hexFrom]
  | succ k ih =>
    refine ⟨fun s hs => ?_, fun s hs s' hs' heq => ?_, fun n hn => ?_⟩
    · obtain ⟨t, ht, u, hu, rfl⟩ := mem_lowerTexts_succ.mp hs
      have hdigit := bijOn_hexDigit.mapsTo hu
      have hfront := ih.mapsTo ht
      rw [Set.mem_Iio] at hdigit hfront ⊢
      rw [hexFrom_append, pow_succ]
      omega
    · obtain ⟨t, ht, u, hu, rfl⟩ := mem_lowerTexts_succ.mp hs
      obtain ⟨t', ht', u', hu', rfl⟩ := mem_lowerTexts_succ.mp hs'
      have hdigit := bijOn_hexDigit.mapsTo hu
      have hdigit' := bijOn_hexDigit.mapsTo hu'
      rw [Set.mem_Iio] at hdigit hdigit'
      rw [hexFrom_append, hexFrom_append] at heq
      obtain rfl := ih.injOn ht ht' (by omega)
      obtain rfl := bijOn_hexDigit.injOn hu hu' (by omega)
      rfl
    · rw [Set.mem_Iio, pow_succ] at hn
      obtain ⟨t, ht, hfront⟩ :=
        ih.surjOn (Set.mem_Iio.mpr (Nat.div_lt_of_lt_mul (Nat.mul_comm _ 16 ▸ hn)))
      obtain ⟨u, hu, hdigit⟩ := bijOn_hexDigit.surjOn (Nat.mod_lt n (by decide))
      refine ⟨t ++ [u], mem_lowerTexts_succ.mpr ⟨t, ht, u, hu, rfl⟩, ?_⟩
      rw [hexFrom_append, hfront, hdigit]
      omega

/-- The multiplier is odd, so that the hash permutes the low halves. -/
theorem bijOn_hash : Set.BijOn hash (Set.Iio (2 ^ 64)) (Set.Iio (2 ^ 64)) := by
  have hmaps : Set.MapsTo hash (Set.Iio (2 ^ 64)) (Set.Iio (2 ^ 64)) :=
    fun x _ => Nat.mod_lt _ (by norm_num)
  refine ((Set.finite_Iio _).injOn_iff_bijOn_of_mapsTo hmaps).mp (fun x hx y hy hxy => ?_)
  have hodd : Nat.Coprime (2 ^ 64) samplingMultiplier := by decide
  exact (Nat.ModEq.cancel_right_of_coprime hodd hxy).eq_of_lt_of_lt hx hy

theorem ncard_below {α : Type} {f : α → ℕ} {A : Set α} {n t : ℕ} (h : Set.BijOn f A (Set.Iio n))
    (ht : t ≤ n) : {a ∈ A | f a < t}.ncard = t := by
  have himage : f '' {a ∈ A | f a < t} = Set.Iio t := by
    ext x
    constructor
    · rintro ⟨a, ⟨-, ha⟩, rfl⟩
      exact ha
    · intro hx
      obtain ⟨a, ha, rfl⟩ := h.surjOn (lt_of_lt_of_le hx ht)
      exact ⟨a, ⟨ha, hx⟩, rfl⟩
  rw [← (h.injOn.mono (Set.sep_subset A _)).ncard_image, himage, Set.ncard_Iio_nat]

theorem keeps_mono {low : Option ℕ} {rate rate' : ℚ} (hle : rate ≤ rate')
    (h : keeps low rate = true) :
    keeps low rate' = true := by
  unfold keeps at h ⊢
  have hpos : 0 < rate := by
    by_contra hnot
    rw [if_pos hnot] at h
    cases h
  rw [if_neg (not_not.mpr (hpos.trans_le hle))]
  rcases le_or_gt 1 rate' with hone | hlt
  · exact if_pos hone
  · rw [if_neg (not_not.mpr hpos), if_neg (not_le.mpr (hle.trans_lt hlt))] at h
    rw [if_neg (not_le.mpr hlt)]
    cases low with
    | none => exact h
    | some low =>
      refine decide_eq_true (lt_of_lt_of_le (of_decide_eq_true h) (Nat.floor_mono ?_))
      exact mul_le_mul_of_nonneg_right hle (by norm_num)

/-- Of the low halves that complete an id, a rate keeps its share, and a higher rate keeps them
too. -/
theorem share_kept (high : List ℕ) (hhigh : high.length = 16) (rate : ℚ) (hpos : 0 < rate)
    (hlt : rate < 1) :
    (lowerTexts 16).ncard = 2 ^ 64 ∧
      {low ∈ lowerTexts 16 | sampleKeepGo (high ++ low) rate = true}.ncard = ⌊rate * 2 ^ 64⌋₊ ∧
      ∀ id r r', r ≤ r' → sampleKeepGo id r = true → sampleKeepGo id r' = true := by
  have hbij : Set.BijOn (hash ∘ hexFrom 0) (lowerTexts 16) (Set.Iio (2 ^ 64)) :=
    bijOn_hash.comp ((show (16 : ℕ) ^ 16 = 2 ^ 64 by norm_num) ▸ bijOn_hexFrom 16)
  have hle : threshold rate ≤ 2 ^ 64 := by
    refine Nat.floor_le_of_le ?_
    exact_mod_cast mul_le_of_le_one_left (by norm_num) hlt.le
  refine ⟨?_, ?_, fun id r r' => keeps_mono⟩
  · rw [← hbij.injOn.ncard_image, hbij.image_eq, Set.ncard_Iio_nat]
  · refine Eq.trans ?_ (ncard_below hbij hle)
    congr 1
    ext low
    refine and_congr_right (fun hlow => ?_)
    have hreads : Reads (lowGo (high ++ low)) True (hexFrom 0 low) := by
      refine ⟨fun _ => ?_, fun hnot => absurd trivial hnot⟩
      rw [lowGo, if_neg (by simp [hhigh, hlow.1]), List.drop_left' hhigh]
      exact lowFrom_spec (Nat.ModEq.refl 0) hlow.2
    rw [Function.comp_apply]
    exact (hreads.keeps_iff hpos hlt).trans (and_iff_right trivial)

/-- Of the ids that share a first half, half are kept at rate one half. -/
theorem share_kept_half : (0 : ℚ) < 1 / 2 ∧ (1 / 2 : ℚ) < 1 ∧
    {low ∈ lowerTexts 16 | sampleKeepGo (List.replicate 16 48 ++ low) (1 / 2) = true}.ncard =
      ⌊(1 / 2 : ℚ) * 2 ^ 64⌋₊ :=
  ⟨by norm_num, by norm_num,
    (share_kept (List.replicate 16 48) rfl (1 / 2) (by norm_num) (by norm_num)).2.1⟩

end Ozymandias.HeadSampling
