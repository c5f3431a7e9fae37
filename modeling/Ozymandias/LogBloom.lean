import Ozymandias.LogNeeds
import Ozymandias.WalFrame
import Mathlib.Data.List.Dedup

/-!
The filter of a block: every three-byte window of the block's texts, in lower
case, sets a few bits, and a literal may be present if the bits of all its
windows are set. Bits are only ever set, so a filter answers yes for every
window it was built from, whatever its size; the requirement of a query that a
log of the block satisfies therefore passes.
-/

namespace Ozymandias.LogBloom

open BitLists SeriesModel Utf8 WalFrame LogQuery LogPlan LogNeeds

variable {F : Type} (lib : Lib F)

def bloomK : ℕ := 4
def bloomBitsPerItem : ℕ := 8
def minBloomBytes : ℕ := 8
def maxBloomBytes : ℕ := 64 * 2 ^ 10
def bloomTrailerBytes : ℕ := 4

def trigram (a b c : Byte) : ℕ := a.toNat * 2 ^ 16 + b.toNat * 2 ^ 8 + c.toNat

def windows : GoString → List ℕ
  | a :: b :: c :: rest => trigram a b c :: windows (b :: c :: rest)
  | _ => []

def mix (t : ℕ) : BitVec 64 :=
  let x := BitVec.ofNat 64 t * 0x9E3779B97F4A7C15#64
  let x := x ^^^ (x >>> 29)
  let x := x * 0xBF58476D1CE4E5B9#64
  x ^^^ (x >>> 32)

def probes (t m : ℕ) : List ℕ :=
  let x := mix t
  let h1 := x.toNat % 2 ^ 32
  let h2 := (x >>> 32).toNat % 2 ^ 32 ||| 1
  (List.range bloomK).map (fun i => (h1 + i * h2) % m)

def setBit (bits : List Byte) (bit : ℕ) : List Byte :=
  bits.modify (bit / 8) (fun b => b ||| 1#8 <<< (bit % 8))

def getBit (bits : List Byte) (bit : ℕ) : Bool := bits.getD (bit / 8) 0 &&& 1#8 <<< (bit % 8) ≠ 0

def setAll (bits : List Byte) (positions : List ℕ) : List Byte := positions.foldl setBit bits

def seen (logs : List Log) : List ℕ :=
  ((logs.flatMap textsOf).flatMap (fun s => windows (toLower lib.case s))).dedup

def filterBytes (n : ℕ) : ℕ :=
  min (max ((n * bloomBitsPerItem + 7) / 8) minBloomBytes) maxBloomBytes

def filterBits (items : List ℕ) (nbytes : ℕ) : List Byte :=
  items.foldl (fun bits t => setAll bits (probes t (nbytes * 8))) (List.replicate nbytes 0)

def buildBloom (logs : List Log) : List Byte :=
  let items := seen lib logs
  let body := BitVec.ofNat 8 bloomK :: filterBits items (filterBytes items.length)
  body ++ putUint32 (crc32c body).toNat

def parseBloom (blob : List Byte) : Option (List Byte) :=
  if blob.length < 1 + minBloomBytes + bloomTrailerBytes ∨
    blob.head? ≠ some (BitVec.ofNat 8 bloomK) then
    none
  else
    let body := blob.take (blob.length - bloomTrailerBytes)
    if (crc32c body).toNat ≠ uint32 (blob.drop body.length) then none else some (body.drop 1)

def has (bits : List Byte) (t : ℕ) : Bool := (probes t (bits.length * 8)).all (getBit bits)

def hasLiteral (bits : List Byte) (lit : GoString) : Bool := (windows lit).all (has bits)

def mayMatch (bits : List Byte) (need : Need) : Bool :=
  need = [] || need.any (fun alt => alt.all (hasLiteral bits))

def ruledOut (blob : List Byte) (need : Need) : Bool :=
  need ≠ [] && ((parseBloom blob).map (fun bits => !mayMatch bits need)).getD false

variable {bit : ℕ} (bits : List Byte) {l : Log}

@[simp] theorem length_setBit (bit : ℕ) :
    (setBit bits bit).length = bits.length := List.length_modify _ _ _

theorem length_setAll (positions : List ℕ) : (setAll bits positions).length = bits.length := by
  unfold setAll
  induction positions generalizing bits with
  | nil => rfl
  | cons p positions ih => rw [List.foldl_cons, ih, length_setBit]

theorem getBit_iff (bit : ℕ) :
    getBit bits bit = true ↔ (bits.getD (bit / 8) 0).getLsbD (bit % 8) = true := by
  unfold getBit
  rw [decide_eq_true_eq, ← and_bit_ne_zero _ _ (Nat.mod_lt _ (by decide)), bne_iff_ne]
  exact Iff.rfl

theorem getD_setBit (bit k : ℕ) : (setBit bits bit).getD k 0 =
    if bit / 8 = k ∧ k < bits.length then
      bits.getD k 0 ||| 1#8 <<< (bit % 8) else bits.getD k 0 := by
  unfold setBit
  rw [List.getD_eq_getElem?_getD, List.getElem?_modify, List.getD_eq_getElem?_getD]
  by_cases hk : k < bits.length
  · by_cases heq : bit / 8 = k
    · simp [hk]
    · simp [heq]
  · simp [hk]

variable {bits : List Byte} {positions : List ℕ} {q : Option (Node F)}

/-- A bit that is set is read back. -/
theorem getBit_setBit_self (h : bit < bits.length * 8) : getBit (setBit bits bit) bit = true := by
  have hone : (1#8 <<< (bit % 8)).getLsbD (bit % 8) = true := by
    have hmod : bit % 8 < 8 := Nat.mod_lt _ (by decide)
    simp [hmod]
  rw [getBit_iff, getD_setBit, if_pos ⟨rfl, by omega⟩, BitVec.getLsbD_or, hone, Bool.or_true]

/-- No bit is ever cleared. -/
theorem getBit_setBit_of {bit' : ℕ} (h : getBit bits bit' = true) :
    getBit (setBit bits bit) bit' = true := by
  rw [getBit_iff] at h ⊢
  rw [getD_setBit]
  split
  next => rw [BitVec.getLsbD_or, h, Bool.true_or]
  next => exact h

theorem getBit_setAll_of (h : getBit bits bit = true) :
    getBit (setAll bits positions) bit = true := by
  induction positions generalizing bits with
  | nil => exact h
  | cons p positions ih => exact ih (getBit_setBit_of h)

theorem getBit_setAll_mem (hlt : bit < bits.length * 8) (h : bit ∈ positions) :
    getBit (setAll bits positions) bit = true := by
  unfold setAll
  induction positions generalizing bits with
  | nil => cases h
  | cons p positions ih =>
    rw [List.foldl_cons]
    rcases List.mem_cons.mp h with rfl | h
    · exact getBit_setAll_of (getBit_setBit_self hlt)
    · exact ih (by rw [length_setBit]; exact hlt) h

/-- A filter of any size has every window it was built from. -/
theorem filterBits_spec (items : List ℕ) {nbytes : ℕ} (hpos : 0 < nbytes) :
    (filterBits items nbytes).length = nbytes ∧
      ∀ t ∈ items, has (filterBits items nbytes) t = true := by
  have hfold : ∀ (items : List ℕ) (bits : List Byte), bits.length = nbytes →
      (items.foldl (fun bits t => setAll bits (probes t (nbytes * 8))) bits).length = nbytes ∧
        (∀ bit, getBit bits bit = true →
          getBit (items.foldl (fun bits t => setAll bits (probes t (nbytes * 8))) bits)
            bit = true) ∧
        ∀ t ∈ items, ∀ bit ∈ probes t (nbytes * 8),
          getBit (items.foldl (fun bits t => setAll bits (probes t (nbytes * 8))) bits)
            bit = true := by
    intro items
    induction items with
    | nil => exact fun bits hlen => ⟨hlen, fun _ h => h, by simp⟩
    | cons t items ih =>
      intro bits hlen
      obtain ⟨hlength, hkeep, hall⟩ :=
        ih (setAll bits (probes t (nbytes * 8))) (by rw [length_setAll]; exact hlen)
      refine ⟨hlength, fun bit h => hkeep bit (getBit_setAll_of h), fun t' ht' bit hbit => ?_⟩
      rcases List.mem_cons.mp ht' with rfl | ht'
      · refine hkeep bit (getBit_setAll_mem ?_ hbit)
        obtain ⟨i, -, rfl⟩ := List.mem_map.mp hbit
        rw [hlen]
        exact Nat.mod_lt _ (by omega)
      · exact hall t' ht' bit hbit
  obtain ⟨hlength, -, hall⟩ := hfold items (List.replicate nbytes 0) List.length_replicate
  refine ⟨hlength, fun t ht => ?_⟩
  unfold has
  rw [List.all_eq_true]
  intro bit hbit
  refine hall t ht bit ?_
  rwa [show (filterBits items nbytes).length = nbytes from hlength] at hbit

/-- What is built is read. -/
theorem parseBloom_buildBloom (logs : List Log) : parseBloom (buildBloom lib logs) =
    some (filterBits (seen lib logs) (filterBytes (seen lib logs).length)) := by
  have hbytes : minBloomBytes ≤ filterBytes (seen lib logs).length :=
    le_min (le_max_right _ _) (by decide)
  have hpos : 0 < filterBytes (seen lib logs).length := lt_of_lt_of_le (by decide) hbytes
  have hlen := (filterBits_spec (seen lib logs) hpos).1
  unfold buildBloom
  dsimp only
  generalize filterBits (seen lib logs) (filterBytes (seen lib logs).length) = bits at hlen ⊢
  set body := BitVec.ofNat 8 bloomK :: bits
  have hcrc : (putUint32 (crc32c body).toNat).length = 4 := rfl
  unfold parseBloom
  rw [if_neg]
  · have htake : (body ++ putUint32 (crc32c body).toNat).take
        ((body ++ putUint32 (crc32c body).toNat).length - bloomTrailerBytes) = body := by
      rw [List.length_append]
      exact List.take_left' rfl
    dsimp only
    rw [htake, List.drop_left]
    rw [if_neg (by rw [uint32_crc]; exact fun h => h rfl)]
    rfl
  · rw [not_or, not_not]
    refine ⟨?_, rfl⟩
    rw [List.length_append, List.length_cons]
    unfold bloomTrailerBytes
    omega

theorem windows_cons (a : Byte) (s : GoString) : windows s ⊆ windows (a :: s) := by
  match s with
  | [] => exact List.nil_subset _
  | [_] => exact List.nil_subset _
  | b :: c :: rest => exact List.subset_cons_self _ _

theorem windows_append_right (s t : GoString) : windows s ⊆ windows (s ++ t) := by
  match s with
  | [] => exact List.nil_subset _
  | [_] => exact List.nil_subset _
  | [_, _] => exact List.nil_subset _
  | a :: b :: c :: rest =>
    exact List.cons_subset_cons _ (windows_append_right (b :: c :: rest) t)

/-- The windows of a piece are windows of the whole. -/
theorem windows_infix {lit s : GoString} (h : lit <:+: s) : windows lit ⊆ windows s := by
  obtain ⟨a, b, rfl⟩ := h
  induction a with
  | nil => exact windows_append_right lit b
  | cons x a ih => exact List.Subset.trans ih (windows_cons x _)

theorem mayMatch_of_met {logs : List Log} (hl : l ∈ logs) {need : Need}
    (h : Met lib (textsOf l) need) :
    mayMatch (filterBits (seen lib logs) (filterBytes (seen lib logs).length)) need = true := by
  have hpos : 0 < filterBytes (seen lib logs).length :=
    lt_of_lt_of_le (by decide) (le_min (le_max_right _ _) (by decide))
  have hhas := (filterBits_spec (seen lib logs) hpos).2
  unfold mayMatch
  rcases h with rfl | ⟨alt, halt, hlits⟩
  · rfl
  rw [Bool.or_eq_true, List.any_eq_true]
  refine Or.inr ⟨alt, halt, List.all_eq_true.mpr (fun lit hlit => ?_)⟩
  obtain ⟨t, ht, hin⟩ := hlits lit hlit
  refine List.all_eq_true.mpr (fun w hw => hhas w ?_)
  refine List.mem_dedup.mpr (List.mem_flatMap.mpr ⟨t, ?_, windows_infix hin hw⟩)
  exact List.mem_flatMap.mpr ⟨l, hl, ht⟩

def streamNeed (plan : List (Branch F)) (ls : LabelSet) : Need :=
  orNeeds ((plan.filter (fun b => b.selects ls)).map (fun b => queryNeeds lib b.filter))

theorem queryNeeds_met (hq : ∀ s ∈ queryPatterns q, Valid s) (htexts : ∀ s ∈ textsOf l, Valid s)
    (h : compileQuery lib q l = true) : Met lib (textsOf l) (queryNeeds lib q) := by
  cases q with
  | none => exact Or.inl rfl
  | some n => exact needs_met lib n hq htexts h

/-- Some of the branches: a log that satisfies the scan part of one meets what they ask for
together. -/
theorem branches_met (hq : ∀ s ∈ queryPatterns q, Valid s) (htexts : ∀ s ∈ textsOf l, Valid s)
    {branches : List (Branch F)} (hsub : branches ⊆ split q) {b : Branch F} (hb : b ∈ branches)
    (h : compileQuery lib b.filter l = true) :
    Met lib (textsOf l) (orNeeds (branches.map (fun b => queryNeeds lib b.filter))) :=
  orNeeds_met lib (List.mem_map_of_mem hb)
    (queryNeeds_met lib (fun s hs => hq s (patterns_split (hsub hb) hs)) htexts h)

/-- For every block and every log of it: if the log satisfies the query, the block's filter passes
what the query asks for; if it satisfies the scan part of one of some branches, the filter passes
what these ask for together. A stream's block that is skipped has no log that the stream's
predicate accepts. -/
theorem filter_hides_nothing (q : Option (Node F)) (hq : ∀ s ∈ queryPatterns q, Valid s)
    (logs : List Log) (htexts : ∀ l ∈ logs, ∀ s ∈ textsOf l, Valid s) :
    (∀ l ∈ logs, ∃ bits, parseBloom (buildBloom lib logs) = some bits ∧
      (compileQuery lib q l = true → mayMatch bits (queryNeeds lib q) = true) ∧
      ∀ branches ⊆ split q, (∃ b ∈ branches, compileQuery lib b.filter l = true) →
        mayMatch bits (orNeeds (branches.map (fun b => queryNeeds lib b.filter))) = true) ∧
      ∀ ls, ruledOut (buildBloom lib logs) (streamNeed lib (split q) ls) = true →
        ∀ l ∈ logs, accepts lib (split q) ls l = false := by
  have hparse := parseBloom_buildBloom lib logs
  constructor
  · intro l hl
    refine ⟨_, hparse, fun h => mayMatch_of_met lib hl (queryNeeds_met lib hq (htexts l hl) h), ?_⟩
    rintro branches hsub ⟨b, hb, h⟩
    exact mayMatch_of_met lib hl (branches_met lib hq (htexts l hl) hsub hb h)
  · intro ls hout l hl
    by_contra hne
    rw [Bool.not_eq_false, accepts_eq_any, List.any_eq_true] at hne
    obtain ⟨b, hb, hpass⟩ := hne
    rw [Bool.and_eq_true] at hpass
    have hsub : (split q).filter (fun b => b.selects ls) ⊆ split q := List.filter_sublist.subset
    have hmay := mayMatch_of_met lib hl (branches_met lib hq (htexts l hl) hsub
      (List.mem_filter.mpr ⟨hb, hpass.1⟩) hpass.2)
    unfold ruledOut streamNeed at hout
    rw [hparse] at hout
    simp [hmay] at hout

/-- A log with a message and an attribute, and a search for a word of the one and all of the
other. -/
theorem word_passes :
    let l : Log := { bareLog [0x61] with
      message := [0x54, 0x69, 0x6d, 0x65, 0x6f, 0x75, 0x74]
      attrs := [([0x78], .str [0x64, 0x62, 0x31])] }
    let q : Option (Node Unit) :=
      some (.and [.text [0x74, 0x69, 0x6d, 0x65], .attr ⟨[0x78], .eq, [0x64, 0x62, 0x31], (), ()⟩])
    compileQuery plainLib q l = true ∧ ∃ bits, parseBloom (buildBloom plainLib [l]) = some bits ∧
      mayMatch bits (queryNeeds plainLib q) = true := by
  intro l q
  have hcompile : compileQuery plainLib q l = true := by decide
  have hq : ∀ s ∈ queryPatterns q, Valid s := by
    intro s hs
    rw [List.mem_singleton.mp hs]
    exact ⟨[0x64, 0x62, 0x31], by decide, by decide⟩
  have htexts : ∀ l' ∈ [l], ∀ s ∈ textsOf l', Valid s := by
    intro l' hl' s hs
    rw [List.mem_singleton.mp hl'] at hs
    rcases List.mem_pair.mp hs with rfl | rfl
    · exact ⟨[0x54, 0x69, 0x6d, 0x65, 0x6f, 0x75, 0x74], by decide, by decide⟩
    · exact ⟨[0x64, 0x62, 0x31], by decide, by decide⟩
  obtain ⟨bits, hparse, hmay, -⟩ :=
    (filter_hides_nothing plainLib q hq [l] htexts).1 l (List.mem_singleton.mpr rfl)
  exact ⟨hcompile, bits, hparse, hmay hcompile⟩

end Ozymandias.LogBloom
