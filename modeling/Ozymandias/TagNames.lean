import Ozymandias.IndexFile
import Ozymandias.LogQuery
import Ozymandias.MetricLex
import Ozymandias.MetricSelect

/-!
Normalized tags. The agent trims, lowers and repairs a tag and identifies a
context by the strings that result; the store parses them and prints them again.
A normalized tag is left alone by another pass and by the store unless it still
ends in a colon, which one trailing colon is not enough to prevent. Tags that the
store prints as they were keep contexts and series apart.
-/
namespace Ozymandias.TagNames

open BitLists Utf8 MetricLex LogQuery MetricSelect Selection TimeMerge Peaks
open SeriesModel (GoString Tag SeriesRef colon bar)

/-- Lower case as the language has it: it maps runes to runes, leaves what is lower case alone,
and only a colon becomes a colon. -/
structure Lowering extends CaseMap where
  rune : ∀ r, IsRune r → IsRune (lower r)
  idem : ∀ r, lower (lower r) = lower r
  colon : ∀ r, lower r = 58 → r = 58

def endsInColon (s : GoString) : Bool := s.getLast? = some colon

def trimColon (s : GoString) : GoString := if endsInColon s then s.dropLast else s

def needsLower (s : GoString) : Bool :=
  s.any (fun c => (0x41 ≤ c.toNat && c.toNat ≤ 0x5a) || 0x80 ≤ c.toNat)

def lowered (L : Lowering) (s : GoString) : GoString :=
  if needsLower s then toLower L.toCaseMap s else s

def keyStarts : GoString → Bool
  | [] => false
  | c :: rest => rest.length + 1 ≤ maxTagKeyLen && isLower c

def repairKey : GoString → GoString
  | [] => []
  | c :: rest => c :: rest.map (fun x => if isTagKeyChar x then x else Ascii.underscore)

def joinTag (key value : GoString) : GoString := if value = [] then key else key ++ [colon] ++ value

def repaired (tag : GoString) : GoString :=
  if validTagKey (splitTag tag).1 then
    tag else joinTag (repairKey (splitTag tag).1) (splitTag tag).2

def normalizeTag (L : Lowering) (s : GoString) : Option GoString :=
  let tag := trimColon s
  if encode (runes tag) ≠ tag then none
  else
    let tag := lowered L tag
    if !keyStarts (splitTag tag).1 then none
    else
      let tag := repaired tag
      if validTag tag then some tag else none

variable {L : Lowering} {s t : GoString} {c : Byte} {k m tag : GoString} {ts : List GoString}
  {u : GoString}

theorem encode_map_lower (L : Lowering) (rs : List ℕ) :
    encode (rs.map L.lower) = rs.flatMap (fun r => encodeRune (L.lower r)) := by
  unfold encode
  rw [List.flatMap_map]

variable {rs : List ℕ} {a b : GoString} {r : ℕ} {us : List GoString}

theorem lowered_encode (L : Lowering) (hrs : ∀ r ∈ rs, IsRune r) :
    lowered L (encode rs) = encode (rs.map L.lower) := by
  unfold lowered
  split_ifs with hneeds
  · rw [toLower_encode L.toCaseMap hrs, encode_map_lower]
  · have hsame : ∀ r ∈ rs, L.lower r = r := by
      intro r hr
      obtain ⟨b, bs, henc, -⟩ := encodeRune_spec (hrs r hr)
      have hb : b ∈ encodeRune r := henc ▸ List.mem_cons_self
      have hmem : b ∈ encode rs := List.mem_flatMap.mpr ⟨r, hr, hb⟩
      have hplain := List.any_eq_false.mp (Bool.eq_false_of_not_eq_true hneeds) b hmem
      simp only [Bool.or_eq_true, Bool.and_eq_true, decide_eq_true_eq] at hplain
      have heq := rune_of_ascii_byte (hrs r hr) hb (by omega)
      rw [L.ascii r (by omega), lowerAscii, if_neg (by omega)]
    rw [List.map_congr_left hsame, List.map_id']

def Lowest (L : Lowering) (t : GoString) : Prop :=
  ∃ ts, (∀ r ∈ ts, IsRune r ∧ L.lower r = r) ∧ t = encode ts

theorem Lowest.append (ha : Lowest L a) (hb : Lowest L b) : Lowest L (a ++ b) := by
  obtain ⟨as, has, rfl⟩ := ha
  obtain ⟨bs, hbs, rfl⟩ := hb
  exact ⟨as ++ bs, List.forall_mem_append.mpr ⟨has, hbs⟩, (encode_append as bs).symm⟩

theorem encode_colon : encode [58] = [colon] := rfl

theorem rune_of_colon (hr : IsRune r) (h : colon ∈ encodeRune r) : r = 58 :=
  rune_of_ascii_byte hr h (by decide)

theorem passes_of_notMem (h : colon ∉ k) : ∀ c ∈ k, decide (c ≠ colon) = true := by
  intro c hc
  refine decide_eq_true ?_
  rintro rfl
  exact h hc

/-- A string is split where its runes are. -/
theorem splitTag_encode {ts : List ℕ} (hts : ∀ r ∈ ts, IsRune r) : splitTag (encode ts) =
      (encode (ts.takeWhile (· ≠ 58)), encode ((ts.dropWhile (· ≠ 58)).drop 1)) := by
  induction ts with
  | nil => rfl
  | cons r ts ih =>
    by_cases hr : r = 58
    · subst hr
      rfl
    · have hpass := passes_of_notMem (fun hb => hr (rune_of_colon (hts r List.mem_cons_self) hb))
      have hrest := ih (List.forall_mem_cons.mp hts).2
      unfold splitTag at hrest ⊢
      rw [encode_cons, List.takeWhile_append_of_pos hpass, List.dropWhile_append_of_pos hpass]
      obtain ⟨hkey, hvalue⟩ := Prod.mk.inj hrest
      rw [hkey, hvalue, List.takeWhile_cons_of_pos (by simpa using hr),
        List.dropWhile_cons_of_pos (by simpa using hr)]
      rfl

theorem Lowest.value (h : Lowest L t) : Lowest L (splitTag t).2 := by
  obtain ⟨ts, hts, rfl⟩ := h
  rw [splitTag_encode (fun r hr => (hts r hr).1)]
  exact ⟨_, fun r hr => hts r ((List.dropWhile_suffix _).subset (List.mem_of_mem_drop hr)), rfl⟩

/-- The characters of a repaired key. -/
theorem mem_repairKey (h : keyStarts k = true) : ∀ c ∈ repairKey k, isTagKeyChar c = true := by
  cases k with
  | nil => cases h
  | cons c rest =>
    unfold keyStarts at h
    rw [Bool.and_eq_true] at h
    intro x hx
    rcases List.mem_cons.mp hx with rfl | hx
    · unfold isTagKeyChar
      rw [h.2]
      rfl
    · obtain ⟨y, -, rfl⟩ := List.mem_map.mp hx
      split_ifs with hy
      · exact hy
      · decide

theorem splitTag_of_split {v : GoString} (h : colon ∉ k) : splitTag (k ++ colon :: v) = (k, v) := by
  have hpass := passes_of_notMem h
  unfold splitTag
  rw [List.takeWhile_append_of_pos hpass, List.dropWhile_append_of_pos hpass]
  simp

theorem splitTag_of_notMem (h : colon ∉ t) : splitTag t = (t, []) := by
  have hpass := passes_of_notMem h
  unfold splitTag
  rw [List.takeWhile_eq_self_iff.mpr hpass, List.dropWhile_eq_nil_iff.mpr hpass]
  rfl

/-- A string is a key without a colon, or such a key and a value behind a colon. -/
theorem splitTag_cases (t : GoString) :
    (colon ∉ t ∧ splitTag t = (t, [])) ∨ ∃ k v, colon ∉ k ∧ t = k ++ colon :: v ∧
      splitTag t = (k, v) := by
  by_cases h : colon ∈ t
  · obtain ⟨k, v, rfl, hk⟩ := List.eq_append_cons_of_mem h
    exact .inr ⟨k, v, hk, rfl, splitTag_of_split hk⟩
  · exact .inl ⟨h, splitTag_of_notMem h⟩

theorem endsInColon_iff {s : GoString} : endsInColon s = true ↔ ∃ u, s = u ++ [colon] := by
  unfold endsInColon
  rw [decide_eq_true_eq, List.getLast?_eq_some_iff]

theorem endsInColon_append (hb : b ≠ []) : endsInColon (a ++ b) = endsInColon b := by
  unfold endsInColon
  rw [List.getLast?_append_of_ne_nil _ hb]

theorem not_endsInColon_of_notMem (h : colon ∉ s) : endsInColon s = false := by
  refine Bool.eq_false_of_not_eq_true (fun hends => ?_)
  obtain ⟨u, rfl⟩ := endsInColon_iff.mp hends
  exact h (List.mem_append_right _ List.mem_cons_self)

/-- A repaired tag ends in a colon if the tag does, unless it was a key to repair and one colon. -/
theorem endsInColon_repaired (h : keyStarts (splitTag tag).1 = true) :
    endsInColon (repaired tag) = true ↔ endsInColon tag = true ∧
      ¬ (validTagKey (splitTag tag).1 = false ∧ (splitTag tag).2 = []) := by
  have hrepair : endsInColon (repairKey (splitTag tag).1) = false :=
    not_endsInColon_of_notMem (fun hmem => absurd (mem_repairKey h _ hmem) (by decide))
  unfold repaired joinTag
  split_ifs with hvalid hvalue
  · rw [hvalid]
    exact ⟨fun hends => ⟨hends, fun hand => (by cases hand.1)⟩, And.left⟩
  · rw [hrepair]
    exact ⟨fun hfalse => (by cases hfalse),
      fun hand => absurd ⟨Bool.eq_false_of_not_eq_true hvalid, hvalue⟩ hand.2⟩
  · rcases splitTag_cases tag with ⟨-, hsplit⟩ | ⟨k, v, -, htag, hsplit⟩
    · rw [hsplit] at hvalue
      exact absurd rfl hvalue
    · rw [hsplit] at hvalue ⊢
      have hsame : endsInColon tag = endsInColon v := by
        rw [htag, List.append_cons, endsInColon_append hvalue]
      rw [endsInColon_append hvalue, hsame]
      exact ⟨fun hends => ⟨hends, fun hand => hvalue hand.2⟩, And.left⟩

theorem normalizeTag_eq_some : normalizeTag L s = some t ↔ Valid (trimColon s) ∧
      keyStarts (splitTag (lowered L (trimColon s))).1 = true ∧
      t = repaired (lowered L (trimColon s)) ∧ validTag t = true := by
  unfold normalizeTag
  dsimp only
  rw [← valid_iff]
  split_ifs with hutf hkey hvalid
  · exact ⟨fun h => (by cases h), fun h => absurd h.1 hutf⟩
  · rw [Bool.not_eq_true'] at hkey
    exact ⟨fun h => (by cases h), fun h => (by rw [hkey] at h; cases h.2.1)⟩
  · rw [Bool.not_eq_true', Bool.not_eq_false] at hkey
    refine ⟨fun h => ?_, fun h => by rw [h.2.2.1]⟩
    cases h
    exact ⟨not_not.mp hutf, hkey, rfl, hvalid⟩
  · exact ⟨fun h => (by cases h), fun h => absurd (h.2.2.1 ▸ h.2.2.2) hvalid⟩

theorem isRune_append_colon {us : List ℕ} (h : ∀ r ∈ us, IsRune r) : ∀ r ∈ us ++ [58], IsRune r :=
  List.forall_mem_append.mpr ⟨h, List.forall_mem_singleton.mpr (Or.inl (by decide))⟩

/-- What is in front of a last colon. -/
theorem Lowest.front (h : Lowest L (u ++ [colon])) (hu : Valid u) : Lowest L u := by
  obtain ⟨ts, hts, heq⟩ := h
  obtain ⟨us, hus, rfl⟩ := hu
  have hsame : ts = us ++ [58] := by
    rw [← runes_encode (fun r hr => (hts r hr).1), ← heq, ← encode_colon, ← encode_append]
    exact runes_encode (isRune_append_colon hus)
  refine ⟨us, fun r hr => hts r ?_, rfl⟩
  rw [hsame]
  exact List.mem_append_left _ hr

/-- A string that still ends in a colon without its last one stays so, unless it is a key to
repair and two colons. -/
def Settles (L : Lowering) (s : GoString) : Prop :=
  endsInColon (trimColon s) = false ∨
    ∃ k, s = k ++ [colon, colon] ∧ colon ∉ k ∧ validTagKey (lowered L k) = false

/-- The rune whose bytes end in a colon is the colon. -/
theorem eq_colon_of_endsInColon (hr : IsRune r)
    (h : endsInColon (encode (rs ++ [r])) = true) : r = 58 := by
  have hsingle : encode [r] = encodeRune r := List.append_nil _
  obtain ⟨b, bs, henc, -⟩ := encodeRune_spec hr
  rw [encode_append, hsingle, endsInColon_append (by rw [henc]; exact List.cons_ne_nil _ _)] at h
  obtain ⟨front, hfront⟩ := endsInColon_iff.mp h
  exact rune_of_colon hr (by rw [hfront]; exact List.mem_append_right _ List.mem_cons_self)

theorem runes_of_endsInColon (h : Valid (u ++ [colon])) :
    ∃ us, (∀ r ∈ us, IsRune r) ∧ u = encode us := by
  obtain ⟨rs, hrs, heq⟩ := h
  rcases List.eq_nil_or_concat' rs with rfl | ⟨us, r, rfl⟩
  · exact absurd heq (by simp [encode])
  · have hr : IsRune r := hrs r (List.mem_append_right _ List.mem_cons_self)
    have hcolon : r = 58 := eq_colon_of_endsInColon hr (endsInColon_iff.mpr ⟨u, heq.symm⟩)
    rw [hcolon, encode_append] at heq
    exact ⟨us, fun x hx => hrs x (List.mem_append_left _ hx), List.append_cancel_right heq⟩

theorem lowered_append_colon (h : Valid (u ++ [colon])) :
    lowered L (u ++ [colon]) = lowered L u ++ [colon] := by
  obtain ⟨us, hus, rfl⟩ := runes_of_endsInColon h
  have hlower : L.lower 58 = 58 := L.ascii 58 (by decide)
  rw [← encode_colon, ← encode_append, lowered_encode L (isRune_append_colon hus),
    lowered_encode L hus, List.map_append, encode_append, List.map_singleton, hlower]

theorem colon_mem_encode (hrs : ∀ r ∈ rs, IsRune r) : colon ∈ encode rs ↔ 58 ∈ rs := by
  constructor
  · intro h
    obtain ⟨r, hr, hb⟩ := List.mem_flatMap.mp h
    rw [← rune_of_colon (hrs r hr) hb]
    exact hr
  · intro h
    exact List.mem_flatMap.mpr ⟨58, h, List.mem_cons_self⟩

theorem colon_mem_lowered (h : Valid u) : colon ∈ lowered L u ↔ colon ∈ u := by
  obtain ⟨us, hus, rfl⟩ := h
  have hrunes : ∀ r ∈ us.map L.lower, IsRune r := by
    intro r hr
    obtain ⟨x, hx, rfl⟩ := List.mem_map.mp hr
    exact L.rune x (hus x hx)
  rw [lowered_encode L hus, colon_mem_encode hrunes, colon_mem_encode hus]
  constructor
  · intro hmem
    obtain ⟨x, hx, hlow⟩ := List.mem_map.mp hmem
    rw [← L.colon x hlow]
    exact hx
  · intro hmem
    exact List.mem_map.mpr ⟨58, hmem, L.ascii 58 (by decide)⟩

theorem endsInColon_lowered (h : Valid u) :
    endsInColon (lowered L u) = endsInColon u := by
  refine Bool.eq_iff_iff.mpr ⟨fun hends => ?_, fun hends => ?_⟩
  · obtain ⟨us, hus, rfl⟩ := h
    rw [lowered_encode L hus] at hends
    rcases List.eq_nil_or_concat' us with rfl | ⟨front, r, rfl⟩
    · exact hends
    · have hr := hus r (List.mem_append_right _ List.mem_cons_self)
      rw [List.map_append] at hends
      have hcolon : r = 58 := L.colon r (eq_colon_of_endsInColon (L.rune r hr) hends)
      rw [hcolon, encode_append]
      exact endsInColon_iff.mpr ⟨_, rfl⟩
  · obtain ⟨v, rfl⟩ := endsInColon_iff.mp hends
    rw [lowered_append_colon h]
    exact endsInColon_iff.mpr ⟨_, rfl⟩

theorem endsInColon_of_normalized (h : normalizeTag L s = some t) :
    endsInColon t = false ↔ Settles L s := by
  obtain ⟨hvalid, hkey, hrepaired, -⟩ := normalizeTag_eq_some.mp h
  have hends := endsInColon_repaired hkey
  rw [← hrepaired, endsInColon_lowered hvalid] at hends
  rw [← Bool.not_eq_true, hends, not_and_or, not_not, Bool.not_eq_true]
  refine or_congr_right' (fun htwo => ?_)
  rw [Bool.not_eq_false] at htwo
  obtain ⟨v, hv⟩ := endsInColon_iff.mp htwo
  have hs : s = v ++ [colon, colon] := by
    unfold trimColon at hv
    split_ifs at hv with hlast
    · obtain ⟨u, rfl⟩ := endsInColon_iff.mp hlast
      rw [List.dropLast_concat] at hv
      rw [hv, List.append_assoc]
      rfl
    · rw [hv] at hlast
      exact absurd (endsInColon_iff.mpr ⟨v, rfl⟩) hlast
  rw [hv] at hvalid ⊢
  have hv' : Valid v := runes_of_endsInColon hvalid
  rw [lowered_append_colon hvalid]
  constructor
  · rintro ⟨hbad, hempty⟩
    have hnot : colon ∉ lowered L v := by
      intro hmem
      obtain ⟨k, w, hsplit, hk⟩ := List.eq_append_cons_of_mem hmem
      rw [hsplit, List.append_assoc, List.cons_append, splitTag_of_split hk] at hempty
      exact absurd hempty (by simp)
    rw [splitTag_of_split hnot] at hbad
    exact ⟨v, hs, fun hmem => hnot ((colon_mem_lowered hv').mpr hmem), hbad⟩
  · rintro ⟨k, hk, hnot, hbad⟩
    have hsame : k = v := List.append_cancel_right (hk.symm.trans hs)
    rw [hsame] at hnot hbad
    have hnot' : colon ∉ lowered L v := fun hmem => hnot ((colon_mem_lowered hv').mp hmem)
    rw [splitTag_of_split hnot']
    exact ⟨hbad, rfl⟩

theorem parseTag_eq (t : GoString) : parseTag t = ⟨(splitTag t).1, (splitTag t).2⟩ := by
  unfold parseTag splitTag
  rw [List.drop_one]

/-- The store prints a tag as it was unless it is a key and a colon. -/
theorem string_parseTag : (parseTag t).string = t ↔ ¬ ∃ k, t = k ++ [colon] ∧ colon ∉ k := by
  rw [parseTag_eq]
  unfold Tag.string
  rcases splitTag_cases t with ⟨hnot, hsplit⟩ | ⟨k, v, hk, rfl, hsplit⟩
  · rw [hsplit]
    refine ⟨fun _ => ?_, fun _ => rfl⟩
    rintro ⟨k, rfl, -⟩
    exact hnot (List.mem_append_right _ List.mem_cons_self)
  · rw [hsplit]
    dsimp only
    split_ifs with hv
    · refine ⟨fun hsame => ?_, fun hnone => absurd ⟨k, by rw [hv], hk⟩ hnone⟩
      have hlen := congrArg List.length hsame
      rw [List.length_append, List.length_cons] at hlen
      omega
    · refine ⟨fun _ => ?_, fun _ => by rw [List.append_assoc]; rfl⟩
      rintro ⟨k', hsame, hk'⟩
      exact hv (separated_inj hk hk' hsame).2

theorem string_parseTag_of_not_endsInColon (h : endsInColon t = false) :
    (parseTag t).string = t := by
  refine string_parseTag.mpr ?_
  rintro ⟨k, rfl, -⟩
  rw [endsInColon_iff.mpr ⟨k, rfl⟩] at h
  cases h

theorem termOrder_injective {t t' : Tag}
    (h : IndexFile.termOrder t = IndexFile.termOrder t') : t = t' := by
  obtain ⟨hk, hv⟩ := Prod.mk.inj (toLex.injective h)
  cases t
  cases t'
  exact congrArg₂ Tag.mk (byteOrder_injective hk) (byteOrder_injective hv)

def rendered (t : GoString) : GoString := (parseTag t).string

def Kept (t : GoString) : Prop := validTag t = true ∧ rendered t = t

theorem kept_of_normalized (h : normalizeTag L s = some t) (hsettles : Settles L s) : Kept t :=
  ⟨(normalizeTag_eq_some.mp h).2.2.2,
    string_parseTag_of_not_endsInColon ((endsInColon_of_normalized h).mpr hsettles)⟩

def SettlesIfTag (L : Lowering) (s : GoString) : Prop :=
  ∀ t, normalizeTag L s = some t → Settles L s

theorem SettlesIfTag.kept (h : SettlesIfTag L s) (hnorm : normalizeTag L s = some t) : Kept t :=
  kept_of_normalized hnorm (h t hnorm)

end Ozymandias.TagNames
