import Mathlib.Data.List.TakeWhile
import Ozymandias.Codings

/-!
The route a request is filed under. The agent and the Node library look at a
segment's code units one by one and keep four flags; the Python library matches
regular expressions. Each works on its own language's units, bytes, UTF-16 units
or code points. The three write the same route for every path, and a route is
written as itself.
-/

namespace Ozymandias.Routes

open Utf8 Substrings Codings

def isDigit (c : ℕ) : Bool := 48 ≤ c && c ≤ 57
def isHexLetter (c : ℕ) : Bool := (97 ≤ c && c ≤ 102) || (65 ≤ c && c ≤ 70)
def isAlpha (c : ℕ) : Bool := (97 ≤ c && c ≤ 122) || (65 ≤ c && c ≤ 90)
def isHex (c : ℕ) : Bool := isDigit c || isHexLetter c
def isNano (c : ℕ) : Bool := isDigit c || isAlpha c || c == 95 || c == 45

def uuidAt (i c : ℕ) : Bool := if i = 8 ∨ i = 13 ∨ i = 18 ∨ i = 23 then c == 45 else isHex c

def uuidFrom (i : ℕ) : List ℕ → Bool
  | [] => true
  | c :: s => uuidAt i c && uuidFrom (i + 1) s

def isUUID (s : List ℕ) : Bool := s.length == 36 && uuidFrom 0 s

structure Flags where
  digits : Bool
  hex : Bool
  nano : Bool
  hasDigit : Bool

def Flags.see (f : Flags) (c : ℕ) : Flags where
  digits := if isDigit c then f.digits else false
  hex := if !isDigit c && !isHexLetter c then false else f.hex
  nano := if !isDigit c && !isAlpha c && c != 95 && c != 45 then false else f.nano
  hasDigit := if isDigit c then true else f.hasDigit

def isIDSegment (s : List ℕ) : Bool :=
  if s = [] then false
  else
    let f := s.foldl Flags.see ⟨true, true, true, false⟩
    f.digits || isUUID s || (f.hex && 12 ≤ s.length) || (f.nano && 16 ≤ s.length && f.hasDigit)

def repeated (n : ℕ) (cls : ℕ → Bool) (s : List ℕ) : Bool := n ≤ s.length && s.all cls

def fullmatch : List (ℕ → Bool) → List ℕ → Bool
  | [], [] => true
  | cls :: classes, c :: s => cls c && fullmatch classes s
  | _, _ => false

def uuid : List (ℕ → Bool) :=
  let dash : ℕ → Bool := (· == 45)
  .replicate 8 isHex ++ dash :: .replicate 4 isHex ++ dash :: .replicate 4 isHex ++
    dash :: .replicate 4 isHex ++ dash :: .replicate 12 isHex

def isIdSegment (s : List ℕ) : Bool :=
  if s = [] then false
  else repeated 1 isDigit s || fullmatch uuid s || repeated 12 isHex s ||
    (repeated 16 isNano s && s.any isDigit)

def slash : ℕ := 47
def idText : List ℕ := [58, 105, 100]

def endsPath (c : ℕ) : Bool := c == 63 || c == 35

def trimSlash : List ℕ → List ℕ
  | [] => []
  | c :: path => if c = slash then path else c :: path

def segments (path : List ℕ) : List (List ℕ) := (trimSlash path).splitOn slash

def normalizeWith (isID : List ℕ → Bool) (path : List ℕ) : List ℕ :=
  let path := path.takeWhile (fun c => !endsPath c)
  if path = [] ∨ path = [slash] then [slash]
  else slash :: [slash].intercalate
    (((segments path).take 8).map fun s => if isID s then idText else s)

def normalizePath : List ℕ → List ℕ := normalizeWith isIDSegment

def normalizePathNode : List ℕ → List ℕ := normalizeWith isIDSegment

def normalizePathPy : List ℕ → List ℕ := normalizeWith isIdSegment

/-- What a route is: rooted, short, cut, free of ids, and written as itself. -/
structure Route (isID : List ℕ → Bool) (q : List ℕ) : Prop where
  rooted : q.head? = some slash
  short : (segments q).length ≤ 8
  uncut : ∀ c ∈ q, endsPath c = false
  named : ∀ s ∈ segments q, isID s = false
  stable : normalizeWith isID q = q

theorem see_eq (f : Flags) (c : ℕ) :
    f.see c = ⟨f.digits && isDigit c, f.hex && isHex c, f.nano && isNano c, f.hasDigit ||
      isDigit c⟩ := by
  unfold Flags.see isHex isNano bne
  cases isDigit c <;> cases isHexLetter c <;> cases isAlpha c <;> cases c == 95 <;>
    cases c == 45 <;> simp

/-- The loop's flags, read off the whole segment. -/
theorem foldl_see (f : Flags) (s : List ℕ) :
    s.foldl Flags.see f = ⟨f.digits && s.all isDigit, f.hex && s.all isHex, f.nano && s.all isNano,
      f.hasDigit || s.any isDigit⟩ := by
  induction s generalizing f with
  | nil => simp
  | cons c s ih => simp [ih, see_eq, Bool.and_assoc, Bool.or_assoc]

variable {s : List ℕ}

theorem length_of_fullmatch {classes : List (ℕ → Bool)} (h : fullmatch classes s = true) :
    classes.length = s.length := by
  induction classes generalizing s with
  | nil =>
    cases s with
    | nil => rfl
    | cons => cases h
  | cons cls classes ih =>
    cases s with
    | nil => cases h
    | cons c s =>
      rw [fullmatch, Bool.and_eq_true] at h
      rw [List.length_cons, List.length_cons, ih h.2]

theorem fullmatch_uuidAt (i : ℕ) (s : List ℕ) :
    fullmatch ((List.range' i s.length).map uuidAt) s = uuidFrom i s := by
  induction s generalizing i with
  | nil => rfl
  | cons c s ih =>
    rw [List.length_cons, List.range'_succ, List.map_cons, fullmatch, ih]
    rfl

theorem fullmatch_uuid (s : List ℕ) : fullmatch uuid s = isUUID s := by
  have huuid : uuid = (List.range' 0 36).map uuidAt := rfl
  unfold isUUID
  by_cases hlen : s.length = 36
  · rw [huuid, ← hlen, fullmatch_uuidAt, hlen]
    rfl
  · rw [beq_false_of_ne hlen, Bool.false_and, Bool.eq_false_iff]
    exact fun h => hlen (length_of_fullmatch h).symm

theorem isIDSegment_eq (s : List ℕ) : isIDSegment s = isIdSegment s := by
  unfold isIDSegment isIdSegment
  rw [foldl_see, fullmatch_uuid]
  split
  next => rfl
  next hs =>
    have hlen : 1 ≤ s.length := List.length_pos_iff.mpr hs
    simp only [repeated, hlen, decide_true, Bool.true_and, Bool.false_or]
    rw [Bool.and_comm (s.all isHex), Bool.and_comm (s.all isNano)]

theorem isNano_of_isHex {u : ℕ} (h : isHex u = true) : isNano u = true := by
  simp only [isHex, isNano, isDigit, isHexLetter, isAlpha, Bool.or_eq_true, Bool.and_eq_true,
    decide_eq_true_eq] at h ⊢
  omega

theorem isNano_of_uuidFrom {i : ℕ} (h : uuidFrom i s = true) : ∀ u ∈ s, isNano u = true := by
  induction s generalizing i with
  | nil => exact nofun
  | cons c s ih =>
    rw [uuidFrom, Bool.and_eq_true] at h
    have hc : isNano c = true := by
      have hat := h.1
      unfold uuidAt at hat
      split at hat
      · simp [isNano, hat]
      · exact isNano_of_isHex hat
    exact List.forall_mem_cons.mpr ⟨hc, ih h.2⟩

theorem isNano_of_isId (h : isIdSegment s = true) : ∀ u ∈ s, isNano u = true := by
  rw [← isIDSegment_eq] at h
  unfold isIDSegment at h
  rw [foldl_see] at h
  split at h
  · cases h
  simp only [isUUID, Bool.true_and, Bool.or_eq_true, Bool.and_eq_true, List.all_eq_true] at h
  rcases h with ((hdigits | huuid) | hhex) | hnano
  · exact fun u hu => isNano_of_isHex (by simp [isHex, hdigits u hu])
  · exact isNano_of_uuidFrom huuid.2
  · exact fun u hu => isNano_of_isHex (hhex.1 u hu)
  · exact hnano.1.1

theorem ascii_of_isId (h : isIdSegment s = true) : ∀ u ∈ s, u < 128 := by
  intro u hu
  have hnano := isNano_of_isId h u hu
  simp only [isNano, isDigit, isAlpha, Bool.or_eq_true, Bool.and_eq_true, decide_eq_true_eq,
    beq_iff_eq] at hnano
  omega

variable {c : Coding} {p : List ℕ}

theorem isIdSegment_text (hp : IsText p) : isIdSegment (c.text p) = isIdSegment p :=
  Bool.eq_iff_iff.mpr (text_iff (P := fun t => isIdSegment t = true)
    (fun _ h => ascii_of_isId h) hp)

theorem trimSlash_text (hp : IsText p) : trimSlash (c.text p) = c.text (trimSlash p) := by
  cases p with
  | nil => rfl
  | cons r p =>
    have htext : c.text (r :: p) = c.units r ++ c.text p := List.flatMap_cons
    rw [trimSlash]
    split
    next hr =>
      rw [htext, hr, c.ascii slash (by decide), List.singleton_append, trimSlash, if_pos rfl]
    next hr =>
      have hrune : IsRune r := hp r List.mem_cons_self
      obtain ⟨u, us, hunits⟩ := List.exists_cons_of_ne_nil (c.ne_nil r hrune)
      have hu : u ≠ slash := by
        rintro rfl
        exact not_mem_units (by decide) hrune hr (hunits ▸ List.mem_cons_self)
      rw [htext, hunits, List.cons_append, trimSlash, if_neg hu]

theorem trimSlash_subset (p : List ℕ) : trimSlash p ⊆ p := by
  cases p with
  | nil => exact List.Subset.refl _
  | cons r p =>
    rw [trimSlash]
    split
    · exact List.subset_cons_self r p
    · exact List.Subset.refl _

theorem mem_of_mem_segments {r : ℕ} (h : s ∈ segments p) (hr : r ∈ s) : r ∈ p :=
  trimSlash_subset p ((isInfix_of_mem_splitOn h).subset hr)

theorem segments_text (hp : IsText p) : segments (c.text p) = (segments p).map c.text := by
  unfold segments
  rw [trimSlash_text hp, splitOn_text (by decide)]
  exact fun r hr => hp r (trimSlash_subset p hr)

/-- Segments, each after a slash. -/
theorem cons_intercalate (s : List ℕ) (segs : List (List ℕ)) :
    slash :: [slash].intercalate (s :: segs) = (s :: segs).flatMap (slash :: ·) := by
  induction segs generalizing s with
  | nil => simp
  | cons t segs ih =>
    rw [List.intercalate_cons_cons, List.flatMap_cons, ← ih, List.append_assoc]
    rfl

theorem text_join (segs : List (List ℕ)) (h : segs ≠ []) :
    c.text (slash :: [slash].intercalate segs) = slash :: [slash].intercalate
      (segs.map c.text) := by
  obtain ⟨s, segs, rfl⟩ := List.exists_cons_of_ne_nil h
  rw [cons_intercalate, List.map_cons, cons_intercalate, ← List.map_cons, List.flatMap_map]
  unfold Coding.text
  rw [List.flatMap_assoc]
  simp only [List.flatMap_cons, c.ascii slash (by decide), List.singleton_append]

theorem normalize_text (hp : IsText p) :
    normalizePathPy (c.text p) = c.text (normalizePathPy p) := by
  unfold normalizePathPy normalizeWith
  have hends : ∀ u, endsPath u = true → u < 128 := by
    intro u hu
    simp only [endsPath, Bool.or_eq_true, beq_iff_eq] at hu
    omega
  rw [takeWhile_text hends hp]
  have hp : IsText (p.takeWhile fun u => !endsPath u) :=
    fun r hr => hp r (List.takeWhile_subset _ hr)
  generalize (p.takeWhile fun u => !endsPath u) = q at hp
  have hroot : c.text q = [] ∨ c.text q = [slash] ↔ q = [] ∨ q = [slash] := by
    refine text_iff (P := fun t => t = [] ∨ t = [slash]) ?_ hp
    rintro t (rfl | rfl) u hu
    · cases hu
    · rw [List.mem_singleton.mp hu]
      decide
  by_cases hq : q = [] ∨ q = [slash]
  · rw [if_pos hq, if_pos (hroot.mpr hq), text_of_ascii (by decide)]
  · rw [if_neg hq, if_neg (mt hroot.mp hq), text_join, segments_text hp]
    · congr 2
      rw [← List.map_take, List.map_map, List.map_map]
      refine List.map_congr_left fun s hs => ?_
      have hs : IsText s := fun r hr => hp r (mem_of_mem_segments (List.mem_of_mem_take hs) hr)
      simp only [Function.comp_apply, isIdSegment_text hs]
      split
      · exact (text_of_ascii (by decide)).symm
      · rfl
    · simp [segments]

theorem not_mem_of_mem_segments (h : s ∈ segments p) : slash ∉ s := by
  unfold segments at h
  generalize trimSlash p = q at h
  induction q using splitOn_induction with
  | one xs hnot =>
    rw [List.splitOn_eq_singleton hnot] at h
    rwa [List.mem_singleton.mp h]
  | join xs ys _ ihx ihy =>
    rw [List.splitOn_append_cons_self] at h
    exact (List.mem_append.mp h).elim ihx ihy

/-- Few segments that are neither ids nor cut make a route. -/
theorem route_of_segments (segs : List (List ℕ)) (hne : segs ≠ []) (hlen : segs.length ≤ 8)
    (h : ∀ s ∈ segs, slash ∉ s ∧ (∀ u ∈ s, endsPath u = false) ∧ isIdSegment s = false) :
    Route isIdSegment (slash :: [slash].intercalate segs) := by
  have hsegs : segments (slash :: [slash].intercalate segs) = segs := by
    exact List.splitOn_intercalate slash (fun s hs => (h s hs).1) hne
  have huncut : ∀ u ∈ slash :: [slash].intercalate segs, endsPath u = false := by
    obtain ⟨s, segs, rfl⟩ := List.exists_cons_of_ne_nil hne
    rw [cons_intercalate]
    intro u hu
    obtain ⟨s, hs, hu⟩ := List.mem_flatMap.mp hu
    rcases List.mem_cons.mp hu with rfl | hu
    · rfl
    · exact (h s hs).2.1 u hu
  refine ⟨rfl, by rwa [hsegs], huncut, by rw [hsegs]; exact fun s hs => (h s hs).2.2, ?_⟩
  unfold normalizeWith
  dsimp only
  rw [List.takeWhile_eq_self_iff.mpr (fun u hu => by rw [huncut u hu]; rfl)]
  split
  next hq => exact (hq.resolve_left (List.cons_ne_nil _ _)).symm
  next =>
    rw [hsegs, List.take_of_length_le hlen]
    congr 2
    refine (List.map_congr_left fun s hs => ?_).trans (List.map_id segs)
    rw [(h s hs).2.2]
    rfl

theorem route_normalize (p : List ℕ) : Route isIdSegment (normalizeWith isIdSegment p) := by
  unfold normalizeWith
  dsimp only
  split
  · exact route_of_segments [[]] (by decide) (by decide) (by decide)
  · refine route_of_segments _ ?_ ?_ ?_
    · simp [segments]
    · rw [List.length_map]
      exact List.length_take_le _ _
    · intro t ht
      obtain ⟨s, hs, rfl⟩ := List.mem_map.mp ht
      have hmem := List.mem_of_mem_take hs
      split
      next => decide
      next hid =>
        refine ⟨not_mem_of_mem_segments hmem, ?_, Bool.eq_false_iff.mpr hid⟩
        intro u hu
        have hend := List.mem_takeWhile_imp (mem_of_mem_segments hmem hu)
        simpa using hend

/-- The three SDKs give one route for a path, each in its own coding of strings, and no segment of
it looks like an id. -/
theorem routes_agree (p : List ℕ) (hp : IsText p) :
    normalizePath (utf8.text p) = utf8.text (normalizePathPy p) ∧
      normalizePathNode (utf16.text p) = utf16.text (normalizePathPy p) ∧
      Route isIDSegment (normalizePath (utf8.text p)) ∧
      Route isIDSegment (normalizePathNode (utf16.text p)) ∧
        Route isIdSegment (normalizePathPy p) := by
  have hsame : isIDSegment = isIdSegment := funext isIDSegment_eq
  unfold normalizePath normalizePathNode
  rw [hsame]
  exact ⟨normalize_text hp, normalize_text hp, route_normalize _, route_normalize _,
    route_normalize p⟩

def page : List ℕ := [47, 99, 97, 102, 0xE9, 47, 49, 50, 63, 113]

theorem isText_page : IsText page := by
  unfold IsText
  decide

theorem routes_agree_page :
    IsText page ∧ normalizePath (utf8.text page) = utf8.text (normalizePathPy page) :=
  ⟨isText_page, (routes_agree page isText_page).1⟩

end Ozymandias.Routes
