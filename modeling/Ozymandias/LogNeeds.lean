import Ozymandias.LogPlan
import Ozymandias.LogGlobs

/-!
What a block of logs has to contain for a query to match one of them: literals
of at least three bytes, in alternatives. The requirement is sound for patterns
of attributes that are well-formed strings: a log that satisfies the query has
every literal of some alternative in its texts, in lower case.
-/

namespace Ozymandias.LogNeeds

open SeriesModel Substrings Utf8 LogQuery LogGlobs LogPlan

variable {F : Type} (lib : Lib F)

def minLiteral : ℕ := 3
def maxAlts : ℕ := 16

/-- Alternatives, each the literals that must occur; without any there is no requirement. -/
abbrev Need := List (List GoString)

def literalNeed (lowerPattern : GoString) : Need :=
  let lits := (splitWild lowerPattern).filter (fun s => minLiteral ≤ s.length)
  if lits = [] then [] else [lits]

/-- One more conjunct: the products of alternatives, unless they are too many. -/
def andNeed (acc : List (List GoString)) (n : Need) : List (List GoString) :=
  if n = [] ∨ maxAlts < acc.length * n.length then acc
  else acc.flatMap (fun x => n.map (fun y => x ++ y))

def andNeeds (ns : List Need) : Need :=
  let acc := ns.foldl andNeed [[]]
  if acc = [[]] then [] else acc

def orNeeds (ns : List Need) : Need :=
  if [] ∈ ns then [] else if maxAlts < ns.flatten.length then [] else ns.flatten

mutual
def needs : Node F → Need
  | .text value => literalNeed (toLower lib.case value)
  | .attr a =>
    if a.op ≠ .eq ∨ (lib.parseFloat a.value).isSome then []
    else literalNeed (toLower lib.case a.value)
  | .and args => andNeeds (needsEach args)
  | .or args => orNeeds (needsEach args)
  | .not _ => []
  | .label _ _ => []

def needsEach : List (Node F) → List Need
  | [] => []
  | n :: rest => needs n :: needsEach rest
end

def queryNeeds (q : Option (Node F)) : Need :=
  match q with
  | none => []
  | some n => needs lib n

mutual
def textsIn : Json → List GoString
  | .str s => [s]
  | .num digits => [digits]
  | .bool b => [boolText b]
  | .null => [nullText]
  | .arr elems => textsInElems elems
  | .obj members => textsInMembers members

def textsInElems : List Json → List GoString
  | [] => []
  | v :: rest => textsIn v ++ textsInElems rest

def textsInMembers : List (GoString × Json) → List GoString
  | [] => []
  | (_, v) :: rest => textsIn v ++ textsInMembers rest
end

def textsOf (l : Log) : List GoString := l.message :: textsIn (.obj l.attrs)

variable {l : Log} {s : GoString} {texts : List GoString}

mutual
theorem anyString_texts (fn : GoString → Bool) (v : Json) (h : anyString fn v = true) :
    ∃ s ∈ textsIn v, fn s = true := by
  cases v with
  | str s => exact ⟨s, List.mem_singleton.mpr rfl, h⟩
  | num digits | bool b | null => cases h
  | arr elems => exact anyElem_texts fn elems h
  | obj members => exact anyMember_texts fn members h

theorem anyElem_texts (fn : GoString → Bool) (vs : List Json) (h : anyElem fn vs = true) :
    ∃ s ∈ textsInElems vs, fn s = true := by
  cases vs with
  | nil => cases h
  | cons v rest =>
    rw [anyElem, Bool.or_eq_true] at h
    rcases h with h | h
    · obtain ⟨s, hs, hfn⟩ := anyString_texts fn v h
      exact ⟨s, List.mem_append_left _ hs, hfn⟩
    · obtain ⟨s, hs, hfn⟩ := anyElem_texts fn rest h
      exact ⟨s, List.mem_append_right _ hs, hfn⟩

theorem anyMember_texts (fn : GoString → Bool) (ms : List (GoString × Json))
    (h : anyMember fn ms = true) : ∃ s ∈ textsInMembers ms, fn s = true := by
  cases ms with
  | nil => cases h
  | cons m rest =>
    obtain ⟨k, v⟩ := m
    rw [anyMember, Bool.or_eq_true] at h
    rcases h with h | h
    · obtain ⟨s, hs, hfn⟩ := anyString_texts fn v h
      exact ⟨s, List.mem_append_left _ hs, hfn⟩
    · obtain ⟨s, hs, hfn⟩ := anyMember_texts fn rest h
      exact ⟨s, List.mem_append_right _ hs, hfn⟩
end

variable {α β : Type} {v : Json} {pat : GoString} {n : Need} {ns : List Need}

theorem subset_of_mem_singleton {f : α → List β} {a b : α} (h : a ∈ [b]) : f a ⊆ f b := by
  rw [List.mem_singleton.mp h]
  exact List.Subset.refl _

theorem subset_of_mem_append {as bs : List α} {a : α} {xs ys zs : List β} (h : a ∈ as ++ bs)
    (ha : a ∈ as → xs ⊆ ys) (hb : a ∈ bs → xs ⊆ zs) : xs ⊆ ys ++ zs := by
  rcases List.mem_append.mp h with h | h
  · exact List.subset_append_of_subset_left _ (ha h)
  · exact List.subset_append_of_subset_right _ (hb h)

mutual
theorem texts_flat (v w : Json) (h : w ∈ flat v) : textsIn w ⊆ textsIn v := by
  cases v with
  | arr elems => exact texts_flatAll elems w h
  | _ => exact subset_of_mem_singleton h

theorem texts_flatAll (vs : List Json) (w : Json) (h : w ∈ flatAll vs) :
    textsIn w ⊆ textsInElems vs := by
  cases vs with
  | nil => cases h
  | cons v rest =>
    rw [flatAll] at h
    exact subset_of_mem_append h (texts_flat v w) (texts_flatAll rest w)
end

theorem texts_lookup {ms : List (GoString × Json)} {k : GoString} (h : ms.lookup k = some v) :
    textsIn v ⊆ textsInMembers ms := by
  induction ms with
  | nil => cases h
  | cons m rest ih =>
    rw [List.lookup_cons] at h
    split at h
    next =>
      obtain rfl := Option.some.inj h
      exact List.subset_append_left _ _
    next => exact List.Subset.trans (ih h) (List.subset_append_right _ _)

mutual
/-- What is found at a path has no other texts than what it is found in. -/
theorem texts_walk (v : Json) (path : GoString) (w : Json) (h : w ∈ walk v path) :
    textsIn w ⊆ textsIn v := by
  cases v with
  | obj members =>
    rw [walk] at h
    rcases List.mem_append.mp h with h | h
    · cases hlookup : members.lookup path with
      | none =>
        rw [hlookup] at h
        cases h
      | some v =>
        rw [hlookup] at h
        exact List.Subset.trans (texts_flat v w h) (texts_lookup hlookup)
    · obtain ⟨cut, -, hw⟩ := List.mem_flatMap.mp h
      exact texts_walkMember members cut.1 cut.2 w hw
  | arr elems => exact texts_walkAll elems path w h
  | str s | num digits | bool b | null => cases h

theorem texts_walkAll (vs : List Json) (path : GoString) (w : Json) (h : w ∈ walkAll vs path) :
    textsIn w ⊆ textsInElems vs := by
  cases vs with
  | nil => cases h
  | cons v rest =>
    rw [walkAll] at h
    exact subset_of_mem_append h (texts_walk v path w) (texts_walkAll rest path w)

theorem texts_walkMember (ms : List (GoString × Json)) (key path : GoString) (w : Json)
    (h : w ∈ walkMember ms key path) : textsIn w ⊆ textsInMembers ms := by
  cases ms with
  | nil => cases h
  | cons m rest =>
    obtain ⟨k, v⟩ := m
    rw [walkMember] at h
    split at h
    next => exact List.Subset.trans (texts_walk v path w h) (List.subset_append_left _ _)
    next =>
      exact List.Subset.trans (texts_walkMember rest key path w h) (List.subset_append_right _ _)
end

/-- Some alternative's literals all occur in the texts, in lower case. -/
def Met (texts : List GoString) (n : Need) : Prop :=
  n = [] ∨ ∃ alt ∈ n, ∀ lit ∈ alt, ∃ t ∈ texts, lit <:+: toLower lib.case t

theorem literalNeed_met {pattern : GoString}
    (h : ∀ seg ∈ splitWild pattern, ∃ t ∈ texts, seg <:+: toLower lib.case t) :
    Met lib texts (literalNeed pattern) := by
  unfold literalNeed
  dsimp only
  split
  next => exact Or.inl rfl
  next =>
    refine Or.inr ⟨_, List.mem_singleton.mpr rfl, fun lit hlit => ?_⟩
    exact h lit (List.mem_of_mem_filter hlit)

theorem andNeed_met {acc : List (List GoString)}
    (hacc : ∃ alt ∈ acc, ∀ lit ∈ alt, ∃ t ∈ texts, lit <:+: toLower lib.case t)
    (hn : Met lib texts n) :
    ∃ alt ∈ andNeed acc n, ∀ lit ∈ alt, ∃ t ∈ texts, lit <:+: toLower lib.case t := by
  unfold andNeed
  split
  next => exact hacc
  next hcond =>
    obtain ⟨x, hx, hlits⟩ := hacc
    rcases hn with hnil | ⟨y, hy, hlits'⟩
    · exact absurd (Or.inl hnil) hcond
    · exact ⟨x ++ y, List.mem_flatMap.mpr ⟨x, hx, List.mem_map_of_mem hy⟩,
        List.forall_mem_append.mpr ⟨hlits, hlits'⟩⟩

theorem andNeeds_met (h : ∀ n ∈ ns, Met lib texts n) : Met lib texts (andNeeds ns) := by
  have hfold : ∀ (ns : List Need) (acc : List (List GoString)), (∀ n ∈ ns, Met lib texts n) →
      (∃ alt ∈ acc, ∀ lit ∈ alt, ∃ t ∈ texts, lit <:+: toLower lib.case t) →
      ∃ alt ∈ ns.foldl andNeed acc, ∀ lit ∈ alt, ∃ t ∈ texts, lit <:+: toLower lib.case t := by
    intro ns
    induction ns with
    | nil => exact fun acc _ hacc => hacc
    | cons n ns ih =>
      intro acc hall hacc
      exact ih _ (List.forall_mem_cons.mp hall).2 (andNeed_met lib hacc (hall n List.mem_cons_self))
  unfold andNeeds
  dsimp only
  split
  next => exact Or.inl rfl
  next => exact Or.inr (hfold ns [[]] h ⟨[], List.mem_singleton.mpr rfl, by simp⟩)

theorem orNeeds_met (hmem : n ∈ ns) (h : Met lib texts n) : Met lib texts (orNeeds ns) := by
  unfold orNeeds
  split
  next => exact Or.inl rfl
  next hnot =>
    split
    next => exact Or.inl rfl
    next =>
      rcases h with hnil | ⟨alt, halt, hlits⟩
      · exact absurd (hnil ▸ hmem) hnot
      · exact Or.inr ⟨alt, List.mem_flatten.mpr ⟨n, hmem, halt⟩, hlits⟩

/-- A text term's segments occur in one of the texts. -/
theorem compileText_met {value : GoString} (h : compileText lib value l = true) :
    Met lib (textsOf l) (literalNeed (toLower lib.case value)) := by
  have hfound : ∃ s ∈ textsOf l,
      inOrder (splitWild (toLower lib.case value)) (toLower lib.case s) = true := by
    unfold compileText at h
    rw [Bool.or_eq_true] at h
    rcases h with h | h
    · rw [containsWild_eq] at h
      exact ⟨l.message, List.mem_cons_self, h⟩
    · obtain ⟨s, hs, hfn⟩ := anyString_texts _ _ h
      rw [containsWild_eq] at hfn
      exact ⟨s, List.mem_cons_of_mem _ hs, hfn⟩
  obtain ⟨s, hs, horder⟩ := hfound
  obtain ⟨sub, hsub, hfits⟩ := inOrder_splitWild.mp horder
  exact literalNeed_met lib (fun seg hseg =>
    ⟨s, hs, (isInfix_of_fits hfits (List.mem_of_mem_filter hseg)).trans hsub⟩)

theorem textMatches_text (h : textMatches pat v = true) :
    ∃ s ∈ textsIn v, globMatch pat s = true := by
  cases v with
  | str s => exact ⟨s, List.mem_singleton.mpr rfl, h⟩
  | num digits => exact ⟨digits, List.mem_singleton.mpr rfl, h⟩
  | bool b => exact ⟨boolText b, List.mem_singleton.mpr rfl, h⟩
  | null => exact ⟨nullText, List.mem_singleton.mpr rfl, h⟩
  | arr elems | obj members => cases h

/-- The same for the pattern of an attribute, which is matched as it is: lowering it and the text
keeps its segments only because both are well formed. -/
theorem compileAttr_met {a : Attr F} (hop : a.op = .eq) (hnum : lib.parseFloat a.value = none)
    (hvalue : Valid a.value) (htexts : ∀ s ∈ textsOf l, Valid s) (h : compileAttr lib a l = true) :
    Met lib (textsOf l) (literalNeed (toLower lib.case a.value)) := by
  obtain ⟨v, hv, hmatch⟩ := List.any_eq_true.mp h
  have htext : textMatches a.value v = true := by
    unfold attrMatches at hmatch
    rw [if_pos hop] at hmatch
    unfold eqMatches at hmatch
    rwa [hnum] at hmatch
  obtain ⟨s, hs, hglob⟩ := textMatches_text htext
  have hmem : s ∈ textsOf l := List.mem_cons_of_mem _ (texts_walk _ _ v hv hs)
  refine literalNeed_met lib (fun seg hseg => ⟨s, hmem, ?_⟩)
  have hpiece : seg ∈ (toLower lib.case a.value).splitOn star := List.mem_of_mem_filter hseg
  obtain ⟨part, hpart, hvalid, hin⟩ :=
    piece_of_toLower lib.case hvalue (by decide) (by decide) hpiece
  have hpart := isInfix_of_fits (globMatch_iff.mp hglob) hpart
  exact hin.trans (toLower_isInfix lib.case (htexts s hmem) hvalid hpart)

mutual
/-- The patterns that attributes are compared with for equality, outside negations. Their literals
are looked for in lower case, though the patterns are matched as they are. -/
def patterns : Node F → List GoString
  | .or args => patternsEach args
  | .and args => patternsEach args
  | .attr a => if a.op = .eq then [a.value] else []
  | .not _ | .text _ | .label _ _ => []

def patternsEach : List (Node F) → List GoString
  | [] => []
  | n :: rest => patterns n ++ patternsEach rest
end

theorem mem_patternsEach {ns : List (Node F)} :
    s ∈ patternsEach ns ↔ ∃ n ∈ ns, s ∈ patterns n := by
  induction ns with
  | nil => simp [patternsEach]
  | cons n rest ih => simp [patternsEach, ih]

mutual
theorem patterns_orArms (n a : Node F) (h : a ∈ orArms n) : patterns a ⊆ patterns n := by
  cases n with
  | or args => exact patterns_orArmsAll args a h
  | _ => exact subset_of_mem_singleton h

theorem patterns_orArmsAll (ns : List (Node F)) (a : Node F) (h : a ∈ orArmsAll ns) :
    patterns a ⊆ patternsEach ns := by
  cases ns with
  | nil => cases h
  | cons n rest =>
    rw [orArmsAll] at h
    exact subset_of_mem_append h (patterns_orArms n a) (patterns_orArmsAll rest a)
end

mutual
theorem patterns_conjuncts (n a : Node F) (h : a ∈ conjuncts n) : patterns a ⊆ patterns n := by
  cases n with
  | and args => exact patterns_conjunctsAll args a h
  | _ => exact subset_of_mem_singleton h

theorem patterns_conjunctsAll (ns : List (Node F)) (a : Node F) (h : a ∈ conjunctsAll ns) :
    patterns a ⊆ patternsEach ns := by
  cases ns with
  | nil => cases h
  | cons n rest =>
    rw [conjunctsAll] at h
    exact subset_of_mem_append h (patterns_conjuncts n a) (patterns_conjunctsAll rest a)
end

def queryPatterns (q : Option (Node F)) : List GoString := (q.map patterns).getD []

/-- What is left for the scan has only patterns of the query. -/
theorem patterns_split {q : Option (Node F)} {b : Branch F} (h : b ∈ split q) :
    queryPatterns b.filter ⊆ queryPatterns q := by
  cases q with
  | none =>
    rw [List.mem_singleton.mp h]
    exact List.nil_subset _
  | some n =>
    obtain ⟨a, ha, rfl⟩ := List.mem_map.mp h
    have hrest : ∀ c ∈ (conjuncts a).filter (fun c => (asMatcher c).isNone),
      patterns c ⊆ patterns n :=
      fun c hc => List.Subset.trans (patterns_conjuncts a c (List.mem_of_mem_filter hc))
        (patterns_orArms n a ha)
    unfold planBranch
    generalize (conjuncts a).filter (fun c => (asMatcher c).isNone) = rest at hrest
    match rest, hrest with
    | [], _ => exact List.nil_subset _
    | [c], hrest => exact hrest c (List.mem_singleton.mpr rfl)
    | c :: c' :: rest, hrest =>
      intro s hs
      obtain ⟨x, hx, hs⟩ := mem_patternsEach.mp hs
      exact hrest x hx hs

theorem needsEach_eq (ns : List (Node F)) : needsEach lib ns = ns.map (needs lib) := by
  induction ns with
  | nil => rfl
  | cons n rest ih => rw [needsEach, ih, List.map_cons]

mutual
theorem needs_met (n : Node F) (hn : ∀ s ∈ patterns n, Valid s) (htexts : ∀ s ∈ textsOf l, Valid s)
    (h : compile lib n l = true) :
    Met lib (textsOf l) (needs lib n) := by
  cases n with
  | or args =>
    rw [compile_or, List.any_eq_true] at h
    obtain ⟨a, ha, h⟩ := h
    refine orNeeds_met lib ?_ (needs_each args hn htexts a ha h)
    rw [needsEach_eq]
    exact List.mem_map_of_mem ha
  | and args =>
    rw [compile_and, List.all_eq_true] at h
    refine andNeeds_met lib (fun m hm => ?_)
    rw [needsEach_eq] at hm
    obtain ⟨a, ha, rfl⟩ := List.mem_map.mp hm
    exact needs_each args hn htexts a ha (h a ha)
  | not x => exact Or.inl rfl
  | text value => exact compileText_met lib h
  | label key value => exact Or.inl rfl
  | attr a =>
    rw [needs]
    split
    next => exact Or.inl rfl
    next hcond =>
      rw [not_or, ne_eq, not_not, Bool.not_eq_true, Option.isSome_eq_false_iff,
        Option.isNone_iff_eq_none] at hcond
      exact compileAttr_met lib hcond.1 hcond.2 (hn a.value (by simp [patterns, hcond.1])) htexts h

theorem needs_each (ns : List (Node F)) (hn : ∀ s ∈ patternsEach ns, Valid s)
    (htexts : ∀ s ∈ textsOf l, Valid s) (a : Node F) (ha : a ∈ ns) (h : compile lib a l = true) :
    Met lib (textsOf l) (needs lib a) := by
  cases ns with
  | nil => cases ha
  | cons n rest =>
    obtain ⟨hfirst, hrest⟩ := List.forall_mem_append.mp hn
    rcases List.mem_cons.mp ha with rfl | ha
    · exact needs_met a hfirst htexts h
    · exact needs_each rest hrest htexts a ha h
end

end Ozymandias.LogNeeds
