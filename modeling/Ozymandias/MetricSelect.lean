import Ozymandias.IndexSelect
import Ozymandias.MetricQuery
import Mathlib.Data.List.Infix

/-!
What a filter selects. Template variables are replaced by the tags they are bound
to; single tags become matchers of the store, and a list of values becomes a
matcher for its key and a check on the series that the store returns. The check
reads one value of the key, the first, while a matcher reads them all: the two
agree exactly when the first value decides.
-/
namespace Ozymandias.MetricSelect

open SeriesModel Selection IndexSelect

def get (ref : SeriesRef) (key : GoString) : Option GoString :=
  (ref.tags.find? (fun t => decide (t.key = key))).map Tag.value

def parseTag (s : GoString) : Tag :=
  ⟨s.takeWhile (fun c => decide (c ≠ colon)), (s.dropWhile (fun c => decide (c ≠ colon))).tail⟩

def text (s : String) : GoString := Ascii.ofChars s.toList

def warn (warnings : List GoString) (msg : GoString) : List GoString :=
  if msg ∈ warnings then warnings else warnings ++ [msg]

abbrev Vars := GoString → Option (List GoString)

inductive FilterErr where
  | unbound (name : GoString)
  | notTag (name value : GoString)
  deriving DecidableEq

def noFilterText (name : GoString) : GoString :=
  text "$" ++ name ++ text " resolved to no filter, so every value of it is included"

def termFor (key : GoString) (values : List GoString) : MetricQuery.Matcher :=
  match values with
  | [v] => .tag false key v
  | vs => .list false key vs

/-- The tags of a variable, grouped by their keys in the order of first appearance. -/
def groupTerms (tags : List Tag) : List MetricQuery.Matcher :=
  (tags.map Tag.key).eraseDups.map (fun k =>
    termFor k ((tags.filter (fun t => decide (t.key = k))).map Tag.value))

def expandVar (vars : Vars) (name : GoString) (warnings : List GoString) :
    Except FilterErr (List MetricQuery.Matcher × List GoString) :=
  match vars name with
  | none => .error (.unbound name)
  | some [] => .ok ([], warn warnings (noFilterText name))
  | some values =>
    match values.find? (fun v => decide ((parseTag v).key = [])) with
    | some v => .error (.notTag name v)
    | none => .ok (groupTerms (values.map parseTag), warnings)

def expandOne (vars : Vars) (m : MetricQuery.Matcher) (warnings : List GoString) :
    Except FilterErr (List MetricQuery.Matcher × List GoString) :=
  match m with
  | .var name => expandVar vars name warnings
  | m => .ok ([m], warnings)

def expandAll (vars : Vars) : List MetricQuery.Matcher → List GoString →
    Except FilterErr (List MetricQuery.Matcher × List GoString)
  | [], warnings => .ok ([], warnings)
  | m :: rest, warnings => do
    let (expanded, warnings) ← expandOne vars m warnings
    let (terms, warnings) ← expandAll vars rest warnings
    return (expanded ++ terms, warnings)

def matcherFor (key value : GoString) (neg : Bool) : Selection.Matcher :=
  if star ∈ value then ⟨key, value, if neg then .notWildcard else .wildcard⟩
  else ⟨key, value, if neg then .notEqual else .equal⟩

structure Membership where
  neg : Bool
  key : GoString
  values : List GoString
  deriving DecidableEq

abbrev PostFilter := List Membership

def pushed : MetricQuery.Matcher → List Selection.Matcher
  | .var _ => []
  | .tag neg key value => [matcherFor key value neg]
  | .list neg key _ => if neg then [] else [⟨key, [star], .wildcard⟩]

def checked : MetricQuery.Matcher → PostFilter
  | .list neg key values => [⟨neg, key, values⟩]
  | _ => []

def selector (vars : Vars) (metric : GoString) (filter : List MetricQuery.Matcher)
    (warnings : List GoString) : Except FilterErr (Selector × PostFilter × List GoString) := do
  let (terms, warnings) ← expandAll vars filter warnings
  return (⟨metric, terms.flatMap pushed⟩, terms.flatMap checked, warnings)

def containsValue (values : List GoString) (v : GoString) : Bool :=
  values.any (fun want => decide (want = v) || (decide (star ∈ want) && globMatch want v))

def Membership.has (m : Membership) (ref : SeriesRef) : Bool :=
  match get ref m.key with
  | some v => containsValue m.values v
  | none => false

def Membership.matches (m : Membership) (ref : SeriesRef) : Bool := m.has ref != m.neg

def PostFilter.matches (post : PostFilter) (ref : SeriesRef) : Bool :=
  post.all (fun m => m.matches ref)

def selects (vars : Vars) (metric : GoString) (filter : List MetricQuery.Matcher)
    (ref : SeriesRef) : Except FilterErr Bool := do
  let (sel, post, _) ← selector vars metric filter []
  return Selector.matches sel ref && PostFilter.matches post ref

/-- A value in a filter, a pattern if it has a star, against a value of a series. -/
def hits (want v : GoString) : Bool :=
  if star ∈ want then globMatch want v else decide (want = v)

variable {fs : List MetricQuery.Matcher} {m : MetricQuery.Matcher} {metric : GoString}
  {ref : SeriesRef} {rest : List MetricQuery.Matcher} {vars : Vars} {values : List GoString}
  {key : GoString}

theorem globFrom_self (pattern : GoString) : globFrom pattern pattern = true := by
  induction pattern with
  | nil => rfl
  | cons c pattern ih =>
    unfold globFrom
    split
    · refine List.any_eq_true.mpr ⟨pattern, ?_, ih⟩
      exact (List.mem_tails _ _).mpr (List.suffix_cons c pattern)
    · simp [ih]

theorem globMatch_star (v : GoString) : globMatch [star] v = true := by
  have htail : [] ∈ (unslash v).tails := (List.mem_tails _ _).mpr List.nil_suffix
  refine List.any_eq_true.mpr ⟨[], htail, rfl⟩

theorem containsValue_iff {v : GoString} :
    containsValue values v = true ↔ ∃ want ∈ values, hits want v = true := by
  unfold containsValue
  rw [List.any_eq_true]
  refine exists_congr (fun want => and_congr_right (fun _ => ?_))
  unfold hits
  by_cases hstar : star ∈ want
  · rw [if_pos hstar, decide_eq_true hstar, Bool.or_eq_true, decide_eq_true_eq]
    refine or_iff_right_of_imp ?_
    rintro rfl
    exact globFrom_self _
  · rw [if_neg hstar, decide_eq_false hstar, Bool.false_and, Bool.or_false]

theorem has_matcherFor (key value : GoString) (neg : Bool) (ts : List Tag) :
    (matcherFor key value neg).has ts =
      ts.any (fun t => decide (t.key = key) && hits value t.value) := by
  have hcomm : ∀ t : Tag, decide (t.value = value) = decide (value = t.value) :=
    fun t => decide_eq_decide.mpr eq_comm
  unfold matcherFor Matcher.has hits
  by_cases hstar : star ∈ value <;> cases neg <;> simp [hstar, hcomm]

theorem holds_matcherFor (key value : GoString) (neg : Bool) (ts : List Tag) :
    (matcherFor key value neg).holds ts = ((matcherFor key value neg).has ts != neg) := by
  unfold Matcher.holds
  by_cases hstar : star ∈ value <;> cases neg <;> simp [matcherFor, hstar]

def anyHit (ref : SeriesRef) (key want : GoString) : Bool :=
  ref.tags.any (fun t => decide (t.key = key) && hits want t.value)

theorem selects_tag (vars : Vars) (ref : SeriesRef) (neg : Bool) (key value : GoString) :
    selects vars ref.metric [.tag neg key value] ref = .ok (anyHit ref key value != neg) := by
  have hmatch : Selector.matches ⟨ref.metric, [matcherFor key value neg]⟩ ref =
      (anyHit ref key value != neg) := by
    unfold Selector.matches
    simp only [decide_true, Bool.true_and, List.all_cons, List.all_nil, Bool.and_true]
    rw [holds_matcherFor, has_matcherFor, anyHit]
  rw [← hmatch]
  exact congrArg Except.ok (Bool.and_true _)

theorem has_key_of_has {m : Membership} (h : m.has ref = true) :
    (⟨m.key, [star], .wildcard⟩ : Selection.Matcher).holds ref.tags = true := by
  unfold Membership.has get at h
  cases hfind : ref.tags.find? (fun t => decide (t.key = m.key)) with
  | none => rw [hfind] at h; cases h
  | some t =>
    refine List.any_eq_true.mpr ⟨t, List.mem_of_find?_eq_some hfind, ?_⟩
    have hkey := List.find?_some hfind
    rw [hkey]
    exact globMatch_star t.value

/-- The matcher for the key never decides: the check does. -/
theorem selects_list (vars : Vars) (ref : SeriesRef) (neg : Bool) (key : GoString)
    (values : List GoString) :
    selects vars ref.metric [.list neg key values] ref =
      .ok ((⟨neg, key, values⟩ : Membership).matches ref) := by
  have hmatch : (Selector.matches ⟨ref.metric, pushed (.list neg key values) ++ []⟩ ref &&
      (⟨neg, key, values⟩ : Membership).matches ref) =
      (⟨neg, key, values⟩ : Membership).matches ref := by
    refine Bool.and_eq_right_iff_imp.mpr (fun hcheck => ?_)
    cases neg with
    | true => simp [Selector.matches, pushed]
    | false =>
      have hhas : (⟨false, key, values⟩ : Membership).has ref = true := by
        simpa [Membership.matches] using hcheck
      have hkey := has_key_of_has hhas
      simp [Selector.matches, pushed, hkey]
  rw [← hmatch]
  exact congrArg (fun b => Except.ok (_ && b)) (Bool.and_true _)

/-- The filter stands for these terms, whatever was warned before. -/
def Expands (vars : Vars) (fs terms : List MetricQuery.Matcher) : Prop :=
  ∀ ws, ∃ ws', expandAll vars fs ws = .ok (terms, ws')

def Refused (vars : Vars) (fs : List MetricQuery.Matcher) : Prop :=
  ∃ e, ∀ ws, expandAll vars fs ws = .error e

theorem expandOne_cases (vars : Vars) (m : MetricQuery.Matcher) :
    (∃ terms, ∀ ws, ∃ ws', expandOne vars m ws = .ok (terms, ws')) ∨
      ∃ e, ∀ ws, expandOne vars m ws = .error e := by
  cases m with
  | var name =>
    simp only [expandOne, expandVar]
    split
    · exact Or.inr ⟨_, fun _ => rfl⟩
    · exact Or.inl ⟨_, fun _ => ⟨_, rfl⟩⟩
    · split
      · exact Or.inr ⟨_, fun _ => rfl⟩
      · exact Or.inl ⟨_, fun _ => ⟨_, rfl⟩⟩
  | tag neg key value | list neg key values => exact Or.inl ⟨_, fun _ => ⟨_, rfl⟩⟩

theorem expands_cons {a b : List MetricQuery.Matcher}
    (hm : ∀ ws, ∃ ws', expandOne vars m ws = .ok (a, ws')) (hrest : Expands vars rest b) :
    Expands vars (m :: rest) (a ++ b) := by
  intro ws
  obtain ⟨ws₁, h₁⟩ := hm ws
  obtain ⟨ws₂, h₂⟩ := hrest ws₁
  refine ⟨ws₂, ?_⟩
  unfold expandAll
  rw [h₁]
  show (expandAll vars rest ws₁).bind _ = _
  rw [h₂]
  rfl

theorem refused_cons (h : (∃ e, ∀ ws, expandOne vars m ws = .error e) ∨
      (∃ a, ∀ ws, ∃ ws', expandOne vars m ws = .ok (a, ws')) ∧ Refused vars rest) :
    Refused vars (m :: rest) := by
  rcases h with ⟨e, he⟩ | ⟨⟨a, ha⟩, e, he⟩
  · refine ⟨e, fun ws => ?_⟩
    unfold expandAll
    rw [he ws]
    rfl
  · refine ⟨e, fun ws => ?_⟩
    obtain ⟨ws', hws⟩ := ha ws
    unfold expandAll
    rw [hws]
    show (expandAll vars rest ws').bind _ = _
    rw [he ws']
    rfl

theorem expandAll_cases (vars : Vars) (fs : List MetricQuery.Matcher) :
    (∃ terms, Expands vars fs terms) ∨ Refused vars fs := by
  induction fs with
  | nil => exact Or.inl ⟨[], fun ws => ⟨ws, rfl⟩⟩
  | cons m rest ih =>
    rcases expandOne_cases vars m with ⟨a, ha⟩ | herr
    · rcases ih with ⟨b, hb⟩ | hrefused
      · exact Or.inl ⟨a ++ b, expands_cons ha hb⟩
      · exact Or.inr (refused_cons (Or.inr ⟨⟨a, ha⟩, hrefused⟩))
    · exact Or.inr (refused_cons (Or.inl herr))

def asks (ref : SeriesRef) (m : MetricQuery.Matcher) : Bool :=
  (pushed m).all (fun p => p.holds ref.tags) && (checked m).all (fun c => c.matches ref)

theorem selects_of_expands {terms : List MetricQuery.Matcher} (h : Expands vars fs terms)
    (metric : GoString) (ref : SeriesRef) :
    selects vars metric fs ref = .ok (decide (ref.metric = metric) && terms.all (asks ref)) := by
  obtain ⟨ws, hws⟩ := h []
  have hall : (Selector.matches ⟨metric, terms.flatMap pushed⟩ ref &&
      PostFilter.matches (terms.flatMap checked) ref) =
      (decide (ref.metric = metric) && terms.all (asks ref)) := by
    unfold Selector.matches PostFilter.matches asks
    rw [Bool.and_assoc, List.all_flatMap, List.all_flatMap]
    refine congrArg (decide (ref.metric = metric) && ·) ?_
    rw [Bool.eq_iff_iff]
    simp only [Bool.and_eq_true, List.all_eq_true]
    exact forall₂_and.symm
  rw [← hall]
  unfold selects selector
  rw [hws]
  rfl

theorem selects_of_refused (h : Refused vars fs) (metric : GoString) (ref : SeriesRef) :
    selects vars metric fs ref ≠ .ok true := by
  obtain ⟨e, he⟩ := h
  unfold selects selector
  rw [he]
  exact nofun

theorem selects_cons : selects vars metric (m :: rest) ref = .ok true ↔
      selects vars metric [m] ref = .ok true ∧ selects vars metric rest ref = .ok true := by
  have hnil : Expands vars [] [] := fun ws => ⟨ws, rfl⟩
  rcases expandOne_cases vars m with ⟨a, ha⟩ | herr
  · rcases expandAll_cases vars rest with ⟨b, hb⟩ | hrefused
    · rw [selects_of_expands (expands_cons ha hb), selects_of_expands (expands_cons ha hnil),
        selects_of_expands hb]
      simp only [Except.ok.injEq, Bool.and_eq_true, List.all_append]
      tauto
    · have hcons := refused_cons (Or.inr ⟨⟨a, ha⟩, hrefused⟩)
      exact ⟨fun h => absurd h (selects_of_refused hcons metric ref),
        fun h => absurd h.2 (selects_of_refused hrefused metric ref)⟩
  · exact ⟨fun h => absurd h (selects_of_refused (refused_cons (Or.inl herr)) metric ref),
      fun h => absurd h.1 (selects_of_refused (refused_cons (Or.inl herr)) metric ref)⟩

/-- The terms of a filter select together what each of them selects. -/
theorem selects_append {gs : List MetricQuery.Matcher} (hmetric : ref.metric = metric) :
    selects vars metric (fs ++ gs) ref = .ok true ↔
      selects vars metric fs ref = .ok true ∧ selects vars metric gs ref = .ok true := by
  induction fs with
  | nil =>
    have hnil : Expands vars [] [] := fun ws => ⟨ws, rfl⟩
    rw [selects_of_expands hnil, decide_eq_true hmetric]
    simp
  | cons m rest ih =>
    rw [List.cons_append, selects_cons, ih, @selects_cons m metric ref rest vars, and_assoc]

theorem selects_amid {pre suf : List MetricQuery.Matcher} (hmetric : ref.metric = metric) :
    selects vars metric (pre ++ m :: suf) ref = .ok true ↔ selects vars metric [m] ref = .ok true ∧
        selects vars metric (pre ++ suf) ref = .ok true := by
  rw [selects_append hmetric, selects_cons, selects_append hmetric]
  exact and_left_comm

theorem eraseDups_replicate {α : Type} [BEq α] [LawfulBEq α] (a : α) (n : ℕ) :
    (List.replicate (n + 1) a).eraseDups = [a] := by
  rw [List.replicate_succ, List.eraseDups_cons]
  simp

/-- The ways to write a list of values: as such, or as a variable bound to its tags. -/
inductive Spells (vars : Vars) (key : GoString) (values : List GoString) :
    MetricQuery.Matcher → Prop
  | list : Spells vars key values (.list false key values)
  | var (name : GoString) (bound : List GoString) (hbound : vars name = some bound)
    (htags : bound.map parseTag = values.map (Tag.mk key)) (hkey : key ≠ [])
    (hmany : 1 < values.length) : Spells vars key values (.var name)

theorem groupTerms_same (h : 1 < values.length) :
    groupTerms (values.map (Tag.mk key)) = [.list false key values] := by
  obtain ⟨v, w, rest, rfl⟩ : ∃ v w rest, values = v :: w :: rest := by
    match values, h with
    | v :: w :: rest, _ => exact ⟨v, w, rest, rfl⟩
  have hkeys : ((v :: w :: rest).map (Tag.mk key)).map Tag.key =
      List.replicate (rest.length + 1 + 1) key := by
    rw [List.map_map]
    exact List.map_const'
  have hvalues : ∀ vs : List GoString,
      ((vs.map (Tag.mk key)).filter (fun t => decide (t.key = key))).map Tag.value = vs := by
    intro vs
    rw [List.filter_eq_self.mpr (by simp), List.map_map]
    exact List.map_id' vs
  unfold groupTerms
  rw [hkeys, eraseDups_replicate, List.map_singleton, hvalues]
  rfl

theorem selects_spelled {term : MetricQuery.Matcher} (h : Spells vars key values term)
    (ref : SeriesRef) :
    selects vars ref.metric [term] ref = selects vars ref.metric [.list false key values] ref := by
  cases h with
  | list => rfl
  | var name bound hbound htags hkey hmany =>
    have hvar : expandOne vars (.var name) [] = .ok ([.list false key values], []) := by
      have hne : bound ≠ [] := by
        rintro rfl
        rw [List.map_nil, eq_comm, List.map_eq_nil_iff] at htags
        rw [htags] at hmany
        exact absurd hmany (Nat.not_lt_zero 1)
      have hfind : bound.find? (fun v => decide ((parseTag v).key = [])) = none := by
        refine List.find?_eq_none.mpr (fun v hv => ?_)
        have hmem : parseTag v ∈ values.map (Tag.mk key) := htags ▸ List.mem_map_of_mem hv
        obtain ⟨u, -, hu⟩ := List.mem_map.mp hmem
        rw [← hu]
        simpa using hkey
      show expandVar vars name [] = _
      unfold expandVar
      rw [hbound]
      cases bound with
      | nil => exact absurd rfl hne
      | cons b bs =>
        dsimp only
        rw [hfind, htags, groupTerms_same hmany]
    unfold selects selector expandAll
    rw [hvar]
    rfl

/-- If any value of the key is in the list, then the first one is. -/
def FirstDecides (ref : SeriesRef) (key : GoString) (values : List GoString) : Prop :=
  ∀ t ∈ ref.tags, t.key = key → containsValue values t.value = true →
    ∃ v, get ref key = some v ∧ containsValue values v = true

theorem membership_has_iff {m : Membership} :
    m.has ref = true ↔ ∃ v, get ref m.key = some v ∧ containsValue m.values v = true := by
  unfold Membership.has
  cases get ref m.key <;> simp

def AnyIn (ref : SeriesRef) (key : GoString) (values : List GoString) : Prop :=
  ∃ t ∈ ref.tags, t.key = key ∧ containsValue values t.value = true

theorem anyIn_iff :
    AnyIn ref key values ↔ ∃ v ∈ values, anyHit ref key v = true := by
  unfold AnyIn anyHit
  simp only [List.any_eq_true, Bool.and_eq_true, decide_eq_true_eq, containsValue_iff]
  constructor
  · rintro ⟨t, ht, hkey, want, hwant, hhit⟩
    exact ⟨want, hwant, t, ht, hkey, hhit⟩
  · rintro ⟨want, hwant, t, ht, hkey, hhit⟩
    exact ⟨t, ht, hkey, want, hwant, hhit⟩

theorem anyIn_of_has {m : Membership} (h : m.has ref = true) :
    AnyIn ref m.key m.values := by
  obtain ⟨v, hget, hv⟩ := membership_has_iff.mp h
  obtain ⟨t, hfind, rfl⟩ := Option.map_eq_some_iff.mp hget
  refine ⟨t, List.mem_of_find?_eq_some hfind, ?_, hv⟩
  simpa using List.find?_some hfind

theorem firstDecides_iff (neg : Bool) : FirstDecides ref key values ↔
      ((⟨neg, key, values⟩ : Membership).has ref = true ↔ AnyIn ref key values) := by
  rw [membership_has_iff]
  constructor
  · intro h
    refine ⟨fun hhas => anyIn_of_has (membership_has_iff.mpr hhas), ?_⟩
    rintro ⟨t, ht, hkey, hin⟩
    exact h t ht hkey hin
  · intro h t ht hkey hin
    exact h.mpr ⟨t, ht, hkey, hin⟩

theorem single_iff_first_decides (vars : Vars) (ref : SeriesRef) (key : GoString)
    (values : List GoString) :
    (selects vars ref.metric [.list false key values] ref = .ok true ↔
      ∃ v ∈ values, selects vars ref.metric [.tag false key v] ref = .ok true) ↔
      FirstDecides ref key values := by
  rw [firstDecides_iff false, anyIn_iff]
  simp [selects_list, selects_tag, Membership.matches]

theorem negated_of_first_decides (vars : Vars) (h : FirstDecides ref key values) :
    selects vars ref.metric [.list true key values] ref = .ok true ↔
      ∀ v ∈ values, selects vars ref.metric [.tag true key v] ref = .ok true := by
  have hiff := (firstDecides_iff true).mp h
  rw [anyIn_iff] at hiff
  simp only [selects_list, selects_tag, Membership.matches, Except.ok.injEq, bne_iff_ne, ne_eq,
    hiff, not_exists, not_and]

/-- In any filter, a list of values selects what one of its single terms selects, and the negated
list what all of the negated single terms do, exactly for the series whose first value of the key
decides. -/
theorem in_list_iff_first_decides {vars : Vars} {key : GoString} {values : List GoString}
    {term : MetricQuery.Matcher} (h : Spells vars key values term) (hne : values ≠ [])
    (ref : SeriesRef) :
    ((∀ pre suf, selects vars ref.metric (pre ++ term :: suf) ref = .ok true ↔
        ∃ v ∈ values, selects vars ref.metric (pre ++ .tag false key v :: suf) ref = .ok true) ∧
      (∀ pre suf, selects vars ref.metric (pre ++ .list true key values :: suf) ref = .ok true ↔
        ∀ v ∈ values, selects vars ref.metric (pre ++ .tag true key v :: suf) ref = .ok true)) ↔
      FirstDecides ref key values := by
  simp only [selects_amid rfl, selects_spelled h ref]
  constructor
  · intro hall
    refine (single_iff_first_decides vars ref key values).mp ?_
    have hempty : selects vars ref.metric ([] ++ []) ref = .ok true := by
      rw [selects_of_expands (fun ws => ⟨ws, rfl⟩), decide_eq_true rfl]
      rfl
    have := hall.1 [] []
    simpa only [hempty, and_true] using this
  · intro hfirst
    refine ⟨fun pre suf => ?_, fun pre suf => ?_⟩
    · rw [(single_iff_first_decides vars ref key values).mpr hfirst, ← exists_and_right]
      simp only [and_assoc]
    · rw [negated_of_first_decides vars hfirst]
      obtain ⟨v, hv⟩ := List.exists_mem_of_ne_nil values hne
      exact ⟨fun hboth u hu => ⟨hboth.1 u hu, hboth.2⟩,
        fun hboth => ⟨fun u hu => (hboth u hu).1, (hboth v hv).2⟩⟩

def twoServices : SeriesRef :=
    ⟨text "m", [⟨text "service", text "api"⟩, ⟨text "service", text "web"⟩]⟩

def noVars : Vars := fun _ => none

/-- A list of one value looks at the first value of a tag only; the tag alone looks at all. -/
theorem one_value_list_misses_second :
    selects noVars twoServices.metric [.list false (text "service") [text "web"]] twoServices =
        .ok false ∧
      selects noVars twoServices.metric [.tag false (text "service") (text "web")] twoServices =
        .ok true ∧
      selects noVars twoServices.metric [.list true (text "service") [text "web"]] twoServices =
        .ok true ∧
      selects noVars twoServices.metric [.tag true (text "service") (text "web")] twoServices =
        .ok false := by
  decide

/-- The series' first value is in this list. -/
theorem in_list_selects_first :
    selects noVars twoServices.metric
        ([] ++ .list false (text "service") [text "a*", text "db"] :: []) twoServices = .ok true ↔
      ∃ v ∈ [text "a*", text "db"], selects noVars twoServices.metric
        ([] ++ .tag false (text "service") v :: []) twoServices = .ok true :=
  ((in_list_iff_first_decides Spells.list (List.cons_ne_nil _ _) twoServices).mpr
    (fun _ _ _ _ => ⟨text "api", by decide, by decide⟩)).1 [] []

end Ozymandias.MetricSelect
