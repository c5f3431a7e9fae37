import Ozymandias.MetricTokens
import Mathlib.Data.List.Nodup

/-!
The parts of a metric query: filters, groupings and modifiers. What their
parsers return is well formed, they never give up on a loop, and they read back
the text of every well-formed part.
-/
namespace Ozymandias.MetricPieces

open Loops MetricQuery MetricLex MetricParse MetricTokens
open SeriesModel (GoString colon)

variable {F : Type} {N : Strconv F}

def TagValue (stop key value : GoString) : Prop :=
  ValueOk stop value ∧ validTag (key ++ [colon] ++ value) = true

def MatcherOk : Matcher → Prop
  | .var name => VarOk name
  | .tag _ key value => TagName key ∧ TagValue tagStop key value
  | .list _ key values =>
    TagName key ∧ values ≠ [] ∧ values.length ≤ maxValues ∧ ∀ v ∈ values, TagValue listStop key v

def ModifierOk : Modifier → Prop
  | .rollup _ seconds => seconds ≤ maxSeconds
  | .fill _ seconds => seconds ≤ maxSeconds
  | _ => True

structure QueryOk (q : Query) : Prop where
  metric : validMetricName q.metric = true
  filter : ∀ m ∈ q.filter, MatcherOk m
  groupBy : ∀ k ∈ q.groupBy, TagName k
  keys_nodup : q.groupBy.Nodup
  modifiers : ∀ m ∈ q.modifiers, ModifierOk m
  kinds_nodup : (q.modifiers.map Modifier.kind).Nodup

structure Moved (N : Strconv F) (st st' : Look F) : Prop where
  ok : Token.Ok N st'.tok
  le : st'.rest.length ≤ st.rest.length

variable {key : GoString} (st : Look F) {α : Type}

/-- A parser fails in a known way, or its value is of a kind and it has gone on. -/
abbrev Gives (N : Strconv F) (P : α → Prop) : Except (Fail F) (α × Look F) → Prop :=
  Outcome (fun x => P x.1 ∧ Moved N st x.2) Known

theorem Moved.trans {a b c : Look F} (h : Moved N a b) (h' : Moved N b c) : Moved N a c :=
  ⟨h'.ok, h'.le.trans h.le⟩

theorem advance_outcome :
    Outcome (fun st' => Moved N st st' ∧ (st'.tok ≠ .eof → st'.rest.length < st.rest.length)) Known
      (advance N st) :=
  (next_outcome st.rest).mono (fun _ h => ⟨⟨h.ok, h.rest_le⟩, h.rest_lt⟩)

theorem advanceKey_outcome :
    Outcome (fun st' => Moved N st st' ∧ (st'.tok ≠ .eof → st'.rest.length < st.rest.length)) Known
      (advanceKey N st) :=
  (nextKey_outcome st.rest).mono (fun _ h => ⟨⟨h.ok, h.rest_le⟩, h.rest_lt⟩)

theorem finish_outcome (a : α) (st : Look F) : Gives st N (· = a) (finish N a st) :=
  (advance_outcome st).bind (fun _ h => ⟨rfl, h.1⟩)

variable {st}

/-- The last token of a part. -/
theorem finish_gives {P : α → Prop} {a : α} {st' : Look F} (ha : P a) (h : Moved N st st') :
    Gives st N P (finish N a st') := by
  refine (finish_outcome a st').mono ?_
  rintro ⟨a', st''⟩ ⟨rfl, h'⟩
  exact ⟨ha, h.trans h'⟩

variable (st)

/-- A loop of the parser: its step keeps the invariant and reads something. -/
theorem repeatWhile_outcome {again : Token F → Bool}
    {step : α → Look F → Except (Fail F) (α × Look F)} {P : α → Prop}
    (hstep : ∀ a st, P a → Token.Ok N st.tok → again st.tok = true →
      Outcome (fun x => P x.1 ∧ Moved N st x.2 ∧
        x.2.rest.length < st.rest.length) Known (step a st))
    {a : α} {st : Look F} (ha : P a) (hst : Token.Ok N st.tok) :
    Outcome (fun x => P x.1 ∧ Moved N st x.2 ∧ again x.2.tok = false) Known
      (repeatWhile again step a st) := by
  refine (whileLoop_outcome (P := fun b st' => P b ∧ Moved N st st') ?_ ⟨ha, hst, le_rfl⟩).mono ?_
  · intro b st' hb hagain
    exact (hstep b st' hb.1 hb.2.ok hagain).mono (fun x h => ⟨⟨h.1, hb.2.trans h.2.1⟩, h.2.2⟩)
  · exact fun _ h => ⟨h.1.1, h.1.2, h.2⟩

theorem checkTag_outcome (key : GoString) (value : ValueText) :
    Outcome (fun _ => validTag (key ++ [colon] ++ value.text) = true) (Known (F := F))
      (checkTag key value) := by
  unfold checkTag
  split
  · assumption
  · exact nofun

theorem tagValue_outcome {neg : Bool} (hkey : TagName key) (st : Look F) :
    Gives st N MatcherOk (tagValue N neg key st) := by
  unfold tagValue
  dsimp only
  split
  · exact nofun
  next hne =>
    obtain ⟨hvalue, hlt⟩ := nextValue_ok hne
    refine (checkTag_outcome key _).bind (fun _ hvalid => ?_)
    refine (next_outcome _).bind (fun st' hst' => ?_)
    exact ⟨⟨hkey, hvalue, hvalid⟩, hst'.ok, hst'.rest_le.trans hlt.le⟩

structure ValuesOk (key : GoString) (values : List GoString) : Prop where
  len : values.length ≤ maxValues
  ok : ∀ v ∈ values, TagValue listStop key v

theorem listValue_outcome {values : List GoString} (h : ValuesOk key values) (st : Look F) :
    Outcome (fun x => (ValuesOk key x.1 ∧ x.1 ≠ []) ∧ Moved N st x.2 ∧
      x.2.rest.length < st.rest.length) Known (listValue N key values st) := by
  unfold listValue
  dsimp only
  split
  · exact nofun
  next hne =>
    obtain ⟨hvalue, hlt⟩ := nextValue_ok hne
    refine (checkTag_outcome key _).bind (fun _ hvalid => ?_)
    split
    · exact nofun
    next hfull =>
      refine (next_outcome _).bind (fun st' hst' => ?_)
      have hlen := h.len
      refine ⟨⟨⟨?_, ?_⟩, by simp⟩, ⟨hst'.ok, hst'.rest_le.trans hlt.le⟩, hst'.rest_le.trans_lt hlt⟩
      · rw [List.length_append, List.length_singleton]
        omega
      · exact List.forall_mem_append.mpr ⟨h.ok, List.forall_mem_singleton.mpr ⟨hvalue, hvalid⟩⟩

def KeysOk (keys : List GoString) : Prop := (∀ k ∈ keys, TagName k) ∧ keys.Nodup

theorem groupKey_outcome {keys : List GoString} (h : KeysOk keys) (st : Look F) :
    Outcome (fun x => KeysOk x.1 ∧ Moved N st x.2 ∧ x.2.rest.length < st.rest.length) Known
      (groupKey N keys st) := by
  refine (advanceKey_outcome st).bind (fun st₁ h₁ => ?_)
  split
  next key htok =>
    have hno := h₁.1.ok
    have hlt := h₁.2 (by rw [htok]; exact nofun)
    rw [htok] at hno
    split
    next hvalid =>
      split
      · exact nofun
      next hnew =>
        refine (finish_outcome _ st₁).mono ?_
        rintro ⟨ks, st₂⟩ ⟨rfl, h₂⟩
        refine ⟨⟨?_, ?_⟩, h₁.1.trans h₂, h₂.le.trans_lt hlt⟩
        · exact List.forall_mem_append.mpr ⟨h.1, List.forall_mem_singleton.mpr ⟨hvalid, hno⟩⟩
        · rw [← List.concat_eq_append]
          exact List.Nodup.concat hnew h.2
    · exact nofun
  · exact nofun

variable [DecidableEq F]

theorem expect_outcome (want : Token F) (st : Look F) :
    Outcome (fun _ => st.tok = want) Known (expect want st) := by
  unfold expect
  split
  · assumption
  · exact nofun

theorem valueList_outcome {neg : Bool} (hkey : TagName key) (st : Look F) :
    Gives st N MatcherOk (valueList N neg key st) := by
  refine (advance_outcome st).bind (fun st₁ h₁ => ?_)
  refine (expect_outcome _ st₁).bind (fun _ _ => ?_)
  have hnone : ValuesOk key [] := ⟨Nat.zero_le _, nofun⟩
  refine (listValue_outcome hnone st₁).bind ?_
  rintro ⟨first, st₂⟩ ⟨hfirst, h₂, -⟩
  refine (repeatWhile_outcome (P := fun values => ValuesOk key values ∧ values ≠ [])
    (fun values st hv _ _ => listValue_outcome hv.1 st) hfirst h₂.ok).bind ?_
  rintro ⟨values, st₃⟩ ⟨hvalues, h₃, -⟩
  refine (expect_outcome _ st₃).bind (fun _ _ => ?_)
  exact finish_gives ⟨hkey, hvalues.2, hvalues.1.len, hvalues.1.ok⟩ ((h₁.1.trans h₂).trans h₃)

theorem keyed_outcome (neg : Bool) {st : Look F} (hst : Token.Ok N st.tok) :
    Outcome (fun x => MatcherOk x.1 ∧ Moved N st x.2 ∧ st.tok ≠ .eof) Known (keyed N neg st) := by
  unfold keyed
  split
  next key htok =>
    rw [htok] at hst
    split
    next hvalid =>
      have hkey : TagName key := ⟨hvalid, hst⟩
      refine (advance_outcome st).bind (fun st₁ h₁ => ?_)
      have hafter : Outcome (fun x => MatcherOk x.1 ∧ Moved N st₁ x.2) Known
          (afterKey N neg key st₁) := by
        unfold afterKey
        split
        · exact tagValue_outcome hkey st₁
        · split
          · exact valueList_outcome hkey st₁
          · exact nofun
        · exact nofun
      exact hafter.mono (fun x hx => ⟨hx.1, h₁.1.trans hx.2, by rw [htok]; exact nofun⟩)
    · exact nofun
  · exact nofun

theorem matcher_outcome {st : Look F} (hst : Token.Ok N st.tok) :
    Outcome (fun x => MatcherOk x.1 ∧ Moved N st x.2 ∧ st.tok ≠ .eof) Known (matcher N st) := by
  unfold matcher
  split
  next htok =>
    refine (advanceKey_outcome st).bind (fun st₁ h₁ => ?_)
    split
    · exact nofun
    · refine (keyed_outcome true h₁.1.ok).mono (fun x hx => ⟨hx.1, h₁.1.trans hx.2.1, ?_⟩)
      rw [htok]
      exact nofun
  next name htok =>
    rw [htok] at hst
    refine (finish_outcome _ st).mono ?_
    rintro ⟨m, st'⟩ ⟨rfl, hmoved⟩
    exact ⟨hst, hmoved, by rw [htok]; exact nofun⟩
  · exact keyed_outcome false hst

theorem matchers_outcome {st : Look F} (hst : Token.Ok N st.tok) :
    Outcome (fun x => (∀ m ∈ x.1, MatcherOk m) ∧ x.1 ≠ [] ∧ Moved N st x.2) Known
      (matchers N st) := by
  refine (matcher_outcome hst).bind ?_
  rintro ⟨m, st₁⟩ ⟨hm, h₁, -⟩
  have hone : (∀ x ∈ [m], MatcherOk x) ∧ [m] ≠ [] :=
    ⟨fun x hx => by rw [List.mem_singleton.mp hx]; exact hm, by simp⟩
  refine (repeatWhile_outcome (P := fun ms => (∀ x ∈ ms, MatcherOk x) ∧ ms ≠ []) ?_ hone
    h₁.ok).bind ?_
  · intro ms st hms _ _
    refine (advanceKey_outcome st).bind (fun st₂ h₂ => ?_)
    refine (matcher_outcome h₂.1.ok).bind ?_
    rintro ⟨m', st₃⟩ ⟨hm', h₃, hne⟩
    refine ⟨⟨?_, by simp⟩, h₂.1.trans h₃, h₃.le.trans_lt (h₂.2 hne)⟩
    exact List.forall_mem_append.mpr ⟨hms.1, List.forall_mem_singleton.mpr hm'⟩
  · rintro ⟨ms, st₂⟩ ⟨hms, h₂, -⟩
    dsimp only
    split
    · exact ⟨hms.1, hms.2, h₁.trans h₂⟩
    · exact nofun

theorem filter_outcome :
    Gives st N (fun ms => ∀ m ∈ ms, MatcherOk m) (filter N st) := by
  refine (advanceKey_outcome st).bind (fun st₁ h₁ => ?_)
  split
  · refine (advance_outcome st₁).bind (fun st₂ h₂ => ?_)
    refine (expect_outcome _ st₂).bind (fun _ _ => ?_)
    exact ⟨nofun, h₁.1.trans h₂.1⟩
  · exact nofun
  · exact (matchers_outcome h₁.1.ok).mono (fun x hx => ⟨hx.1, h₁.1.trans hx.2.2⟩)

theorem grouping_outcome :
    Gives st N KeysOk (grouping N st) := by
  refine (advance_outcome st).bind (fun st₁ h₁ => ?_)
  refine (expect_outcome _ st₁).bind (fun _ _ => ?_)
  have hnone : KeysOk [] := ⟨nofun, List.nodup_nil⟩
  refine (groupKey_outcome hnone st₁).bind ?_
  rintro ⟨first, st₂⟩ ⟨hfirst, h₂, -⟩
  refine (repeatWhile_outcome (P := KeysOk) (fun keys st hk _ _ => groupKey_outcome hk st)
    hfirst h₂.ok).bind ?_
  rintro ⟨keys, st₃⟩ ⟨hkeys, h₃, -⟩
  dsimp only
  split
  · exact finish_gives hkeys ((h₁.1.trans h₂).trans h₃)
  · exact nofun

theorem optionalGrouping_outcome {st : Look F} (hst : Token.Ok N st.tok) :
    Gives st N KeysOk (optionalGrouping N st) := by
  have hnone : KeysOk [] := ⟨nofun, List.nodup_nil⟩
  unfold optionalGrouping
  split
  · split
    · exact grouping_outcome st
    · exact ⟨hnone, hst, le_rfl⟩
  · exact ⟨hnone, hst, le_rfl⟩

theorem optionalSeconds_outcome {st : Look F} (hst : Token.Ok N st.tok) :
    Gives st N (· ≤ maxSeconds) (optionalSeconds N st) := by
  unfold optionalSeconds
  split
  · refine (advance_outcome st).bind (fun st₁ h₁ => ?_)
    unfold seconds
    split
    · dsimp only
      split
      · exact nofun
      next v _ hwhole =>
        exact finish_gives (P := (· ≤ maxSeconds)) (by omega) h₁.1
    · exact nofun
  · exact ⟨Nat.zero_le _, hst, le_rfl⟩

theorem methodArgs_outcome (words : List α) (text : α → GoString) (kind : ModKind)
    (build : α → ℕ → Modifier) (hbuild : ∀ a s, s ≤ maxSeconds → ModifierOk (build a s))
    (st : Look F) :
    Gives st N ModifierOk (methodArgs N words text kind build st) := by
  unfold methodArgs
  split
  · split
    next method _ =>
      refine (advance_outcome st).bind (fun st₁ h₁ => ?_)
      refine (optionalSeconds_outcome h₁.1.ok).bind ?_
      rintro ⟨secs, st₂⟩ ⟨hsecs, h₂⟩
      exact ⟨hbuild method secs hsecs, h₁.1.trans h₂⟩
    · exact nofun
  · exact nofun

theorem noArgs_outcome (m : Modifier) (hm : ModifierOk m) {st : Look F} (hst : Token.Ok N st.tok) :
    Gives st N ModifierOk (noArgs m st) := by
  unfold noArgs
  split
  · exact ⟨hm, hst, le_rfl⟩
  · exact nofun

theorem modifierArgs_outcome (kind : ModKind) {st : Look F} (hst : Token.Ok N st.tok) :
    Gives st N ModifierOk (modifierArgs N kind st) := by
  cases kind with
  | rollup => exact methodArgs_outcome _ _ _ Modifier.rollup (fun _ _ h => h) st
  | fill => exact methodArgs_outcome _ _ _ Modifier.fill (fun _ _ h => h) st
  | asRate => exact noArgs_outcome .asRate trivial hst
  | asCount => exact noArgs_outcome .asCount trivial hst

theorem modifier_outcome (name : GoString) (st : Look F) :
    Gives st N ModifierOk (modifier N name st) := by
  refine (advance_outcome st).bind (fun st₁ h₁ => ?_)
  refine (expect_outcome _ st₁).bind (fun _ _ => ?_)
  refine (advance_outcome st₁).bind (fun st₂ h₂ => ?_)
  split
  · exact nofun
  next kind _ =>
    refine (modifierArgs_outcome kind h₂.1.ok).bind ?_
    rintro ⟨m, st₃⟩ ⟨hm, h₃⟩
    refine (expect_outcome _ st₃).bind (fun _ _ => ?_)
    exact finish_gives hm ((h₁.1.trans h₂.1).trans h₃)

def ModifiersOk (ms : List Modifier) : Prop :=
  (∀ m ∈ ms, ModifierOk m) ∧ (ms.map Modifier.kind).Nodup

theorem nextModifier_outcome {ms : List Modifier} (h : ModifiersOk ms) (st : Look F) :
    Outcome (fun x => ModifiersOk x.1 ∧ Moved N st x.2 ∧ x.2.rest.length < st.rest.length) Known
      (nextModifier N ms st) := by
  refine (advance_outcome st).bind (fun st₁ h₁ => ?_)
  split
  next name htok =>
    have hlt := h₁.2 (by rw [htok]; exact nofun)
    refine (modifier_outcome name st₁).bind ?_
    rintro ⟨m, st₂⟩ ⟨hm, h₂⟩
    dsimp only
    split
    · exact nofun
    next hnew =>
      refine ⟨⟨?_, ?_⟩, h₁.1.trans h₂, h₂.le.trans_lt hlt⟩
      · exact List.forall_mem_append.mpr ⟨h.1, List.forall_mem_singleton.mpr hm⟩
      · rw [List.map_append, List.map_singleton, ← List.concat_eq_append]
        exact List.Nodup.concat hnew h.2
  · exact nofun

theorem modifiers_outcome {st : Look F} (hst : Token.Ok N st.tok) :
    Gives st N ModifiersOk (modifiers N st) := by
  have hnone : ModifiersOk [] := ⟨nofun, List.nodup_nil⟩
  exact (repeatWhile_outcome (P := ModifiersOk) (fun ms st hms _ _ => nextModifier_outcome hms st)
    hnone hst).mono (fun _ h => ⟨h.1, h.2.1⟩)

def IsQuery (n : Node F) : Prop := ∃ q, n = .query q ∧ QueryOk q

theorem query_outcome (agg : Agg) (st : Look F) :
    Gives st N IsQuery (query N agg st) := by
  refine (advance_outcome st).bind (fun st₁ h₁ => ?_)
  split
  · split
    next hmetric =>
      refine (advance_outcome st₁).bind (fun st₂ h₂ => ?_)
      refine (expect_outcome _ st₂).bind (fun _ _ => ?_)
      refine (filter_outcome st₂).bind ?_
      rintro ⟨fs, st₃⟩ ⟨hfs, h₃⟩
      refine (advance_outcome st₃).bind (fun st₄ h₄ => ?_)
      refine (optionalGrouping_outcome h₄.1.ok).bind ?_
      rintro ⟨keys, st₅⟩ ⟨hkeys, h₅⟩
      refine (modifiers_outcome h₅.ok).bind ?_
      rintro ⟨ms, st₆⟩ ⟨hms, h₆⟩
      have hmoved := ((((h₁.1.trans h₂.1).trans h₃).trans h₄.1).trans h₅).trans h₆
      exact ⟨⟨_, rfl, hmetric, hfs, hkeys.1, hkeys.2, hms.1, hms.2⟩, hmoved⟩
    · exact nofun
  · exact nofun

end Ozymandias.MetricPieces
