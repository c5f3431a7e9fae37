import Ozymandias.SeriesModel
import Mathlib.Data.List.Lex

/-!
Series refs as stores see them: their order, their validity, and selection. The
index files a series under its metric name, as the value of a key of its own,
and under its tags; a selector decides on these terms. The refs that the intake
lets through have no separator where it would be ambiguous, so that for them a
key is a series.
-/

namespace Ozymandias.Selection

open BitLists SeriesModel

def byteOrder (s : GoString) : List ℕ := s.map BitVec.toNat

theorem byteOrder_injective : Function.Injective byteOrder :=
  List.map_injective_iff.mpr (fun _ _ h => BitVec.eq_of_toNat_eq h)

def keyOrder (ref : SeriesRef) : List ℕ := byteOrder ref.key

variable {ref ref' : SeriesRef} {x : Byte} {xs : GoString} {t : Tag}

inductive RefErr where
  | emptyMetric
  | unsortedTags
  deriving DecidableEq

def unsorted (a b : Tag) : Bool :=
  decide (byteOrder b.key < byteOrder a.key) ||
    decide (a.key = b.key) && decide (byteOrder b.value ≤ byteOrder a.value)

def anyUnsorted : List Tag → Bool
  | a :: b :: rest => unsorted a b || anyUnsorted (b :: rest)
  | _ => false

def validate (ref : SeriesRef) : Option RefErr :=
  if ref.metric = [] then some .emptyMetric
  else if anyUnsorted ref.tags then some .unsortedTags
  else none

inductive MatchType where
  | equal
  | notEqual
  | wildcard
  | notWildcard
  deriving DecidableEq

structure Matcher where
  key : GoString
  value : GoString
  type : MatchType
  deriving DecidableEq

structure Selector where
  metric : GoString
  matchers : List Matcher
  deriving DecidableEq

def star : Byte := 0x2a

def slash : Byte := 0x2f

def globFrom : GoString → GoString → Bool
  | [], s => s.isEmpty
  | c :: pattern, s =>
    if c = star then s.tails.any (fun rest => globFrom pattern rest)
    else
      match s with
      | [] => false
      | d :: s => decide (c = d) && globFrom pattern s

/-- Slashes are replaced on both sides, because path patterns treat them apart. -/
def unslash (s : GoString) : GoString := s.map (fun c => if c = slash then 0 else c)

def globMatch (pattern s : GoString) : Bool := globFrom (unslash pattern) (unslash s)

def metricName : GoString := [0x5f, 0x5f, 0x6e, 0x61, 0x6d, 0x65, 0x5f, 0x5f]

def terms (ref : SeriesRef) : List Tag := ⟨metricName, ref.metric⟩ :: ref.tags

def Matcher.has (m : Matcher) (ts : List Tag) : Bool :=
  ts.any (fun t => decide (t.key = m.key) &&
    match m.type with
    | .equal | .notEqual => decide (t.value = m.value)
    | .wildcard | .notWildcard => globMatch m.value t.value)

def Matcher.holds (m : Matcher) (ts : List Tag) : Bool :=
  match m.type with
  | .equal | .wildcard => m.has ts
  | .notEqual | .notWildcard => !m.has ts

def Selector.selects (sel : Selector) (ref : SeriesRef) : Bool :=
  (decide (sel.metric = []) || decide (⟨metricName, sel.metric⟩ ∈ terms ref)) &&
    sel.matchers.all (fun m => m.holds (terms ref))

def everything : Selector := ⟨[], []⟩

structure PlainTag (t : Tag) : Prop where
  key_ne : t.key ≠ []
  no_colon : colon ∉ t.key
  key_no_comma : comma ∉ t.key
  value_no_comma : comma ∉ t.value

structure Plain (ref : SeriesRef) : Prop where
  no_bar : bar ∉ ref.metric
  tags : ∀ t ∈ ref.tags, PlainTag t

theorem takeWhile_separator (ys : GoString) (h : x ∉ xs) :
    (xs ++ x :: ys).takeWhile (fun c => decide (c ≠ x)) = xs := by
  have hall : ∀ c ∈ xs, decide (c ≠ x) = true := by
    intro c hc
    refine decide_eq_true ?_
    rintro rfl
    exact h hc
  rw [List.takeWhile_append_of_pos hall]
  simp

/-- What is before a separator that the front does not contain. -/
theorem separated_inj {xs' ys ys' : GoString} (h : x ∉ xs) (h' : x ∉ xs')
    (heq : xs ++ x :: ys = xs' ++ x :: ys') : xs = xs' ∧ ys = ys' := by
  have hfront : xs = xs' := by
    rw [← takeWhile_separator ys h, heq, takeWhile_separator ys' h']
  subst hfront
  exact ⟨rfl, List.cons.inj (List.append_cancel_left heq) |>.2⟩

end Ozymandias.Selection
