import Ozymandias.LogQuery

/-!
The split of a query between the index and the scan. Top-level disjunctions
become branches, and in a branch the conjuncts that ask for a stream label
become matchers; the rest is checked on each log. A log satisfies the query
exactly if it satisfies a branch, and a stream's predicate accepts exactly the
logs that do, as long as the stream has the labels of its logs.
-/

namespace Ozymandias.LogPlan

open SeriesModel Utf8 LogQuery

variable {F : Type} (lib : Lib F)

structure Matcher where
  key : Key
  value : GoString
  negate : Bool

def Matcher.matches (m : Matcher) (value : GoString) : Bool := matchLabel m.value value != m.negate

structure Branch (F : Type) where
  matchers : List Matcher
  filter : Option (Node F)

def isStreamLabel (k : Key) : Bool := k ≠ .traceID

def asMatcher : Node F → Option Matcher
  | .label key value => if isStreamLabel key then some ⟨key, value, false⟩ else none
  | .not (.label key value) => if isStreamLabel key then some ⟨key, value, true⟩ else none
  | _ => none

mutual
def orArms : Node F → List (Node F)
  | .or args => orArmsAll args
  | n => [n]

def orArmsAll : List (Node F) → List (Node F)
  | [] => []
  | n :: rest => orArms n ++ orArmsAll rest
end

mutual
def conjuncts : Node F → List (Node F)
  | .and args => conjunctsAll args
  | n => [n]

def conjunctsAll : List (Node F) → List (Node F)
  | [] => []
  | n :: rest => conjuncts n ++ conjunctsAll rest
end

def residual : List (Node F) → Option (Node F)
  | [] => none
  | [n] => some n
  | rest => some (.and rest)

def planBranch (n : Node F) : Branch F :=
  ⟨(conjuncts n).filterMap asMatcher,
    residual ((conjuncts n).filter (fun c => (asMatcher c).isNone))⟩

def split (q : Option (Node F)) : List (Branch F) :=
  match q with
  | none => [⟨[], none⟩]
  | some n => (orArms n).map planBranch

structure LabelSet where
  service : GoString
  source : GoString
  host : GoString
  env : GoString
  status : GoString
  deriving DecidableEq

def LabelSet.value (ls : LabelSet) : Key → GoString
  | .service => ls.service
  | .source => ls.source
  | .host => ls.host
  | .env => ls.env
  | .status => ls.status
  | .traceID => []

def labelsOf (l : Log) : LabelSet :=
  ⟨labelValue l .service, labelValue l .source, labelValue l .host, labelValue l .env,
    labelValue l .status⟩

def overflowLabel : GoString := [0x5f, 0x6f, 0x76, 0x65, 0x72, 0x66, 0x6c, 0x6f, 0x77]

/-- The labels of the stream that takes the logs of new streams when there are too many. -/
def LabelSet.overflow (ls : LabelSet) : LabelSet :=
  ⟨overflowLabel, overflowLabel, overflowLabel, ls.env, ls.status⟩

/-- The labels of the stream that a log with these labels is filed under, given the streams there
are. -/
def filedUnder (streams : List LabelSet) (maxStreams : ℕ) (ls : LabelSet) : LabelSet :=
  if ls ∈ streams then ls else if maxStreams ≤ streams.length then ls.overflow else ls

def Branch.selects (b : Branch F) (ls : LabelSet) : Bool :=
  b.matchers.all (fun m => m.matches (ls.value m.key))

def orFilters : List (Log → Bool) → Log → Bool
  | [f], l => f l
  | fs, l => fs.any (fun f => f l)

def streamPred (plan : List (Branch F)) (ls : LabelSet) : Option (Log → Bool) :=
  let preds := (plan.filter (fun b => b.selects ls)).map (fun b => compileQuery lib b.filter)
  if preds = [] then none else some (orFilters preds)

def accepts (plan : List (Branch F)) (ls : LabelSet) (l : Log) : Bool :=
  ((streamPred lib plan ls).map (fun pred => pred l)).getD false

mutual
theorem any_orArms (n : Node F) (l : Log) :
    (orArms n).any (fun a => compile lib a l) = compile lib n l := by
  cases n with
  | or args => rw [orArms, any_orArmsAll args l, compile_or]
  | and args | not x | text value | label key value | attr a => exact Bool.or_false _

theorem any_orArmsAll (ns : List (Node F)) (l : Log) :
    (orArmsAll ns).any (fun a => compile lib a l) = ns.any (fun n => compile lib n l) := by
  cases ns with
  | nil => rfl
  | cons n rest =>
    rw [orArmsAll, List.any_append, any_orArms n l, any_orArmsAll rest l, List.any_cons]
end

mutual
theorem all_conjuncts (n : Node F) (l : Log) :
    (conjuncts n).all (fun a => compile lib a l) = compile lib n l := by
  cases n with
  | or args | not x | text value | label key value | attr a => exact Bool.and_true _
  | and args => rw [conjuncts, all_conjunctsAll args l, compile_and]

theorem all_conjunctsAll (ns : List (Node F)) (l : Log) :
    (conjunctsAll ns).all (fun a => compile lib a l) = ns.all (fun n => compile lib n l) := by
  cases ns with
  | nil => rfl
  | cons n rest =>
    rw [conjunctsAll, List.all_append, all_conjuncts n l, all_conjunctsAll rest l, List.all_cons]
end

variable {m : Matcher} {n : Node F}

theorem asMatcher_cases (h : asMatcher n = some m) :
    m.key ≠ .traceID ∧ (n = .label m.key m.value ∧ m.negate = false ∨
      n = .not (.label m.key m.value) ∧ m.negate = true) := by
  unfold asMatcher at h
  split at h
  next key value =>
    obtain ⟨hkey, rfl⟩ := Option.ite_some_none_eq_some.mp h
    exact ⟨of_decide_eq_true hkey, Or.inl ⟨rfl, rfl⟩⟩
  next key value =>
    obtain ⟨hkey, rfl⟩ := Option.ite_some_none_eq_some.mp h
    exact ⟨of_decide_eq_true hkey, Or.inr ⟨rfl, rfl⟩⟩
  next => cases h

/-- A matcher asks for what its term asks for. -/
theorem asMatcher_spec (h : asMatcher n = some m) (l : Log) :
    m.matches (labelValue l m.key) = compile lib n l := by
  obtain ⟨-, ⟨rfl, hneg⟩ | ⟨rfl, hneg⟩⟩ := asMatcher_cases h
  · rw [compile]
    simp [Matcher.matches, compileLabel, hneg]
  · rw [compile, compile]
    simp [Matcher.matches, compileLabel, hneg]

theorem compile_residual (rest : List (Node F)) (l : Log) :
    compileQuery lib (residual rest) l = rest.all (fun n => compile lib n l) := by
  cases rest with
  | nil => rfl
  | cons n rest =>
    cases rest with
    | nil =>
      change compile lib n l = _
      rw [List.all_cons, List.all_nil, Bool.and_true]
    | cons n' rest =>
      change compile lib (.and (n :: n' :: rest)) l = _
      rw [compile_and]

/-- Matchers and filter together are the conjuncts. -/
theorem planBranch_spec (n : Node F) (l : Log) :
    ((planBranch n).matchers.all (fun m => m.matches (labelValue l m.key)) &&
      compileQuery lib (planBranch n).filter l) = compile lib n l := by
  rw [← all_conjuncts lib n l]
  unfold planBranch
  rw [compile_residual]
  generalize conjuncts n = cs
  induction cs with
  | nil => rfl
  | cons c cs ih =>
    rw [List.all_cons, ← ih]
    cases hm : asMatcher c with
    | none =>
      rw [List.filterMap_cons_none hm, List.filter_cons_of_pos (by rw [hm]; rfl)]
      exact Bool.and_left_comm _ _ _
    | some m =>
      rw [List.filterMap_cons_some hm, List.filter_cons_of_neg (by rw [hm]; simp), List.all_cons,
        asMatcher_spec lib hm l]
      exact Bool.and_assoc _ _ _

/-- The index answers a branch's matchers from the labels of the log's own stream. -/
theorem selects_labelsOf (n : Node F) (l : Log) : (planBranch n).selects (labelsOf l) =
    (planBranch n).matchers.all (fun m => m.matches (labelValue l m.key)) := by
  have hvalue : ∀ m ∈ (planBranch n).matchers, (labelsOf l).value m.key = labelValue l m.key := by
    intro m hm
    obtain ⟨c, -, hc⟩ := List.mem_filterMap.mp hm
    have hkey := (asMatcher_cases hc).1
    cases hk : m.key with
    | traceID => exact absurd hk hkey
    | _ => rfl
  unfold Branch.selects
  rw [Bool.eq_iff_iff, List.all_eq_true, List.all_eq_true]
  refine forall₂_congr (fun m hm => ?_)
  rw [hvalue m hm]

theorem accepts_eq_any (plan : List (Branch F)) (ls : LabelSet) (l : Log) :
    accepts lib plan ls l = plan.any (fun b => b.selects ls && compileQuery lib b.filter l) := by
  have hany : ∀ fs : List (Log → Bool), orFilters fs l = fs.any (fun f => f l) := by
    intro fs
    unfold orFilters
    split
    · rw [List.any_cons, List.any_nil, Bool.or_false]
    · rfl
  have hsel : plan.any (fun b => b.selects ls && compileQuery lib b.filter l) =
      ((plan.filter (fun b => b.selects ls)).map (fun b => compileQuery lib b.filter)).any
        (fun f => f l) := by
    rw [List.any_map, List.any_filter]
    rfl
  unfold accepts streamPred
  dsimp only
  rw [hsel]
  split
  next hnil =>
    rw [hnil]
    rfl
  next => exact hany _

/-- A log satisfies the query exactly if it satisfies a branch; and in the stream of its labels it
is found exactly if it satisfies the query. -/
theorem split_faithful (q : Option (Node F)) (l : Log) :
    ((∃ b ∈ split q, (∀ m ∈ b.matchers, m.matches (labelValue l m.key) = true) ∧
      compileQuery lib b.filter l = true) ↔ compileQuery lib q l = true) ∧
      accepts lib (split q) (labelsOf l) l = compileQuery lib q l := by
  cases q with
  | none => simp [split, accepts_eq_any, Branch.selects]
  | some n =>
    have hbranch : ∀ a, ((∀ m ∈ (planBranch a).matchers, m.matches (labelValue l m.key) = true) ∧
        compileQuery lib (planBranch a).filter l = true) ↔ compile lib a l = true := by
      intro a
      rw [← planBranch_spec lib a l, Bool.and_eq_true, List.all_eq_true]
    constructor
    · change _ ↔ compile lib n l = true
      rw [← any_orArms lib n l, List.any_eq_true]
      constructor
      · rintro ⟨b, hb, hpass⟩
        obtain ⟨a, ha, rfl⟩ := List.mem_map.mp hb
        exact ⟨a, ha, (hbranch a).mp hpass⟩
      · rintro ⟨a, ha, hpass⟩
        exact ⟨planBranch a, List.mem_map_of_mem ha, (hbranch a).mpr hpass⟩
    · change _ = compile lib n l
      rw [accepts_eq_any, ← any_orArms lib n l]
      simp only [split, List.any_map, Function.comp_def, selects_labelsOf, planBranch_spec]

def plainLib : Lib Unit :=
  ⟨fun _ => none, fun _ _ => false, fun _ _ => false, fun _ _ => false, asciiCase⟩

def infoText : GoString := [0x69, 0x6e, 0x66, 0x6f]

def bareLog (service : GoString) : Log := ⟨1700000000000, [], infoText, service, [], [], [], [], []⟩

/-- In a store that has room for one stream, the log of a second service is found by the name of the
overflow stream, which is not its service, and not by its service. -/
theorem folded_stream_differs :
    let ls := filedUnder [labelsOf (bareLog [0x61])] 1 (labelsOf (bareLog [0x62]))
    (accepts plainLib (split (some (.label .service overflowLabel))) ls (bareLog [0x62]) = true ∧
      compileQuery plainLib (some (.label .service overflowLabel)) (bareLog [0x62]) = false) ∧
      accepts plainLib (split (some (.label .service [0x62]))) ls (bareLog [0x62]) = false ∧
      compileQuery plainLib (some (.label .service [0x62])) (bareLog [0x62]) = true := by
  decide

end Ozymandias.LogPlan
