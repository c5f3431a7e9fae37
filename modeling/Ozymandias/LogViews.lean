import Ozymandias.LogBloom
import Ozymandias.LogProgress

/-!
A query over the streams of a store. A stream that a branch of the query selects
is searched with its predicate, and a block whose filter rules the query out is
not decoded. While the patterns that attributes are compared with are UTF-8, as
the strings of the logs are, no filter hides a log that the predicate accepts,
and the pages list every match.
A pattern that begins inside a character asks for text that the filter, built
from whole characters in lower case, does not hold.
-/
namespace Ozymandias.LogViews

open SeriesModel Utf8 TimeMerge LogQuery LogPlan LogNeeds LogBloom LogSearch LogPages LogPaging

variable {F L : Type}

structure Decoded (L : Type) where
  log : L → Log
  valid : ∀ l, ∀ s ∈ textsOf (log l), Valid s

structure Stream (L : Type) where
  labels : LabelSet
  head : List (Entry L)
  blocks : List (Block L)

def Stream.entries (s : Stream L) : List (Entry L) := s.head ++ s.blocks.flatMap Block.entries

structure Streams (L : Type) where
  list : List (Stream L)
  distinct : ((list.flatMap Stream.entries).map Entry.key).Nodup
  numbered : ∀ e ∈ list.flatMap Stream.entries, 0 < e.seq ∧ e.seq < maxUint64

def Own (D : Decoded L) (list : List (Stream L)) : Prop :=
  ∀ st ∈ list, ∀ e ∈ st.entries, labelsOf (D.log e.log) = st.labels

section Search

variable (lib : Lib F) (D : Decoded L)

def source (plan : List (Branch F)) (st : Stream L) : Option (Source L) :=
  (streamPred lib plan st.labels).map (fun pred =>
    { pred := fun l => pred (D.log l)
      head := st.head
      blocks := st.blocks.map (fun b =>
        (b, ruledOut (buildBloom lib (b.entries.map (fun e => D.log e.log)))
          (streamNeed lib plan st.labels))) })

def found (q : Option (Node F)) (list : List (Stream L)) (o : Order) (lo hi : ℤ) :
    List (Entry L) :=
  sortBy (fun e => o.pos e.key) (list.flatMap (fun st => st.entries.filter (fun e =>
    decide (lo ≤ e.ts ∧ e.ts ≤ hi) && accepts lib (split q) st.labels (D.log e.log))))

variable {plan : List (Branch F)} (q : Option (Node F)) {st : Stream L}

theorem source_entries {s : Source L} (h : source lib D plan st = some s) :
    s.entries = st.entries := by
  obtain ⟨pred, -, rfl⟩ := Option.map_eq_some_iff.mp h
  unfold Source.entries Stream.entries
  rw [List.flatMap_map]

theorem source_pred {s : Source L} (h : source lib D plan st = some s) (l : L) :
    s.pred l = accepts lib plan st.labels (D.log l) := by
  obtain ⟨pred, hpred, rfl⟩ := Option.map_eq_some_iff.mp h
  unfold accepts
  rw [hpred]
  rfl

theorem accepts_of_unselected (h : source lib D plan st = none) (l : Log) :
    accepts lib plan st.labels l = false := by
  unfold accepts
  rw [Option.map_eq_none_iff.mp h]
  rfl

theorem sources_sublist (plan : List (Branch F)) (list : List (Stream L)) :
    ((list.filterMap (source lib D plan)).flatMap Source.entries).Sublist
      (list.flatMap Stream.entries) := by
  induction list with
  | nil => exact List.Sublist.refl _
  | cons st list ih =>
    cases h : source lib D plan st with
    | none =>
      rw [List.filterMap_cons_none h]
      exact ih.trans (List.sublist_append_right _ _)
    | some s =>
      rw [List.filterMap_cons_some h, List.flatMap_cons, source_entries lib D h]
      exact (List.Sublist.refl _).append ih

def contentOf (q : Option (Node F)) (s : Streams L) : Content L where
  sources := s.list.filterMap (source lib D (split q))
  distinct := s.distinct.sublist ((sources_sublist lib D (split q) s.list).map Entry.key)
  numbered := fun e he => s.numbered e ((sources_sublist lib D (split q) s.list).subset he)

theorem matching_eq_found (s : Streams L) (o : Order) (lo hi : ℤ) :
    (contentOf lib D q s).matching o lo hi = found lib D q s.list o lo hi := by
  unfold Content.matching found contentOf
  refine congrArg _ ?_
  dsimp only
  induction s.list with
  | nil => rfl
  | cons st list ih =>
    rw [List.flatMap_cons]
    cases h : source lib D (split q) st with
    | none =>
      rw [List.filterMap_cons_none h, ih]
      simp [accepts_of_unselected lib D h]
    | some src =>
      rw [List.filterMap_cons_some h, List.flatMap_cons, source_entries lib D h, ih]
      simp only [source_pred lib D h]

/-- The filters hide no match of a query whose attribute patterns are UTF-8. -/
theorem soundFilters (hq : ∀ s ∈ queryPatterns q, Valid s) (s : Streams L) :
    (contentOf lib D q s).SoundFilters := by
  intro src hsrc b hb hskip e he
  obtain ⟨st, -, hst⟩ := List.mem_filterMap.mp hsrc
  rw [source_pred lib D hst]
  obtain ⟨pred, -, rfl⟩ := Option.map_eq_some_iff.mp hst
  obtain ⟨blk, -, rfl⟩ := List.mem_map.mp hb
  have htexts : ∀ l ∈ blk.entries.map (fun e => D.log e.log), ∀ s ∈ textsOf l, Valid s := by
    intro l hl
    obtain ⟨e, -, rfl⟩ := List.mem_map.mp hl
    exact D.valid e.log
  refine (filter_hides_nothing lib q hq _ htexts).2 st.labels hskip (D.log e.log) ?_
  exact List.mem_map_of_mem he

/-- In streams of their own labels, the matches are the logs that satisfy the query. -/
theorem found_own {list : List (Stream L)} (h : Own D list) (o : Order) (lo hi : ℤ) :
    found lib D q list o lo hi = sortBy (fun e => o.pos e.key)
      ((list.flatMap Stream.entries).filter (fun e =>
        decide (lo ≤ e.ts ∧ e.ts ≤ hi) && compileQuery lib q (D.log e.log))) := by
  rw [List.filter_flatMap]
  refine congrArg _ (List.flatMap_congr (fun st hst => List.filter_congr (fun e he => ?_)))
  rw [← h st hst e he, (split_faithful lib q (D.log e.log)).2]

theorem following_found (hq : ∀ s ∈ queryPatterns q, Valid s) (s : Streams L) (r : Request L)
    (hr : r.content = contentOf lib D q s) {calls : List (Call L)} {a : Call L}
    (h : Following r calls) (ha : calls.getLast? = some a) :
    logsOf r calls <+: found lib D q s.list r.order r.lo r.hi ∧
      ((a.page r).cursor = none → logsOf r calls = found lib D q s.list r.order r.lo r.hi) := by
  have hbegin := (following_after h ha).beginning
  have hsound : r.content.SoundFilters := hr ▸ soundFilters lib D q hq s
  have hmatching : r.content.matching r.order r.lo r.hi =
    found lib D q s.list r.order r.lo r.hi := by
    rw [hr, matching_eq_found]
  rwa [listed_eq_matching hsound, hmatching] at hbegin

/-- Pages that follow each other's cursors list a beginning of the matching logs, and all of them
when the last cursor is empty, for a query of UTF-8 attribute patterns. Where every log is in the
stream of its labels, the matching logs are those that satisfy the query. -/
theorem pages_gap_free (q : Option (Node F)) (hq : ∀ s ∈ queryPatterns q, Valid s) (s : Streams L)
    (r : Request L) (hr : r.content = contentOf lib D q s) (calls : List (Call L)) (a : Call L)
    (h : Following r calls) (ha : calls.getLast? = some a) :
    logsOf r calls <+: found lib D q s.list r.order r.lo r.hi ∧
      ((a.page r).cursor = none → logsOf r calls = found lib D q s.list r.order r.lo r.hi) ∧
      (Own D s.list → found lib D q s.list r.order r.lo r.hi = sortBy (fun e => r.order.pos e.key)
        ((s.list.flatMap Stream.entries).filter (fun e =>
          decide (r.lo ≤ e.ts ∧ e.ts ≤ r.hi) && compileQuery lib q (D.log e.log)))) := by
  obtain ⟨hbegin, hall⟩ := following_found lib D q hq s r hr h ha
  exact ⟨hbegin, hall, fun hown => found_own lib D q hown r.order r.lo r.hi⟩

end Search

/-- A log whose attribute `x` is a three-letter word that begins with an accented letter. -/
def accentedLog : Log := { bareLog [0x61] with attrs := [([0x78], .str [0xC3, 0xA9, 0x62, 0x63])] }

theorem accentedLog_valid : ∀ s ∈ textsOf accentedLog, Valid s := by
  intro s hs
  have hs : s = [] ∨ s = [0xC3, 0xA9, 0x62, 0x63] := by
    simpa [textsOf, accentedLog, bareLog, textsIn, textsInMembers] using hs
  rcases hs with rfl | rfl
  · exact ⟨[], by simp, rfl⟩
  · exact ⟨[0xE9, 0x62, 0x63], by decide, by decide⟩

def accented : Decoded Unit := ⟨fun _ => accentedLog, fun _ => accentedLog_valid⟩

def accentedBlock : Block Unit where
  minTs := 1700000000000
  maxTs := 1700000000000
  rawLen := 100
  entries := [⟨1700000000000, 1, ()⟩]
  lowest := ⟨_, List.mem_singleton.mpr rfl, rfl⟩
  highest := ⟨_, List.mem_singleton.mpr rfl, rfl⟩
  inRange := by
    intro e he
    rw [List.mem_singleton.mp he]
    exact ⟨le_rfl, le_rfl⟩

def accentedStreams : Streams Unit where
  list := [⟨labelsOf accentedLog, [], [accentedBlock]⟩]
  distinct := by decide
  numbered := by decide

def containing (text : GoString) : Option (Node Unit) :=
  some (.attr ⟨[0x78], .eq, star :: text ++ [star], (), ()⟩)

def accentedRequest (q : Option (Node Unit)) : Request Unit where
  content := contentOf plainLib accented q accentedStreams
  order := .newest
  limit := 10
  scanBudget := 1000
  lo := 0
  hi := 2000000000000

def accentedCall (q : Option (Node Unit)) : Call Unit :=
  ⟨none, snapshot (accentedRequest q).content ((accentedRequest q).window none)⟩

theorem accentedCall_following (q : Option (Node Unit)) :
    Following (accentedRequest q) [accentedCall q] := by
  refine Following.first _ rfl ⟨List.Perm.refl _, ?_⟩
  have hlen : (accentedCall q).runs.length ≤ 1 := by
    change (snapshot (contentOf plainLib accented q accentedStreams)
      ⟨0, 2000000000000, none⟩).length ≤ 1
    unfold snapshot contentOf accentedStreams
    simp only [List.filterMap_cons]
    cases h : source plainLib accented (split q) ⟨labelsOf accentedLog, [], [accentedBlock]⟩ with
    | none => simp
    | some s =>
      obtain ⟨pred, -, rfl⟩ := Option.map_eq_some_iff.mp h
      simp [Source.runs, headRun, sortBy, List.filter_cons]
      split <;> simp
  match hruns : (accentedCall q).runs with
  | [] => exact List.Pairwise.nil
  | [x] => exact List.pairwise_singleton _ _
  | x :: y :: rest =>
    rw [hruns] at hlen
    simp at hlen

theorem letters_valid : ∀ s ∈ queryPatterns (containing [0x62, 0x63]), Valid s := by
  intro s hs
  have hs : s = [0x2a, 0x62, 0x63, 0x2a] := by
    simpa [queryPatterns, containing, patterns, LogQuery.star] using hs
  rw [hs]
  exact ⟨[0x2a, 0x62, 0x63, 0x2a], by decide, by decide⟩

/-- A search for the last two letters of the word finds the log. -/
theorem letters_found :
    let q := containing [0x62, 0x63]
    logsOf (accentedRequest q) [accentedCall q] =
      found plainLib accented q accentedStreams.list .newest 0 2000000000000 := by
  intro q
  have hend : ((accentedCall q).page (accentedRequest q)).cursor = none := by decide +kernel
  exact (pages_gap_free plainLib accented q letters_valid accentedStreams
    (accentedRequest q) rfl _ _
    (accentedCall_following q) rfl).2.1 hend

/-- A search for the second byte of the accented letter and the letters after it ends with a page of
nothing. -/
theorem cut_character_page :
    let q := containing [0xA9, 0x62, 0x63]
    ((accentedCall q).page (accentedRequest q)).cursor = none ∧
      logsOf (accentedRequest q) [accentedCall q] = [] := by
  decide +kernel

/-- The log matches that search, whose last page does not have it. -/
theorem cut_character_missed :
    let q := containing [0xA9, 0x62, 0x63]
    Following (accentedRequest q) [accentedCall q] ∧
      ((accentedCall q).page (accentedRequest q)).cursor = none ∧
      logsOf (accentedRequest q) [accentedCall q] = [] ∧
      found plainLib accented q accentedStreams.list .newest 0 2000000000000 =
        [⟨1700000000000, 1, ()⟩] := by
  intro q
  refine ⟨accentedCall_following q, cut_character_page.1, cut_character_page.2, ?_⟩
  decide +kernel

end Ozymandias.LogViews
