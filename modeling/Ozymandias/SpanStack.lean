import Mathlib.Data.List.Induction
import Mathlib.Data.List.TakeWhile

/-!
The active span of a context in the Python tracer. A span that is activated saves what
was active before it, so that the context holds a linked stack. Finished spans are skipped
where they are met, and spans that finish out of order stay linked below live ones.
-/
namespace Ozymandias.SpanStack

/-- Spans are numbered in the order of their starts. The context variable holds a span,
here with the chain of the predecessors that were saved. -/
structure Context where
  started : ℕ
  finished : ℕ → Bool
  current : List ℕ

def new : Context := ⟨0, fun _ => false, []⟩

def active (x : Context) : List ℕ := x.current.dropWhile x.finished

def currentSpan (x : Context) : Option ℕ := (active x).head?

/-- The parent of a new span in this process. An explicit `child_of` is a span of a trace or
something without a parent here. -/
def parentOf (x : Context) (childOf : Option (Option ℕ)) : Option ℕ := childOf.getD (currentSpan x)

inductive Op
  | start (childOf : Option (Option ℕ))
  | finish (span : ℕ)

def finish (x : Context) (span : ℕ) : Context :=
  if x.started ≤ span ∨ x.finished span then x
  else
    let finished := Function.update x.finished span true
    if x.current.head? = some span then ⟨x.started, finished, x.current.tail.dropWhile finished⟩
    else { x with finished := finished }

/-- A span that starts is linked before the active one, whatever its parent is. -/
def step (x : Context) : Op → Context
  | .start _ => ⟨x.started + 1, x.finished, x.started :: active x⟩
  | .finish span => finish x span

def run (ops : List Op) : Context := ops.foldl step new

def unfinished (x : Context) (spans : List ℕ) : List ℕ := spans.filter (fun i => !x.finished i)

def live (x : Context) : List ℕ := unfinished x (List.range x.started).reverse

structure Linked (x : Context) : Prop where
  current : unfinished x x.current = live x
  fresh : ∀ i, x.started ≤ i → x.finished i = false

variable {x : Context}

theorem unfinished_dropWhile (x : Context) (spans : List ℕ) :
    unfinished x (spans.dropWhile x.finished) = unfinished x spans := by
  induction spans with
  | nil => rfl
  | cons i spans ih =>
    cases hi : x.finished i with
    | true => simpa [unfinished, hi] using ih
    | false => simp [hi]

/-- What is equal without the finished spans stays so when more of them finish. -/
theorem unfinished_congr {x' : Context} (hmore : ∀ i, x.finished i = true → x'.finished i = true)
    {as bs : List ℕ} (h : unfinished x as = unfinished x bs) :
    unfinished x' as = unfinished x' bs := by
  have hrefine : ∀ spans, unfinished x' spans = unfinished x' (unfinished x spans) := by
    intro spans
    unfold unfinished
    rw [List.filter_filter]
    refine List.filter_congr (fun i _ => ?_)
    cases hi : x.finished i with
    | true => simp [hmore i hi]
    | false => simp
  rw [hrefine as, h, ← hrefine bs]

theorem linked_start (h : Linked x) (childOf : Option (Option ℕ)) :
    Linked (step x (.start childOf)) := by
  constructor
  · have hnew : x.finished x.started = false := h.fresh _ (Nat.le_refl _)
    have hrest : unfinished x (active x) = live x := (unfinished_dropWhile x _).trans h.current
    unfold live step unfinished at *
    simp [hnew, List.range_succ, hrest]
  · exact fun i hi => h.fresh i (Nat.le_of_succ_le hi)

theorem linked_finish (h : Linked x) (span : ℕ) : Linked (finish x span) := by
  unfold finish
  split
  · exact h
  next hopen =>
    obtain ⟨hspan, -⟩ := not_or.mp hopen
    have hmore : ∀ i, x.finished i = true → Function.update x.finished span true i = true := by
      intro i hi
      by_cases heq : i = span
      · rw [heq, Function.update_self]
      · rw [Function.update_of_ne heq, hi]
    have hfresh : ∀ i, x.started ≤ i → Function.update x.finished span true i = false := by
      intro i hi
      rw [Function.update_of_ne (by omega), h.fresh i hi]
    split
    next hhead =>
      obtain ⟨rest, hcurrent⟩ := List.head?_eq_some_iff.mp hhead
      refine ⟨(unfinished_dropWhile _ _).trans
        (Eq.trans ?_ (unfinished_congr hmore h.current)), hfresh⟩
      rw [hcurrent]
      simp [unfinished]
    · exact ⟨unfinished_congr hmore h.current, hfresh⟩

theorem linked_run (h : Linked x) (ops : List Op) : Linked (ops.foldl step x) := by
  induction ops generalizing x with
  | nil => exact h
  | cons op ops ih =>
    cases op with
    | start childOf => exact ih (linked_start h childOf)
    | finish span => exact ih (linked_finish h span)

def Op.starts : Op → Bool
  | .start _ => true
  | .finish _ => false

/-- The number of spans that have been started, which is the number of the next one. -/
def starts (ops : List Op) : ℕ := ops.countP Op.starts

/-- The span was started by the calls, and a later one of them finishes it. -/
def Ended (ops : List Op) (span : ℕ) : Prop :=
  ∃ before after, ops = before ++ .finish span :: after ∧ span < starts before

theorem ended_concat {ops : List Op} {op : Op} {span : ℕ} :
    Ended (ops ++ [op]) span ↔ Ended ops span ∨ op = .finish span ∧ span < starts ops := by
  constructor
  · rintro ⟨before, after, hops, hspan⟩
    rcases List.eq_nil_or_concat after with rfl | ⟨rest, last, rfl⟩
    · obtain ⟨rfl, hop⟩ := List.append_inj' hops rfl
      exact .inr ⟨List.singleton_inj.mp hop, hspan⟩
    · have hsplit : ops ++ [op] = (before ++ .finish span :: rest) ++ [last] := by simpa using hops
      exact .inl ⟨before, rest, (List.append_inj' hsplit rfl).1, hspan⟩
  · rintro (⟨before, after, rfl, hspan⟩ | ⟨rfl, hspan⟩)
    · exact ⟨before, after ++ [op], by simp, hspan⟩
    · exact ⟨ops, [], rfl, hspan⟩

/-- The context's own books say which spans the calls have started and finished. -/
structure Recorded (ops : List Op) (x : Context) : Prop where
  started : x.started = starts ops
  finished : ∀ i, x.finished i = true ↔ Ended ops i

theorem finished_finish (x : Context) (span i : ℕ) : (finish x span).finished i = true ↔
    x.finished i = true ∨ i = span ∧ span < x.started := by
  unfold finish
  split
  next hdone =>
    refine ⟨Or.inl, ?_⟩
    rintro (hi | ⟨rfl, hspan⟩)
    · exact hi
    · exact hdone.resolve_left (Nat.not_le.mpr hspan)
  next hopen =>
    have hspan : span < x.started := Nat.not_le.mp (not_or.mp hopen).1
    have hupdate : Function.update x.finished span true i = true ↔
        x.finished i = true ∨ i = span ∧ span < x.started := by
      by_cases heq : i = span
      · simp [heq, hspan]
      · simp [heq]
    split <;> exact hupdate

theorem started_finish (x : Context) (span : ℕ) : (finish x span).started = x.started := by
  unfold finish
  split
  · rfl
  · split <;> rfl

theorem Recorded.step {ops : List Op} (h : Recorded ops x) (op : Op) :
    Recorded (ops ++ [op]) (step x op) := by
  cases op with
  | start childOf =>
    refine ⟨by simp [SpanStack.step, starts, Op.starts, h.started], fun i => ?_⟩
    rw [ended_concat]
    simpa [SpanStack.step] using h.finished i
  | finish span =>
    refine ⟨?_, fun i => ?_⟩
    · rw [SpanStack.step, started_finish, h.started]
      simp [starts, Op.starts]
    · rw [SpanStack.step, finished_finish, ended_concat, h.finished, h.started]
      refine or_congr_right ⟨?_, ?_⟩
      · rintro ⟨rfl, hspan⟩
        exact ⟨rfl, hspan⟩
      · rintro ⟨hop, hspan⟩
        obtain rfl := Op.finish.inj hop
        exact ⟨rfl, hspan⟩

theorem recorded_run (ops : List Op) : Recorded ops (run ops) := by
  induction ops using List.reverseRecOn with
  | nil => exact ⟨rfl, fun i => by simp [run, new, Ended]⟩
  | append_singleton ops op ih =>
    rw [run, List.foldl_append]
    exact ih.step op

/-- The first of the unfinished spans, which are in the order of their starts, newest first. -/
theorem head?_live_iff {i : ℕ} : (live x).head? = some i ↔
    i < x.started ∧ x.finished i = false ∧ ∀ j, i < j → j < x.started → x.finished j = true := by
  rw [live]
  generalize x.started = n
  induction n with
  | zero => simp [unfinished]
  | succ n ih =>
    rw [List.range_succ, List.reverse_append, List.reverse_singleton, List.singleton_append]
    cases hn : x.finished n with
    | false =>
      simp only [unfinished, hn, Bool.not_false, List.filter_cons_of_pos, List.head?_cons,
        Option.some.injEq]
      constructor
      · rintro rfl
        exact ⟨Nat.lt_succ_self _, hn, fun j hj hj' => absurd hj' (by omega)⟩
      · rintro ⟨hi, -, hlater⟩
        by_contra hne
        have := hlater n (by omega) (Nat.lt_succ_self n)
        simp [hn] at this
    | true =>
      rw [unfinished, List.filter_cons_of_neg (by simp [hn]), ← unfinished, ih]
      constructor
      · rintro ⟨hi, hlive, hlater⟩
        refine ⟨by omega, hlive, fun j hj hj' => ?_⟩
        rcases Nat.lt_succ_iff_lt_or_eq.mp hj' with hlt | rfl
        · exact hlater j hj hlt
        · exact hn
      · rintro ⟨hi, hlive, hlater⟩
        have hne : i ≠ n := by
          rintro rfl
          simp [hn] at hlive
        exact ⟨by omega, hlive, fun j hj hj' => hlater j hj (by omega)⟩

theorem head?_live_none : (live x).head? = none ↔ ∀ i < x.started, x.finished i = true := by
  simp [live, unfinished]

/-- The active span is the latest that has not finished, and there is none if all have.
So is the parent of a new span by default, which is no finished span. -/
theorem active_latest (ops : List Op) :
    (∀ i, currentSpan (run ops) = some i ↔
      i < starts ops ∧ ¬Ended ops i ∧ ∀ j, i < j → j < starts ops → Ended ops j) ∧
    (currentSpan (run ops) = none ↔ ∀ i < starts ops, Ended ops i) ∧
    parentOf (run ops) none = currentSpan (run ops) ∧
    ∀ i, parentOf (run ops) none = some i → ¬Ended ops i := by
  have hlinked : Linked (run ops) := linked_run ⟨rfl, fun _ _ => rfl⟩ ops
  have hbooks := recorded_run ops
  have hcurrent : currentSpan (run ops) = (live (run ops)).head? := by
    rw [← hlinked.current, unfinished, List.head?_filter]
    exact (List.find?_not_eq_head?_dropWhile _ _).symm
  have hlatest : ∀ i, currentSpan (run ops) = some i ↔
      i < starts ops ∧ ¬Ended ops i ∧ ∀ j, i < j → j < starts ops → Ended ops j := by
    intro i
    rw [hcurrent, head?_live_iff, hbooks.started, ← Bool.not_eq_true, hbooks.finished]
    simp only [hbooks.finished]
  refine ⟨hlatest, ?_, rfl, fun i hi => ((hlatest i).mp hi).2.1⟩
  rw [hcurrent, head?_live_none, hbooks.started]
  simp only [hbooks.finished]

/-- Three spans: the oldest finishes first, and is finished once more at the end. -/
def outOfOrder : List Op :=
  [.start none, .start none, .finish 0, .start (some (some 0)), .finish 2, .finish 0]

theorem active_latest_outOfOrder : currentSpan (run outOfOrder) = some 1 ∧
    Ended outOfOrder 0 ∧ ¬Ended outOfOrder 1 ∧ Ended outOfOrder 2 ∧
    currentSpan (run (outOfOrder ++ [.finish 1])) = none ∧
    ∀ i < 3, Ended (outOfOrder ++ [.finish 1]) i := by
  have hactive := ((active_latest outOfOrder).1 1).mp rfl
  refine ⟨rfl, ⟨[.start none, .start none], _, rfl, by decide⟩, hactive.2.1,
    hactive.2.2 2 (by decide) (by decide), rfl, ?_⟩
  exact (active_latest (outOfOrder ++ [.finish 1])).2.1.mp rfl

end Ozymandias.SpanStack
