import Mathlib.Data.List.Nodup
import Mathlib.Logic.Relation

/-!
The notification dispatcher: an outbox table, one queue and one worker per notifier,
and rescans that read the table without the lock. A state says where each row in
flight is, which ids are pending or done, and what copies of rows are still held
outside the lock: by a committer before its Enqueue, by a rescan after its read, and
by the enqueue that holds the lock. Workers receive, deliver and complete while the
lock is held; orphaned rows are completed beside their caller, which only adds
interleavings. In a rescan the turn of every row of the table comes.
-/

namespace Ozymandias.NotifyDispatch

structure Row (N P : Type) where
  id : ℕ
  notifier : N
  payload : P
deriving DecidableEq

inductive Answer
  | ok
  | permanent
  | transient
deriving DecidableEq

inductive Failure
  | unreadable
  | notConfigured
  | answered (a : Answer)
deriving DecidableEq

structure Config (N P : Type) where
  notifiers : List N
  /-- How many pauses there are between attempts. -/
  backoff : ℕ
  readable : P → Bool

def queueLen : ℕ := 256

inductive Place
  | queued
  | working (attempts : ℕ) (last : Option Answer)
  | orphan
  /-- Its worker returned on shutdown. -/
  | left
  /-- `CompleteOutbox` returned; the release is still to come. -/
  | ended (committed : Bool)
deriving DecidableEq

structure Flight (N P : Type) where
  place : Place
  row : Row N P
deriving DecidableEq

inductive Event
  | handed (id : ℕ)
  | completed (id : ℕ) (err : Option Failure) (attempts : ℕ)
  | unrecorded (id : ℕ)
  | full (id : ℕ)
deriving DecidableEq

/-- Who holds the lock in `enqueue`. -/
inductive Caller
  | committer
  | rescan
deriving DecidableEq

/-- How far the rescan is; `start` is the count of completions when it began. -/
inductive Rescan (N P : Type)
  | idle
  | started (start : ℕ)
  | read (start : ℕ) (rows : List (Row N P))
  | enqueuing (start : ℕ)
  | enqueued (start : ℕ)

def Rescan.start {N P : Type} : Rescan N P → Option ℕ
  | .idle => none
  | .started start | .read start _ | .enqueuing start | .enqueued start => some start

structure State (N P : Type) where
  outbox : List (Row N P)
  /-- The next id of the table, AUTOINCREMENT. -/
  nextId : ℕ
  /-- Commits whose `Enqueue` is still to run. -/
  owed : List (List (Row N P))
  started : Bool
  lock : Option (Caller × List (Row N P))
  flight : List (Flight N P)
  pending : ℕ → Bool
  done : ℕ → Option ℕ
  seq : ℕ
  rescan : Rescan N P
  stopped : List N
  log : List Event

section Model

variable {N P : Type} [DecidableEq N]

namespace State

def queue (s : State N P) (n : N) : List (Flight N P) :=
  s.flight.filter (fun f => decide (f.place = .queued ∧ f.row.notifier = n))

def launch (s : State N P) (place : Place) (r : Row N P) : State N P :=
  { s with flight := s.flight ++ [⟨place, r⟩], pending := Function.update s.pending r.id true }

def enqueueRow (conf : Config N P) (s : State N P) (r : Row N P) : State N P :=
  if s.pending r.id || (s.done r.id).isSome then s
  else if r.notifier ∉ conf.notifiers then s.launch .orphan r
  else if (s.queue r.notifier).length < queueLen then s.launch .queued r
  else { s with log := s.log ++ [.full r.id] }

def completeOutbox (s : State N P) (id : ℕ) (err : Option Failure) (attempts : ℕ) : State N P :=
  { s with
    outbox := s.outbox.filter (fun r => decide (r.id ≠ id))
    log := s.log ++ [.completed id err attempts] }

def release (s : State N P) (id : ℕ) (completed : Bool) : State N P :=
  { s with
    pending := Function.update s.pending id false
    seq := if completed then s.seq + 1 else s.seq
    done := if completed then Function.update s.done id (some (s.seq + 1)) else s.done }

def purge (s : State N P) (start : ℕ) : State N P :=
  { s with done := fun id => (s.done id).filter (fun mark => decide (start < mark)) }

end State

/-- The loop of `deliver` goes on after this many attempts and this last answer. -/
def again (conf : Config N P) : ℕ → Option Answer → Bool
  | 0, _ => true
  | m + 1, some .transient => decide (m + 1 ≤ conf.backoff)
  | _ + 1, _ => false

/-- The error and the attempts with which a row in flight is completed, when it is. -/
def verdict (conf : Config N P) (f : Flight N P) : Option (Option Failure × ℕ) :=
  match f.place with
  | .orphan => some (some .notConfigured, 0)
  | .working 0 _ => if conf.readable f.row.payload then none else some (some .unreadable, 0)
  | .working (m + 1) last =>
    if again conf (m + 1) last then none
    else match last with
      | some .ok => some (none, m + 1)
      | some a => some (some (.answered a), m + 1)
      | none => none
  | _ => none

def numbered (first : ℕ) : List (N × P) → List (Row N P)
  | [] => []
  | (n, p) :: notes => ⟨first, n, p⟩ :: numbered (first + 1) notes

inductive Step (conf : Config N P) : State N P → State N P → Prop
  | run {s} (hstarted : s.started = false) :
      Step conf s { s with started := true, flight := [], pending := fun _ => false,
                           done := fun _ => none }
  | commit {s} (notes : List (N × P)) :
      Step conf s { s with outbox := s.outbox ++ numbered s.nextId notes,
                           nextId := s.nextId + notes.length,
                           owed := s.owed ++ [numbered s.nextId notes] }
  | enqueueEarly {s} (before after : List (List (Row N P))) (rows : List (Row N P))
      (howed : s.owed = before ++ rows :: after) (hstarted : s.started = false) :
      Step conf s { s with owed := before ++ after }
  | enqueueOwed {s} (before after : List (List (Row N P))) (rows : List (Row N P))
      (howed : s.owed = before ++ rows :: after) (hstarted : s.started = true)
        (hlock : s.lock = none) :
      Step conf s { s with owed := before ++ after, lock := some (.committer, rows) }
  /-- No commit whose `Enqueue` is still to run has a row whose completion has ended. -/
  | rescanStart {s} (hstarted : s.started = true) (hlock : s.lock = none) (hidle : s.rescan = .idle)
      (hprompt : ∀ rows ∈ s.owed, ∀ r ∈ rows, s.done r.id = none) :
      Step conf s { s with rescan := .started s.seq }
  | rescanRead {s} (start : ℕ) (hrescan : s.rescan = .started start) :
      Step conf s { s with rescan := .read start s.outbox }
  | rescanFail {s} (start : ℕ) (hrescan : s.rescan = .started start) :
      Step conf s { s with rescan := .idle }
  | rescanEnqueue {s} (start : ℕ) (rows : List (Row N P)) (hrescan : s.rescan = .read start rows)
      (hlock : s.lock = none) :
      Step conf s { s with rescan := .enqueuing start, lock := some (.rescan, rows) }
  | turn {s} (caller : Caller) (r : Row N P) (rows : List (Row N P))
      (hlock : s.lock = some (caller, r :: rows)) :
      Step conf s { s.enqueueRow conf r with lock := some (caller, rows) }
  | unlock {s} (hlock : s.lock = some (.committer, [])) : Step conf s { s with lock := none }
  | rescanUnlock {s} (start : ℕ) (hrescan : s.rescan = .enqueuing start)
      (hlock : s.lock = some (.rescan, [])) :
      Step conf s { s with lock := none, rescan := .enqueued start }
  | rescanPurge {s} (start : ℕ) (hrescan : s.rescan = .enqueued start) (hlock : s.lock = none) :
      Step conf s { s.purge start with rescan := .idle }
  /-- A worker that is done with its last row receives the oldest of its queue. -/
  | take {s} (before after : List (Flight N P)) (r : Row N P)
      (hflight : s.flight = before ++ ⟨.queued, r⟩ :: after)
      (holdest : ∀ f ∈ before, ¬ (f.place = .queued ∧ f.row.notifier = r.notifier))
      (hfree : ∀ f ∈ s.flight, f.row.notifier = r.notifier → f.place = .queued)
      (hrunning : r.notifier ∉ s.stopped) :
      Step conf s { s with flight := before ++ ⟨.working 0 none, r⟩ :: after }
  | attempt {s} (before after : List (Flight N P)) (r : Row N P) (m : ℕ) (last : Option Answer)
      (answer : Answer) (hflight : s.flight = before ++ ⟨.working m last, r⟩ :: after)
      (hreadable : conf.readable r.payload = true) (hagain : again conf m last = true) :
      Step conf s { s with flight := before ++ ⟨.working (m + 1) (some answer), r⟩ :: after,
                           log := s.log ++ [.handed r.id] }
  | stop {s} (n : N) (hfree : ∀ f ∈ s.flight, f.row.notifier = n → f.place = .queued) :
      Step conf s { s with stopped := n :: s.stopped }
  | leave {s} (before after : List (Flight N P)) (r : Row N P) (m : ℕ) (last : Option Answer)
      (hflight : s.flight = before ++ ⟨.working m last, r⟩ :: after) :
      Step conf s { s with flight := before ++ ⟨.left, r⟩ :: after, stopped :=
        r.notifier :: s.stopped }
  | completeCommit {s} (before after : List (Flight N P)) (f : Flight N P) (err : Option Failure)
      (attempts : ℕ) (hflight : s.flight = before ++ f :: after)
      (hverdict : verdict conf f = some (err, attempts)) :
      Step conf s { s.completeOutbox f.row.id err attempts with
                    flight := before ++ ⟨.ended true, f.row⟩ :: after }
  | completeFail {s} (before after : List (Flight N P)) (f : Flight N P) (err : Option Failure)
      (attempts : ℕ) (hflight : s.flight = before ++ f :: after)
      (hverdict : verdict conf f = some (err, attempts)) :
      Step conf s { s with flight := before ++ ⟨.ended false, f.row⟩ :: after,
                           log := s.log ++ [.unrecorded f.row.id] }
  | released {s} (before after : List (Flight N P)) (r : Row N P) (committed : Bool)
      (hflight : s.flight = before ++ ⟨.ended committed, r⟩ :: after) (hlock : s.lock = none) :
      Step conf s { s.release r.id committed with flight := before ++ after }

/-- Before `Run`: a table with distinct ids, and nothing in memory. -/
structure Initial (s : State N P) : Prop where
  ids : (s.outbox.map Row.id).Nodup
  old : ∀ r ∈ s.outbox, r.id < s.nextId
  owed : s.owed = []
  started : s.started = false
  lock : s.lock = none
  flight : s.flight = []
  pending : ∀ id, s.pending id = false
  done : ∀ id, s.done id = none
  rescan : s.rescan = .idle
  log : s.log = []

def Reachable (conf : Config N P) (s : State N P) : Prop :=
  ∃ s₀, Initial s₀ ∧ Relation.ReflTransGen (Step conf) s₀ s

def Gone (log : List Event) (id : ℕ) : Prop := ∃ err attempts, Event.completed id err attempts ∈ log

def State.ids (s : State N P) : List ℕ := s.flight.map (fun f => f.row.id)

def Ordered (log : List Event) : Prop :=
  log.Pairwise (fun a b => ∀ id err attempts, a = .completed id err attempts → b ≠ .handed id)

section Lemmas

omit [DecidableEq N]

@[simp]
theorem gone_nil (id : ℕ) : ¬ Gone [] id := by simp [Gone]

variable {log : List Event} {i id : ℕ}

@[simp]
theorem gone_handed : Gone (log ++ [.handed i]) id ↔ Gone log id := by
  simp [Gone]

@[simp]
theorem gone_unrecorded : Gone (log ++ [.unrecorded i]) id ↔ Gone log id := by
  simp [Gone]

@[simp]
theorem gone_full : Gone (log ++ [.full i]) id ↔ Gone log id := by
  simp [Gone]

@[simp]
theorem gone_completed {err : Option Failure} {attempts : ℕ} :
    Gone (log ++ [.completed i err attempts]) id ↔ Gone log id ∨ id = i := by
  simp only [Gone, List.mem_append, List.mem_singleton, Event.completed.injEq]
  constructor
  · rintro ⟨e, n, h | ⟨h, -, -⟩⟩
    · exact .inl ⟨e, n, h⟩
    · exact .inr h
  · rintro (⟨e, n, h⟩ | h)
    · exact ⟨e, n, .inl h⟩
    · exact ⟨err, attempts, .inr ⟨h, rfl, rfl⟩⟩

/-- An event may follow when it does not hand over a row that is gone. -/
theorem Ordered.concat {log : List Event} (h : Ordered log) (e : Event)
    (he : ∀ id, e = .handed id → ¬ Gone log id) : Ordered (log ++ [e]) := by
  refine List.pairwise_append.mpr ⟨h, List.pairwise_singleton _ _, ?_⟩
  intro a ha b hb id err attempts hcompleted hhanded
  rw [List.mem_singleton.mp hb] at hhanded
  exact he id hhanded ⟨err, attempts, hcompleted ▸ ha⟩

theorem mem_numbered {first : ℕ} {notes : List (N × P)} {r : Row N P}
    (h : r ∈ numbered first notes) : first ≤ r.id ∧ r.id < first + notes.length := by
  induction notes generalizing first with
  | nil => cases h
  | cons note notes ih =>
    rcases List.mem_cons.mp h with rfl | h
    · simp
    · have := ih h
      simp only [List.length_cons]
      omega

theorem nodup_numbered (first : ℕ) (notes : List (N × P)) :
    ((numbered first notes).map Row.id).Nodup := by
  induction notes generalizing first with
  | nil => exact List.nodup_nil
  | cons note notes ih =>
    refine List.nodup_cons.mpr ⟨?_, ih (first + 1)⟩
    intro hmem
    obtain ⟨r, hr, hid⟩ := List.mem_map.mp hmem
    have hfirst : r.id = first := hid
    have := (mem_numbered hr).1
    omega

variable {conf : Config N P} {f : Flight N P} {v : Option Failure × ℕ}

theorem verdict_place (h : verdict conf f = some v) : f.place ≠ .ended true := by
  intro hplace
  rw [verdict, hplace] at h
  cases h

/-- A row is completed when it has no notifier, when its payload cannot be read, or after an
attempt. -/
theorem verdict_cases (h : verdict conf f = some v) :
    f.place = .orphan ∨ conf.readable f.row.payload = false ∨
      ∃ m last, f.place = .working (m + 1) last := by
  unfold verdict at h
  split at h
  · next hplace => exact .inl hplace
  · split at h
    · cases h
    · next hreadable => exact .inr (.inl (Bool.not_eq_true _ ▸ hreadable))
  · next m last hplace => exact .inr (.inr ⟨m, last, hplace⟩)
  · cases h

end Lemmas

/-- What a turn of `enqueue` does: nothing for a row that is pending or done, and else the
row is put in flight, or its queue is full. -/
theorem enqueueRow_cases (conf : Config N P) (s : State N P) (r : Row N P) :
    ((s.pending r.id = true ∨ (s.done r.id).isSome = true) ∧ s.enqueueRow conf r = s) ∨
    (s.pending r.id = false ∧ s.done r.id = none ∧
      ((r.notifier ∉ conf.notifiers ∧ s.enqueueRow conf r = s.launch .orphan r) ∨
       (r.notifier ∈ conf.notifiers ∧ (s.queue r.notifier).length < queueLen ∧
          s.enqueueRow conf r = s.launch .queued r) ∨
       (r.notifier ∈ conf.notifiers ∧ queueLen ≤ (s.queue r.notifier).length ∧
          s.enqueueRow conf r = { s with log := s.log ++ [.full r.id] }))) := by
  unfold State.enqueueRow
  by_cases hskip : (s.pending r.id || (s.done r.id).isSome) = true
  · rw [if_pos hskip]
    exact .inl ⟨(Bool.or_eq_true _ _).mp hskip, rfl⟩
  · rw [if_neg hskip]
    rw [Bool.or_eq_true, not_or, Bool.not_eq_true] at hskip
    refine .inr ⟨hskip.1, Option.isNone_iff_eq_none.mp (by simpa using hskip.2), ?_⟩
    by_cases hconf : r.notifier ∉ conf.notifiers
    · rw [if_pos hconf]
      exact .inl ⟨hconf, rfl⟩
    · rw [if_neg hconf]
      have hconf := not_not.mp hconf
      by_cases hroom : (s.queue r.notifier).length < queueLen
      · rw [if_pos hroom]
        exact .inr (.inl ⟨hconf, hroom, rfl⟩)
      · rw [if_neg hroom]
        exact .inr (.inr ⟨hconf, Nat.not_lt.mp hroom, rfl⟩)

theorem enqueueRow_frame (conf : Config N P) (s : State N P) (r : Row N P) :
    (s.enqueueRow conf r).owed = s.owed ∧ (s.enqueueRow conf r).rescan = s.rescan ∧
      (s.enqueueRow conf r).seq = s.seq ∧ (s.enqueueRow conf r).started = s.started ∧
      (s.enqueueRow conf r).done = s.done ∧ (s.enqueueRow conf r).outbox = s.outbox := by
  rcases enqueueRow_cases conf s r with ⟨-, heq⟩ | ⟨-, -, ⟨-, heq⟩ | ⟨-, -, heq⟩ | ⟨-, -, heq⟩⟩ <;>
    rw [heq] <;> exact ⟨rfl, rfl, rfl, rfl, rfl, rfl⟩

section Runs

variable {conf : Config N P} {s s' : State N P} {r : Row N P}

/-- A row stays in the table unless its own flight is completed. -/
theorem Step.outbox (hs : Step conf s s') (hr : r ∈ s.outbox) : r ∈ s'.outbox ∨ Gone s'.log r.id ∧
      ∃ f ∈ s.flight, f.row.id = r.id ∧ ∃ v, verdict conf f = some v := by
  cases hs with
  | commit notes => exact .inl (List.mem_append_left _ hr)
  | turn caller q rows hlock =>
    refine .inl ?_
    rw [(enqueueRow_frame conf s q).2.2.2.2.2]
    exact hr
  | completeCommit before after f err attempts hflight hverdict =>
    by_cases hid : r.id = f.row.id
    · exact .inr ⟨gone_completed.mpr (.inr hid), f, by simp [hflight], hid.symm, _, hverdict⟩
    · exact .inl (List.mem_filter.mpr ⟨hr, decide_eq_true hid⟩)
  | _ => exact .inl hr

theorem Step.log (hs : Step conf s s') : ∃ new, s'.log = s.log ++ new := by
  cases hs with
  | turn caller q rows hlock =>
    rcases enqueueRow_cases conf s
      q with ⟨-, heq⟩ | ⟨-, -, ⟨-, heq⟩ | ⟨-, -, heq⟩ | ⟨-, -, heq⟩⟩ <;> rw [heq]
    · exact ⟨[], (List.append_nil _).symm⟩
    · exact ⟨[], (List.append_nil _).symm⟩
    · exact ⟨[], (List.append_nil _).symm⟩
    · exact ⟨_, rfl⟩
  | attempt | completeCommit | completeFail => exact ⟨_, rfl⟩
  | _ => exact ⟨[], (List.append_nil _).symm⟩

theorem Step.gone (hs : Step conf s s') {id : ℕ} (h : Gone s.log id) : Gone s'.log id := by
  obtain ⟨new, hlog⟩ := hs.log
  obtain ⟨err, attempts, hmem⟩ := h
  exact ⟨err, attempts, hlog ▸ List.mem_append_left _ hmem⟩

def Within (conf : Config N P) : State N P → State N P → Prop :=
  Relation.ReflTransGen (fun a b => Step conf a b ∧ b.rescan ≠ .idle)

/-- The rescan has the row before it, in its copies or in the rows it enqueues. -/
def Ahead (s : State N P) (r : Row N P) : Prop :=
  ((∃ start, s.rescan = .started start) ∧ r ∈ s.outbox) ∨
  (∃ start rows, s.rescan = .read start rows ∧ r ∈ rows) ∨
  (∃ start rows, s.rescan = .enqueuing start ∧ s.lock = some (.rescan, rows) ∧ r ∈ rows)

/-- One step of a rescan: the row stays ahead of it until its turn comes. -/
theorem Ahead.step (h : Ahead s r) (hs : Step conf s s') (hidle : s'.rescan ≠ .idle) :
    Ahead s' r ∨ Gone s'.log r.id ∨ ∃ rows, s.lock = some (.rescan, r :: rows) := by
  rcases h with ⟨⟨start, hrescan⟩, hr⟩ | ⟨start, rows, hrescan, hr⟩ | ⟨start, rows,
    hrescan, hlock, hr⟩
  · have hkept : s'.rescan = s.rescan → Ahead s' r ∨ Gone s'.log r.id ∨ ∃ rows,
        s.lock = some (.rescan, r :: rows) := by
      intro heq
      rcases hs.outbox hr with hr | ⟨hgone, -⟩
      · exact .inl (.inl ⟨⟨start, heq.trans hrescan⟩, hr⟩)
      · exact .inr (.inl hgone)
    cases hs with
    | rescanRead t ht => exact .inl (.inr (.inl ⟨t, s.outbox, rfl, hr⟩))
    | rescanStart _ _ hidle' => rw [hidle'] at hrescan; cases hrescan
    | rescanFail | rescanPurge => exact absurd rfl hidle
    | rescanEnqueue t rows ht | rescanUnlock t ht => rw [ht] at hrescan; cases hrescan
    | turn caller q rows hlock => exact hkept (enqueueRow_frame conf s q).2.1
    | _ => exact hkept rfl
  · cases hs with
    | rescanRead t ht | rescanUnlock t ht => rw [ht] at hrescan; cases hrescan
    | rescanStart _ _ hidle' => rw [hidle'] at hrescan; cases hrescan
    | rescanFail | rescanPurge => exact absurd rfl hidle
    | rescanEnqueue t copies ht =>
      rw [ht] at hrescan
      cases hrescan
      exact .inl (.inr (.inr ⟨start, rows, rfl, rfl, hr⟩))
    | turn caller q _ hlock =>
      exact .inl (.inr (.inl ⟨start, rows, (enqueueRow_frame conf s q).2.1.trans hrescan, hr⟩))
    | _ => exact .inl (.inr (.inl ⟨start, rows, hrescan, hr⟩))
  · cases hs with
    | enqueueOwed before after batch howed hstarted hfree => rw [hfree] at hlock; cases hlock
    | rescanRead t ht | rescanEnqueue t copies ht => rw [ht] at hrescan; cases hrescan
    | rescanStart _ _ hidle' => rw [hidle'] at hrescan; cases hrescan
    | rescanFail | rescanPurge => exact absurd rfl hidle
    | unlock hlock' => rw [hlock'] at hlock; cases hlock
    | rescanUnlock t ht hlock' =>
      rw [hlock'] at hlock
      cases hlock
      cases hr
    | turn caller q rest hlock' =>
      rw [hlock'] at hlock
      cases hlock
      rcases List.mem_cons.mp hr with rfl | hr
      · exact .inr (.inr ⟨rest, hlock'⟩)
      · exact .inl (.inr (.inr ⟨start, rest, (enqueueRow_frame conf s q).2.1.trans hrescan, rfl,
          hr⟩))
    | _ => exact .inl (.inr (.inr ⟨start, rows, hrescan, hlock, hr⟩))

/-- The whole of a rescan: the turn of every row in the table comes, unless it is gone. -/
theorem Within.turn (h : Within conf s s') (hahead : Ahead s r) : Ahead s' r ∨ Gone s'.log r.id ∨
      ∃ u rows, Within conf s u ∧ Within conf u s' ∧ u.lock = some (.rescan, r :: rows) := by
  induction h with
  | refl => exact .inl hahead
  | tail hrun hstep ih =>
    rcases ih with hahead | hgone | ⟨u, rows, hu, ht, hlock⟩
    · rcases hahead.step hstep.1 hstep.2 with hahead | hgone | ⟨rows, hlock⟩
      · exact .inl hahead
      · exact .inr (.inl hgone)
      · exact .inr (.inr ⟨_, rows, hrun, .single hstep, hlock⟩)
    · exact .inr (.inl (hstep.1.gone hgone))
    · exact .inr (.inr ⟨u, rows, hu, ht.tail hstep, hlock⟩)

end Runs

end Model

end Ozymandias.NotifyDispatch
