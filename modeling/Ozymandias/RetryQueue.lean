import Mathlib.Algebra.BigOperators.Group.List.Basic
import Ozymandias.BitLists

/-!
The agent's retry queue. A payload that does not fit evicts the oldest ones until it
does, and a payload that is larger than the whole queue is dropped. The evictions come
first, so that such a payload empties the queue before it is refused.
-/
namespace Ozymandias.RetryQueue

open BitLists

structure Payload where
  body : List Byte
  series : ℕ
  deriving DecidableEq

def size (queue : List Payload) : ℕ := (queue.map (fun p => p.body.length)).sum

/-- The waiting payloads, the oldest first, their bytes and the count of dropped series. -/
structure Forwarder where
  queue : List Payload
  bytes : ℕ
  dropped : ℕ
  bytes_eq : bytes = size queue

def dropOldest (maxQueueBytes need : ℕ) : (queue : List Payload) → (bytes : ℕ) →
    bytes = size queue → ℕ → Forwarder
  | [], bytes, h, dropped => ⟨[], bytes, dropped, h⟩
  | old :: queue, bytes, h, dropped =>
    if maxQueueBytes < bytes + need then
      dropOldest maxQueueBytes need queue (bytes - old.body.length)
        (by rw [h]; simp [size]) (dropped + old.series)
    else ⟨old :: queue, bytes, dropped, h⟩

def enqueueLocked (maxQueueBytes : ℕ) (f : Forwarder) (p : Payload) : Forwarder :=
  let f := dropOldest maxQueueBytes p.body.length f.queue f.bytes f.bytes_eq f.dropped
  if maxQueueBytes < p.body.length then { f with dropped := f.dropped + p.series }
  else ⟨f.queue ++ [p], f.bytes + p.body.length, f.dropped, by rw [f.bytes_eq]; simp [size]⟩

/-- The payload is queued, and the evicted ones are the fewest of the oldest that make it fit. -/
def Queued (maxQueueBytes : ℕ) (f : Forwarder) (p : Payload) (f' : Forwarder) : Prop :=
  ∃ k, f'.queue = f.queue.drop k ++ [p] ∧
    f'.dropped = f.dropped + ((f.queue.take k).map Payload.series).sum ∧
    size (f.queue.drop k) + p.body.length ≤ maxQueueBytes ∧
    ∀ i < k, maxQueueBytes < size (f.queue.drop i) + p.body.length

def Refused (maxQueueBytes : ℕ) (f : Forwarder) (p : Payload) (f' : Forwarder) : Prop :=
  maxQueueBytes < p.body.length ∧ f'.queue = f.queue ∧ f'.dropped = f.dropped + p.series

variable {maxQueueBytes need : ℕ}

theorem dropOldest_spec (queue : List Payload) (bytes : ℕ) (h : bytes = size queue) (dropped : ℕ) :
    ∃ k, (dropOldest maxQueueBytes need queue bytes h dropped).queue = queue.drop k ∧
      (dropOldest maxQueueBytes need queue bytes h dropped).dropped =
        dropped + ((queue.take k).map Payload.series).sum ∧
      (queue.drop k = [] ∨ size (queue.drop k) + need ≤ maxQueueBytes) ∧
      ∀ i < k, maxQueueBytes < size (queue.drop i) + need := by
  induction queue generalizing bytes dropped with
  | nil => exact ⟨0, rfl, rfl, Or.inl rfl, fun i hi => absurd hi (Nat.not_lt_zero i)⟩
  | cons old queue ih =>
    rw [dropOldest]
    by_cases hfull : maxQueueBytes < bytes + need
    · rw [if_pos hfull]
      obtain ⟨k, hqueue, hdropped, hfits, hmin⟩ :=
        ih (bytes - old.body.length) (by rw [h]; simp [size]) (dropped + old.series)
      refine ⟨k + 1, hqueue, ?_, hfits, fun i hi => ?_⟩
      · rw [hdropped, List.take_succ_cons, List.map_cons, List.sum_cons, Nat.add_assoc]
      · cases i with
        | zero => exact h ▸ hfull
        | succ i => exact hmin i (Nat.lt_of_succ_lt_succ hi)
    · rw [if_neg hfull]
      refine ⟨0, rfl, rfl, Or.inr ?_, fun i hi => absurd hi (Nat.not_lt_zero i)⟩
      exact h ▸ not_lt.mp hfull

/-- A payload that is too large leaves the queue empty. -/
theorem enqueueLocked_large {f : Forwarder} {p : Payload} (h : maxQueueBytes < p.body.length) :
    (enqueueLocked maxQueueBytes f p).queue = [] ∧ (enqueueLocked maxQueueBytes f p).dropped =
        f.dropped + (f.queue.map Payload.series).sum + p.series := by
  obtain ⟨k, hqueue, hdropped, hfits, -⟩ :=
    @dropOldest_spec maxQueueBytes p.body.length f.queue f.bytes f.bytes_eq f.dropped
  have hnil : f.queue.drop k = [] := by
    rcases hfits with hnil | hfits
    · exact hnil
    · omega
  unfold enqueueLocked
  rw [if_pos h]
  refine ⟨hqueue.trans hnil, ?_⟩
  rw [List.take_of_length_le (List.drop_eq_nil_iff.mp hnil)] at hdropped
  exact congrArg (· + p.series) hdropped

theorem not_queued_large {f f' : Forwarder} {p : Payload} (h : maxQueueBytes < p.body.length) :
    ¬Queued maxQueueBytes f p f' := by
  rintro ⟨k, -, -, hfits, -⟩
  omega

/-- A payload evicts only what it must unless it is too large and there is something to evict. -/
theorem enqueue_iff (maxQueueBytes : ℕ) (f : Forwarder) (p : Payload) :
    Queued maxQueueBytes f p (enqueueLocked maxQueueBytes f p) ∨
      Refused maxQueueBytes f p (enqueueLocked maxQueueBytes f p) ↔
    p.body.length ≤ maxQueueBytes ∨ f.queue = [] := by
  rcases le_or_gt p.body.length maxQueueBytes with hle | hlt
  · refine iff_of_true (Or.inl ?_) (Or.inl hle)
    obtain ⟨k, hqueue, hdropped, hfits, hmin⟩ :=
      @dropOldest_spec maxQueueBytes p.body.length f.queue f.bytes f.bytes_eq f.dropped
    unfold enqueueLocked
    rw [if_neg (not_lt.mpr hle)]
    refine ⟨k, congrArg (· ++ [p]) hqueue, hdropped, ?_, hmin⟩
    rcases hfits with hnil | hfits
    · rw [hnil]
      exact (Nat.zero_add _).trans_le hle
    · exact hfits
  · obtain ⟨hqueue, hdropped⟩ := enqueueLocked_large (f := f) hlt
    rw [or_iff_right (not_queued_large hlt), or_iff_right (not_le.mpr hlt)]
    constructor
    · rintro ⟨-, hsame, -⟩
      exact hsame.symm.trans hqueue
    · intro hnil
      refine ⟨hlt, hqueue.trans hnil.symm, ?_⟩
      rw [hdropped, hnil]
      rfl

def oneWaiting : Forwarder := ⟨[⟨[0], 1⟩], 1, 0, rfl⟩

/-- A payload above the limit evicts all that waits and is not queued itself. -/
theorem large_empties : (enqueueLocked 1 oneWaiting ⟨[0, 0], 1⟩).queue = [] ∧
    ¬(Queued 1 oneWaiting ⟨[0, 0], 1⟩ (enqueueLocked 1 oneWaiting ⟨[0, 0], 1⟩) ∨
      Refused 1 oneWaiting ⟨[0, 0], 1⟩ (enqueueLocked 1 oneWaiting ⟨[0, 0], 1⟩)) := by
  refine ⟨rfl, ?_⟩
  rintro (hqueued | ⟨-, hsame, -⟩)
  · exact not_queued_large (by decide) hqueued
  · cases hsame

inductive Outcome where
  | delivered
  | retry
  | giveUp

/-- The payload that is being sent has its place in the queue, unless it was evicted meanwhile. -/
inductive Flight (queue : List Payload) where
  | idle
  | queued (place : Fin queue.length)
  | evicted (p : Payload)

/-- The forwarder, with counts of the series that were submitted, that were delivered, and that
were settled after an eviction. -/
structure Loop where
  f : Forwarder
  flight : Flight f.queue
  submitted : ℕ
  delivered : ℕ
  twice : ℕ

def seriesOf (queue : List Payload) : ℕ := (queue.map Payload.series).sum

theorem sum_eraseIdx (g : Payload → ℕ) (queue : List Payload) (i : Fin queue.length) :
    ((queue.eraseIdx i).map g).sum + g queue[i] = (queue.map g).sum := by
  have hi : (i : ℕ) < (queue.map g).length := by simp
  simpa [List.eraseIdx_map, add_comm] using List.CommMonoid.add_sum_eraseIdx hi

def removeLocked (f : Forwarder) (i : Fin f.queue.length) : Forwarder where
  queue := f.queue.eraseIdx i
  bytes := f.bytes - f.queue[i].body.length
  dropped := f.dropped
  bytes_eq := by
    rw [f.bytes_eq]
    exact Nat.sub_eq_of_eq_add (sum_eraseIdx (fun p => p.body.length) f.queue i).symm

def close (s : Loop) (f : Forwarder) (p : Payload) (twice : ℕ) : Outcome → Loop
  | .delivered => ⟨f, .idle, s.submitted, s.delivered + p.series, s.twice + twice⟩
  | .retry => { s with flight := .idle }
  | .giveUp =>
    ⟨{ f with dropped := f.dropped + p.series }, .idle, s.submitted, s.delivered, s.twice + twice⟩

/-- The end of `attempt`, which does not know whether its payload was evicted. -/
def attempt (s : Loop) (outcome : Outcome) : Loop :=
  match s.flight with
  | .idle => s
  | .queued i => close s (removeLocked s.f i) s.f.queue[i] 0 outcome
  | .evicted p => close s s.f p p.series outcome

def Flight.behind {queue queue' : List Payload} (gone : ℕ) : Flight queue → Flight queue'
  | .idle => .idle
  | .queued i =>
    if h : gone ≤ i ∧ i - gone < queue'.length then .queued ⟨i - gone, h.2⟩ else .evicted queue[i]
  | .evicted p => .evicted p

def enqueue (maxQueueBytes : ℕ) (s : Loop) (p : Payload) : Loop :=
  let kept := dropOldest maxQueueBytes p.body.length s.f.queue s.f.bytes s.f.bytes_eq s.f.dropped
  ⟨enqueueLocked maxQueueBytes s.f p, s.flight.behind (s.f.queue.length - kept.queue.length),
    s.submitted + p.series, s.delivered, s.twice⟩

/-- What happens to a forwarder. The loop picks any payload whose time has come. -/
inductive Event where
  | submit (p : Payload)
  | pick (i : ℕ)
  | attempt (outcome : Outcome)

def step (maxQueueBytes : ℕ) (s : Loop) : Event → Loop
  | .submit p => enqueue maxQueueBytes s p
  | .pick i =>
    match s.flight with
    | .idle => if h : i < s.f.queue.length then { s with flight := .queued ⟨i, h⟩ } else s
    | _ => s
  | .attempt outcome => attempt s outcome

def run (maxQueueBytes : ℕ) (events : List Event) : Loop :=
  events.foldl (step maxQueueBytes) ⟨⟨[], 0, 0, rfl⟩, .idle, 0, 0, 0⟩

def Event.series : Event → ℕ
  | .submit p => p.series
  | _ => 0

structure Accounted (maxQueueBytes : ℕ) (s : Loop) : Prop where
  total : s.submitted + s.twice = s.delivered + s.f.dropped + seriesOf s.f.queue
  bounded : size s.f.queue ≤ maxQueueBytes

theorem enqueueLocked_account (f : Forwarder) (p : Payload) :
    (enqueueLocked maxQueueBytes f p).dropped + seriesOf (enqueueLocked maxQueueBytes f p).queue =
        f.dropped + seriesOf f.queue + p.series ∧
      size (enqueueLocked maxQueueBytes f p).queue ≤ maxQueueBytes := by
  rcases le_or_gt p.body.length maxQueueBytes with hle | hlt
  · obtain ⟨k, hqueue, hdropped, hfits, -⟩ :=
      @dropOldest_spec maxQueueBytes p.body.length f.queue f.bytes f.bytes_eq f.dropped
    have hall := List.sum_take_add_sum_drop (f.queue.map Payload.series) k
    simp only [enqueueLocked, if_neg (not_lt.mpr hle), hqueue, hdropped]
    constructor
    · simp only [seriesOf, List.map_append, List.map_take, List.map_drop, List.sum_append,
        List.map_singleton, List.sum_singleton]
      omega
    · rcases hfits with hnil | hfits
      · simpa [hnil, size] using hle
      · simpa [size] using hfits
  · obtain ⟨hqueue, hdropped⟩ := enqueueLocked_large (f := f) hlt
    rw [hqueue, hdropped]
    exact ⟨rfl, Nat.zero_le _⟩

theorem accounted_close {s : Loop} (h : Accounted maxQueueBytes s) {f : Forwarder} {p : Payload}
    {twice : ℕ} (hdropped : f.dropped = s.f.dropped)
    (hseries : seriesOf f.queue + p.series = seriesOf s.f.queue + twice)
    (hsize : size f.queue ≤ size s.f.queue) (outcome : Outcome) :
    Accounted maxQueueBytes (close s f p twice outcome) := by
  have htotal := h.total
  cases outcome with
  | delivered => exact ⟨by simp only [close]; omega, hsize.trans h.bounded⟩
  | retry => exact ⟨h.total, h.bounded⟩
  | giveUp => exact ⟨by simp only [close]; omega, hsize.trans h.bounded⟩

theorem accounted_attempt {s : Loop} (h : Accounted maxQueueBytes s) (outcome : Outcome) :
    Accounted maxQueueBytes (attempt s outcome) := by
  unfold attempt
  split
  · exact h
  next i _ =>
    refine accounted_close h (f := removeLocked s.f i) rfl (sum_eraseIdx _ s.f.queue i) ?_ outcome
    exact Nat.le.intro (sum_eraseIdx (fun p => p.body.length) s.f.queue i)
  · exact accounted_close h rfl rfl le_rfl outcome

theorem accounted_step {s : Loop} (h : Accounted maxQueueBytes s) (e : Event) :
    Accounted maxQueueBytes (step maxQueueBytes s e) := by
  cases e with
  | submit p =>
    obtain ⟨hcounts, hbound⟩ := @enqueueLocked_account maxQueueBytes s.f p
    have htotal := h.total
    refine ⟨?_, hbound⟩
    simp only [step, enqueue]
    omega
  | pick i =>
    simp only [step]
    split
    · split
      · exact ⟨h.total, h.bounded⟩
      · exact h
    · exact h
  | attempt outcome => exact accounted_attempt h outcome

theorem submitted_attempt (s : Loop) (outcome : Outcome) :
    (attempt s outcome).submitted = s.submitted := by
  have hclose : ∀ f p twice, (close s f p twice outcome).submitted = s.submitted := by
    intro f p twice
    cases outcome <;> rfl
  unfold attempt
  split
  · rfl
  · exact hclose _ _ _
  · exact hclose _ _ _

theorem submitted_step (s : Loop) (e : Event) :
    (step maxQueueBytes s e).submitted = s.submitted + e.series := by
  cases e with
  | submit p => rfl
  | pick i =>
    simp only [step]
    split
    · split <;> rfl
    · rfl
  | attempt outcome => exact submitted_attempt s outcome

/-- Every series that was submitted is delivered, dropped or queued, once, except that what is
evicted in flight is counted again when its request is delivered or given up. -/
theorem series_accounted (maxQueueBytes : ℕ) (events : List Event) :
    Accounted maxQueueBytes (run maxQueueBytes events) ∧
      (run maxQueueBytes events).submitted = (events.map Event.series).sum := by
  suffices hrun : ∀ s, Accounted maxQueueBytes s →
      Accounted maxQueueBytes (events.foldl (step maxQueueBytes) s) ∧
        (events.foldl (step maxQueueBytes) s).submitted =
          s.submitted + (events.map Event.series).sum by
    obtain ⟨haccount, hsum⟩ := hrun ⟨⟨[], 0, 0, rfl⟩, .idle, 0, 0, 0⟩ ⟨rfl, Nat.zero_le _⟩
    exact ⟨haccount, hsum.trans (Nat.zero_add _)⟩
  induction events with
  | nil => exact fun s hs => ⟨hs, rfl⟩
  | cons e events ih =>
    intro s hs
    obtain ⟨haccount, hsum⟩ := ih _ (accounted_step hs e)
    refine ⟨haccount, ?_⟩
    rw [List.foldl_cons, hsum, submitted_step, List.map_cons, List.sum_cons, Nat.add_assoc]

end Ozymandias.RetryQueue
