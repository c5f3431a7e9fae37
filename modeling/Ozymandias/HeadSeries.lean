import Ozymandias.SeriesModel
import Ozymandias.GorillaChunk
import Ozymandias.Peaks
import Mathlib.Data.List.Basic
import Mathlib.Data.List.Flatten

/-!
One series of the head. Its samples are spread over chunks, each of at most a
fixed number of samples and inside one block range; a chunk stands for the
samples that were appended to it. Over the chunks a series is an ascending list
that takes a sample only if it is newer than all the others, and a truncation
at a block boundary drops exactly what is older.
-/

namespace Ozymandias.HeadSeries

open SeriesModel Peaks GorillaChunk

structure MemChunk (r : ℤ) where
  minT : ℤ
  maxT : ℤ
  samples : List Sample
  minT_eq : samples.head?.map Sample.t = some minT
  maxT_eq : samples.getLast?.map Sample.t = some maxT
  capped : samples.length ≤ maxSamplesPerChunk
  oneBlock : ∀ s ∈ samples, blockOf s.t r = blockOf minT r

/-- A series' live chunks. `logged` says that its definition is in the log. -/
structure MemSeries (r : ℤ) where
  id : ℕ
  ref : SeriesRef
  chunks : List (MemChunk r)
  lastT : ℤ
  logged : Bool
  ascending : Ascending Sample.t (chunks.flatMap MemChunk.samples)
  lastT_eq : ∀ c, chunks.getLast? = some c → c.maxT = lastT

inductive HeadErr where
  | outOfOrder
  | outOfBounds
  | seriesLimit
  deriving DecidableEq

variable {r : ℤ}

def MemChunk.full (c : MemChunk r) : Bool := decide (maxSamplesPerChunk ≤ c.samples.length)

def MemChunk.start (r : ℤ) (s : Sample) : MemChunk r where
  minT := s.t
  maxT := s.t
  samples := [s]
  minT_eq := rfl
  maxT_eq := rfl
  capped := by simp [maxSamplesPerChunk]
  oneBlock := by simp

def MemChunk.append (c : MemChunk r) (s : Sample) (hroom : c.full = false)
    (hblock : blockOf s.t r = blockOf c.minT r) : MemChunk r where
  minT := c.minT
  maxT := s.t
  samples := c.samples ++ [s]
  minT_eq := by
    have h := c.minT_eq
    cases hs : c.samples with
    | nil => simp [hs] at h
    | cons x xs => simpa [hs] using h
  maxT_eq := by simp
  capped := by
    have := of_decide_eq_false hroom
    simp
    omega
  oneBlock := by
    intro x hx
    rcases List.mem_append.mp hx with hx | hx
    · exact c.oneBlock x hx
    · rw [List.mem_singleton.mp hx]
      exact hblock

def MemSeries.samples (ms : MemSeries r) : List Sample := ms.chunks.flatMap MemChunk.samples

variable (c : MemChunk r) (ms : MemSeries r)

theorem MemSeries.samples_ascending : Ascending Sample.t ms.samples :=
  ms.ascending

def MemSeries.fresh (r : ℤ) (id : ℕ) (ref : SeriesRef) (logged : Bool) : MemSeries r where
  id := id
  ref := ref
  chunks := []
  lastT := 0
  logged := logged
  ascending := List.Pairwise.nil
  lastT_eq := by simp

def MemSeries.setLogged (ms : MemSeries r) (logged : Bool) : MemSeries r :=
  { ms with logged := logged }

def MemChunk.holds (c : MemChunk r) (t : ℤ) (v : BitVec 64) : Bool :=
  match c.samples.find? (fun s => decide (t ≤ s.t)) with
  | some s => decide (s.t = t) && floatEq s.v v
  | none => false

/-- Whether the series already stores `v` at `t`: only the first chunk whose
range includes the time is searched. -/
def MemSeries.holds (ms : MemSeries r) (t : ℤ) (v : BitVec 64) : Bool :=
  match ms.chunks.find? (fun c => decide (c.minT ≤ t ∧ t ≤ c.maxT)) with
  | some c => c.holds t v
  | none => false

/-- The chunks with one more sample: in the newest, or in a chunk of its own. -/
def place (chunks : List (MemChunk r)) (s : Sample) : List (MemChunk r) :=
  match chunks.getLast? with
  | none => [MemChunk.start r s]
  | some cur =>
    if h : cur.full = false ∧ blockOf s.t r = blockOf cur.minT r then
      chunks.dropLast ++ [cur.append s h.1 h.2]
    else chunks ++ [MemChunk.start r s]

theorem samples_place (chunks : List (MemChunk r)) (s : Sample) :
    (place chunks s).flatMap MemChunk.samples = chunks.flatMap MemChunk.samples ++ [s] := by
  unfold place
  cases hlast : chunks.getLast? with
  | none =>
    rw [List.getLast?_eq_none_iff.mp hlast]
    rfl
  | some cur =>
    obtain ⟨front, rfl⟩ := List.getLast?_eq_some_iff.mp hlast
    dsimp only
    split
    · simp [MemChunk.append]
    · simp [MemChunk.start]

theorem last_place (chunks : List (MemChunk r)) (s : Sample) :
    ∀ c, (place chunks s).getLast? = some c → c.maxT = s.t := by
  intro c hc
  unfold place at hc
  split at hc
  · cases hc
    rfl
  · split at hc
    · rw [List.getLast?_concat] at hc
      cases hc
      rfl
    · rw [List.getLast?_concat] at hc
      cases hc
      rfl

theorem MemChunk.exists_last : ∃ front s, c.samples = front ++ [s] ∧ s.t = c.maxT := by
  obtain ⟨s, hs, hst⟩ := Option.map_eq_some_iff.mp c.maxT_eq
  obtain ⟨front, hfront⟩ := List.getLast?_eq_some_iff.mp hs
  exact ⟨front, s, hfront, hst⟩

theorem MemChunk.exists_first : ∃ s rest, c.samples = s :: rest ∧ s.t = c.minT := by
  obtain ⟨s, hs, hst⟩ := Option.map_eq_some_iff.mp c.minT_eq
  obtain ⟨rest, hrest⟩ := List.head?_eq_some_iff.mp hs
  exact ⟨s, rest, hrest, hst⟩

/-- The newest sample of a series with chunks. -/
theorem MemSeries.exists_last (h : ms.chunks ≠ []) :
    ∃ front s, ms.samples = front ++ [s] ∧ s.t = ms.lastT := by
  obtain ⟨older, c, hc⟩ := List.eq_nil_or_concat' ms.chunks |>.resolve_left h
  obtain ⟨front, s, hs, hst⟩ := c.exists_last
  refine ⟨older.flatMap MemChunk.samples ++ front, s, ?_, ?_⟩
  · simp [MemSeries.samples, hc, hs]
  · exact hst.trans (ms.lastT_eq c (by simp [hc]))

theorem MemSeries.le_lastT {s : Sample} (hs : s ∈ ms.samples) :
    s.t ≤ ms.lastT := by
  have hne : ms.chunks ≠ [] := by
    intro h
    simp [MemSeries.samples, h] at hs
  obtain ⟨front, l, hl, hlt⟩ := ms.exists_last hne
  rw [← hlt]
  exact ms.ascending.le_last (by
    change ms.samples.getLast? = some l
    rw [hl]
    simp) s hs

variable (s : Sample) (minValid : ℤ)

/-- The head's test is whether the series has something at least as new. -/
theorem MemSeries.dominated_iff :
    Dominated Sample.t ms.samples s ↔ ms.chunks ≠ [] ∧ s.t ≤ ms.lastT := by
  constructor
  · rintro ⟨x, hx, hle⟩
    refine ⟨?_, le_trans hle (ms.le_lastT hx)⟩
    intro h
    simp [MemSeries.samples, h] at hx
  · rintro ⟨hne, hle⟩
    obtain ⟨front, l, hl, hlt⟩ := ms.exists_last hne
    exact ⟨l, by simp [hl], by rw [hlt]; exact hle⟩

/-- Apply the ordering rules and store the sample; tells whether it was stored. -/
def MemSeries.appendTo (ms : MemSeries r) (s : Sample) (minValid : ℤ) :
    MemSeries r × Except HeadErr Bool :=
  if s.t < minValid then (ms, .error .outOfBounds)
  else if h : ms.chunks ≠ [] ∧ s.t ≤ ms.lastT then
    if ms.holds s.t s.v then (ms, .ok false) else (ms, .error .outOfOrder)
  else
    ({ ms with
        chunks := place ms.chunks s
        lastT := s.t
        ascending := by
          rw [samples_place]
          exact ms.ascending.append_singleton
            (not_dominated.mp (fun hd => h ((ms.dominated_iff s).mp hd)))
        lastT_eq := last_place ms.chunks s }, .ok true)

/-- What `appendTo` does to the samples. -/
theorem samples_appendTo :
    (ms.appendTo s minValid).1.samples = accept Sample.t minValid ms.samples s := by
  unfold MemSeries.appendTo accept
  split
  · rfl
  · split
    next h =>
      rw [push_of_dominated ms.samples_ascending ((ms.dominated_iff s).mpr h)]
      split <;> rfl
    next h =>
      rw [push_of_not_dominated (fun hd => h ((ms.dominated_iff s).mp hd))]
      exact samples_place ms.chunks s

@[simp] theorem id_appendTo : (ms.appendTo s minValid).1.id = ms.id := by
  unfold MemSeries.appendTo
  split
  · rfl
  · split
    · split <;> rfl
    · rfl

@[simp] theorem ref_appendTo : (ms.appendTo s minValid).1.ref = ms.ref := by
  unfold MemSeries.appendTo
  split
  · rfl
  · split
    · split <;> rfl
    · rfl

@[simp] theorem logged_appendTo : (ms.appendTo s minValid).1.logged = ms.logged := by
  unfold MemSeries.appendTo
  split
  · rfl
  · split
    · split <;> rfl
    · rfl

theorem MemChunk.holds_iff (hasc : Ascending Sample.t c.samples) (t : ℤ) (v : BitVec 64) :
    c.holds t v = true ↔ ∃ s ∈ c.samples, s.t = t ∧ floatEq s.v v = true := by
  unfold MemChunk.holds
  constructor
  · intro h
    cases hfind : c.samples.find? (fun s => decide (t ≤ s.t)) with
    | none => simp [hfind] at h
    | some s =>
      rw [hfind] at h
      simp only [Bool.and_eq_true, decide_eq_true_eq] at h
      exact ⟨s, List.mem_of_find?_eq_some hfind, h⟩
  · rintro ⟨s, hs, rfl, hv⟩
    obtain ⟨before, after, hsplit⟩ := List.append_of_mem hs
    have hfind : c.samples.find? (fun x => decide (s.t ≤ x.t)) = some s := by
      rw [hsplit] at hasc ⊢
      have hlt := (List.pairwise_append.mp hasc).2.2
      have hnone : before.find? (fun x => decide (s.t ≤ x.t)) = none := by
        rw [List.find?_eq_none]
        intro x hx
        have := hlt x hx s (by simp)
        simp
        omega
      simp [hnone]
    rw [hfind]
    simp [hv]

theorem MemSeries.chunk_ascending {c : MemChunk r} (hc : c ∈ ms.chunks) :
    Ascending Sample.t c.samples := ms.ascending.of_mem_flatMap hc

theorem MemChunk.mem_range (hasc : Ascending Sample.t c.samples) {s : Sample} (hs : s ∈ c.samples) :
    c.minT ≤ s.t ∧ s.t ≤ c.maxT := by
  obtain ⟨first, hfirst, hmin⟩ := Option.map_eq_some_iff.mp c.minT_eq
  obtain ⟨last, hlast, hmax⟩ := Option.map_eq_some_iff.mp c.maxT_eq
  exact ⟨hmin ▸ hasc.head_le hfirst s hs, hmax ▸ hasc.le_last hlast s hs⟩

/-- Chunks of a series do not overlap. -/
theorem MemSeries.maxT_lt_minT (ms : MemSeries r) (before after : List (MemChunk r))
    (c c' : MemChunk r) (hsplit : ms.chunks = before ++ c :: after) (hc' : c' ∈ after) :
    c.maxT < c'.minT := by
  obtain ⟨front, last, hlast, hmax⟩ := c.exists_last
  obtain ⟨first, rest, hrest, hmin⟩ := c'.exists_first
  have h := ms.ascending
  rw [hsplit, List.flatMap_append] at h
  have hlt := (List.pairwise_append.mp (List.pairwise_append.mp h).2.1).2.2
  rw [← hmax, ← hmin]
  exact hlt last (by simp [hlast]) first (List.mem_flatMap.mpr ⟨c', hc', by simp [hrest]⟩)

/-- The series is said to hold a sample exactly if it stores it. -/
theorem MemSeries.holds_iff (t : ℤ) (v : BitVec 64) :
    ms.holds t v = true ↔ ∃ s ∈ ms.samples, s.t = t ∧ floatEq s.v v = true := by
  unfold MemSeries.holds
  constructor
  · intro h
    cases hfind : ms.chunks.find? (fun c => decide (c.minT ≤ t ∧ t ≤ c.maxT)) with
    | none =>
      rw [hfind] at h
      cases h
    | some c =>
      rw [hfind] at h
      have hc := List.mem_of_find?_eq_some hfind
      obtain ⟨s, hs, heq⟩ := (c.holds_iff (ms.chunk_ascending hc) t v).mp h
      exact ⟨s, List.mem_flatMap.mpr ⟨c, hc, hs⟩, heq⟩
  · rintro ⟨s, hs, rfl, hv⟩
    obtain ⟨c, hc, hsc⟩ := List.mem_flatMap.mp hs
    have hrange := c.mem_range (ms.chunk_ascending hc) hsc
    obtain ⟨before, after, hsplit⟩ := List.append_of_mem hc
    have hfind : ms.chunks.find? (fun c => decide (c.minT ≤ s.t ∧ s.t ≤ c.maxT)) = some c := by
      rw [hsplit, List.find?_append]
      have hnone : before.find? (fun c => decide (c.minT ≤ s.t ∧ s.t ≤ c.maxT)) = none := by
        rw [List.find?_eq_none]
        intro c' hc'
        obtain ⟨before', after', rfl⟩ := List.append_of_mem hc'
        have hlt := ms.maxT_lt_minT before' (after' ++ c :: after) c' c
          (by rw [hsplit]; simp) (by simp)
        simp
        omega
      rw [hnone]
      simp [hrange]
    rw [hfind]
    exact (c.holds_iff (ms.chunk_ascending hc) s.t v).mpr ⟨s, hsc, rfl, hv⟩

/-- Which samples are stored. -/
theorem appendTo_stored_iff : (ms.appendTo s minValid).2 = .ok true ↔
      minValid ≤ s.t ∧ ¬ Dominated Sample.t ms.samples s := by
  rw [ms.dominated_iff]
  unfold MemSeries.appendTo
  split
  · simp
    omega
  · split
    · split <;> simp_all
    · simp_all

/-- Which samples are accepted without being stored. -/
theorem appendTo_duplicate_iff : (ms.appendTo s minValid).2 = .ok false ↔
      minValid ≤ s.t ∧ ∃ x ∈ ms.samples, x.t = s.t ∧ floatEq x.v s.v = true := by
  rw [← ms.holds_iff]
  have hheld : ms.holds s.t s.v = true → ms.chunks ≠ [] ∧ s.t ≤ ms.lastT := by
    intro h
    obtain ⟨x, hx, hxt, -⟩ := (ms.holds_iff s.t s.v).mp h
    exact (ms.dominated_iff s).mp ⟨x, hx, le_of_eq hxt.symm⟩
  unfold MemSeries.appendTo
  split
  · simp
    omega
  · split
    · split <;> simp_all
    next h =>
      have hno : ¬ ms.holds s.t s.v = true := fun hh => h (hheld hh)
      simp [hno]

def MemSeries.samplesIn (ms : MemSeries r) (start stop : ℤ) : List Sample :=
  (ms.chunks.filter (fun c => !(decide (c.maxT < start) || decide (stop < c.minT)))).flatMap
    (fun c => c.samples.filter (fun s => decide (start ≤ s.t ∧ s.t ≤ stop)))

theorem samplesIn_eq (start stop : ℤ) :
    ms.samplesIn start stop = ms.samples.filter (fun s => decide (start ≤ s.t ∧ s.t ≤ stop)) :=
  flatMap_window MemChunk.minT MemChunk.maxT MemChunk.samples ms.chunks
    (fun c hc _ hs => c.mem_range (ms.chunk_ascending hc) hs) start stop

def MemSeries.truncate (ms : MemSeries r) (mint : ℤ) : MemSeries r :=
  { ms with
    chunks := ms.chunks.filter (fun c => decide (mint ≤ c.maxT))
    ascending := by
      refine List.Pairwise.sublist ?_ ms.ascending
      exact List.Sublist.flatMap List.filter_sublist _
    lastT_eq := by
      intro c hc
      have hmem := List.mem_filter.mp (List.mem_of_getLast? hc)
      obtain ⟨older, l, hl⟩ := List.eq_nil_or_concat' ms.chunks |>.resolve_left
        (fun h => by rw [h] at hmem; cases hmem.1)
      have hlast := ms.lastT_eq l (by simp [hl])
      have hkept : mint ≤ l.maxT := by
        rw [hlast]
        obtain ⟨front, s, hs, hst⟩ := c.exists_last
        have hle := of_decide_eq_true hmem.2
        rw [← hst] at hle
        exact le_trans hle (ms.le_lastT (List.mem_flatMap.mpr ⟨c, hmem.1, by simp [hs]⟩))
      rw [hl, List.filter_append, List.filter_cons_of_pos (by simpa using hkept)] at hc
      simp only [List.filter_nil, List.getLast?_concat, Option.some.injEq] at hc
      rw [← hc]
      exact hlast }

/-- A chunk never straddles a block boundary. -/
theorem MemChunk.boundary (hr : 0 < r) (k : ℤ) (hk : k * r ≤ c.maxT) :
    ∀ s ∈ c.samples, k * r ≤ s.t := by
  intro s hs
  obtain ⟨front, last, hlast, hmax⟩ := c.exists_last
  have hblock := c.oneBlock s hs
  have hblock' := c.oneBlock last (by simp [hlast])
  rw [← hblock', blockOf_eq _ _ hr, blockOf_eq _ _ hr, hmax] at hblock
  have hle : k ≤ c.maxT / r := (Int.le_ediv_iff_mul_le hr).mpr hk
  rw [← hblock] at hle
  exact (Int.le_ediv_iff_mul_le hr).mp hle

theorem MemSeries.chunks_eq_nil_iff : ms.chunks = [] ↔ ms.samples = [] := by
  constructor
  · intro h
    simp [MemSeries.samples, h]
  · intro h
    by_contra hne
    obtain ⟨front, s, hs, -⟩ := ms.exists_last hne
    rw [h] at hs
    simp at hs

end Ozymandias.HeadSeries
