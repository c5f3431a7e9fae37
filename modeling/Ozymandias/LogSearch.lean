import Ozymandias.TimeMerge
import Mathlib.Data.Prod.Lex
import Mathlib.Algebra.BigOperators.Group.List.Basic
import Mathlib.Algebra.GroupWithZero.Nat

/-!
The search of the log store over a fixed content: a lazy merge of sorted runs.
A run is a head snapshot or a sealed block; a block is decoded when the merge
reaches its near edge, unless its filter rules the query out, and the bytes
decoded are charged to a budget. A page ends at its limit, at the end of the
content, or where the budget runs out, and its cursor says where to go on.
-/
namespace Ozymandias.LogSearch

open Peaks TimeMerge

variable {L : Type}

structure Entry (L : Type) where
  ts : ℤ
  seq : ℕ
  log : L
  deriving DecidableEq

abbrev Key := ℤ ×ₗ ℕ

def Entry.key (e : Entry L) : Key := toLex (e.ts, e.seq)

inductive Order where
  | newest
  | oldest
  deriving DecidableEq

def Order.pos (o : Order) (k : Key) : ℤ ×ₗ ℤ :=
  match o with
  | .newest => toLex (-(ofLex k).1, -((ofLex k).2 : ℤ))
  | .oldest => toLex ((ofLex k).1, ((ofLex k).2 : ℤ))

def Order.at (o : Order) (ts : ℤ) : ℤ :=
  match o with
  | .newest => -ts
  | .oldest => ts

def Order.after (o : Order) (cur k : Key) : Bool :=
  match o with
  | .newest => decide (k < cur)
  | .oldest => decide (cur < k)

def maxUint64 : ℕ := 2 ^ 64 - 1

/-- One sorted run of candidates; `skip` is the answer of a block's filter. -/
structure Run (L : Type) where
  pred : L → Bool
  minTs : ℤ
  maxTs : ℤ
  entries : List (Entry L)
  isBlock : Bool
  rawLen : ℕ
  skip : Bool

def Run.reaches (o : Order) (r : Run L) (ts : ℤ) : Bool :=
  match o with
  | .newest => decide (ts ≤ r.maxTs)
  | .oldest => decide (r.minTs ≤ ts)

def Run.edge (o : Order) (r : Run L) : ℤ :=
  match o with
  | .newest => o.at r.maxTs
  | .oldest => o.at r.minTs

/-- Where a search goes on that could not decode a run and has examined nothing. -/
def Run.resume (o : Order) (r : Run L) : Key :=
  match o with
  | .newest => toLex (r.maxTs + 1, 0)
  | .oldest => toLex (r.minTs - 1, maxUint64)

/-- Whether a run is a block that will be decoded, and so is charged to the budget. -/
def Run.charged (r : Run L) : Bool := r.isBlock && !r.skip

structure MergeCursor (L : Type) where
  pred : L → Bool
  top : Entry L
  rest : List (Entry L)

def advance (c : MergeCursor L) : List (MergeCursor L) :=
  match c.rest with
  | [] => []
  | e :: rest => [⟨c.pred, e, rest⟩]

/-- Take the entry that comes first in the search order, with its run's predicate. -/
def popTop (o : Order) : List (MergeCursor L) → Option ((L → Bool) × Entry L × List (MergeCursor L))
  | [] => none
  | c :: heap =>
    match popTop o heap with
    | none => some (c.pred, c.top, advance c)
    | some (pred, e, heap') =>
      if o.after e.key c.top.key = true then some (pred, e, c :: heap')
      else some (c.pred, c.top, advance c ++ heap)

structure Window where
  lo : ℤ
  hi : ℤ
  cur : Option Key
  deriving DecidableEq

def Window.inside (o : Order) (w : Window) (e : Entry L) : Bool :=
  decide (w.lo ≤ e.ts ∧ e.ts ≤ w.hi) &&
    match w.cur with
    | none => true
    | some c => o.after c e.key

/-- The entries of a run inside the window and after the cursor, in search order. -/
def orderedFiltered (o : Order) (w : Window) (es : List (Entry L)) : List (Entry L) :=
  sortBy (fun e => o.pos e.key) (es.filter (w.inside o))

def push (pred : L → Bool) (es : List (Entry L)) (heap : List (MergeCursor L)) :
    List (MergeCursor L) :=
  match es with
  | [] => heap
  | e :: rest => ⟨pred, e, rest⟩ :: heap

structure Stats where
  blocksRead : ℕ
  blocksSkipped : ℕ
  bytesRead : ℕ
  entriesExamined : ℕ
  deriving DecidableEq

/-- The runs not reached yet, the decoded ones, and what is left of the budget. -/
structure Scan (L : Type) where
  runs : List (Run L)
  heap : List (MergeCursor L)
  budget : ℤ
  stats : Stats

/-- The runs have been decoded that could hold the next entry, or one was too large. -/
inductive Filled (L : Type) where
  | ready (s : Scan L)
  | short (r : Run L) (s : Scan L)

def needs (o : Order) (heap : List (MergeCursor L)) (r : Run L) : Bool :=
  match popTop o heap with
  | none => true
  | some (_, e, _) => r.reaches o e.ts

/-- Decode every run that might hold the next entry in order. The first block of a page is decoded
whatever it costs. -/
def fill (o : Order) (w : Window) : List (Run L) → List (MergeCursor L) → ℤ → Stats → Filled L
  | [], heap, budget, stats => .ready ⟨[], heap, budget, stats⟩
  | r :: runs, heap, budget, stats =>
    if needs o heap r then
      if r.skip then fill o w runs heap budget
        { stats with blocksSkipped := stats.blocksSkipped + 1 }
      else if r.isBlock then
        if budget < r.rawLen ∧ 0 < stats.blocksRead then .short r ⟨runs, heap, budget, stats⟩
        else
          fill o w runs (push r.pred (orderedFiltered o w r.entries) heap) (budget - r.rawLen)
            { stats with
              blocksRead := stats.blocksRead + 1
              bytesRead := stats.bytesRead + r.rawLen }
      else fill o w runs (push r.pred (orderedFiltered o w r.entries) heap) budget stats
    else .ready ⟨r :: runs, heap, budget, stats⟩

structure Page (L : Type) where
  logs : List (Entry L)
  cursor : Option Key
  truncated : Bool
  stats : Stats

/-- The loop of a search. `out` are the logs found so far, `last` is the last entry examined. -/
def scan (o : Order) (limit : ℕ) (w : Window) :
    ℕ → Scan L → List (Entry L) → Option (Entry L) → Page L
  | 0, s, out, _ => ⟨out, none, false, s.stats⟩
  | fuel + 1, s, out, last =>
    match fill o w s.runs s.heap s.budget s.stats with
    | .short r s =>
      ⟨out, some (match last with | some e => e.key | none => r.resume o), true, s.stats⟩
    | .ready s =>
      match popTop o s.heap with
      | none => ⟨out, none, false, s.stats⟩
      | some (pred, e, heap) =>
        let s : Scan L := { s with
          heap := heap
          stats := { s.stats with entriesExamined := s.stats.entriesExamined + 1 } }
        if pred e.log then
          if out.length = limit then ⟨out, out.getLast?.map Entry.key, false, s.stats⟩
          else scan o limit w fuel s (out ++ [e]) (some e)
        else scan o limit w fuel s out (some e)

def narrow (o : Order) (lo hi : ℤ) (cur : Option Key) : Window :=
  match cur with
  | none => ⟨lo, hi, none⟩
  | some c =>
    match o with
    | .newest => ⟨lo, min hi (ofLex c).1, some c⟩
    | .oldest => ⟨max lo (ofLex c).1, hi, some c⟩

def totalEntries (runs : List (Run L)) : ℕ := (runs.map (fun r => r.entries.length)).sum

def searchRuns (o : Order) (limit : ℕ) (budget : ℤ) (w : Window) (runs : List (Run L)) : Page L :=
  if w.hi < w.lo then ⟨[], none, false, ⟨0, 0, 0, 0⟩⟩
  else scan o limit w (totalEntries runs + 1) ⟨runs, [], budget, ⟨0, 0, 0, 0⟩⟩ [] none

variable {e : Entry L} {o : Order} {r : Run L} {read : List (Run L)} {s : Scan L} {total : ℤ}
  {w : Window} {heap : List (MergeCursor L)} {runs : List (Run L)}

theorem after_iff {o : Order} {c k : Key} : o.after c k = true ↔ o.pos c < o.pos k := by
  obtain ⟨a, i⟩ := c
  obtain ⟨b, j⟩ := k
  cases o with
  | newest =>
    simp only [Order.after, Order.pos, decide_eq_true_eq]
    change toLex (b, j) < toLex (a, i) ↔ _
    rw [Prod.Lex.toLex_lt_toLex, Prod.Lex.toLex_lt_toLex]
    change b < a ∨ b = a ∧ j < i ↔ -a < -b ∨ -a = -b ∧ -(i : ℤ) < -(j : ℤ)
    omega
  | oldest =>
    simp only [Order.after, Order.pos, decide_eq_true_eq]
    change toLex (a, i) < toLex (b, j) ↔ _
    rw [Prod.Lex.toLex_lt_toLex, Prod.Lex.toLex_lt_toLex]
    change a < b ∨ a = b ∧ i < j ↔ a < b ∨ a = b ∧ (i : ℤ) < (j : ℤ)
    omega

theorem pos_injective (o : Order) : Function.Injective o.pos := by
  rintro ⟨a, i⟩ ⟨b, j⟩ h
  cases o with
  | newest =>
    have hpair : (-a, -(i : ℤ)) = (-b, -(j : ℤ)) := toLex.injective h
    obtain ⟨h₁, h₂⟩ := Prod.mk.inj hpair
    exact congrArg toLex (Prod.ext (neg_injective h₁) (by omega))
  | oldest =>
    have hpair : (a, (i : ℤ)) = (b, (j : ℤ)) := toLex.injective h
    obtain ⟨h₁, h₂⟩ := Prod.mk.inj hpair
    exact congrArg toLex (Prod.ext h₁ (by omega))

theorem pos_fst (o : Order) (k : Key) : (ofLex (o.pos k)).1 = o.at (ofLex k).1 := by
  cases o <;> rfl

variable {j k : Key} {heap' : List (MergeCursor L)} {pred : L → Bool} {budget : ℤ}
  {stats stats' : Stats} {before : List (Run L)}

theorem pos_lt_of_at (h : o.at (ofLex j).1 < o.at (ofLex k).1) : o.pos j < o.pos k := by
  rw [Prod.Lex.lt_iff, pos_fst, pos_fst]
  exact Or.inl h

theorem at_le_of_pos (h : o.pos j ≤ o.pos k) : o.at (ofLex j).1 ≤ o.at (ofLex k).1 :=
  le_of_not_gt (fun hlt => absurd (pos_lt_of_at hlt) (not_lt.mpr h))

theorem reaches_iff (o : Order) (r : Run L) (ts : ℤ) :
    r.reaches o ts = true ↔ r.edge o ≤ o.at ts := by
  cases o <;> simp [Run.reaches, Run.edge, Order.at]

theorem resume_at (o : Order) (r : Run L) : o.at (ofLex (r.resume o)).1 = r.edge o - 1 := by
  cases o with
  | newest =>
    change -(r.maxTs + 1) = -r.maxTs - 1
    omega
  | oldest => rfl

abbrev Item (L : Type) := Entry L × Bool

def place (o : Order) (x : Item L) : ℤ ×ₗ ℤ := o.pos x.1.key

def MergeCursor.items (c : MergeCursor L) : List (Item L) :=
  (c.top :: c.rest).map (fun e => (e, c.pred e.log))

def heapItems (heap : List (MergeCursor L)) : List (Item L) := heap.flatMap MergeCursor.items

def Run.items (o : Order) (w : Window) (r : Run L) : List (Item L) :=
  (orderedFiltered o w r.entries).map (fun e => (e, r.pred e.log))

def runItems (o : Order) (w : Window) (runs : List (Run L)) : List (Item L) :=
  (runs.filter (fun r => !r.skip)).flatMap (Run.items o w)

def InOrder (o : Order) (heap : List (MergeCursor L)) : Prop :=
  ∀ c ∈ heap, Ascending (place o) c.items

theorem runItems_append (o : Order) (w : Window) (xs ys : List (Run L)) :
    runItems o w (xs ++ ys) = runItems o w xs ++ runItems o w ys := by
  simp [runItems]

theorem runItems_cons (o : Order) (w : Window) (r : Run L) (runs : List (Run L)) :
    runItems o w (r :: runs) = (if r.skip then [] else r.items o w) ++ runItems o w runs := by
  cases h : r.skip <;> simp [runItems, h]

theorem items_advance (c : MergeCursor L) :
    c.items = (c.top, c.pred c.top.log) :: heapItems (advance c) := by
  obtain ⟨pred, top, rest⟩ := c
  cases rest <;> simp [MergeCursor.items, heapItems, advance]

theorem inOrder_advance {c : MergeCursor L} (h : Ascending (place o) c.items) :
    InOrder o (advance c) := by
  obtain ⟨pred, top, rest⟩ := c
  cases rest with
  | nil => intro c hc; simp [advance] at hc
  | cons e rest =>
    intro c hc
    have hc : c = ⟨pred, e, rest⟩ := by simpa [advance] using hc
    rw [hc]
    exact (List.pairwise_cons.mp h).2

theorem popTop_none (h : popTop o heap = none) :
    heap = [] := by
  revert h
  fun_cases popTop o heap <;> simp

/-- Popping takes the entry that comes first. -/
theorem popTop_spec (ho : InOrder o heap) (h : popTop o heap = some (pred, e, heap')) :
    (heapItems heap).Perm ((e, pred e.log) :: heapItems heap') ∧ InOrder o heap' ∧
      ∀ x ∈ heapItems heap, o.pos e.key ≤ place o x := by
  induction heap generalizing pred e heap' with
  | nil => simp [popTop] at h
  | cons c heap ih =>
    have hc : Ascending (place o) c.items := ho c List.mem_cons_self
    have hrest : InOrder o heap := fun d hd => ho d (List.mem_cons_of_mem _ hd)
    have htop : ∀ x ∈ c.items, o.pos c.top.key ≤ place o x := by
      intro x hx
      exact hc.head_le rfl x hx
    simp only [popTop] at h
    cases hp : popTop o heap with
    | none =>
      rw [hp] at h
      obtain ⟨rfl, rfl, rfl⟩ : c.pred = pred ∧ c.top = e ∧ advance c = heap' := by simpa using h
      have hnil := popTop_none hp
      subst hnil
      refine ⟨?_, inOrder_advance hc, ?_⟩
      · simp only [heapItems, List.flatMap_cons, List.flatMap_nil, List.append_nil]
        rw [items_advance]
        exact List.Perm.refl _
      · intro x hx
        exact htop x (by simpa [heapItems] using hx)
    | some found =>
      obtain ⟨pred₁, e₁, heap₁⟩ := found
      rw [hp] at h
      obtain ⟨hperm, hord, hmin⟩ := ih hrest hp
      simp only at h
      split at h
      next hafter =>
        obtain ⟨rfl, rfl, rfl⟩ : pred₁ = pred ∧ e₁ = e ∧ c :: heap₁ = heap' := by simpa using h
        have hlt := after_iff.mp hafter
        refine ⟨?_, ?_, ?_⟩
        · exact (hperm.append_left c.items).trans List.perm_middle
        · exact List.forall_mem_cons.mpr ⟨hc, hord⟩
        · intro x hx
          simp only [heapItems, List.flatMap_cons, List.mem_append] at hx
          rcases hx with hx | hx
          · exact (le_of_lt hlt).trans (htop x hx)
          · exact hmin x hx
      next hafter =>
        obtain ⟨rfl, rfl, rfl⟩ : c.pred = pred ∧ c.top = e ∧ advance c ++ heap = heap' := by
          simpa using h
        have hle : o.pos c.top.key ≤ o.pos e₁.key := by
          rw [after_iff] at hafter
          exact not_lt.mp hafter
        refine ⟨?_, ?_, ?_⟩
        · simp only [heapItems, List.flatMap_cons, List.flatMap_append]
          rw [items_advance]
          exact List.Perm.refl _
        · exact List.forall_mem_append.mpr ⟨inOrder_advance hc, hrest⟩
        · intro x hx
          simp only [heapItems, List.flatMap_cons, List.mem_append] at hx
          rcases hx with hx | hx
          · exact htop x hx
          · exact hle.trans (hmin x hx)

theorem heapItems_push (pred : L → Bool) (es : List (Entry L)) (heap : List (MergeCursor L)) :
    heapItems (push pred es heap) = es.map (fun e => (e, pred e.log)) ++ heapItems heap := by
  cases es <;> simp [push, heapItems, MergeCursor.items]

/-- Distinct keys: what a run brings in is in search order. -/
theorem ascending_items (h : (r.entries.map Entry.key).Nodup) :
    Ascending (place o) (r.items o w) := by
  have hnodup : ((r.entries.filter (w.inside o)).map (fun e => o.pos e.key)).Nodup := by
    have hkeys : ((r.entries.filter (w.inside o)).map Entry.key).Nodup :=
      h.sublist (List.filter_sublist.map _)
    have hmap := hkeys.map (pos_injective o)
    rwa [List.map_map] at hmap
  exact List.pairwise_map.mpr (ascending_sortBy hnodup)

theorem inOrder_push (h : (r.entries.map Entry.key).Nodup) (ho : InOrder o heap) :
    InOrder o (push r.pred (orderedFiltered o w r.entries) heap) := by
  have hr := ascending_items (o := o) (w := w) h
  unfold Run.items at hr
  cases hes : orderedFiltered o w r.entries with
  | nil => exact ho
  | cons e rest =>
    rw [hes] at hr
    exact List.forall_mem_cons.mpr ⟨hr, ho⟩

def charges (runs : List (Run L)) : List ℕ := (runs.filter Run.charged).map Run.rawLen

/-- A page may decode these runs: one block, or as many as the budget covers. -/
def Affordable (total : ℤ) (runs : List (Run L)) : Prop :=
  (charges runs).length ≤ 1 ∨ ((charges runs).sum : ℤ) ≤ total

structure Ledger (total : ℤ) (read : List (Run L)) (budget : ℤ) (stats : Stats) : Prop where
  left : budget = total - ((charges read).sum : ℤ)
  blocks : stats.blocksRead = (charges read).length
  affordable : Affordable total read

theorem charges_append (xs ys : List (Run L)) : charges (xs ++ ys) = charges xs ++ charges ys := by
  simp [charges]

theorem charges_singleton (r : Run L) : charges [r] = if r.charged then [r.rawLen] else [] := by
  cases h : r.charged <;> simp [charges, h]

theorem charges_concat (h : r.charged = true) :
    charges (read ++ [r]) = charges read ++ [r.rawLen] := by
  rw [charges_append, charges_singleton, h, if_pos rfl]

theorem Ledger.free (h : Ledger total read budget stats) (hr : r.charged = false)
    (hstats : stats'.blocksRead = stats.blocksRead) : Ledger total (read ++ [r]) budget stats' := by
  have hsame : charges (read ++ [r]) = charges read := by
    rw [charges_append, charges_singleton, hr]
    simp
  obtain ⟨hleft, hblocks, haff⟩ := h
  refine ⟨?_, ?_, ?_⟩
  · rw [hsame]; exact hleft
  · rw [hsame, hstats]; exact hblocks
  · unfold Affordable at haff ⊢
    rw [hsame]
    exact haff

theorem Ledger.charge (h : Ledger total read budget stats) (hr : r.charged = true)
    (hfits : ¬ (budget < r.rawLen ∧ 0 < stats.blocksRead))
    (hstats : stats'.blocksRead = stats.blocksRead + 1) :
    Ledger total (read ++ [r]) (budget - r.rawLen) stats' := by
  have hone : charges (read ++ [r]) = charges read ++ [r.rawLen] := charges_concat hr
  obtain ⟨hleft, hblocks, haff⟩ := h
  have hsum : ((charges (read ++ [r])).sum : ℤ) = ((charges read).sum : ℤ) + r.rawLen := by
    rw [hone]
    simp
  have hlen : (charges (read ++ [r])).length = (charges read).length + 1 := by
    rw [hone]
    simp
  refine ⟨by omega, by omega, ?_⟩
  unfold Affordable
  omega

structure Queue (o : Order) (runs : List (Run L)) : Prop where
  edges : runs.Pairwise (fun a b => a.edge o ≤ b.edge o)
  keys : ∀ r ∈ runs, (r.entries.map Entry.key).Nodup
  inRange : ∀ r ∈ runs, ∀ e ∈ r.entries, r.edge o ≤ o.at e.ts

theorem Queue.right {xs ys : List (Run L)} (h : Queue o (xs ++ ys)) : Queue o ys :=
  ⟨(List.pairwise_append.mp h.edges).2.1, fun s hs => h.keys s (List.mem_append_right _ hs),
    fun s hs => h.inRange s (List.mem_append_right _ hs)⟩

theorem Queue.tail (h : Queue o (r :: runs)) : Queue o runs :=
  (show Queue o ([r] ++ runs) from h).right

/-- What a run brings in comes at or after its near edge. -/
theorem Queue.edge_le (h : Queue o runs) {x : Item L} (hx : x ∈ runItems o w runs) :
    ∃ r ∈ runs, r.edge o ≤ o.at x.1.ts := by
  obtain ⟨r, hr, hx⟩ := List.mem_flatMap.mp hx
  have hr := (List.mem_filter.mp hr).1
  obtain ⟨y, hy, rfl⟩ := List.mem_map.mp hx
  exact ⟨r, hr, h.inRange r hr y (List.mem_filter.mp (mem_sortBy.mp hy)).1⟩

theorem Queue.head_le (h : Queue o (r :: runs)) {x : Item L} (hx : x ∈ runItems o w (r :: runs)) :
    r.edge o ≤ o.at x.1.ts := by
  obtain ⟨r', hr', hedge⟩ := h.edge_le hx
  rcases List.mem_cons.mp hr' with rfl | hr'
  · exact hedge
  · exact ((List.pairwise_cons.mp h.edges).1 r' hr').trans hedge

structure Ready (o : Order) (w : Window) (total : ℤ) (read runs : List (Run L))
    (heap : List (MergeCursor L)) (s : Scan L) : Prop where
  books : Ledger total read s.budget s.stats
  inOrder : InOrder o s.heap
  items : (heapItems s.heap ++ runItems o w s.runs).Perm (heapItems heap ++ runItems o w runs)
  settled : ∀ r ∈ s.runs, ∃ pred e heap', popTop o s.heap = some (pred, e, heap') ∧
    o.at e.ts < r.edge o

structure Refused (o : Order) (total : ℤ) (read : List (Run L)) (r : Run L) (s : Scan L) :
    Prop where
  charged : r.charged = true
  books : Ledger total read s.budget s.stats
  some : 0 < s.stats.blocksRead
  short : s.budget < r.rawLen
  inOrder : InOrder o s.heap
  behind : ∀ x ∈ heapItems s.heap, r.edge o ≤ o.at x.1.ts

theorem needs_spec (ho : InOrder o heap) (h : needs o heap r = true) :
    ∀ x ∈ heapItems heap, r.edge o ≤ o.at x.1.ts := by
  intro x hx
  unfold needs at h
  cases hp : popTop o heap with
  | none =>
    rw [popTop_none hp] at hx
    simp [heapItems] at hx
  | some found =>
    obtain ⟨pred, e, heap'⟩ := found
    rw [hp] at h
    have hedge := (reaches_iff o r e.ts).mp h
    exact hedge.trans (at_le_of_pos ((popTop_spec ho hp).2.2 x hx))

inductive Fills (o : Order) (w : Window) (total : ℤ) (before runs : List (Run L))
    (heap : List (MergeCursor L)) (examined : ℕ) : Filled L → Prop
  | ready (s : Scan L) (read : List (Run L)) (hruns : runs = read ++ s.runs)
      (hready : Ready o w total (before ++ read) runs heap s)
      (hcount : s.stats.entriesExamined = examined) : Fills o w total before runs heap
        examined (.ready s)
  | short (s : Scan L) (r : Run L) (read post : List (Run L)) (hruns : runs = read ++ r :: post)
      (hheap : (heapItems s.heap).Perm (heapItems heap ++ runItems o w read))
      (hrefused : Refused o total (before ++ read) r s)
      (hcount : s.stats.entriesExamined = examined) : Fills o w total before runs heap
        examined (.short r s)

/-- The rest of the loop, once a run is ruled out or decoded. -/
theorem Fills.cons {n : ℕ} {filled : Filled L}
    (h : Fills o w total (before ++ [r]) runs heap' n filled)
    (hperm : (heapItems heap').Perm (heapItems heap ++ runItems o w [r])) :
    Fills o w total before (r :: runs) heap n filled := by
  have happ : ∀ runs, runItems o w (r :: runs) = runItems o w [r] ++ runItems o w runs :=
    runItems_append o w [r]
  cases h with
  | ready s read hruns hready hcount =>
    rw [List.append_assoc] at hready
    refine .ready s (r :: read) (by rw [hruns]; rfl)
      ⟨hready.books, hready.inOrder, hready.items.trans ?_, hready.settled⟩ hcount
    rw [happ, ← List.append_assoc]
    exact hperm.append_right _
  | short s r' read post hruns hheap hrefused hcount =>
    rw [List.append_assoc] at hrefused
    refine .short s r' (r :: read) post (by rw [hruns]; rfl) ?_ hrefused hcount
    rw [happ, ← List.append_assoc]
    exact hheap.trans (hperm.append_right _)

theorem perm_push (hskip : ¬r.skip = true) :
    (heapItems (push r.pred (orderedFiltered o w r.entries) heap)).Perm
      (heapItems heap ++ runItems o w [r]) := by
  have hone : runItems o w [r] = r.items o w := by simp [runItems, hskip]
  rw [heapItems_push, hone]
  exact List.perm_append_comm

/-- The fill loop decodes runs from the front until it is settled or one does not fit. -/
theorem fill_spec (o : Order) (w : Window) (total : ℤ) (runs : List (Run L))
    (hq : Queue o runs) (before : List (Run L)) (heap : List (MergeCursor L)) (budget : ℤ)
    (stats : Stats) (hbooks : Ledger total before budget stats) (ho : InOrder o heap) :
    ∃ filled, fill o w runs heap budget stats = filled ∧
      Fills o w total before runs heap stats.entriesExamined filled := by
  refine ⟨_, rfl, ?_⟩
  fun_induction fill o w runs heap budget stats generalizing before with
  | case1 heap budget stats =>
    refine .ready _ [] rfl ?_ rfl
    rw [List.append_nil]
    exact ⟨hbooks, ho, List.Perm.refl _, by simp⟩
  | case2 r runs heap budget stats hneeds hskip ih =>
    have hfree : r.charged = false := by simp [Run.charged, hskip]
    refine (ih hq.tail _ (hbooks.free hfree rfl) ho).cons ?_
    simp [runItems, hskip]
  | case3 r runs heap budget stats hneeds hskip hblock hbig =>
    have hcharged : r.charged = true := by simp [Run.charged, hblock, hskip]
    refine .short _ r [] runs rfl (by simp [runItems]) ?_ rfl
    rw [List.append_nil]
    exact ⟨hcharged, hbooks, hbig.2, hbig.1, ho, needs_spec ho hneeds⟩
  | case4 r runs heap budget stats hneeds hskip hblock hfits ih =>
    have hcharged : r.charged = true := by simp [Run.charged, hblock, hskip]
    exact (ih hq.tail _ (hbooks.charge hcharged hfits rfl)
      (inOrder_push (hq.keys r List.mem_cons_self) ho)).cons (perm_push hskip)
  | case5 r runs heap budget stats hneeds hskip hblock ih =>
    have hfree : r.charged = false := by simp [Run.charged, hblock]
    exact (ih hq.tail _ (hbooks.free hfree rfl)
      (inOrder_push (hq.keys r List.mem_cons_self) ho)).cons (perm_push hskip)
  | case6 r runs heap budget stats hneeds =>
    refine .ready _ [] rfl ?_ rfl
    rw [List.append_nil]
    refine ⟨hbooks, ho, List.Perm.refl _, fun r' hr' => ?_⟩
    unfold needs at hneeds
    cases hp : popTop o heap with
    | none => simp [hp] at hneeds
    | some found =>
      obtain ⟨pred, e, heap'⟩ := found
      rw [hp] at hneeds
      have hlt : o.at e.ts < r.edge o := by
        rw [reaches_iff] at hneeds
        exact not_le.mp hneeds
      refine ⟨pred, e, heap', rfl, ?_⟩
      rcases List.mem_cons.mp hr' with rfl | hr'
      · exact hlt
      · exact hlt.trans_le ((List.pairwise_cons.mp hq.edges).1 r' hr')

def pending (o : Order) (w : Window) (s : Scan L) : List (Item L) :=
  sortBy (place o) (heapItems s.heap ++ runItems o w s.runs)

theorem mem_pending {x : Item L} :
    x ∈ pending o w s ↔ x ∈ heapItems s.heap ++ runItems o w s.runs := mem_sortBy

def found (xs : List (Item L)) : List (Entry L) := (xs.filter Prod.snd).map Prod.fst

theorem found_append (xs ys : List (Item L)) : found (xs ++ ys) = found xs ++ found ys := by
  simp [found]

theorem found_cons (e : Entry L) (m : Bool) (xs : List (Item L)) :
    found ((e, m) :: xs) = (if m then [e] else []) ++ found xs := by
  cases m <;> simp [found]

/-- The state of a scan that has decoded the runs `read`. -/
structure Good (o : Order) (w : Window) (total : ℤ) (read : List (Run L)) (s : Scan L) : Prop where
  queue : Queue o s.runs
  books : Ledger total read s.budget s.stats
  inOrder : InOrder o s.heap
  distinct : ((heapItems s.heap ++ runItems o w s.runs).map (place o)).Nodup

theorem ascending_pending (h : Good o w total read s) : Ascending (place o) (pending o w s) :=
  ascending_sortBy h.distinct

/-- Filling the merge changes nothing of what is still to be examined. -/
theorem Good.fill {s' : Scan L} (h : Good o w total before s) (hruns : s.runs = read ++ s'.runs)
    (hready : Ready o w total (before ++ read) s.runs s.heap s') :
    Good o w total (before ++ read) s' ∧ pending o w s' = pending o w s := by
  have hdistinct : ((heapItems s'.heap ++ runItems o w s'.runs).map (place o)).Nodup :=
    (hready.items.map (place o)).nodup_iff.mpr h.distinct
  have hqueue : Queue o (read ++ s'.runs) := hruns ▸ h.queue
  refine ⟨⟨hqueue.right, hready.books, hready.inOrder, hdistinct⟩, ?_⟩
  refine ascending_ext (ascending_sortBy hdistinct) (ascending_sortBy h.distinct) (fun x => ?_)
  rw [mem_pending, mem_pending]
  exact hready.items.mem_iff

/-- In a settled merge the top entry is the next one of all. -/
theorem Good.pop (h : Good o w total read s) (hpop : popTop o s.heap = some (pred, e, heap))
    (hsettled : ∀ r ∈ s.runs, o.at e.ts < r.edge o) (stats : Stats)
    (hstats : stats.blocksRead = s.stats.blocksRead) :
    Good o w total read { s with heap := heap, stats := stats } ∧
      pending o w s = (e, pred e.log) :: pending o w { s with heap := heap, stats := stats } := by
  obtain ⟨hperm, ho, hmin⟩ := popTop_spec h.inOrder hpop
  have hall : (heapItems s.heap ++ runItems o w s.runs).Perm
      ((e, pred e.log) :: (heapItems heap ++ runItems o w s.runs)) := hperm.append_right _
  have hcons : (((e, pred e.log) :: (heapItems heap ++ runItems o w s.runs)).map (place o)).Nodup :=
    (hall.map (place o)).nodup_iff.mp h.distinct
  have hdistinct : ((heapItems heap ++ runItems o w s.runs).map (place o)).Nodup :=
    (List.nodup_cons.mp hcons).2
  have hbooks : Ledger total read s.budget stats :=
    ⟨h.books.left, hstats.trans h.books.blocks, h.books.affordable⟩
  refine ⟨⟨h.queue, hbooks, ho, hdistinct⟩, ?_⟩
  have hfirst : ∀ x ∈ heapItems heap ++ runItems o w s.runs, o.pos e.key ≤ place o x := by
    intro x hx
    rcases List.mem_append.mp hx with hx | hx
    · exact hmin x (hperm.mem_iff.mpr (List.mem_cons_of_mem _ hx))
    · obtain ⟨r, hr, hedge⟩ := h.queue.edge_le hx
      exact le_of_lt (pos_lt_of_at ((hsettled r hr).trans_le hedge))
  refine ascending_ext (ascending_pending h) ?_ ?_
  · refine List.pairwise_cons.mpr ⟨?_, ascending_sortBy hdistinct⟩
    intro x hx
    have hx := mem_sortBy.mp hx
    refine lt_of_le_of_ne (hfirst x hx) (fun heq => ?_)
    exact (List.nodup_cons.mp hcons).1 (List.mem_map.mpr ⟨x, hx, heq.symm⟩)
  · intro x
    unfold pending
    rw [mem_sortBy, hall.mem_iff, List.mem_cons, List.mem_cons, mem_sortBy]

def lastOf (last : Option (Entry L)) (seen : List (Item L)) : Option (Entry L) :=
  (seen.getLast?.map Prod.fst).or last

theorem lastOf_cons (last : Option (Entry L)) (x : Item L) (seen : List (Item L)) :
    lastOf last (x :: seen) = lastOf (some x.1) seen := by
  unfold lastOf
  rw [List.getLast?_cons]
  cases seen.getLast? <;> rfl

/-- How a page ends that has examined `seen` and not `unseen`. -/
inductive Ends (o : Order) (limit : ℕ) (total : ℤ) (before runs : List (Run L))
    (out : List (Entry L)) (last : Option (Entry L)) (seen unseen : List (Item L))
    (page : Page L) : Prop
  | done (hnone : unseen = []) (hlogs : page.logs = out ++ found seen)
      (hcursor : page.cursor = none) (htruncated : page.truncated = false)
  | more (front : List (Item L)) (e : Entry L) (hseen : seen = front ++ [(e, true)])
      (hlogs : page.logs = out ++ found front) (hfull : page.logs.length = limit)
      (hcursor : page.cursor = page.logs.getLast?.map Entry.key)
      (htruncated : page.truncated = false) (read post : List (Run L))
      (hruns : runs = read ++ post) (hafford : Affordable total (before ++ read))
      (hpost : ∀ r ∈ post, o.at e.ts < r.edge o)
  | short (r : Run L) (read post : List (Run L)) (hruns : runs = read ++ r :: post)
      (hlogs : page.logs = out ++ found seen)
      (hcursor : page.cursor =
        some (match lastOf last seen with | some e => e.key | none => r.resume o))
      (htruncated : page.truncated = true) (hcharged : r.charged = true)
      (hafford : Affordable total (before ++ read))
      (hover : ¬ Affordable total (before ++ read ++ [r]))
      (hlast : ∀ e, lastOf last seen = some e → o.at e.ts < r.edge o)
      (hbehind : ∀ x ∈ unseen, r.edge o ≤ o.at x.1.ts)

theorem Refused.not_affordable (h : Refused o total read r s) :
    ¬ Affordable total (read ++ [r]) := by
  have hleft := h.books.left
  have hblocks := h.books.blocks
  have hsome := h.some
  have hshort := h.short
  unfold Affordable
  rw [charges_concat h.charged]
  simp only [List.length_append, List.length_singleton, List.sum_append, List.sum_singleton]
  omega

/-- The rest of a page ends as the page does. -/
theorem Ends.cons {limit : ℕ} {runs' : List (Run L)} {out : List (Entry L)}
    {last : Option (Entry L)}
    {seen unseen : List (Item L)} {page : Page L} {m : Bool} {out' : List (Entry L)}
    (h : Ends o limit total (before ++ read) runs' out' (some e) seen unseen page)
    (hruns : runs = read ++ runs') (hout : out' = out ++ if m then [e] else []) :
    Ends o limit total before runs out last ((e, m) :: seen) unseen page := by
  subst hout
  cases h with
  | done hnone hlogs hcursor htruncated =>
    refine Ends.done hnone ?_ hcursor htruncated
    rw [hlogs, found_cons, List.append_assoc]
  | more front e' hseen hlogs hfull hcursor htruncated read' post hruns' hafford hpost =>
    refine Ends.more ((e, m) :: front) e' (by rw [hseen]; rfl) ?_ hfull hcursor htruncated
      (read ++ read') post ?_ ?_ hpost
    · rw [hlogs, found_cons, List.append_assoc]
    · rw [hruns, hruns', List.append_assoc]
    · rwa [← List.append_assoc]
  | short r read' post hruns' hlogs hcursor htruncated hcharged hafford hover hlast hbehind =>
    refine Ends.short r (read ++ read') post ?_ ?_ ?_ htruncated hcharged ?_ ?_ ?_ hbehind
    · rw [hruns, hruns', List.append_assoc]
    · rw [hlogs, found_cons, List.append_assoc]
    · rw [lastOf_cons]
      exact hcursor
    · rwa [← List.append_assoc]
    · rwa [← List.append_assoc before]
    · intro y hy
      rw [lastOf_cons] at hy
      exact hlast y hy

/-- A page examines what is pending from the front. -/
theorem scan_spec (o : Order) (limit : ℕ) (w : Window) (total : ℤ) (fuel : ℕ) (s : Scan L)
    (out : List (Entry L)) (last : Option (Entry L)) (before : List (Run L))
    (hgood : Good o w total before s) (hfuel : (pending o w s).length < fuel)
    (hlast : ∀ e, last = some e → ∀ r ∈ s.runs, o.at e.ts < r.edge o) :
    ∃ seen unseen, pending o w s = seen ++ unseen ∧
      Ends o limit total before s.runs out last seen unseen (scan o limit w fuel s out last) ∧
      (scan o limit w fuel s out last).stats.entriesExamined =
        s.stats.entriesExamined + seen.length := by
  induction fuel generalizing s out last before with
  | zero => omega
  | succ fuel ih =>
    obtain ⟨_, hfill, ⟨s', read, hruns, hready, hcount⟩ |
      ⟨s', r, read, post, hruns, hheap, hrefused, hcount⟩⟩ := fill_spec o w total s.runs hgood.queue
        before s.heap s.budget s.stats hgood.books hgood.inOrder
    · obtain ⟨hgood', hpending⟩ := hgood.fill hruns hready
      cases hpop : popTop o s'.heap with
      | none =>
        have hruns' : s'.runs = [] := by
          refine List.eq_nil_iff_forall_not_mem.mpr (fun r hr => ?_)
          obtain ⟨pred, e, heap, hsome, -⟩ := hready.settled r hr
          simp [hpop] at hsome
        have hnil : pending o w s = [] := by
          rw [← hpending]
          unfold pending
          rw [popTop_none hpop, hruns']
          rfl
        refine ⟨[], [], hnil, ?_, ?_⟩
        · simp only [scan, hfill, hpop]
          exact Ends.done rfl (by simp [found]) rfl rfl
        · simp only [scan, hfill, hpop, List.length_nil]
          exact hcount
      | some top =>
        obtain ⟨pred, e, heap⟩ := top
        have hsettled : ∀ r ∈ s'.runs, o.at e.ts < r.edge o := by
          intro r hr
          obtain ⟨_, _, _, hsome, hlt⟩ := hready.settled r hr
          obtain ⟨-, rfl, -⟩ : pred = _ ∧ e = _ ∧ heap = _ := by simpa [hpop] using hsome
          exact hlt
        obtain ⟨hgood₂, hnext⟩ := hgood'.pop hpop hsettled
          { s'.stats with entriesExamined := s'.stats.entriesExamined + 1 } rfl
        set s₂ : Scan L := { s' with
          heap := heap
          stats := { s'.stats with entriesExamined := s'.stats.entriesExamined + 1 } }
        have hfuel₂ : (pending o w s₂).length < fuel := by
          rw [← hpending, hnext, List.length_cons] at hfuel
          omega
        have hlast₂ : ∀ y, some e = some y → ∀ r ∈ s'.runs, o.at y.ts < r.edge o := by
          intro y hy
          obtain rfl := Option.some.inj hy
          exact hsettled
        simp only [scan, hfill, hpop]
        rw [← hpending, hnext]
        cases hmatch : pred e.log with
        | true =>
          simp only [if_true]
          split
          next hfull =>
            refine ⟨[(e, true)], _, rfl, ?_, ?_⟩
            · exact Ends.more [] e rfl (by simp [found]) hfull rfl rfl read s'.runs hruns
                hready.books.affordable hsettled
            · simp [hcount]
          next =>
            obtain ⟨seen, unseen, hsplit, hends, hexamined⟩ :=
              ih _ (out ++ [e]) (some e) (before ++ read) hgood₂ hfuel₂ hlast₂
            refine ⟨(e, true) :: seen, unseen, by rw [hsplit]; rfl, ?_, ?_⟩
            · exact hends.cons hruns (by simp)
            · rw [hexamined, List.length_cons]
              change s'.stats.entriesExamined + 1 + seen.length = _
              omega
        | false =>
          simp only [Bool.false_eq_true, if_false]
          obtain ⟨seen, unseen, hsplit, hends, hexamined⟩ :=
            ih _ out (some e) (before ++ read) hgood₂ hfuel₂ hlast₂
          refine ⟨(e, false) :: seen, unseen, by rw [hsplit]; rfl, ?_, ?_⟩
          · exact hends.cons hruns (by simp)
          · rw [hexamined, List.length_cons]
            change s'.stats.entriesExamined + 1 + seen.length = _
            omega
    · refine ⟨[], pending o w s, rfl, ?_, ?_⟩
      · simp only [scan, hfill]
        refine Ends.short r read post hruns (by simp [found]) ?_ rfl hrefused.charged
          hrefused.books.affordable hrefused.not_affordable ?_ ?_
        · cases last <;> rfl
        · intro e he
          refine hlast e ?_ r (by rw [hruns]; simp)
          simpa [lastOf] using he
        · intro x hx
          have hx := mem_pending.mp hx
          rw [hruns, runItems_append, ← List.append_assoc] at hx
          rcases List.mem_append.mp hx with hx | hx
          · exact hrefused.behind x (hheap.mem_iff.mpr hx)
          · have hqueue : Queue o (read ++ r :: post) := hruns ▸ hgood.queue
            exact hqueue.right.head_le hx
      · simp only [scan, hfill, List.length_nil]
        exact hcount

end Ozymandias.LogSearch
