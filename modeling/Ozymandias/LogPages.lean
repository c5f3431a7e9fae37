import Ozymandias.LogSearch
import Mathlib.Data.List.Flatten
import Mathlib.Data.List.Perm.Subperm

/-!
Pages of a search over a fixed content. Every page selects and sorts the runs
of its narrowed window anew, in any order of the runs with one near edge. The
pages that follow each other's cursors list the matching logs without a gap. A
page stands still if the blocks it has to decode together before the first
entry cost more than the budget; while no page does, the cursors move on and
come to an end.
-/
namespace Ozymandias.LogPages

open Peaks TimeMerge LogSearch

variable {L : Type}

structure Block (L : Type) where
  minTs : ℤ
  maxTs : ℤ
  rawLen : ℕ
  entries : List (Entry L)
  lowest : ∃ e ∈ entries, e.ts = minTs
  highest : ∃ e ∈ entries, e.ts = maxTs
  inRange : ∀ e ∈ entries, minTs ≤ e.ts ∧ e.ts ≤ maxTs

/-- A selected stream: its predicate, its head, and its blocks, each with the answer of its filter,
`true` if it rules the query out. -/
structure Source (L : Type) where
  pred : L → Bool
  head : List (Entry L)
  blocks : List (Block L × Bool)

def Source.entries (s : Source L) : List (Entry L) :=
  s.head ++ s.blocks.flatMap (fun b => b.1.entries)

def Source.visible (s : Source L) : List (Entry L) :=
  s.head ++ (s.blocks.filter (fun b => !b.2)).flatMap (fun b => b.1.entries)

/-- The selected streams. Sequence numbers are handed out from one up and never run out. -/
structure Content (L : Type) where
  sources : List (Source L)
  distinct : ((sources.flatMap Source.entries).map Entry.key).Nodup
  numbered : ∀ e ∈ sources.flatMap Source.entries, 0 < e.seq ∧ e.seq < maxUint64

def Content.matching (c : Content L) (o : Order) (lo hi : ℤ) : List (Entry L) :=
  sortBy (fun e => o.pos e.key) (c.sources.flatMap (fun s =>
    s.entries.filter (fun e => decide (lo ≤ e.ts ∧ e.ts ≤ hi) && s.pred e.log)))

def Content.listed (c : Content L) (o : Order) (lo hi : ℤ) : List (Entry L) :=
  sortBy (fun e => o.pos e.key) (c.sources.flatMap (fun s =>
    s.visible.filter (fun e => decide (lo ≤ e.ts ∧ e.ts ≤ hi) && s.pred e.log)))

def Content.SoundFilters (c : Content L) : Prop :=
  ∀ s ∈ c.sources, ∀ b ∈ s.blocks, b.2 = true → ∀ e ∈ b.1.entries, s.pred e.log = false

def headRun (pred : L → Bool) (head : List (Entry L)) (lo hi : ℤ) : List (Run L) :=
  match sortBy Entry.key (head.filter (fun e => decide (lo ≤ e.ts ∧ e.ts ≤ hi))) with
  | [] => []
  | e :: es => [⟨pred, e.ts, ((e :: es).getLast (by simp)).ts, e :: es, false, 0, false⟩]

def blockRun (pred : L → Bool) (b : Block L × Bool) : Run L :=
  ⟨pred, b.1.minTs, b.1.maxTs, b.1.entries, true, b.1.rawLen, b.2⟩

def overlaps (lo hi : ℤ) (b : Block L) : Bool := decide (lo ≤ b.maxTs ∧ b.minTs ≤ hi)

def Source.runs (s : Source L) (lo hi : ℤ) : List (Run L) :=
  headRun s.pred s.head lo hi ++
    (s.blocks.filter (fun b => overlaps lo hi b.1)).map (blockRun s.pred)

def snapshot (c : Content L) (w : Window) : List (Run L) :=
  c.sources.flatMap (fun s => s.runs w.lo w.hi)

/-- The runs of a page in the order of their near edges; runs with one near edge come in any
order. -/
structure Arranged (o : Order) (c : Content L) (w : Window) (runs : List (Run L)) : Prop where
  perm : runs.Perm (snapshot c w)
  edges : runs.Pairwise (fun a b => a.edge o ≤ b.edge o)

def defaultLimit : ℤ := 100
def maxLimit : ℤ := 10000
def defaultScanBudget : ℤ := 2 * 2 ^ 30

/-- A search over a fixed content, the same on every page but for the cursor. -/
structure Request (L : Type) where
  content : Content L
  order : Order
  limit : ℤ
  scanBudget : ℤ
  lo : ℤ
  hi : ℤ

def Request.pageSize (q : Request L) : ℕ :=
  (min (if q.limit ≤ 0 then defaultLimit else q.limit) maxLimit).toNat

def Request.budget (q : Request L) : ℤ :=
  if q.scanBudget ≤ 0 then defaultScanBudget else q.scanBudget

def Request.window (q : Request L) (cur : Option Key) : Window := narrow q.order q.lo q.hi cur

/-- One call: its cursor and the runs in the order in which the sort left them. -/
structure Call (L : Type) where
  cur : Option Key
  runs : List (Run L)

def Call.Valid (q : Request L) (a : Call L) : Prop :=
  Arranged q.order q.content (q.window a.cur) a.runs

def Call.page (q : Request L) (a : Call L) : Page L :=
  searchRuns q.order q.pageSize q.budget (q.window a.cur) a.runs

inductive Following (q : Request L) : List (Call L) → Prop
  | first (a : Call L) (hcur : a.cur = none) (hvalid : a.Valid q) : Following q [a]
  | next (calls : List (Call L)) (a b : Call L) (hbefore : Following q (calls ++ [a]))
      (hsome : (a.page q).cursor.isSome) (hcur : b.cur = (a.page q).cursor) (hvalid : b.Valid q) :
      Following q (calls ++ [a] ++ [b])

variable {a : Call L} {c : Content L} {e : Entry L} {o : Order} {q : Request L} {r : Run L}
  {w : Window} {x : Item L} {xs : List (Item L)} {hi lo : ℤ} {runs : List (Run L)}

theorem subperm_flatMap {α β : Type} {f g : α → List β} {xs : List α}
    (h : ∀ x ∈ xs, (f x).Subperm (g x)) : (xs.flatMap f).Subperm (xs.flatMap g) := by
  induction xs with
  | nil => exact List.Subperm.refl _
  | cons x xs ih =>
    exact (h x List.mem_cons_self).append (ih (List.forall_mem_cons.mp h).2)

theorem sortBy_subperm {α τ : Type} [LinearOrder τ] (time : α → τ) (p : α → Bool) (xs : List α) :
    (sortBy time (xs.filter p)).Subperm xs :=
  (List.perm_insertionSort _ _).subperm.trans List.filter_sublist.subperm

variable {head : List (Entry L)} {s : Source L} {m : Bool} {k : Key}

/-- The run of a head holds the entries of the window and has their exact range. -/
theorem mem_headRun {pred : L → Bool} (h : r ∈ headRun pred head lo hi) :
    r.pred = pred ∧ r.isBlock = false ∧ r.skip = false ∧
      r.entries = sortBy Entry.key (head.filter (fun e => decide (lo ≤ e.ts ∧ e.ts ≤ hi))) ∧
      ∀ e ∈ r.entries, r.minTs ≤ e.ts ∧ e.ts ≤ r.maxTs := by
  have hsorted := pairwise_sortBy Entry.key (head.filter (fun e => decide (lo ≤ e.ts ∧ e.ts ≤ hi)))
  unfold headRun at h
  split at h
  · simp at h
  next e es hes =>
    obtain rfl := List.mem_singleton.mp h
    refine ⟨rfl, rfl, rfl, hes.symm, ?_⟩
    rw [hes] at hsorted
    intro x hx
    have hts : ∀ {a b : Entry L}, a.key ≤ b.key → a.ts ≤ b.ts := by
      intro a b hab
      rcases Prod.Lex.le_iff.mp hab with hlt | ⟨heq, -⟩
      · exact le_of_lt hlt
      · exact le_of_eq heq
    constructor
    · rcases List.mem_cons.mp hx with rfl | hx
      · exact le_rfl
      · exact hts ((List.pairwise_cons.mp hsorted).1 x hx)
    · exact hts (hsorted.rel_getLast hx)

theorem headRun_ne_nil (pred : L → Bool) (he : e ∈ head) (hlo : lo ≤ e.ts) (hhi : e.ts ≤ hi) :
    ∃ r, r ∈ headRun pred head lo hi := by
  have hmem : e ∈ sortBy Entry.key (head.filter (fun e => decide (lo ≤ e.ts ∧ e.ts ≤ hi))) :=
    mem_sortBy.mpr (List.mem_filter.mpr ⟨he, by simp [hlo, hhi]⟩)
  unfold headRun
  split
  next hnil =>
    rw [hnil] at hmem
    simp at hmem
  next => exact ⟨_, List.mem_singleton.mpr rfl⟩

theorem mem_runs : r ∈ s.runs lo hi ↔ r ∈ headRun s.pred s.head lo hi ∨
      ∃ b ∈ s.blocks, overlaps lo hi b.1 = true ∧ r = blockRun s.pred b := by
  unfold Source.runs
  rw [List.mem_append, List.mem_map]
  refine or_congr_right (exists_congr (fun b => ?_))
  rw [List.mem_filter, and_assoc, eq_comm (a := r)]

theorem runs_subperm (s : Source L) (lo hi : ℤ) :
    ((s.runs lo hi).flatMap Run.entries).Subperm s.entries := by
  unfold Source.runs Source.entries
  rw [List.flatMap_append]
  refine List.Subperm.append ?_ ?_
  · unfold headRun
    split
    · exact List.nil_subperm
    next e es hes =>
      simp only [List.flatMap_cons, List.flatMap_nil, List.append_nil]
      rw [← hes]
      exact sortBy_subperm _ _ _
  · rw [List.flatMap_map]
    exact (List.filter_sublist.flatMap _).subperm

theorem nodup_of_subperm {es fs : List (Entry L)} (h : es.Subperm fs)
    (hn : (fs.map Entry.key).Nodup) : (es.map Entry.key).Nodup := by
  obtain ⟨gs, hperm, hsub⟩ := h
  exact (hperm.map Entry.key).nodup_iff.mp (hn.sublist (hsub.map Entry.key))

theorem snapshot_subperm (c : Content L) (w : Window) :
    ((snapshot c w).flatMap Run.entries).Subperm (c.sources.flatMap Source.entries) := by
  unfold snapshot
  rw [List.flatMap_assoc]
  exact subperm_flatMap (fun s _ => runs_subperm s w.lo w.hi)

/-- What the runs bring into the merge are entries of the content, each once. -/
theorem runItems_distinct (h : Arranged o c w runs) :
    ((runItems o w runs).map (place o)).Nodup := by
  have hitems : ((runItems o w runs).map Prod.fst).Subperm (runs.flatMap Run.entries) := by
    unfold runItems
    rw [List.map_flatMap]
    refine (subperm_flatMap (fun r _ => ?_)).trans (List.filter_sublist.flatMap _).subperm
    unfold Run.items
    simpa [Function.comp_def, orderedFiltered] using
      sortBy_subperm (fun e => o.pos e.key) (w.inside o) r.entries
  have hall : ((runItems o w runs).map Prod.fst).Subperm (c.sources.flatMap Source.entries) :=
    hitems.trans ((h.perm.flatMap_right _).subperm.trans (snapshot_subperm c w))
  have hkeys := (nodup_of_subperm hall c.distinct).map (pos_injective o)
  rw [List.map_map, List.map_map] at hkeys
  exact hkeys

theorem mem_snapshot :
    r ∈ snapshot c w ↔ ∃ s ∈ c.sources, r ∈ s.runs w.lo w.hi := List.mem_flatMap

/-- A page's runs: sorted by edge, each inside its range. -/
theorem Arranged.queue (h : Arranged o c w runs) : Queue o runs := by
  refine ⟨h.edges, ?_, ?_⟩
  · intro r hr
    have hsub : r.entries.Subperm (c.sources.flatMap Source.entries) := by
      have hmem := h.perm.mem_iff.mp hr
      exact (List.sublist_flatten_of_mem (List.mem_map_of_mem hmem)).subperm.trans
        (snapshot_subperm c w)
    exact nodup_of_subperm hsub c.distinct
  · intro r hr e he
    have hrange : r.minTs ≤ e.ts ∧ e.ts ≤ r.maxTs := by
      obtain ⟨s, -, hr⟩ := mem_snapshot.mp (h.perm.mem_iff.mp hr)
      rcases mem_runs.mp hr with hr | ⟨b, -, -, rfl⟩
      · exact (mem_headRun hr).2.2.2.2 e he
      · exact b.1.inRange e he
    cases o with
    | newest =>
      change -r.maxTs ≤ -e.ts
      omega
    | oldest => exact hrange.1

theorem mem_visible :
    e ∈ s.visible ↔ e ∈ s.head ∨ ∃ b ∈ s.blocks, b.2 = false ∧ e ∈ b.1.entries := by
  unfold Source.visible
  rw [List.mem_append, List.mem_flatMap]
  refine or_congr_right (exists_congr (fun b => ?_))
  rw [List.mem_filter, and_assoc, Bool.not_eq_true']

theorem visible_sublist (s : Source L) : s.visible.Sublist s.entries :=
  (List.Sublist.refl _).append (List.filter_sublist.flatMap _)

def behind (o : Order) (cur : Option Key) (k : Key) : Bool :=
  match cur with
  | none => true
  | some c => o.after c k

theorem inside_iff :
    w.inside o e = true ↔ (w.lo ≤ e.ts ∧ e.ts ≤ w.hi) ∧ behind o w.cur e.key = true := by
  obtain ⟨lo, hi, cur⟩ := w
  cases cur <;> simp [Window.inside, behind]

theorem mem_runItems : (e, m) ∈ runItems o w runs ↔
      ∃ r ∈ runs, r.skip = false ∧ e ∈ r.entries ∧ w.inside o e = true ∧ r.pred e.log = m := by
  unfold runItems Run.items orderedFiltered
  rw [List.mem_flatMap]
  constructor
  · rintro ⟨r, hr, he⟩
    obtain ⟨hr, hskip⟩ := List.mem_filter.mp hr
    obtain ⟨y, hy, heq⟩ := List.mem_map.mp he
    obtain ⟨rfl, rfl⟩ := Prod.mk.inj heq
    have hy := List.mem_filter.mp (mem_sortBy.mp hy)
    exact ⟨r, hr, by simpa using hskip, hy.1, hy.2, rfl⟩
  · rintro ⟨r, hr, hskip, he, hin, rfl⟩
    refine ⟨r, List.mem_filter.mpr ⟨hr, by simp [hskip]⟩, List.mem_map.mpr ⟨e, ?_, rfl⟩⟩
    exact mem_sortBy.mpr (List.mem_filter.mpr ⟨he, hin⟩)

/-- The runs of a page bring in the visible entries of its window behind its cursor. -/
theorem Arranged.mem_runItems (h : Arranged o c w runs) : (e, m) ∈ runItems o w runs ↔
      ∃ s ∈ c.sources, e ∈ s.visible ∧ w.inside o e = true ∧ s.pred e.log = m := by
  rw [LogPages.mem_runItems]
  constructor
  · rintro ⟨r, hr, hskip, he, hin, hm⟩
    obtain ⟨s, hs, hr⟩ := mem_snapshot.mp (h.perm.mem_iff.mp hr)
    rcases mem_runs.mp hr with hr | ⟨b, hb, -, rfl⟩
    · obtain ⟨hpred, -, -, hentries, -⟩ := mem_headRun hr
      rw [hentries] at he
      have he := (List.mem_filter.mp (mem_sortBy.mp he)).1
      exact ⟨s, hs, mem_visible.mpr (Or.inl he), hin, by rw [← hpred]; exact hm⟩
    · exact ⟨s, hs, mem_visible.mpr (Or.inr ⟨b, hb, hskip, he⟩), hin, hm⟩
  · rintro ⟨s, hs, he, hin, hm⟩
    have hbounds := (inside_iff.mp hin).1
    rcases mem_visible.mp he with he | ⟨b, hb, hskip, he⟩
    · obtain ⟨r, hr⟩ := headRun_ne_nil s.pred he hbounds.1 hbounds.2
      obtain ⟨hpred, -, hskip, hentries, -⟩ := mem_headRun hr
      have hmem : r ∈ runs :=
        h.perm.mem_iff.mpr (mem_snapshot.mpr ⟨s, hs, mem_runs.mpr (Or.inl hr)⟩)
      refine ⟨r, hmem, hskip, ?_, hin, by rw [hpred]; exact hm⟩
      rw [hentries]
      exact mem_sortBy.mpr (List.mem_filter.mpr ⟨he, by simp [hbounds]⟩)
    · have hrange := b.1.inRange e he
      have hover : overlaps w.lo w.hi b.1 = true := by
        simp only [overlaps, decide_eq_true_eq]
        omega
      have hmem : blockRun s.pred b ∈ runs :=
        h.perm.mem_iff.mpr (mem_snapshot.mpr ⟨s, hs, mem_runs.mpr (Or.inr ⟨b, hb, hover, rfl⟩)⟩)
      exact ⟨blockRun s.pred b, hmem, hskip, he, hin, hm⟩

theorem narrow_inside {o : Order} {lo hi : ℤ} {cur : Option Key} {e : Entry L} :
    (narrow o lo hi cur).inside o e = true ↔ (lo ≤ e.ts ∧ e.ts ≤ hi) ∧
      behind o cur e.key = true := by
  rw [inside_iff]
  cases cur with
  | none => rfl
  | some c =>
    have hts : o.after c e.key = true → o.at (ofLex c).1 ≤ o.at e.ts :=
      fun h => at_le_of_pos (le_of_lt (after_iff.mp h))
    cases o with
    | newest =>
      constructor
      · rintro ⟨⟨h₁, h₂⟩, h₃⟩
        exact ⟨⟨h₁, h₂.trans (min_le_left _ _)⟩, h₃⟩
      · rintro ⟨⟨h₁, h₂⟩, h₃⟩
        have hle : -(ofLex c).1 ≤ -e.ts := hts h₃
        exact ⟨⟨h₁, le_min h₂ (by omega)⟩, h₃⟩
    | oldest =>
      constructor
      · rintro ⟨⟨h₁, h₂⟩, h₃⟩
        exact ⟨⟨(le_max_left _ _).trans h₁, h₂⟩, h₃⟩
      · rintro ⟨⟨h₁, h₂⟩, h₃⟩
        exact ⟨⟨max_le h₁ (hts h₃), h₂⟩, h₃⟩

def Request.left (q : Request L) (cur : Option Key) : List (Entry L) :=
  (q.content.listed q.order q.lo q.hi).filter (fun e => behind q.order cur e.key)

theorem ascending_listed (c : Content L) (o : Order) (lo hi : ℤ) :
    Ascending (fun e => o.pos e.key) (c.listed o lo hi) := by
  refine ascending_sortBy ?_
  have hsub : (c.sources.flatMap (fun s =>
      s.visible.filter (fun e => decide (lo ≤ e.ts ∧ e.ts ≤ hi) && s.pred e.log))).Sublist
        (c.sources.flatMap Source.entries) :=
    List.Sublist.flatMap_right _ (fun s _ => List.filter_sublist.trans (visible_sublist s))
  have hkeys := (c.distinct.sublist (hsub.map Entry.key)).map (pos_injective o)
  rwa [List.map_map] at hkeys

theorem mem_listed : e ∈ c.listed o lo hi ↔
      ∃ s ∈ c.sources, e ∈ s.visible ∧ (lo ≤ e.ts ∧ e.ts ≤ hi) ∧ s.pred e.log = true := by
  unfold Content.listed
  rw [mem_sortBy, List.mem_flatMap]
  simp only [List.mem_filter, Bool.and_eq_true, decide_eq_true_eq]

theorem mem_found : e ∈ found xs ↔ (e, true) ∈ xs := by
  simp [found]

theorem ascending_found (h : Ascending (place o) xs) :
    Ascending (fun e => o.pos e.key) (found xs) :=
  List.pairwise_map.mpr (h.filter Prod.snd)

/-- The start of a page. -/
theorem Arranged.good (h : Arranged o c w runs) (total : ℤ) :
    Good o w total [] ⟨runs, [], total, ⟨0, 0, 0, 0⟩⟩ := by
  refine ⟨h.queue, ⟨by simp [charges], rfl, Or.inl (by simp [charges])⟩, ?_, ?_⟩
  · intro c hc
    simp at hc
  · exact runItems_distinct h

/-- What a page could find is what is left. -/
theorem found_pending (h : a.Valid q) (total : ℤ) :
    found (pending q.order (q.window a.cur) ⟨a.runs, [], total, ⟨0, 0, 0, 0⟩⟩) =
      q.left a.cur := by
  refine ascending_ext (ascending_found (ascending_pending (Arranged.good h total)))
    ((ascending_listed _ _ _ _).filter _) (fun e => ?_)
  rw [mem_found, mem_pending]
  unfold Request.left
  rw [List.mem_filter, mem_listed]
  change (e, true) ∈ runItems q.order (q.window a.cur) a.runs ↔ _
  rw [Arranged.mem_runItems h]
  constructor
  · rintro ⟨s, hs, he, hin, hm⟩
    obtain ⟨hbounds, hbehind⟩ := narrow_inside.mp hin
    exact ⟨⟨s, hs, he, hbounds, hm⟩, hbehind⟩
  · rintro ⟨⟨s, hs, he, hbounds, hm⟩, hbehind⟩
    exact ⟨s, hs, he, narrow_inside.mpr ⟨hbounds, hbehind⟩, hm⟩

theorem pageSize_pos (q : Request L) : 0 < q.pageSize := by
  unfold Request.pageSize defaultLimit maxLimit
  split <;> omega

theorem length_runItems_le (o : Order) (w : Window) (runs : List (Run L)) :
    (runItems o w runs).length ≤ totalEntries runs := by
  induction runs with
  | nil => exact Nat.le_refl _
  | cons r runs ih =>
    have hitems : (r.items o w).length ≤ r.entries.length := by
      unfold Run.items orderedFiltered
      rw [List.length_map]
      exact (sortBy_subperm _ _ _).length_le
    rw [runItems_cons, List.length_append]
    have htotal : totalEntries (r :: runs) = r.entries.length + totalEntries runs := by
      simp [totalEntries]
    split
    · simp only [List.length_nil]
      omega
    · omega

def Call.items (q : Request L) (a : Call L) : List (Item L) :=
  pending q.order (q.window a.cur) ⟨a.runs, [], q.budget, ⟨0, 0, 0, 0⟩⟩

theorem Call.Valid.ascending (h : a.Valid q) : Ascending (place q.order) (a.items q) :=
  ascending_pending (Arranged.good h q.budget)

theorem mem_items :
    x ∈ a.items q ↔ x ∈ runItems q.order (q.window a.cur) a.runs := mem_pending

/-- An item of a page is an entry of the content behind the cursor. -/
theorem item_spec (h : a.Valid q) (hx : x ∈ a.items q) :
    x.1 ∈ q.content.sources.flatMap Source.entries ∧ behind q.order a.cur x.1.key = true := by
  obtain ⟨s, hs, he, hin, -⟩ := (Arranged.mem_runItems h).mp (mem_items.mp hx)
  exact ⟨List.mem_flatMap.mpr ⟨s, hs, (visible_sublist s).subset he⟩,
    (narrow_inside.mp hin).2⟩

theorem page_eq_scan (hw : (q.window a.cur).lo ≤ (q.window a.cur).hi) :
    a.page q = scan q.order q.pageSize (q.window a.cur) (totalEntries a.runs + 1)
      ⟨a.runs, [], q.budget, ⟨0, 0, 0, 0⟩⟩ [] none := by
  unfold Call.page searchRuns
  rw [if_neg (not_lt.mpr hw)]

theorem page_ends (h : a.Valid q) (hw : (q.window a.cur).lo ≤ (q.window a.cur).hi) :
    ∃ seen unseen, a.items q = seen ++ unseen ∧
      Ends q.order q.pageSize q.budget [] a.runs [] none seen unseen (a.page q) ∧
      (a.page q).stats.entriesExamined = seen.length := by
  have hfuel : (a.items q).length < totalEntries a.runs + 1 := by
    have hlen : (a.items q).length = (runItems q.order (q.window a.cur) a.runs).length :=
      (List.perm_insertionSort _ _).length_eq
    have hle := length_runItems_le q.order (q.window a.cur) a.runs
    omega
  obtain ⟨seen, unseen, hsplit, hends, hcount⟩ :=
    scan_spec q.order q.pageSize (q.window a.cur) q.budget _ _ [] none [] (Arranged.good h q.budget)
      hfuel (by simp)
  rw [page_eq_scan hw]
  exact ⟨seen, unseen, hsplit, hends, by simpa using hcount⟩

/-- A window narrowed to nothing has nothing left. -/
theorem page_empty (h : a.Valid q) (hw : (q.window a.cur).hi < (q.window a.cur).lo) :
    (a.page q).logs = [] ∧ (a.page q).cursor = none ∧ (a.page q).truncated = false ∧
      q.left a.cur = [] := by
  have hpage : a.page q = ⟨[], none, false, ⟨0, 0, 0, 0⟩⟩ := by
    unfold Call.page searchRuns
    rw [if_pos hw]
  rw [hpage]
  refine ⟨rfl, rfl, rfl, ?_⟩
  rw [← found_pending h q.budget]
  refine List.eq_nil_iff_forall_not_mem.mpr (fun e he => ?_)
  obtain ⟨s, -, -, hin, -⟩ := (Arranged.mem_runItems h).mp (mem_items.mp (mem_found.mp he))
  have hbounds := (inside_iff.mp hin).1
  omega

/-- A page that stands where a block does not fit, with nothing examined. -/
structure Stands (q : Request L) (a : Call L) (r : Run L) (read post : List (Run L)) : Prop where
  runs : a.runs = read ++ r :: post
  charged : r.charged = true
  exceeds : ¬ Affordable q.budget (read ++ [r])
  behind : ∀ x ∈ runItems q.order (q.window a.cur) read, r.edge q.order ≤ q.order.at x.1.ts

/-- What a returned cursor says: everything listed at or before it has been listed, and the runs
that reach it could be afforded. It is behind the cursor given, or the page stood still. -/
structure Stops (q : Request L) (a : Call L) (k : Key) : Prop where
  splits : ∃ rest, q.left a.cur = (a.page q).logs ++ rest ∧
    ∀ e ∈ rest, q.order.pos k < q.order.pos e.key
  covers : ∀ e ∈ (a.page q).logs, q.order.pos e.key ≤ q.order.pos k
  reads : ∃ read post, a.runs = read ++ post ∧ Affordable q.budget read ∧
    ∀ r ∈ post, q.order.at (ofLex k).1 < r.edge q.order
  moves : (∃ e ∈ q.content.sources.flatMap Source.entries, k = e.key ∧
      behind q.order a.cur k = true) ∨
    (a.page q).stats.entriesExamined = 0 ∧ ∃ r read post, k = r.resume q.order ∧
      Stands q a r read post

theorem page_last (h : a.Valid q) (hnone : (a.page q).cursor = none) :
    (a.page q).logs = q.left a.cur ∧ (a.page q).truncated = false := by
  by_cases hw : (q.window a.cur).hi < (q.window a.cur).lo
  · obtain ⟨hlogs, -, htruncated, hleft⟩ := page_empty h hw
    exact ⟨hlogs.trans hleft.symm, htruncated⟩
  · obtain ⟨seen, unseen, hsplit, hends, -⟩ := page_ends h (not_lt.mp hw)
    cases hends with
    | done hunseen hlogs hcursor htruncated =>
      refine ⟨?_, htruncated⟩
      rw [hlogs, ← found_pending h q.budget]
      change _ = found (a.items q)
      rw [hsplit, hunseen, List.append_nil, List.nil_append]
    | more front e hseen hlogs hfull hcursor htruncated read post hruns hafford hpost =>
      have hpos := pageSize_pos q
      rw [hcursor, Option.map_eq_none_iff, List.getLast?_eq_none_iff] at hnone
      rw [hnone, List.length_nil] at hfull
      omega
    | short r read post hruns hlogs hcursor htruncated hcharged hafford hover hlast hbehind =>
      rw [hcursor] at hnone
      simp at hnone

/-- The last of an ascending list comes after all of it, and everything behind it after that. -/
theorem ascending_split {ys : List (Item L)} (h : Ascending (place o) (xs ++ ys))
    (hx : xs.getLast? = some x) :
    (∀ y ∈ xs, place o y ≤ place o x) ∧ ∀ y ∈ ys, place o x < place o y := by
  obtain ⟨hxs, -, hcross⟩ := List.pairwise_append.mp h
  exact ⟨fun y hy => Ascending.le_last hxs hx y hy,
    fun y hy => hcross x (List.mem_of_getLast? hx) y hy⟩

theorem window_of_cursor (hvalid : a.Valid q) (hk : (a.page q).cursor = some k) :
    (q.window a.cur).lo ≤ (q.window a.cur).hi := by
  by_contra hw
  rw [(page_empty hvalid (not_le.mp hw)).2.1] at hk
  simp at hk

theorem page_stops (h : a.Valid q) (hk : (a.page q).cursor = some k) : Stops q a k := by
  obtain ⟨seen, unseen, hsplit, hends, hcount⟩ := page_ends h (window_of_cursor h hk)
  have hleft : q.left a.cur = found seen ++ found unseen := by
    rw [← found_pending h q.budget, ← found_append, ← hsplit]
    rfl
  have hasc : Ascending (place q.order) (seen ++ unseen) := hsplit ▸ h.ascending
  have hmem : ∀ x ∈ seen, x ∈ a.items q := by
    intro x hx
    rw [hsplit]
    exact List.mem_append_left _ hx
  cases hends with
  | done hunseen hlogs hcursor htruncated =>
    rw [hcursor] at hk
    simp at hk
  | more front e hseen hlogs hfull hcursor htruncated read post hruns hafford hpost =>
    rw [List.nil_append] at hlogs hafford
    rw [hcursor] at hk
    obtain ⟨l, hl, rfl⟩ := Option.map_eq_some_iff.mp hk
    have hfront : l ∈ found front := hlogs ▸ List.mem_of_getLast? hl
    have hasc' : Ascending (place q.order) (front ++ ((e, true) :: unseen)) := by
      rw [hseen, List.append_assoc] at hasc
      exact hasc
    obtain ⟨hasc₁, -, hcross⟩ := List.pairwise_append.mp hasc'
    have hbefore : ∀ x ∈ (e, true) :: unseen, q.order.pos l.key < place q.order x :=
      hcross (l, true) (mem_found.mp hfront)
    refine ⟨⟨e :: found unseen, ?_, ?_⟩, ?_, ⟨read, post, hruns, hafford, ?_⟩, Or.inl ?_⟩
    · rw [hleft, hseen, hlogs]
      simp [found]
    · intro y hy
      rcases List.mem_cons.mp hy with rfl | hy
      · exact hbefore (y, true) List.mem_cons_self
      · exact hbefore (y, true) (List.mem_cons_of_mem _ (mem_found.mp hy))
    · intro y hy
      rw [hlogs] at hy hl
      exact Ascending.le_last (ascending_found hasc₁) hl y hy
    · intro r hr
      have hle : q.order.at l.ts ≤ q.order.at e.ts :=
        at_le_of_pos (le_of_lt (hbefore (e, true) List.mem_cons_self))
      exact hle.trans_lt (hpost r hr)
    · have hl' := item_spec h (hmem (l, true)
        (by rw [hseen]; exact List.mem_append_left _ (mem_found.mp hfront)))
      exact ⟨l, hl'.1, rfl, hl'.2⟩
  | short r read post hruns hlogs hcursor htruncated hcharged hafford hover hlast hbehind =>
    rw [List.nil_append] at hlogs hafford hover
    rw [hcursor] at hk
    have hk := Option.some.inj hk
    have hsorted := Arranged.edges h
    rw [hruns] at hsorted
    have hedges : ∀ r' ∈ r :: post, r.edge q.order ≤ r'.edge q.order := by
      refine List.forall_mem_cons.mpr ⟨le_rfl, ?_⟩
      exact (List.pairwise_cons.mp (List.pairwise_append.mp hsorted).2.1).1
    cases hx : seen.getLast? with
    | none =>
      have hnil : seen = [] := List.getLast?_eq_none_iff.mp hx
      subst hnil
      have hk : r.resume q.order = k := by simpa [lastOf] using hk
      subst hk
      have hat := resume_at q.order r
      refine ⟨⟨found unseen, ?_, ?_⟩, ?_, ⟨read, r :: post, hruns, hafford, ?_⟩,
        Or.inr ⟨hcount, ?_⟩⟩
      · rw [hleft, hlogs]
      · intro y hy
        refine pos_lt_of_at ?_
        have hedge : r.edge q.order ≤ q.order.at y.ts := hbehind (y, true) (mem_found.mp hy)
        change _ < q.order.at y.ts
        omega
      · intro y hy
        rw [hlogs] at hy
        simp [found] at hy
      · intro r' hr'
        have hle := hedges r' hr'
        omega
      · refine ⟨r, read, post, rfl, hruns, hcharged, hover, ?_⟩
        intro x hx
        refine hbehind x ?_
        have hall : x ∈ a.items q := by
          rw [mem_items, hruns, runItems_append]
          exact List.mem_append_left _ hx
        rwa [hsplit] at hall
    | some x =>
      have hlast' : lastOf none seen = some x.1 := by simp [lastOf, hx]
      rw [hlast'] at hk
      subst hk
      obtain ⟨hupto, hfrom⟩ := ascending_split hasc hx
      refine ⟨⟨found unseen, ?_, ?_⟩, ?_, ⟨read, r :: post, hruns, hafford, ?_⟩, Or.inl ?_⟩
      · rw [hleft, hlogs]
      · intro y hy
        exact hfrom (y, true) (mem_found.mp hy)
      · intro y hy
        rw [hlogs] at hy
        exact hupto (y, true) (mem_found.mp hy)
      · intro r' hr'
        exact (hlast x.1 hlast').trans_le (hedges r' hr')
      · have hx' := item_spec h (hmem x (List.mem_of_getLast? hx))
        exact ⟨x.1, hx'.1, rfl, hx'.2⟩

end Ozymandias.LogPages
