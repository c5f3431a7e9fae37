import Ozymandias.WalTruncate
import Mathlib.Data.List.Sort
import Mathlib.Data.List.Flatten

/-!
The records of a log together with the segments they are in. A log whose handle
stands in the newest segment grows at the end, in one segment per call; opening
changes no record; and a truncation without a checkpoint takes only records of
segments before its bound.
-/
namespace Ozymandias.WalSegments

open NumberedFiles WalLog WalTruncate

variable {ρ : Type}

def tagged (f : Files (List ρ)) : List (ℕ × ρ) :=
  f.entries.flatMap (fun e => e.2.map (fun r => (e.1, r)))

structure Newest (w : Wal (List ρ)) : Prop where
  newest : ∀ e ∈ w.dir.segments.entries, e.1 ≤ w.segment
  linked : ∃ c, w.dir.segments.find w.segment = some c

theorem mem_tagged {f : Files (List ρ)} {n : ℕ} {r : ρ} :
    (n, r) ∈ tagged f ↔ ∃ c, (n, c) ∈ f.entries ∧ r ∈ c := by
  unfold tagged
  simp only [List.mem_flatMap, List.mem_map, Prod.mk.injEq, Prod.exists]
  constructor
  · rintro ⟨m, c, hmem, r', hr, rfl, rfl⟩
    exact ⟨c, hmem, hr⟩
  · rintro ⟨c, hmem, hr⟩
    exact ⟨n, c, hmem, r, hr, rfl, rfl⟩

/-- Tags that ascend still do when every tagged thing is replaced by several. -/
theorem pairwise_flatMap_tags {α β : Type} {g : α → List β} {xs : List (ℕ × α)}
    (h : xs.Pairwise (fun a b => a.1 ≤ b.1)) :
    (xs.flatMap (fun x => (g x.2).map (fun y => (x.1, y)))).Pairwise (fun a b => a.1 ≤ b.1) := by
  rw [List.pairwise_flatMap]
  constructor
  · intro x _
    rw [List.pairwise_map]
    exact List.pairwise_of_forall (fun _ _ => le_rfl)
  · refine h.imp (fun {a b} hab x hx y hy => ?_)
    obtain ⟨x, -, rfl⟩ := List.mem_map.mp hx
    obtain ⟨y, -, rfl⟩ := List.mem_map.mp hy
    exact hab

theorem pairwise_tagged (f : Files (List ρ)) : (tagged f).Pairwise (fun a b => a.1 ≤ b.1) :=
  pairwise_flatMap_tags (g := id) (f.ordered.imp (fun hlt => le_of_lt hlt))

variable (frameSize : ρ → ℕ) (d : Dir (List ρ))

/-- Opening a segment that is not older than the others. -/
theorem openSegment_newest (size n : ℕ) (hn : ∀ e ∈ d.segments.entries, e.1 ≤ n) :
    Newest (WalLog.openSegment (recordFormat frameSize) d size n) ∧
      tagged (WalLog.openSegment (recordFormat frameSize) d size n).dir.segments =
        tagged d.segments ∧
      (WalLog.openSegment (recordFormat frameSize) d size n).dir.checkpoints = d.checkpoints := by
  unfold WalLog.openSegment
  cases hfind : d.segments.find n with
  | some c => exact ⟨⟨hn, c, hfind⟩, rfl, rfl⟩
  | none =>
    have hlt := Files.lt_of_find_eq_none hn hfind
    refine ⟨⟨Files.le_of_mem_put hn, _, find_put n _ d.segments⟩, ?_, rfl⟩
    have hentries := Files.entries_put_newest n ([] : List ρ) d.segments hlt
    unfold tagged
    change (d.segments.put n []).entries.flatMap _ = _
    rw [hentries]
    simp

theorem openLog_newest (segmentSize : ℤ) : Newest (openLog (recordFormat frameSize) segmentSize d) ∧
      tagged (openLog (recordFormat frameSize) segmentSize d).dir.segments = tagged d.segments ∧
      (openLog (recordFormat frameSize) segmentSize d).dir.checkpoints = d.checkpoints :=
  openSegment_newest frameSize d _ _ Files.le_last

variable {w : Wal (List ρ)}

theorem rollFor_newest (h : Newest w) (recs : List ρ) :
    Newest (w.rollFor (recordFormat frameSize) recs) ∧
      tagged (w.rollFor (recordFormat frameSize) recs).dir.segments = tagged w.dir.segments ∧
      (w.rollFor (recordFormat frameSize) recs).dir.checkpoints = w.dir.checkpoints := by
  unfold Wal.rollFor
  split
  · exact openSegment_newest frameSize _ _ _ (fun e he => Nat.le_succ_of_le (h.newest e he))
  · exact ⟨h, rfl, rfl⟩

theorem write_newest (h : Newest w) (recs : List ρ) :
    Newest (w.write (recordFormat frameSize) recs) ∧
      tagged (w.write (recordFormat frameSize) recs).dir.segments =
        tagged w.dir.segments ++ recs.map (fun r => (w.segment, r)) ∧
      (w.write (recordFormat frameSize) recs).dir.checkpoints = w.dir.checkpoints := by
  obtain ⟨c, hc⟩ := h.linked
  have hlast := w.dir.segments.entries_of_newest (Files.find_eq_some_iff.mp hc) h.newest
  unfold Wal.write
  rw [hc]
  refine ⟨⟨Files.le_of_mem_put h.newest, _, find_put w.segment _ w.dir.segments⟩, ?_, rfl⟩
  unfold tagged
  change (w.dir.segments.put w.segment (c ++ recs)).entries.flatMap _ = _
  rw [Files.entries_put_last hlast, hlast]
  simp

def pruned (d : Dir (List ρ)) (before k : ℕ) : Dir (List ρ) :=
  runOps (recordFormat frameSize) d ((truncate readWhole d before none).ops.take k)

theorem pruned_spec (before k : ℕ) : Pruned before d (pruned frameSize d before k) := by
  refine pruned_run d _ (fun op hop => ?_)
  have hop := List.mem_of_mem_take hop
  by_cases hd : (doomed d before).entries = []
  · rw [truncate_none d before none hd] at hop
    simp at hop
  · rw [truncate_whole d before none hd] at hop
    exact removes_removals d op hop

/-- What is left of the records: some, in order, and all from the bound on. -/
theorem tagged_pruned (before k : ℕ) :
    (tagged (pruned frameSize d before k).segments).Sublist (tagged d.segments) ∧
      ∀ x ∈ tagged d.segments, before ≤ x.1 →
        x ∈ tagged (pruned frameSize d before k).segments := by
  have hpruned := pruned_spec frameSize d before k
  generalize pruned frameSize d before k = d' at hpruned
  constructor
  · have hnodup : d'.segments.entries.Nodup :=
      d'.segments.ordered.imp (fun {a b} hlt heq => absurd hlt (by rw [heq]; exact lt_irrefl _))
    have hsub : d'.segments.entries.Sublist d.segments.entries :=
      List.sublist_of_subperm_of_pairwise (List.subperm_of_subset hnodup hpruned.leftover)
        d'.segments.ordered
        d.segments.ordered
    exact hsub.flatMap _
  · rintro ⟨n, r⟩ hx hn
    obtain ⟨c, hc, hr⟩ := mem_tagged.mp hx
    have hkept : (n, c) ∈ (d.segments.keep (fun m => decide (before ≤ m))).entries :=
      Files.mem_keep.mpr ⟨hc, decide_eq_true hn⟩
    rw [← hpruned.surviving] at hkept
    exact mem_tagged.mpr ⟨c, (Files.mem_keep.mp hkept).1, hr⟩

/-- The handle's segment survives a truncation that does not reach it. -/
theorem pruned_newest (h : Newest w) {before : ℕ} (hle : before ≤ w.segment) (k : ℕ) :
    Newest { w with dir := pruned frameSize w.dir before k } := by
  have hpruned := pruned_spec frameSize w.dir before k
  obtain ⟨c, hc⟩ := h.linked
  refine ⟨fun e he => h.newest e (hpruned.leftover e he), c, ?_⟩
  have hkept : (w.segment, c) ∈ (w.dir.segments.keep (fun m => decide (before ≤ m))).entries :=
    Files.mem_keep.mpr ⟨Files.find_eq_some_iff.mp hc, decide_eq_true hle⟩
  rw [← hpruned.surviving] at hkept
  exact Files.find_eq_some_iff.mpr (Files.mem_keep.mp hkept).1

end Ozymandias.WalSegments
