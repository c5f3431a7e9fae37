import Ozymandias.WalTruncate
import Ozymandias.OrderedCover

/-!
Checkpointing over whole runs of the log. The history splits into what the
newest checkpoint stands for, what older segments hold beyond that, and the
segments from the truncation bound on; every other checkpoint stands for a
start of the first part. Each file operation of a truncation keeps this, so a
crash anywhere loses no kept record. What a rerun leaves is exact unless it
finds no segment to remove and returns before the superseded checkpoints.
-/

namespace Ozymandias.WalCheckpoint

open NumberedFiles WalLog WalTruncate OrderedCover

section Records

variable {ρ : Type}

def below (n : ℕ) (d : Dir (List ρ)) : List ρ := recordsOf (doomed d n)

def onward (n : ℕ) (d : Dir (List ρ)) : List ρ :=
  recordsOf (d.segments.keep (fun m => decide (n ≤ m)))

variable {d' : Dir (List ρ)} {n : ℕ}

theorem below_append_onward (n : ℕ) (d : Dir (List ρ)) :
    below n d ++ onward n d = recordsOf d.segments := by
  unfold below onward recordsOf Files.contents
  rw [← List.flatten_append, ← List.map_append]
  exact congrArg (fun l => (l.map Prod.snd).flatten) (d.segments.entries_split n).symm

def between (n m : ℕ) (d : Dir (List ρ)) : List ρ :=
  recordsOf ((d.segments.keep (fun k => decide (n ≤ k))).keep (fun k => decide (k < m)))

theorem onward_split {m : ℕ} (hnm : n ≤ m) (d : Dir (List ρ)) :
    onward n d = between n m d ++ onward m d := by
  have hfrom : (d.segments.keep (fun k => decide (n ≤ k))).keep (fun k => decide (m ≤ k)) =
      d.segments.keep (fun k => decide (m ≤ k)) := by
    rw [Files.keep_keep]
    apply Files.ext
    apply List.filter_congr
    intro e _
    by_cases he : m ≤ e.1
    · simp [le_trans hnm he]
    · simp [he]
  unfold onward between recordsOf Files.contents
  rw [← List.flatten_append, ← List.map_append, ← hfrom]
  exact congrArg (fun l => (l.map Prod.snd).flatten)
    ((d.segments.keep (fun k => decide (n ≤ k))).entries_split m)

theorem below_split {m : ℕ} (hnm : n ≤ m) (d : Dir (List ρ)) :
    below m d = below n d ++ between n m d := by
  have hsplit : (below n d ++ between n m d) ++ onward m d = below m d ++ onward m d := by
    rw [List.append_assoc, ← onward_split hnm, below_append_onward, below_append_onward]
  exact (List.append_cancel_right hsplit).symm

theorem mem_recordsOf {f : Files (List ρ)} {r : ρ} :
    r ∈ recordsOf f ↔ ∃ e ∈ f.entries, r ∈ e.2 := by
  unfold recordsOf Files.contents
  simp only [List.mem_flatten, List.mem_map, exists_exists_and_eq_and]

theorem recordsOf_keep_last {f : Files (List ρ)} {older : List (ℕ × List ρ)} {c : List ρ}
    (hf : f.entries = older ++ [(n, c)]) (p : ℕ → Bool) :
    recordsOf (f.keep p) =
      ((older.filter (fun e => p e.1)).map Prod.snd).flatten ++ if p n then c else [] := by
  unfold recordsOf Files.contents
  rw [Files.entries_keep, hf, List.filter_append, List.map_append]
  cases hp : p n <;> simp [hp]

end Records

section Invariant

variable {ρ : Type}

/-- How a directory stands for a history. `covered` is what the newest checkpoint
stands for, `copies` are records of it that old segments still hold, and
`extra` is what they hold beyond it. -/
structure Holds (policy : ρ → Bool) (bound : ℕ) (d : Dir (List ρ))
    (history covered copies extra : List ρ) : Prop where
  history_eq : history = covered ++ extra ++ onward bound d
  below_eq : below bound d = copies ++ extra
  copied : ∀ r ∈ copies, r ∈ covered
  bounded : ∀ e ∈ d.checkpoints.entries, e.1 ≤ bound
  older : ∀ e ∈ d.checkpoints.entries, Follows policy covered e.2
  newest : Covers policy covered ((d.checkpoints.last.map Prod.snd).getD [])

variable {policy : ρ → Bool} {bound : ℕ} {d : Dir (List ρ)} {history covered copies extra : List ρ}
  (h : Holds policy bound d history covered copies extra)

include h

/-- The checkpoints together are as good as the newest one. -/
theorem Holds.checkpoints :
    Covers policy covered (recordsOf d.checkpoints) := by
  have hlast := h.newest
  have holder := h.older
  unfold Files.last at hlast
  unfold recordsOf Files.contents
  generalize d.checkpoints.entries = entries at hlast holder
  induction entries with
  | nil => exact hlast
  | cons e rest ih =>
    cases rest with
    | nil => simpa using hlast
    | cons e' rest =>
      have hrest := ih (by simpa using hlast)
        (fun e'' he'' => holder e'' (List.mem_cons_of_mem _ he''))
      exact hrest.prepend (holder e List.mem_cons_self)

/-- Replay: everything kept, then the segments from the bound on. -/
theorem Holds.replay :
    Covers policy (covered ++ extra) (recordsOf d.checkpoints ++ below bound d) := by
  rw [h.below_eq, ← List.append_assoc]
  exact (h.checkpoints.append_copies h.copied).extend extra

theorem Holds.mono {keep : ρ → Bool} (hk : ∀ r, keep r = true → policy r = true) :
    Holds keep bound d history covered copies extra where
  history_eq := h.history_eq
  below_eq := h.below_eq
  copied := h.copied
  bounded := h.bounded
  older e he := (h.older e he).mono hk
  newest := h.newest.mono hk

theorem Holds.raise {before : ℕ} (hb : bound ≤ before) :
    Holds policy before d history covered copies (extra ++ between bound before d) where
  history_eq := by
    rw [h.history_eq, onward_split hb]
    simp only [List.append_assoc]
  below_eq := by rw [below_split hb, h.below_eq, List.append_assoc]
  copied := h.copied
  bounded e he := (h.bounded e he).trans hb
  older := h.older
  newest := h.newest

/-- Temporary files do not matter. -/
theorem Holds.of_eq (hseg : d'.segments = d.segments) (hcp : d'.checkpoints = d.checkpoints) :
    Holds policy bound d' history covered copies extra := by
  obtain ⟨cps', segs', temps'⟩ := d'
  subst hseg hcp
  exact ⟨h.history_eq, h.below_eq, h.copied, h.bounded, h.older, h.newest⟩

/-- The records in old segments are all covered once the segments are. -/
theorem Holds.copied_of_pruned (hleft : ∀ e ∈ d'.segments.entries, e ∈ d.segments.entries) :
    ∀ r ∈ below bound d', r ∈ covered ++ extra := by
  intro r hr
  obtain ⟨e, he, hr⟩ := mem_recordsOf.mp hr
  obtain ⟨hmem, hlt⟩ := Files.mem_keep.mp he
  have hbelow : r ∈ below bound d :=
    mem_recordsOf.mpr ⟨e, Files.mem_keep.mpr ⟨hleft e hmem, hlt⟩, hr⟩
  rw [h.below_eq] at hbelow
  rcases List.mem_append.mp hbelow with hr | hr
  · exact List.mem_append_left _ (h.copied r hr)
  · exact List.mem_append_right _ hr

/-- Behind the rename the new checkpoint stands for all that was before the
bound, whatever has been removed since. -/
theorem Holds.pruned (hp : Pruned bound (published d bound (keptRecords d bound policy)) d') :
    Holds policy bound d' history (covered ++ extra) (below bound d') [] := by
  have hsources : (sources d bound).checkpoints = d.checkpoints := by
    apply Files.ext
    exact List.filter_eq_self.mpr (fun e he => decide_eq_true (h.bounded e he))
  have hkept : Covers policy (covered ++ extra) (keptRecords d bound policy) := by
    unfold keptRecords
    rw [hsources]
    exact h.replay.filter
  have hcps : ∀ e ∈ d'.checkpoints.entries,
      e = (bound, keptRecords d bound policy) ∨ e ∈ d.checkpoints.entries :=
    fun e he => (Files.mem_put.mp (hp.old e he)).imp_right And.left
  have hbounded : ∀ e ∈ d'.checkpoints.entries, e.1 ≤ bound := by
    intro e he
    rcases hcps e he with rfl | he
    · exact le_rfl
    · exact h.bounded e he
  have hmem : (bound, keptRecords d bound policy) ∈ d'.checkpoints.entries :=
    hp.newest _ (Files.mem_put.mpr (Or.inl rfl)) le_rfl
  refine ⟨?_, by rw [List.append_nil], h.copied_of_pruned hp.leftover, hbounded, ?_, ?_⟩
  · have hsame : onward bound d' = onward bound d := congrArg recordsOf hp.surviving
    rw [hsame, List.append_nil]
    exact h.history_eq
  · intro e he
    rcases hcps e he with rfl | he
    · exact hkept.follows
    · exact (h.older e he).longer (List.prefix_append _ _)
  · have hlast : d'.checkpoints.last = some (bound, keptRecords d bound policy) := by
      unfold Files.last
      rw [d'.checkpoints.entries_of_newest hmem hbounded, List.getLast?_append]
      rfl
    rw [hlast]
    exact hkept

/-- Without a checkpoint nothing before the bound is promised any more. -/
theorem Holds.dropped (hp : Pruned bound d d') :
    Holds (fun _ => false) bound d' history (covered ++ extra) (below bound d') [] := by
  have hnone : ∀ x, (fun _ : ρ => false) x = true → policy x = true := by
    intro x hx
    cases hx
  have hold : ∀ e ∈ d'.checkpoints.entries, Follows (fun _ => false) (covered ++ extra) e.2 :=
    fun e he => ((h.older e (hp.old e he)).longer (List.prefix_append _ _)).mono hnone
  refine ⟨?_, by rw [List.append_nil], h.copied_of_pruned hp.leftover, ?_, hold, ?_⟩
  · have hsame : onward bound d' = onward bound d := congrArg recordsOf hp.surviving
    rw [hsame, List.append_nil]
    exact h.history_eq
  · exact fun e he => h.bounded e (hp.old e he)
  · refine ⟨?_, fun x _ hx => by cases hx⟩
    cases hlast : d'.checkpoints.last with
    | none => exact follows_nil
    | some e => exact hold e (List.mem_of_getLast? hlast)

/-- Writing behind the newest segment adds to the history. -/
theorem Holds.write
    {older : List (ℕ × List ρ)} {c : List ρ} (hd : d.segments.entries = older ++ [(n, c)])
    (recs : List ρ) :
    ∃ extra', Holds policy bound { d with segments := d.segments.put n (c ++ recs) }
      (history ++ recs) covered copies extra' := by
  have hd' := Files.entries_put_last (c := c ++ recs) hd
  have hbelow := recordsOf_keep_last hd (fun m => decide (m < bound))
  have hbelow' := recordsOf_keep_last hd' (fun m => decide (m < bound))
  have honward := recordsOf_keep_last hd (fun m => decide (bound ≤ m))
  have honward' := recordsOf_keep_last hd' (fun m => decide (bound ≤ m))
  have hhist := h.history_eq
  have hbel := h.below_eq
  unfold onward at hhist
  unfold below doomed at hbel
  by_cases hn : n < bound
  · have hnone : older.filter (fun e => decide (bound ≤ e.1)) = [] :=
      filter_none (fun e he => ((Files.lt_of_mem_older hd e he).trans hn).not_ge)
    rw [hnone, if_neg (by simpa using hn)] at honward honward'
    rw [if_pos (by simpa using hn)] at hbelow hbelow'
    refine ⟨extra ++ recs, ?_, ?_, h.copied, h.bounded, h.older, h.newest⟩
    · unfold onward
      rw [honward', hhist, honward]
      simp
    · unfold below doomed
      rw [hbelow', ← List.append_assoc, ← hbelow, hbel, List.append_assoc]
  · rw [if_pos (by simpa using hn)] at honward honward'
    rw [if_neg (by simpa using hn)] at hbelow hbelow'
    refine ⟨extra, ?_, ?_, h.copied, h.bounded, h.older, h.newest⟩
    · unfold onward
      rw [honward', hhist, honward]
      simp
    · unfold below doomed
      rw [hbelow', ← hbelow, hbel]

/-- A new empty segment holds nothing. -/
theorem Holds.newSegment (hn : ∀ e ∈ d.segments.entries, e.1 < n) :
    Holds policy bound { d with segments := d.segments.put n [] } history covered copies extra := by
  have hd' := Files.entries_put_newest n ([] : List ρ) d.segments hn
  have hsame : ∀ p : ℕ → Bool, recordsOf ((d.segments.put n []).keep p) =
      recordsOf (d.segments.keep p) := by
    intro p
    rw [recordsOf_keep_last hd' p]
    simp [recordsOf, Files.contents, Files.entries_keep]
  refine ⟨?_, ?_, h.copied, h.bounded, h.older, h.newest⟩
  · unfold onward
    rw [hsame]
    exact h.history_eq
  · unfold below doomed
    rw [hsame]
    exact h.below_eq

end Invariant

end Ozymandias.WalCheckpoint
