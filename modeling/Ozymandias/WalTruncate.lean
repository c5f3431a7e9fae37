import Ozymandias.WalRecovery

/-!
Truncation of the log. The kept records of the old checkpoints and of the
segments before a number are copied to a temporary file, which is renamed to
the new checkpoint; then the segments are removed, and then the checkpoints it
supersedes. It is a list of file operations, since a crash can fall between any
two of them. They are the same whether a file is seen as bytes or as records.
-/

namespace Ozymandias.WalTruncate

open BitLists WalFrame NumberedFiles WalLog WalRecovery

inductive FileOp (ρ : Type) where
  | createTemp (n : ℕ)
  | appendTemp (n : ℕ) (r : ρ)
  | removeTemp (n : ℕ)
  | publish (n : ℕ)
  | removeSegment (n : ℕ)
  | removeCheckpoint (n : ℕ)
  deriving DecidableEq

section Operations

variable {ρ γ : Type}

def FileOp.apply (F : Format ρ γ) (d : Dir γ) : FileOp ρ → Dir γ
  | .createTemp n => { d with temps := d.temps.put n F.empty }
  | .appendTemp n r =>
    match d.temps.find n with
    | some c => { d with temps := d.temps.put n (F.write c [r]) }
    | none => d
  | .removeTemp n => { d with temps := d.temps.remove n }
  | .publish n =>
    match d.temps.find n with
    | some c => { d with checkpoints := d.checkpoints.put n c, temps := d.temps.remove n }
    | none => d
  | .removeSegment n => { d with segments := d.segments.remove n }
  | .removeCheckpoint n => { d with checkpoints := d.checkpoints.remove n }

def runOps (F : Format ρ γ) (d : Dir γ) (ops : List (FileOp ρ)) : Dir γ :=
  ops.foldl (FileOp.apply F) d

structure Truncation (ρ : Type) where
  ops : List (FileOp ρ)
  err : Option Corrupt

variable (read : FileName → γ → List ρ × Option Corrupt)

/-- `copyKept` over the files in turn. The reader is strict: damage ends the copy. -/
def copyKept (keep : ρ → Bool) : List (FileName × γ) → List ρ × Option Corrupt
  | [] => ([], none)
  | (name, c) :: rest =>
    match read name c with
    | (recs, some e) => (recs.filter keep, some e)
    | (recs, none) => (recs.filter keep ++ (copyKept keep rest).1, (copyKept keep rest).2)

def doomed (d : Dir γ) (before : ℕ) : Files γ := d.segments.keep (fun n => decide (n < before))

def superseded (d : Dir γ) (before : ℕ) : Files γ :=
  d.checkpoints.keep (fun n => decide (n < before))

/-- What a checkpoint copies from: also one of the same number, which an earlier
run may have published before it died. -/
def sources (d : Dir γ) (before : ℕ) : Dir γ :=
  { d with
    checkpoints := d.checkpoints.keep (fun n => decide (n ≤ before))
    segments := doomed d before }

def writeCheckpoint (d : Dir γ) (before : ℕ) (keep : ρ → Bool) : Truncation ρ :=
  let copied := copyKept read keep (sources d before).files
  ⟨.createTemp before :: copied.1.map (.appendTemp before) ++
    [if copied.2.isSome then .removeTemp before else .publish before], copied.2⟩

def truncate (d : Dir γ) (before : ℕ) (keep : Option (ρ → Bool)) : Truncation ρ :=
  if (doomed d before).entries.isEmpty then ⟨[], none⟩
  else
    let cp := match keep with
      | some keep => writeCheckpoint read d before keep
      | none => ⟨[], none⟩
    if cp.err.isSome then cp
    else
      ⟨cp.ops ++ (doomed d before).numbers.map .removeSegment ++
        (superseded d before).numbers.map .removeCheckpoint, none⟩

end Operations

def readStrict (name : FileName) (bytes : List Byte) : List Record × Option Corrupt :=
  ((readFiles true ⟨none, 0, -1⟩ [(name, bytes)]).records,
    (readFiles true ⟨none, 0, -1⟩ [(name, bytes)]).err)

def interrupted (d : Dir (List Byte)) (before : ℕ) (keep : Option (Record → Bool)) (k : ℕ) :
    Dir (List Byte) :=
  runOps byteFormat d ((truncate readStrict d before keep).ops.take k)

def truncated (d : Dir (List Byte)) (before : ℕ) (keep : Option (Record → Bool)) :
    Dir (List Byte) :=
  runOps byteFormat d (truncate readStrict d before keep).ops

section Views

variable {ρ γ δ : Type} {F : Format ρ γ} {G : Format ρ δ} {g : γ → δ}

theorem apply_map (hv : Views F G g) (d : Dir γ) (op : FileOp ρ) :
    op.apply G (d.map g) = (op.apply F d).map g := by
  have hfind : ∀ n, (d.map g).temps.find n = (d.temps.find n).map g :=
    fun n => Files.find_map g n d.temps
  cases op with
  | createTemp n => simp only [FileOp.apply, Dir.map, Files.map_put, hv.empty]
  | appendTemp n r =>
    simp only [FileOp.apply, hfind]
    cases d.temps.find n with
    | none => rfl
    | some c => simp only [Option.map_some, Dir.map, Files.map_put, hv.write]
  | removeTemp n | removeSegment n | removeCheckpoint n =>
    simp only [FileOp.apply, Dir.map, Files.map_remove]
  | publish n =>
    simp only [FileOp.apply, hfind]
    cases d.temps.find n with
    | none => rfl
    | some c => simp only [Option.map_some, Dir.map, Files.map_put, Files.map_remove]

theorem runOps_map (hv : Views F G g) (d : Dir γ) (ops : List (FileOp ρ)) :
    runOps G (d.map g) ops = (runOps F d ops).map g := by
  induction ops generalizing d with
  | nil => rfl
  | cons op ops ih =>
    change runOps G (op.apply G (d.map g)) ops = _
    rw [apply_map hv, ih]
    rfl

variable {read : FileName → γ → List ρ × Option Corrupt}
  {read' : FileName → δ → List ρ × Option Corrupt}

theorem copyKept_map (keep : ρ → Bool) (files : List (FileName × γ))
    (hread : ∀ e ∈ files, read' e.1 (g e.2) = read e.1 e.2) :
    copyKept read' keep (files.map (fun e => (e.1, g e.2))) = copyKept read keep files := by
  induction files with
  | nil => rfl
  | cons e files ih =>
    rw [List.map_cons, copyKept, copyKept, hread e List.mem_cons_self,
      ih (List.forall_mem_cons.mp hread).2]

theorem numbers_map (g : γ → δ) (f : Files γ) : (f.map g).numbers = f.numbers := by
  simp [Files.numbers, Files.map]

/-- A truncation that reads the same does the same. -/
theorem truncate_map (d : Dir γ) (hread : ∀ e ∈ d.files, read' e.1 (g e.2) = read e.1 e.2)
    (before : ℕ) (keep : Option (ρ → Bool)) :
    truncate read' (d.map g) before keep = truncate read d before keep := by
  have hdoomed : doomed (d.map g) before = (doomed d before).map g :=
    (Files.map_keep g _ d.segments).symm
  have hsuper : superseded (d.map g) before = (superseded d before).map g :=
    (Files.map_keep g _ d.checkpoints).symm
  have hsources : sources (d.map g) before = (sources d before).map g := by
    simp only [sources, Dir.map, doomed, Files.map_keep]
  have hsub : ∀ e ∈ (sources d before).files, e ∈ d.files := by
    intro e he
    rcases List.mem_append.mp he with he | he
    · obtain ⟨e', he', rfl⟩ := List.mem_map.mp he
      exact List.mem_append_left _ (List.mem_map_of_mem (List.mem_filter.mp he').1)
    · obtain ⟨e', he', rfl⟩ := List.mem_map.mp he
      exact List.mem_append_right _ (List.mem_map_of_mem (List.mem_filter.mp he').1)
  have hwrite : ∀ keep, writeCheckpoint read' (d.map g) before keep =
      writeCheckpoint read d before keep := by
    intro keep
    unfold writeCheckpoint
    rw [hsources, files_map, copyKept_map keep _ (fun e he => hread e (hsub e he))]
  have hempty : (doomed (d.map g) before).entries.isEmpty = (doomed d before).entries.isEmpty := by
    rw [hdoomed]
    simp [Files.map]
  unfold truncate
  rw [hempty, hdoomed, hsuper, numbers_map, numbers_map]
  cases keep with
  | none => rfl
  | some keep =>
    dsimp only
    rw [hwrite]

end Views

def readWhole {ρ : Type} (_ : FileName) (recs : List ρ) : List ρ × Option Corrupt := (recs, none)

theorem readStrict_frames (name : FileName) (recs : List Record) (hw : ∀ r ∈ recs, r.Writable) :
    readStrict name (frames recs) = readWhole name recs := by
  have hscan := scanFrom_whole recs hw 0
  simp [readStrict, readWhole, readFiles, hscan]

/-- On whole files the truncation is that of the records. -/
theorem truncate_frames (d : Dir (List Record)) (hw : ∀ e ∈ d.files, ∀ r ∈ e.2, r.Writable)
    (before : ℕ) (keep : Option (Record → Bool)) :
    truncate readStrict (d.map frames) before keep = truncate readWhole d before keep :=
  truncate_map d (fun e he => readStrict_frames e.1 e.2 (hw e he)) before keep

theorem interrupted_frames (d : Dir (List Record)) (hw : ∀ e ∈ d.files, ∀ r ∈ e.2, r.Writable)
    (before : ℕ) (keep : Option (Record → Bool)) (k : ℕ) :
    interrupted (d.map frames) before keep k = (runOps (recordFormat Record.frameSize) d
        ((truncate readWhole d before keep).ops.take k)).map frames := by
  unfold interrupted
  rw [truncate_frames d hw, runOps_map views_records_bytes]

section Records

variable {ρ : Type}

def recordsOf (f : Files (List ρ)) : List ρ := f.contents.flatten

theorem copyKept_whole (keep : ρ → Bool) (files : List (FileName × List ρ)) :
    copyKept readWhole keep files = ((files.flatMap Prod.snd).filter keep, none) := by
  induction files with
  | nil => rfl
  | cons e files ih =>
    rw [copyKept, ih, List.flatMap_cons, List.filter_append]
    rfl

variable (d : Dir (List ρ)) (before : ℕ) (keep : Option (ρ → Bool))

theorem flatMap_files :
    d.files.flatMap Prod.snd = recordsOf d.checkpoints ++ recordsOf d.segments := by
  simp [Dir.files, recordsOf, Files.contents, List.flatMap_def, Function.comp_def]

def keptRecords (d : Dir (List ρ)) (before : ℕ) (keep : ρ → Bool) : List ρ :=
  (recordsOf (sources d before).checkpoints ++ recordsOf (doomed d before)).filter keep

def removals {γ : Type} (d : Dir γ) (before : ℕ) : List (FileOp ρ) :=
  (doomed d before).numbers.map .removeSegment ++
    (superseded d before).numbers.map .removeCheckpoint

def tempOps (before : ℕ) (recs : List ρ) : List (FileOp ρ) :=
  .createTemp before :: recs.map (.appendTemp before)

/-- The operations of a truncation that has something to do. -/
theorem truncate_whole (hd : (doomed d before).entries ≠ []) : truncate readWhole d before keep =
      ⟨match keep with
        | some keep => tempOps before (keptRecords d before keep) ++
          .publish before :: removals d before
        | none => removals d before, none⟩ := by
  have hne : ¬ (doomed d before).entries.isEmpty = true := by simpa using hd
  unfold truncate
  rw [if_neg hne]
  cases keep with
  | none => rfl
  | some keep =>
    simp only [writeCheckpoint, copyKept_whole, flatMap_files, keptRecords, tempOps, removals]
    simp [sources]

theorem truncate_none (hd : (doomed d before).entries = []) :
    truncate readWhole d before keep = ⟨[], none⟩ := by
  unfold truncate
  rw [if_pos (by simpa using hd)]

theorem truncate_err : (truncate readWhole d before keep).err = none := by
  by_cases hd : (doomed d before).entries = []
  · rw [truncate_none d before keep hd]
  · rw [truncate_whole d before keep hd]

end Records

section Phases

variable {ρ γ : Type} {F : Format ρ γ} {before : ℕ}

/-- `d'` is `d` less some segments and checkpoints before the number. -/
structure Pruned (before : ℕ) (d d' : Dir γ) : Prop where
  surviving : d'.segments.keep (fun n => decide (before ≤ n)) =
    d.segments.keep (fun n => decide (before ≤ n))
  leftover : ∀ e ∈ d'.segments.entries, e ∈ d.segments.entries
  old : ∀ e ∈ d'.checkpoints.entries, e ∈ d.checkpoints.entries
  newest : ∀ e ∈ d.checkpoints.entries, before ≤ e.1 → e ∈ d'.checkpoints.entries

theorem Pruned.refl (before : ℕ) (d : Dir γ) : Pruned before d d :=
  ⟨rfl, fun _ he => he, fun _ he => he, fun _ he _ => he⟩

theorem Pruned.trans {d d' d'' : Dir γ} (h : Pruned before d d') (h' : Pruned before d' d'') :
    Pruned before d d'' where
  surviving := h'.surviving.trans h.surviving
  leftover e he := h.leftover e (h'.leftover e he)
  old e he := h.old e (h'.old e he)
  newest e he hn := h'.newest e (h.newest e he hn) hn

def FileOp.Removes (before : ℕ) : FileOp ρ → Prop
  | .removeSegment n => n < before
  | .removeCheckpoint n => n < before
  | _ => False

theorem mem_remove {n : ℕ} {f : Files γ} {e : ℕ × γ} :
    e ∈ (f.remove n).entries ↔ e ∈ f.entries ∧ e.1 ≠ n := by
  unfold Files.remove
  rw [Files.mem_keep]
  simp

variable (d : Dir γ)

theorem pruned_apply (op : FileOp ρ) (hop : op.Removes before) :
    Pruned before d (op.apply F d) := by
  cases op with
  | removeSegment n =>
    have hn : n < before := hop
    refine ⟨?_, fun e he => (mem_remove.mp he).1, fun e he => he, fun e he _ => he⟩
    change (d.segments.remove n).keep _ = _
    rw [Files.remove, Files.keep_keep]
    apply Files.ext
    apply List.filter_congr
    intro e _
    by_cases he : before ≤ e.1
    · have hne : e.1 ≠ n := by omega
      simp [hne]
    · simp [he]
  | removeCheckpoint n =>
    have hn : n < before := hop
    refine ⟨rfl, fun e he => he, fun e he => (mem_remove.mp he).1, ?_⟩
    intro e he hge
    exact mem_remove.mpr ⟨he, by omega⟩
  | createTemp n | appendTemp n r | removeTemp n | publish n => exact hop.elim

theorem pruned_run (ops : List (FileOp ρ)) (hops : ∀ op ∈ ops, op.Removes before) :
    Pruned before d (runOps F d ops) := by
  induction ops generalizing d with
  | nil => exact Pruned.refl before d
  | cons op ops ih =>
    have hstep := pruned_apply (F := F) d op (hops op List.mem_cons_self)
    exact hstep.trans (ih _ (List.forall_mem_cons.mp hops).2)

theorem removes_removals : ∀ op ∈ removals (ρ := ρ) d before, op.Removes before := by
  have hlt : ∀ (f : Files γ), ∀ n ∈ (f.keep (fun n => decide (n < before))).numbers,
    n < before := by
    intro f n hn
    obtain ⟨e, he, rfl⟩ := List.mem_map.mp hn
    exact of_decide_eq_true (Files.mem_keep.mp he).2
  intro op hop
  rcases List.mem_append.mp hop with hop | hop
  · obtain ⟨n, hn, rfl⟩ := List.mem_map.mp hop
    exact hlt d.segments n hn
  · obtain ⟨n, hn, rfl⟩ := List.mem_map.mp hop
    exact hlt d.checkpoints n hn

/-- What one of the removals removes is gone at the end of them. -/
theorem gone_of_mem (ops : List (FileOp ρ)) (hops : ∀ op ∈ ops, op.Removes before) (n : ℕ) :
    (.removeSegment n ∈ ops → ∀ e ∈ (runOps F d ops).segments.entries, e.1 ≠ n) ∧
      (.removeCheckpoint n ∈ ops → ∀ e ∈ (runOps F d ops).checkpoints.entries, e.1 ≠ n) := by
  induction ops generalizing d with
  | nil => simp
  | cons op ops ih =>
    have hrest : ∀ op' ∈ ops, op'.Removes before :=
      fun op' hop' => hops op' (List.mem_cons_of_mem _ hop')
    have hpruned := pruned_run (F := F) (op.apply F d) ops hrest
    obtain ⟨hseg, hcp⟩ := ih (op.apply F d) hrest
    constructor
    · intro hmem e he
      rcases List.mem_cons.mp hmem with rfl | hmem
      · exact (mem_remove.mp (hpruned.leftover e he)).2
      · exact hseg hmem e he
    · intro hmem e he
      rcases List.mem_cons.mp hmem with rfl | hmem
      · exact (mem_remove.mp (hpruned.old e he)).2
      · exact hcp hmem e he

/-- All removals together leave nothing before the number. -/
theorem run_removals (before : ℕ) (d : Dir γ) :
    (∀ e ∈ (runOps F d (removals d before)).segments.entries, before ≤ e.1) ∧
      ∀ e ∈ (runOps F d (removals d before)).checkpoints.entries, before ≤ e.1 := by
  have hops : ∀ op ∈ removals (ρ := ρ) d before, op.Removes before := removes_removals d
  have hpruned := pruned_run (F := F) d _ hops
  constructor
  · intro e he
    by_contra hlt
    refine (gone_of_mem d _ hops e.1).1 ?_ e he rfl
    apply List.mem_append_left
    refine List.mem_map_of_mem (List.mem_map_of_mem ?_)
    exact List.mem_filter.mpr ⟨hpruned.leftover e he, decide_eq_true (by omega)⟩
  · intro e he
    by_contra hlt
    refine (gone_of_mem d _ hops e.1).2 ?_ e he rfl
    apply List.mem_append_right
    refine List.mem_map_of_mem (List.mem_map_of_mem ?_)
    exact List.mem_filter.mpr ⟨hpruned.old e he, decide_eq_true (by omega)⟩

end Phases

section Phases

variable {ρ : Type} (frameSize : ρ → ℕ)

theorem find_put {γ : Type} (n : ℕ) (c : γ) (f : Files γ) : (f.put n c).find n = some c := by
  rw [Files.find_eq_some_iff, Files.mem_put]
  exact Or.inl rfl

/-- Copying the records touches the temporary file only. -/
theorem run_appendTemp (d : Dir (List ρ)) (before : ℕ) (c recs : List ρ)
    (hc : d.temps.find before = some c) :
    ∃ temps, runOps (recordFormat frameSize) d (recs.map (.appendTemp before)) =
        { d with temps := temps } ∧ temps.find before = some (c ++ recs) := by
  induction recs generalizing d c with
  | nil => exact ⟨d.temps, rfl, by rw [List.append_nil]; exact hc⟩
  | cons r recs ih =>
    obtain ⟨temps, hrun, hfind⟩ :=
      ih { d with temps := d.temps.put before (c ++ [r]) } (c ++ [r]) (find_put ..)
    rw [List.append_assoc] at hfind
    refine ⟨temps, ?_, hfind⟩
    have hstep : (FileOp.appendTemp before r).apply (recordFormat frameSize) d =
        { d with temps := d.temps.put before (c ++ [r]) } := by
      simp only [FileOp.apply, hc]
      rfl
    rw [List.map_cons, runOps, List.foldl_cons, hstep]
    exact hrun

theorem run_tempOps (d : Dir (List ρ)) (before : ℕ) (recs : List ρ) :
    ∃ temps, runOps (recordFormat frameSize) d (tempOps before recs) = { d with temps := temps } ∧
      temps.find before = some recs :=
  run_appendTemp frameSize { d with temps := d.temps.put before [] } before [] recs (find_put ..)

theorem take_tempOps (before : ℕ) (recs : List ρ) (k : ℕ) : (tempOps before recs).take k = [] ∨
      (tempOps before recs).take k = tempOps before (recs.take (k - 1)) := by
  cases k with
  | zero => exact Or.inl rfl
  | succ k =>
    simp [tempOps]

def published {γ : Type} (d : Dir γ) (before : ℕ) (c : γ) : Dir γ :=
  { d with checkpoints := d.checkpoints.put before c }

theorem run_publish (d : Dir (List ρ)) (before : ℕ) (recs : List ρ) (ops : List (FileOp ρ)) :
    ∃ temps, runOps (recordFormat frameSize) d (tempOps before recs ++ .publish before :: ops) =
      runOps (recordFormat frameSize) { published d before recs with temps := temps } ops := by
  obtain ⟨temps, hrun, hfind⟩ := run_tempOps frameSize d before recs
  refine ⟨temps.remove before, ?_⟩
  unfold runOps at hrun ⊢
  rw [List.foldl_append, List.foldl_cons, hrun]
  simp only [FileOp.apply, hfind, published]

/-- A crash before the rename leaves all files as they were; one behind it
leaves the checkpoint and what was not yet removed. -/
theorem run_checkpoint (d : Dir (List ρ)) (before : ℕ) (recs : List ρ) (k : ℕ) :
    let ops : List (FileOp ρ) := tempOps before recs ++ .publish before :: removals d before
    let d' := runOps (recordFormat frameSize) d (ops.take k)
    (d'.segments = d.segments ∧ d'.checkpoints = d.checkpoints) ∨
      Pruned before (published d before recs) d' := by
  dsimp only
  rw [List.take_append]
  cases hk : k - (tempOps before recs).length with
  | zero =>
    left
    rw [List.take_zero, List.append_nil]
    rcases take_tempOps before recs k with h | h
    · rw [h]
      exact ⟨rfl, rfl⟩
    · obtain ⟨temps, hrun, -⟩ := run_tempOps frameSize d before (recs.take (k - 1))
      rw [h, hrun]
      exact ⟨rfl, rfl⟩
  | succ j =>
    right
    have hall : (tempOps before recs).take k = tempOps before recs :=
      List.take_of_length_le (by omega)
    obtain ⟨temps, hrun⟩ := run_publish frameSize d before recs ((removals d before).take j)
    have hpruned := pruned_run (F := recordFormat frameSize)
      { published d before recs with temps := temps } ((removals d before).take j)
      (fun op hop => removes_removals d op (List.mem_of_mem_take hop))
    rw [hall, List.take_succ_cons, hrun]
    exact ⟨hpruned.surviving, hpruned.leftover, hpruned.old, hpruned.newest⟩

/-- A truncation that runs to its end leaves nothing before the number but the
checkpoint it wrote. -/
theorem run_complete (d : Dir (List ρ)) (before : ℕ) (recs : List ρ) :
    let d' := runOps (recordFormat frameSize) d
      (tempOps before recs ++ .publish before :: removals d before)
    (∀ e ∈ d'.segments.entries, before ≤ e.1) ∧
      ∀ e ∈ d'.checkpoints.entries, e = (before, recs) ∨ e ∈ d.checkpoints.entries ∧
        before < e.1 := by
  obtain ⟨temps, hpublish⟩ := run_publish frameSize d before recs (removals d before)
  set d₁ : Dir (List ρ) := { published d before recs with temps := temps } with hd₁
  have hsame : removals (ρ := ρ) d before = removals d₁ before := by
    have hsuper : (d.checkpoints.put before recs).keep (fun n => decide (n < before)) =
        d.checkpoints.keep (fun n => decide (n < before)) := by
      apply Files.ext
      simp only [Files.entries_keep, Files.put, List.filter_append, List.filter_filter]
      rw [List.filter_cons_of_neg (by simp), List.filter_filter]
      rw [filter_lt_gt]
      simp
    unfold removals doomed superseded
    simp only [hd₁, published, hsuper]
  have hrun := run_removals (F := recordFormat frameSize) before d₁
  have hpruned := pruned_run (F := recordFormat frameSize) d₁ (removals d before)
    (removes_removals d)
  rw [← hsame] at hrun
  rw [hpublish]
  refine ⟨hrun.1, ?_⟩
  intro e he
  have hge := hrun.2 e he
  rcases Files.mem_put.mp (hpruned.old e he) with h | ⟨h, hne⟩
  · exact Or.inl h
  · exact Or.inr ⟨h, by omega⟩

end Phases

end Ozymandias.WalTruncate
