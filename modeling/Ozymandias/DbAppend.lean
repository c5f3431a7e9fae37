import Ozymandias.HeadAppend

/-!
The database's `Append`. A batch has an entry per series with its samples;
entries that are not valid are refused as they are, and the samples of the
others go to the head as one flat batch. What the head says about single
samples is attributed to the entries again: an entry is refused once, however
many of its samples were, and counts as stored if one of its samples was.
-/
namespace Ozymandias.DbAppend

open WalFrame SeriesModel Selection HeadSeries HeadModel

structure Rejected where
  series : SeriesRef
  reason : String
  deriving DecidableEq

structure AppendResult where
  series : ℕ
  samples : ℕ
  rejected : List Rejected
  deriving DecidableEq

def isInf (v : BitVec 64) : Bool :=
  v.extractLsb' 52 11 == BitVec.allOnes 11 && v.extractLsb' 0 52 == 0

def validate (ss : SeriesSamples) : Option String :=
  match Selection.validate ss.series with
  | some .emptyMetric => some "empty metric name"
  | some .unsortedTags => some "tags are not sorted and unique"
  | none =>
    if ss.samples.any (fun s => isNaN s.v || isInf s.v) then some "non-finite sample value"
    else none

def reasonOf : AppendErr → String
  | .refused .outOfOrder => "sample at or before the series' newest timestamp"
  | .refused .outOfBounds => "sample is older than the oldest writable block range"
  | .refused .seriesLimit => "series limit for this metric reached"
  | .mismatch refs samples => s!"head: {refs} refs for {samples} samples"
  | .log => "head: logging"

/-- A batch as the head takes it. `owner` is the entry that a sample is from. -/
structure Flat where
  refs : List SeriesRef
  samples : List Sample
  owner : List ℕ
  rejected : List Rejected

def flatten : ℕ → List SeriesSamples → Flat
  | _, [] => ⟨[], [], [], []⟩
  | i, ss :: rest =>
    let f := flatten (i + 1) rest
    match validate ss with
    | some reason => { f with rejected := ⟨ss.series, reason⟩ :: f.rejected }
    | none =>
      ⟨ss.samples.map (fun _ => ss.series) ++ f.refs, ss.samples ++ f.samples,
        ss.samples.map (fun _ => i) ++ f.owner, f.rejected⟩

def collect (batch : List SeriesSamples) (owner : List ℕ) :
    List ℕ → List Rejection → Except AppendErr (List Rejected)
  | _, [] => .ok []
  | refused, r :: rest =>
    if r.index < 0 then .error r.err
    else
      let idx := owner.getD r.index.toNat 0
      if idx ∈ refused then collect batch owner refused rest
      else
        match collect batch owner (idx :: refused) rest with
        | .error e => .error e
        | .ok more =>
          .ok (⟨((batch[idx]?).map SeriesSamples.series).getD ⟨[], []⟩, reasonOf r.err⟩ :: more)

def wrote (owner : List ℕ) (stored : List Bool) : List ℕ :=
  ((owner.zip stored).filter Prod.snd).map Prod.fst

variable {o : Options}

def append {σ : Type} (h : Head o) (log : σ → List Record → σ × Bool) (w : σ)
    (batch : List SeriesSamples) : Head o × σ × Except AppendErr AppendResult :=
  let f := flatten 0 batch
  if f.samples = [] then (h, w, .ok ⟨0, 0, f.rejected⟩)
  else
    let (h, w, res) := h.append log w f.refs f.samples
    match collect batch f.owner [] res.rejected with
    | .error e => (h, w, .error e)
    | .ok more =>
      let stored := res.stored.getD []
      (h, w, .ok ⟨(List.range batch.length).countP (fun i => decide (i ∈ wrote f.owner stored)),
        stored.countP id, f.rejected ++ more⟩)

def size (ss : SeriesSamples) : ℕ := if validate ss = none then ss.samples.length else 0

def pairs (batch : List SeriesSamples) : List (SeriesRef × Sample) :=
  batch.flatMap (fun ss =>
    if validate ss = none then ss.samples.map (fun s => (ss.series, s)) else [])

variable {refused : List ℕ} {batch : List SeriesSamples} {α σ : Type}

theorem owner_flatten_cons (i : ℕ) (ss : SeriesSamples) (rest : List SeriesSamples) :
    (flatten i (ss :: rest)).owner =
      List.replicate (size ss) i ++ (flatten (i + 1) rest).owner := by
  unfold size
  cases hv : validate ss with
  | none => simp [flatten, hv]
  | some reason => simp [flatten, hv]

theorem flatten_spec (i : ℕ) (batch : List SeriesSamples) :
    (flatten i batch).refs = (pairs batch).map Prod.fst ∧
      (flatten i batch).samples = (pairs batch).map Prod.snd ∧
      (flatten i batch).owner.length = (pairs batch).length := by
  induction batch generalizing i with
  | nil => exact ⟨rfl, rfl, rfl⟩
  | cons ss rest ih =>
    obtain ⟨hrefs, hsamples, howner⟩ := ih (i + 1)
    unfold pairs at hrefs hsamples howner ⊢
    rw [owner_flatten_cons, List.flatMap_cons, List.length_append, howner]
    unfold size
    cases hv : validate ss with
    | none | some reason => simp [flatten, hv, hrefs, hsamples]

variable {i : ℕ} {h h' : Head o} {log : σ → List Record → σ × Bool} {w w' : σ}

theorem lt_of_mem_owner {k : ℕ} (hk : k ∈ (flatten i batch).owner) : i ≤ k := by
  induction batch generalizing i with
  | nil => cases hk
  | cons ss rest ih =>
    rw [owner_flatten_cons, List.mem_append] at hk
    rcases hk with hk | hk
    · exact le_of_eq (List.eq_of_mem_replicate hk).symm
    · exact (Nat.le_succ i).trans (ih hk)

def share {α : Type} : List SeriesSamples → List α → List (List α)
  | [], _ => []
  | ss :: rest, xs => xs.take (size ss) :: share rest (xs.drop (size ss))

theorem share_map {β : Type} (f : α → β) (batch : List SeriesSamples) (xs : List α) :
    share batch (xs.map f) = (share batch xs).map (List.map f) := by
  induction batch generalizing xs with
  | nil => rfl
  | cons ss rest ih => rw [share, share, List.map_cons, ← List.map_take, ← List.map_drop, ih]

theorem length_pairs_cons (ss : SeriesSamples) (rest : List SeriesSamples) :
    (pairs (ss :: rest)).length = size ss + (pairs rest).length := by
  unfold pairs size
  rw [List.flatMap_cons, List.length_append]
  split
  · rw [List.length_map]
  · rfl

theorem flatten_share {xs : List α} (hlen : xs.length = (pairs batch).length) :
    (share batch xs).flatten = xs := by
  induction batch generalizing xs with
  | nil => exact (List.eq_nil_of_length_eq_zero hlen).symm
  | cons ss rest ih =>
    rw [length_pairs_cons] at hlen
    rw [share, List.flatten_cons, ih (by rw [List.length_drop]; omega), List.take_append_drop]

def firstRefusal {α : Type} : List (Except HeadErr α) → Option HeadErr
  | [] => none
  | .ok _ :: rest => firstRefusal rest
  | .error e :: _ => some e

def refusedEntries {α : Type} :
    List SeriesSamples → List (List (Except HeadErr α)) → List Rejected
  | ss :: rest, outs :: more =>
    match firstRefusal outs with
    | none => refusedEntries rest more
    | some e => ⟨ss.series, reasonOf (.refused e)⟩ :: refusedEntries rest more
  | _, _ => []

theorem rejections_append (n : ℕ) (xs ys : List (Except HeadErr α)) :
    rejections n (xs ++ ys) = rejections n xs ++ rejections (n + xs.length) ys := by
  induction xs generalizing n with
  | nil => rfl
  | cons x xs ih =>
    have hn : n + 1 + xs.length = n + (xs.length + 1) := by omega
    cases x with
    | ok a =>
      rw [List.cons_append, rejections, rejections, ih, List.length_cons, hn]
    | error e =>
      rw [List.cons_append, rejections, rejections, ih, List.length_cons, List.cons_append, hn]

section

variable {owner : List ℕ} {i : ℕ} {n : ℕ} {tail : List Rejection} {xs : List (Except HeadErr α)}

/-- An entry that is refused already is not listed again. -/
theorem collect_seen (howner : ∀ j < xs.length, owner.getD (n + j) 0 = i) (hi : i ∈ refused) :
    collect batch owner refused (rejections n xs ++ tail) = collect batch owner refused tail := by
  induction xs generalizing n with
  | nil => rfl
  | cons x xs ih =>
    have hrest := ih (n := n + 1) (fun j hj => by
      rw [Nat.add_right_comm]
      exact howner (j + 1) (Nat.succ_lt_succ hj))
    cases x with
    | ok a =>
      exact hrest
    | error e =>
      have hfirst := howner 0 (Nat.succ_pos _)
      rw [rejections, List.cons_append, collect]
      rw [Int.toNat_natCast, ← Nat.add_zero n, hfirst, if_pos hi]
      exact hrest

/-- The refusals of one entry, and then the others. -/
theorem collect_entry {ss : SeriesSamples} {more : List Rejected} (hss : batch[i]? = some ss)
    (howner : ∀ j < xs.length, owner.getD (n + j) 0 = i) (hi : i ∉ refused)
    (htail : ∀ seen, (∀ x ∈ seen, x ∈ refused ∨ x = i) → collect batch owner seen tail = .ok more) :
    collect batch owner refused (rejections n xs ++ tail) = .ok (match firstRefusal xs with
        | none => more
        | some e => ⟨ss.series, reasonOf (.refused e)⟩ :: more) := by
  induction xs generalizing n with
  | nil => exact htail refused (fun x hx => .inl hx)
  | cons x xs ih =>
    have hnext : ∀ j < xs.length, owner.getD (n + 1 + j) 0 = i := by
      intro j hj
      rw [Nat.add_right_comm]
      exact howner (j + 1) (Nat.succ_lt_succ hj)
    cases x with
    | ok a =>
      exact ih hnext
    | error e =>
      have hfirst := howner 0 (Nat.succ_pos _)
      rw [Nat.add_zero] at hfirst
      rw [rejections, List.cons_append, collect]
      rw [Int.toNat_natCast, hfirst, if_neg hi, collect_seen hnext List.mem_cons_self,
        htail (i :: refused) (fun x hx => (List.mem_cons.mp hx).symm), hss]
      rfl

end

theorem collect_share (all : List SeriesSamples) (before : List ℕ) {owner : List ℕ}
    {outs : List (Except HeadErr α)} (hall : all.drop i = batch)
    (howner : owner = before ++ (flatten i batch).owner)
    (hlen : outs.length = (flatten i batch).owner.length) (hseen : ∀ x ∈ refused, x < i) :
    collect all owner refused (rejections before.length outs) =
      .ok (refusedEntries batch (share batch outs)) := by
  induction batch generalizing before i outs refused with
  | nil =>
    rw [List.eq_nil_of_length_eq_zero hlen]
    rfl
  | cons ss rest ih =>
    rw [owner_flatten_cons] at howner hlen
    rw [List.length_append, List.length_replicate] at hlen
    have htake : (outs.take (size ss)).length = size ss := by
      rw [List.length_take]
      omega
    have hss : all[i]? = some ss := by
      rw [← List.head?_drop, hall]
      rfl
    have hrest : all.drop (i + 1) = rest := by
      rw [← List.tail_drop, hall]
      rfl
    have howner' : owner = (before ++ List.replicate (size ss) i) ++
      (flatten (i + 1) rest).owner := by
      rw [howner, List.append_assoc]
    have hdrop : (outs.drop (size ss)).length = (flatten (i + 1) rest).owner.length := by
      rw [List.length_drop]
      omega
    have hblen : (before ++ List.replicate (size ss) i).length = before.length + size ss := by
      rw [List.length_append, List.length_replicate]
    conv_lhs => rw [← List.take_append_drop (size ss) outs, rejections_append, htake, ← hblen]
    refine collect_entry hss ?_ (fun hi => lt_irrefl i (hseen i hi)) ?_
    · intro j hj
      rw [htake] at hj
      rw [howner, List.getD_append_right _ _ _ _ (Nat.le_add_right _ _), Nat.add_sub_cancel_left,
        List.getD_append _ _ _ _ (by rw [List.length_replicate]; exact hj),
        List.getD_replicate _ hj]
    · intro seen hsub
      refine ih _ hrest howner' hdrop ?_
      intro x hx
      rcases hsub x hx with hold | rfl
      · exact (hseen x hold).trans (Nat.lt_succ_self i)
      · exact Nat.lt_succ_self x

theorem count_wrote {stored : List Bool} (hlen : stored.length = (flatten i batch).owner.length) :
    (List.range' i batch.length).countP
      (fun k => decide (k ∈ wrote (flatten i batch).owner stored)) =
      (share batch stored).countP (fun flags => flags.any id) := by
  induction batch generalizing i stored with
  | nil => rfl
  | cons ss rest ih =>
    rw [owner_flatten_cons, List.length_append, List.length_replicate] at hlen
    have htake : (stored.take (size ss)).length = size ss := by
      rw [List.length_take]
      omega
    have hdrop : (stored.drop (size ss)).length = (flatten (i + 1) rest).owner.length := by
      rw [List.length_drop]
      omega
    have hsplit : wrote (flatten i (ss :: rest)).owner stored =
        wrote (List.replicate (size ss) i) (stored.take (size ss)) ++
          wrote (flatten (i + 1) rest).owner (stored.drop (size ss)) := by
      unfold wrote
      conv_lhs => rw [owner_flatten_cons, ← List.take_append_drop (size ss) stored]
      rw [List.zip_append (by rw [List.length_replicate, htake]), List.filter_append,
        List.map_append]
    have hown : ∀ k, k ∈ wrote (List.replicate (size ss) i) (stored.take (size ss)) ↔
        k = i ∧ (stored.take (size ss)).any id = true := by
      intro k
      have hzip := List.zip_map' (f := fun _ => i) (g := id) (l := stored.take (size ss))
      rw [List.map_const', htake, List.map_id] at hzip
      unfold wrote
      rw [hzip, List.filter_map, List.map_map, List.mem_map]
      constructor
      · rintro ⟨b, hb, rfl⟩
        exact ⟨rfl, List.any_eq_true.mpr ⟨b, List.mem_filter.mp hb⟩⟩
      · rintro ⟨rfl, hany⟩
        obtain ⟨b, hb⟩ := List.any_eq_true.mp hany
        exact ⟨b, List.mem_filter.mpr hb, rfl⟩
    have hlater : ∀ k ∈ wrote (flatten (i + 1) rest).owner (stored.drop (size ss)), i + 1 ≤ k := by
      intro k hk
      obtain ⟨⟨k', b⟩, hmem, rfl⟩ := List.mem_map.mp hk
      exact lt_of_mem_owner (List.of_mem_zip (List.mem_filter.mp hmem).1).1
    rw [List.length_cons, List.range'_succ, List.countP_cons, share, List.countP_cons, ← ih hdrop,
      hsplit]
    congr 1
    · refine List.countP_congr ?_
      intro k hk
      have hlt := (List.mem_range'_1.mp hk).1
      simp only [decide_eq_true_eq, List.mem_append, hown]
      constructor
      · rintro (⟨rfl, -⟩ | hk)
        · omega
        · exact hk
      · exact .inr
    · have hnot : i ∉ wrote (flatten (i + 1) rest).owner (stored.drop (size ss)) :=
        fun hi => absurd (hlater i hi) (by omega)
      simp only [List.mem_append, hown, true_and, hnot, or_false, decide_eq_true_eq]

theorem samples_ne_nil (hne : pairs batch ≠ []) : (flatten 0 batch).samples ≠ [] := by
  rw [(flatten_spec 0 batch).2.1]
  simpa using hne

/-- The result of a batch whose samples the head has dealt with one by one. -/
theorem append_result {outs : List (Except HeadErr Bool)} (hne : pairs batch ≠ [])
    (hlen : outs.length = (pairs batch).length)
    (happ : h.append log w (flatten 0 batch).refs (flatten 0 batch).samples =
      (h', w', ⟨some (outs.map storedFlag), rejections 0 outs⟩)) :
    append h log w batch = (h', w', .ok
      ⟨(share batch outs).countP (fun os => os.any storedFlag), outs.countP storedFlag,
        (flatten 0 batch).rejected ++ refusedEntries batch (share batch outs)⟩) := by
  obtain ⟨-, -, howner⟩ := flatten_spec 0 batch
  have hcollect : collect batch (flatten 0 batch).owner [] (rejections 0 outs) =
      .ok (refusedEntries batch (share batch outs)) :=
    collect_share batch [] List.drop_zero rfl (hlen.trans howner.symm) (by simp)
  have hcount : (List.range' 0 batch.length).countP
        (fun k => decide (k ∈ wrote (flatten 0 batch).owner (outs.map storedFlag))) =
      (share batch (outs.map storedFlag)).countP (fun flags => flags.any id) :=
    count_wrote (by rw [List.length_map]; exact hlen.trans howner.symm)
  have hany : (fun flags : List Bool => flags.any id) ∘ List.map storedFlag =
      fun os => os.any storedFlag := by
    funext os
    rw [Function.comp_apply, List.any_map, Function.id_comp]
  rw [share_map, List.countP_map, hany, ← List.range_eq_range'] at hcount
  unfold append
  rw [if_neg (samples_ne_nil hne), happ]
  dsimp only
  rw [hcollect]
  dsimp only [Option.getD_some]
  rw [hcount, List.countP_map, Function.id_comp]

/-- A batch without samples for the head. -/
theorem append_nothing (h : Head o) (log : σ → List Record → σ × Bool) (w : σ)
    (hnil : pairs batch = []) :
    append h log w batch = (h, w, .ok ⟨0, 0, (flatten 0 batch).rejected⟩) := by
  obtain ⟨-, hsamples, -⟩ := flatten_spec 0 batch
  unfold append
  rw [if_pos (by rw [hsamples, hnil]; rfl)]

/-- A batch that the head has refused as a whole. -/
theorem append_failed {stored : Option (List Bool)} {e : AppendErr} (hne : pairs batch ≠ [])
    (happ : h.append log w (flatten 0 batch).refs (flatten 0 batch).samples =
      (h', w', ⟨stored, [⟨-1, e⟩]⟩)) :
    append h log w batch = (h', w', .error e) := by
  unfold append
  rw [if_neg (samples_ne_nil hne), happ]
  rfl

end Ozymandias.DbAppend
