import Ozymandias.LogStore

/-!
What the parts of the log store's recovery compute. A log is filed under the
same stream again whatever the catalog has grown to meanwhile; the records of a
batch decode to its logs in order; and replaying a log whose streams are all
known rebuilds the heads from the entries that no chunk is sealed beyond.
-/
namespace Ozymandias.LogStreams

open WalFrame WalLog LogRecords LogSearch LogStore

variable {Log Label : Type}

section Streams

variable [DecidableEq Label] {S : Schema Log Label} {opts : Options}

def Settled (S : Schema Log Label) (opts : Options) (catalog : List Label) (ls : Label) : Prop :=
  (streamFor S opts catalog ls).2 = catalog

/-- What is settled in one catalog is settled in the other, under the same stream. -/
structure Extends (S : Schema Log Label) (opts : Options)
    (catalog catalog' : List Label) : Prop where
  length_le : catalog.length ≤ catalog'.length
  same : ∀ ls, Settled S opts catalog ls →
    streamFor S opts catalog' ls = ((streamFor S opts catalog ls).1, catalog')

theorem settled_iff {catalog : List Label} {ls : Label} : Settled S opts catalog ls ↔
      ls ∈ catalog ∨ opts.maxStreams ≤ catalog.length ∧ S.overflow ls ∈ catalog := by
  unfold Settled streamFor
  by_cases hmem : ls ∈ catalog
  · simp [hmem]
  · by_cases hmax : opts.maxStreams ≤ catalog.length
    · by_cases hover : S.overflow ls ∈ catalog
      · simp [hmem, hmax, hover]
      · simp [hmem, hmax, hover]
    · simp [hmem, hmax]

variable {catalog : List Label} {ls : Label}

theorem Extends.settled {catalog' : List Label} (h : Extends S opts catalog catalog')
    (hls : Settled S opts catalog ls) : Settled S opts catalog' ls := by
  unfold Settled
  rw [h.same ls hls]

theorem Extends.refl (catalog : List Label) : Extends S opts catalog catalog :=
  ⟨le_rfl, fun _ hls => Prod.ext rfl hls⟩

theorem Extends.trans {a b c : List Label} (h : Extends S opts a b) (h' : Extends S opts b c) :
    Extends S opts a c := by
  refine ⟨h.length_le.trans h'.length_le, fun ls hls => ?_⟩
  rw [h'.same ls (h.settled hls), h.same ls hls]

variable (S : Schema Log Label) (opts : Options)

/-- A stream that is added is at the end, and is the labels or their overflow. -/
theorem streamFor_cases (catalog : List Label) (ls : Label) : Settled S opts catalog ls ∨
      ∃ new, streamFor S opts catalog ls = (catalog.length, catalog ++ [new]) ∧ new ∉ catalog ∧
        (new = ls ∨ opts.maxStreams ≤ catalog.length ∧ new = S.overflow ls) := by
  rw [settled_iff]
  unfold streamFor
  by_cases hmem : ls ∈ catalog
  · exact Or.inl (Or.inl hmem)
  · rw [if_neg hmem]
    by_cases hmax : opts.maxStreams ≤ catalog.length
    · rw [if_pos hmax]
      by_cases hover : S.overflow ls ∈ catalog
      · exact Or.inl (Or.inr ⟨hmax, hover⟩)
      · rw [if_neg hover]
        exact Or.inr ⟨_, rfl, hover, Or.inr ⟨hmax, rfl⟩⟩
    · rw [if_neg hmax]
      exact Or.inr ⟨_, rfl, hmem, Or.inl rfl⟩

/-- Adding a stream for some labels moves no others. -/
theorem extends_streamFor (catalog : List Label) (ls : Label) :
    Extends S opts catalog (streamFor S opts catalog ls).2 := by
  rcases streamFor_cases S opts catalog ls with hsettled | ⟨new, hnew, hfresh, hkind⟩
  · rw [hsettled]
    exact Extends.refl catalog
  · rw [hnew]
    refine ⟨by simp, fun ls' hls' => ?_⟩
    by_cases hmem : ls' ∈ catalog
    · unfold streamFor
      rw [if_pos hmem, if_pos (List.mem_append_left _ hmem), List.idxOf_append_of_mem hmem]
    · obtain ⟨hmax, hover⟩ := (settled_iff.mp hls').resolve_left hmem
      have hne : ls' ≠ new := by
        rintro rfl
        rcases hkind with rfl | ⟨-, rfl⟩
        · unfold Settled at hls'
          rw [hnew] at hls'
          simp at hls'
        · rw [S.overflow_overflow] at hover
          exact hmem hover
      have hmem' : ls' ∉ catalog ++ [new] := by simp [hmem, hne]
      have hmax' : opts.maxStreams ≤ (catalog ++ [new]).length := by
        rw [List.length_append]
        omega
      unfold streamFor
      rw [if_neg hmem, if_neg hmem', if_pos hmax, if_pos hmax', if_pos hover,
        if_pos (List.mem_append_left _ hover), List.idxOf_append_of_mem hover]

/-- After it was looked up, a stream is settled, under the number the look-up gave. -/
theorem streamFor_again (catalog : List Label) (ls : Label) :
    streamFor S opts (streamFor S opts catalog ls).2 ls = streamFor S opts catalog ls := by
  rcases streamFor_cases S opts catalog ls with hsettled | ⟨new, hnew, hfresh, hkind⟩
  · rw [hsettled]
  · rw [hnew]
    have hidx : (catalog ++ [new]).idxOf new = catalog.length := by
      rw [List.idxOf_append_of_notMem hfresh]
      simp
    rcases hkind with rfl | ⟨hmax, rfl⟩
    · unfold streamFor
      rw [if_pos (by simp), hidx]
    · by_cases hmem : ls ∈ catalog ++ [S.overflow ls]
      · rcases List.mem_append.mp hmem with hmem | hmem
        · exfalso
          unfold streamFor at hnew
          rw [if_pos hmem] at hnew
          have hcat := congrArg Prod.snd hnew
          simp at hcat
        · have heq : ls = S.overflow ls := List.mem_singleton.mp hmem
          unfold streamFor
          rw [if_pos (by rw [← heq]; simp)]
          rw [← heq] at hidx ⊢
          rw [hidx]
      · unfold streamFor
        have hmax' : opts.maxStreams ≤ (catalog ++ [S.overflow ls]).length := by
          rw [List.length_append]
          omega
        rw [if_neg hmem, if_pos hmax', if_pos (by simp), hidx]

variable {S opts} in
theorem streamFor_lt (h : Settled S opts catalog ls) :
    (streamFor S opts catalog ls).1 < catalog.length := by
  unfold streamFor
  by_cases hmem : ls ∈ catalog
  · rw [if_pos hmem]
    exact List.idxOf_lt_length_of_mem hmem
  · obtain ⟨hmax, hover⟩ := (settled_iff.mp h).resolve_left hmem
    rw [if_neg hmem, if_pos hmax, if_pos hover]
    exact List.idxOf_lt_length_of_mem hover

/-- A batch's streams are those of the catalog it leaves. -/
theorem streamsFor_spec (catalog : List Label) (batch : List Log) :
    Extends S opts catalog (streamsFor S opts catalog batch).2 ∧
      (∀ l ∈ batch, Settled S opts (streamsFor S opts catalog batch).2 (S.labels l)) ∧
      (streamsFor S opts catalog batch).1 =
        batch.map (fun l => (streamFor S opts (streamsFor S opts catalog batch).2
          (S.labels l)).1) := by
  induction batch generalizing catalog with
  | nil => exact ⟨Extends.refl catalog, by simp, rfl⟩
  | cons l rest ih =>
    obtain ⟨hext, hsettled, hids⟩ := ih (streamFor S opts catalog (S.labels l)).2
    have hfirst := extends_streamFor S opts catalog (S.labels l)
    have hagain := streamFor_again S opts catalog (S.labels l)
    have hl : Settled S opts (streamFor S opts catalog (S.labels l)).2 (S.labels l) := by
      unfold Settled
      rw [hagain]
    have hsame := hext.same (S.labels l) hl
    simp only [streamsFor]
    refine ⟨hfirst.trans hext, List.forall_mem_cons.mpr ⟨hext.settled hl, hsettled⟩, ?_⟩
    rw [List.map_cons, ← hids, hsame, hagain]

end Streams

def recordEntries (S : Schema Log Label) (rec : Record) : List (Entry Log) :=
  if rec.typ ≠ walRecordLogs then []
  else
    match decodeWALRecord rec.data with
    | .error _ => []
    | .ok (base, bodies) => entriesFrom S base (bodies.filterMap S.decodeLog)

def Coded (S : Schema Log Label) (rec : Record) : Prop :=
  ∃ (base : ℕ) (logs : List Log), base < 2 ^ 64 ∧
    rec = ⟨walRecordLogs, encodeWALRecord base (logs.map S.encodeLog)⟩

variable (S : Schema Log Label)

theorem filterMap_decode (logs : List Log) :
    (logs.map S.encodeLog).filterMap S.decodeLog = logs := by
  rw [List.filterMap_map]
  have hid : S.decodeLog ∘ S.encodeLog = some := funext S.decode_encode
  rw [hid, List.filterMap_some]

variable {base : ℕ} {α : Type}

theorem recordEntries_coded (hbase : base < 2 ^ 64) (logs : List Log) :
    recordEntries S ⟨walRecordLogs, encodeWALRecord base (logs.map S.encodeLog)⟩ =
      entriesFrom S base logs := by
  unfold recordEntries
  rw [if_neg (by simp), decode_encodeWALRecord base _ hbase]
  dsimp only
  rw [filterMap_decode]

theorem entriesFrom_append (base : ℕ) (xs ys : List Log) :
    entriesFrom S base (xs ++ ys) = entriesFrom S base xs ++ entriesFrom S
      (base + xs.length) ys := by
  induction xs generalizing base with
  | nil => rfl
  | cons x xs ih =>
    rw [List.cons_append, entriesFrom, ih, entriesFrom, List.length_cons]
    congr 3
    omega

theorem mem_entriesFrom {S : Schema Log Label} {logs : List Log} {e : Entry Log}
    (h : e ∈ entriesFrom S base logs) :
    e.ts = S.ts e.log ∧ e.log ∈ logs ∧ base ≤ e.seq ∧ e.seq < base + logs.length := by
  induction logs generalizing base with
  | nil => simp [entriesFrom] at h
  | cons l rest ih =>
    rcases List.mem_cons.mp h with rfl | h
    · exact ⟨rfl, List.mem_cons_self, le_rfl, by simp⟩
    · obtain ⟨hts, hlog, hlo, hhi⟩ := ih h
      refine ⟨hts, List.mem_cons_of_mem _ hlog, by omega, ?_⟩
      rw [List.length_cons]
      omega

/-- The numbers of a batch ascend. -/
theorem entriesFrom_ascending (base : ℕ) (logs : List Log) :
    (entriesFrom S base logs).Pairwise (fun a b => a.seq < b.seq) := by
  induction logs generalizing base with
  | nil => exact List.Pairwise.nil
  | cons l rest ih =>
    rw [entriesFrom, List.pairwise_cons]
    refine ⟨fun e he => ?_, ih (base + 1)⟩
    have hlo := (mem_entriesFrom he).2.2.1
    exact hlo

theorem map_log_entriesFrom (base : ℕ) (logs : List Log) :
    (entriesFrom S base logs).map Entry.log = logs := by
  induction logs generalizing base with
  | nil => rfl
  | cons l rest ih => rw [entriesFrom, List.map_cons, ih]

/-- Groups of images are images of groups. -/
theorem exists_groups {β : Type} (f : α → β) (xs : List α) (gs : List (List β))
    (h : gs.flatten = xs.map f) : ∃ hs :
    List (List α), hs.flatten = xs ∧ hs.map (List.map f) = gs := by
  induction gs generalizing xs with
  | nil =>
    have hnil : xs = [] := List.map_eq_nil_iff.mp h.symm
    exact ⟨[], by simp [hnil], rfl⟩
  | cons g gs ih =>
    obtain ⟨ys, zs, rfl, hys, hzs⟩ := List.append_eq_map_iff.mp h
    obtain ⟨hs, hflat, hmap⟩ := ih zs hzs.symm
    exact ⟨ys :: hs, by rw [List.flatten_cons, hflat], by rw [List.map_cons, hys, hmap]⟩

theorem numberRecords_spec (base : ℕ) (groups : List (List Log))
    (hfits : base + groups.flatten.length < 2 ^ 64) :
    (∀ r ∈ numberRecords base (groups.map (List.map S.encodeLog)), Coded S r) ∧
      (numberRecords base (groups.map (List.map S.encodeLog))).flatMap (recordEntries S) =
        entriesFrom S base groups.flatten := by
  induction groups generalizing base with
  | nil => exact ⟨by simp [numberRecords], rfl⟩
  | cons g groups ih =>
    rw [List.flatten_cons, List.length_append] at hfits
    obtain ⟨hcoded, hentries⟩ := ih (base + g.length) (by omega)
    rw [List.map_cons, numberRecords, List.length_map]
    refine ⟨List.forall_mem_cons.mpr ⟨⟨base, g, by omega, rfl⟩, hcoded⟩, ?_⟩
    rw [List.flatMap_cons, hentries, recordEntries_coded S (by omega), List.flatten_cons,
      entriesFrom_append]

/-- The records of a batch decode to its entries. -/
theorem batchRecords_spec (base : ℕ) (batch : List Log) (hfits : base + batch.length < 2 ^ 64) :
    (∀ r ∈ batchRecords base (batch.map S.encodeLog), Coded S r) ∧
      (batchRecords base (batch.map S.encodeLog)).flatMap (recordEntries S) =
        entriesFrom S base batch := by
  have hflat := flatten_splitBatch 0 [] (batch.map S.encodeLog)
  obtain ⟨groups, hgroups, hmap⟩ := exists_groups S.encodeLog batch _ hflat
  unfold batchRecords
  rw [← hmap]
  have hspec := numberRecords_spec S base groups (by rw [hgroups]; exact hfits)
  rwa [hgroups] at hspec

section Replay

variable [DecidableEq Label] {S : Schema Log Label} {opts : Options}

def keyOf (S : Schema Log Label) (opts : Options) (catalog : List Label)
    (e : Entry Log) : ChunkKey :=
  ((streamFor S opts catalog (S.labels e.log)).1, dayOf e.ts)

def entriesIn {ι : Type} (S : Schema Log Label) (recs : List (ι × Record)) : List (ι × Entry Log) :=
  recs.flatMap (fun x => (recordEntries S x.2).map (fun e => (x.1, e)))

def replayInto (S : Schema Log Label) (opts : Options) (catalog : List Label) (c : Chunks Log)
    (heads : Heads Log) (x : ℤ × Entry Log) : Heads Log :=
  if x.2.seq ≤ sealedUpTo c (keyOf S opts catalog x.2) then heads
  else addTo heads (keyOf S opts catalog x.2).1 x.2 x.1

theorem replayBodies_spec (c : Chunks Log) (seg : ℤ) (base : ℕ) (r : Recovered Log Label)
    (logs : List Log) (hsettled : ∀ l ∈ logs, Settled S opts r.catalog (S.labels l)) :
    replayBodies S opts c seg base r (logs.map S.encodeLog) =
      .ok ⟨r.catalog, (entriesFrom S base logs).foldl (fun m e => max m e.seq) r.seq,
        ((entriesFrom S base logs).map (fun e => (seg, e))).foldl
          (replayInto S opts r.catalog c) r.heads⟩ := by
  induction logs generalizing base r with
  | nil => rfl
  | cons l rest ih =>
    have hcat : (streamFor S opts r.catalog (S.labels l)).2 = r.catalog :=
      hsettled l List.mem_cons_self
    have hrest : ∀ l' ∈ rest, Settled S opts r.catalog (S.labels l') :=
      fun l' hl' => hsettled l' (List.mem_cons_of_mem _ hl')
    have hentry : replayEntry S opts c seg r base (S.encodeLog l) = .ok ⟨r.catalog, max r.seq base,
          replayInto S opts r.catalog c r.heads (seg, ⟨S.ts l, base, l⟩)⟩ := by
      unfold replayEntry replayInto keyOf
      rw [S.decode_encode]
      dsimp only
      rw [hcat]
      split <;> rfl
    rw [List.map_cons, replayBodies, hentry]
    dsimp only
    rw [ih (base + 1) ⟨r.catalog, max r.seq base, _⟩ hrest]
    rfl

/-- Replaying records whose streams are all known. -/
theorem replayRecords_spec (S : Schema Log Label) (opts : Options) (c : Chunks Log)
    (recs : List (ℤ × Record)) (r : Recovered Log Label)
    (hcoded : ∀ x ∈ recs, Coded S x.2)
    (hsettled : ∀ x ∈ entriesIn S recs, Settled S opts r.catalog (S.labels x.2.log)) :
    replayRecords S opts c r recs =
      .ok ⟨r.catalog, (entriesIn S recs).foldl (fun m x => max m x.2.seq) r.seq,
        (entriesIn S recs).foldl (replayInto S opts r.catalog c) r.heads⟩ := by
  induction recs generalizing r with
  | nil => rfl
  | cons x recs ih =>
    obtain ⟨seg, rec⟩ := x
    obtain ⟨base, logs, hbase, hrec⟩ := hcoded (seg, rec) List.mem_cons_self
    dsimp only at hrec
    have hsplit : entriesIn S ((seg, rec) :: recs) =
        (entriesFrom S base logs).map (fun e => (seg, e)) ++ entriesIn S recs := by
      unfold entriesIn
      rw [List.flatMap_cons, hrec, recordEntries_coded S hbase]
    have hlogs : ∀ l ∈ logs, Settled S opts r.catalog (S.labels l) := by
      intro l hl
      rw [← map_log_entriesFrom S base logs] at hl
      obtain ⟨e, he, rfl⟩ := List.mem_map.mp hl
      refine hsettled (seg, e) ?_
      rw [hsplit]
      exact List.mem_append_left _ (List.mem_map_of_mem he)
    have hrest : ∀ y ∈ entriesIn S recs, Settled S opts r.catalog (S.labels y.2.log) := by
      intro y hy
      refine hsettled y ?_
      rw [hsplit]
      exact List.mem_append_right _ hy
    have hrecord : replayRecord S opts c seg r rec =
        replayBodies S opts c seg base r (logs.map S.encodeLog) := by
      unfold replayRecord
      rw [hrec, if_neg (by simp), decode_encodeWALRecord base _ hbase]
    rw [replayRecords, hrecord, replayBodies_spec c seg base r logs hlogs]
    dsimp only
    rw [ih _ (List.forall_mem_cons.mp hcoded).2, hsplit, List.foldl_append, List.foldl_append]
    · simp only [List.foldl_map]
    · exact hrest

def unsealedOf {ι : Type} (S : Schema Log Label) (opts : Options) (catalog : List Label)
    (c : Chunks Log) (st : ℕ) (xs : List (ι × Entry Log)) : List (ι × Entry Log) :=
  xs.filter (fun x => decide (sealedUpTo c (keyOf S opts catalog x.2) < x.2.seq) &&
    decide ((keyOf S opts catalog x.2).1 = st))

/-- A stream's head after the replay; its segment is that of the first entry replayed into it. -/
theorem replayInto_spec (catalog : List Label) (c : Chunks Log) (xs : List (ℤ × Entry Log))
    (heads : Heads Log) (st : ℕ) :
    ((xs.foldl (replayInto S opts catalog c) heads) st).entries =
      (heads st).entries ++ (unsealedOf S opts catalog c st xs).map Prod.snd ∧
    ((xs.foldl (replayInto S opts catalog c) heads) st).seg =
      if (heads st).entries = [] then
        match unsealedOf S opts catalog c st xs with
        | [] => (heads st).seg
        | x :: _ => x.1
      else (heads st).seg := by
  induction xs generalizing heads with
  | nil => simp [unsealedOf]
  | cons x xs ih =>
    rw [List.foldl_cons, (ih _).1, (ih _).2]
    unfold replayInto unsealedOf
    by_cases hle : x.2.seq ≤ sealedUpTo c (keyOf S opts catalog x.2)
    · rw [if_pos hle, List.filter_cons_of_neg (by simp; omega)]
      exact ⟨rfl, rfl⟩
    · rw [if_neg hle]
      by_cases hst : (keyOf S opts catalog x.2).1 = st
      · rw [List.filter_cons_of_pos (by simp [hst]; omega)]
        subst hst
        simp [addTo, Head.add]
      · rw [List.filter_cons_of_neg (by simp [hst])]
        unfold addTo
        rw [Function.update_of_ne (Ne.symm hst)]
        exact ⟨rfl, rfl⟩

end Replay

theorem foldl_max_spec (f : α → ℕ) (xs : List α) (m : ℕ) : m ≤ xs.foldl (fun m x => max m (f x)) m ∧
      ∀ x ∈ xs, f x ≤ xs.foldl (fun m x => max m (f x)) m := by
  induction xs generalizing m with
  | nil => simp
  | cons x xs ih =>
    obtain ⟨hm, hall⟩ := ih (max m (f x))
    exact ⟨(le_max_left _ _).trans hm, List.forall_mem_cons.mpr ⟨(le_max_right _ _).trans hm, hall⟩⟩

end Ozymandias.LogStreams
