import Ozymandias.LogExactlyOnce
import Ozymandias.LogViews
import Mathlib.Data.Finset.Card

/-!
What a search of a store finds. In every run of appends, seals, truncations,
crashes and openings whose logs have no more label sets than there may be
streams, a search that follows its cursors to the end lists exactly the logs of
the store that are in the window and satisfy the query, if the patterns it
compares attributes with are UTF-8. The query language passes other bytes through, and then a
sealed log may be missed.
-/
namespace Ozymandias.LogFinds

open BitLists SeriesModel Utf8 WalFrame WalLog TimeMerge Peaks
  LogQuery LogPlan LogNeeds LogBloom LogSearch LogPages LogPaging LogProgress LogStore LogStreams
  LogRecovery LogSteps LogExactlyOnce LogViews

variable {F L : Type}

structure Coding (L : Type) extends Decoded L where
  encode : L → List Byte
  decode : List Byte → Option L
  decode_encode : ∀ l, decode (encode l) = some l

def Coding.schema (C : Coding L) : Schema L LabelSet where
  ts l := (C.log l).ts
  labels l := labelsOf (C.log l)
  overflow := LabelSet.overflow
  overflow_overflow _ := rfl
  encodeLog := C.encode
  decodeLog := C.decode
  decode_encode := C.decode_encode

variable {ls : LabelSet} {s : State L LabelSet} {labels : Finset LabelSet} {es : List (Entry L)}

theorem keys_nodup (h : (es.map Entry.seq).Nodup) : (es.map Entry.key).Nodup := by
  refine List.Nodup.of_map (fun k => (ofLex k).2) ?_
  rwa [List.map_map]

/-- Logs of different keys are sorted strictly. -/
theorem ascending_filter (o : Order) (h : (es.map Entry.key).Nodup) (p : Entry L → Bool) :
    Ascending (fun e => o.pos e.key) (sortBy (fun e => o.pos e.key) (es.filter p)) := by
  have hsub : ((es.filter p).map Entry.key).Sublist (es.map Entry.key) := List.filter_sublist.map _
  have hpos := (h.sublist hsub).map (pos_injective o)
  rw [List.map_map] at hpos
  exact ascending_sortBy hpos

/-- A written block. Its entries are sorted, so the first and the last timestamp are its range. -/
def blockOf (rawLen : List (Entry L) → ℕ) (entries : List (Entry L)) : Option (Block L) :=
  match hlow : (entries.map Entry.ts).min?, hhigh : (entries.map Entry.ts).max? with
  | some low, some high => some
    { minTs := low
      maxTs := high
      rawLen := rawLen entries
      entries := entries
      lowest := List.mem_map.mp (List.min?_mem hlow)
      highest := List.mem_map.mp (List.max?_mem hhigh)
      inRange := fun _ he =>
        ⟨(List.min?_eq_some_iff.mp hlow).2 _ (List.mem_map_of_mem he),
          (List.max?_eq_some_iff.mp hhigh).2 _ (List.mem_map_of_mem he)⟩ }
  | _, _ => none

def streamOf (rawLen : List (Entry L) → ℕ) (mem : Memory L) (ls : LabelSet) (st : ℕ) :
    Stream L where
  labels := ls
  head := (mem.heads st).entries
  blocks := (mem.published.entries.filter (fun c => c.1.1 = st)).flatMap
    (fun c => c.2.filterMap (blockOf rawLen))

def streamsOf (rawLen : List (Entry L) → ℕ) (s : State L LabelSet) : List (Stream L) :=
  match s.process with
  | .down _ => []
  | .up _ mem => s.catalog.zipIdx.map (fun x => streamOf rawLen mem x.1 x.2)

theorem blockOf_entries (rawLen : List (Entry L) → ℕ) (blocks : List (List (Entry L))) :
    (blocks.filterMap (blockOf rawLen)).flatMap Block.entries = blocks.flatten := by
  induction blocks with
  | nil => rfl
  | cons entries blocks ih =>
    rw [List.flatten_cons, ← ih]
    cases hblock : blockOf rawLen entries with
    | none =>
      have hnil : entries = [] := by
        unfold blockOf at hblock
        split at hblock
        next => cases hblock
        next hnot =>
          cases entries with
          | nil => rfl
          | cons e es => exact (hnot _ _ List.min?_cons' List.max?_cons').elim
      rw [hnil]
      rfl
    | some b =>
      rw [List.filterMap_cons_some hblock, List.flatMap_cons]
      have hentries : b.entries = entries := by
        unfold blockOf at hblock
        split at hblock
        next =>
          obtain rfl := Option.some.inj hblock
          rfl
        next => cases hblock
      rw [hentries]

theorem streamOf_entries (rawLen : List (Entry L) → ℕ) (mem : Memory L) (ls : LabelSet) (st : ℕ) :
    (streamOf rawLen mem ls st).entries = (mem.heads st).entries ++
      (mem.published.entries.filter (fun c => c.1.1 = st)).flatMap (fun c => c.2.flatten) := by
  unfold Stream.entries streamOf
  rw [List.flatMap_assoc]
  simp only [blockOf_entries]

section Inv

variable {S : Schema L LabelSet} {opts : Options} {catalog : List LabelSet} {chunks : Chunks L}
  {wal : Wal (List Record)} {mem : Memory L} {live gone : List (Entry L)}
  {rawLen : List (Entry L) → ℕ} {e : Entry L} {st : ℕ}

theorem mem_streamOf : e ∈ (streamOf rawLen mem ls st).entries ↔ e ∈ (mem.heads st).entries ∨
      ∃ day, e ∈ (blocksAt mem.published (st, day)).flatten := by
  rw [streamOf_entries, List.mem_append]
  refine or_congr_right ?_
  rw [List.mem_flatMap]
  constructor
  · rintro ⟨c, hc, he⟩
    obtain ⟨hc, hst⟩ := List.mem_filter.mp hc
    have hst : c.1.1 = st := of_decide_eq_true hst
    rw [← blocksAt_of_mem hc] at he
    exact ⟨c.1.2, hst ▸ he⟩
  · rintro ⟨day, he⟩
    have hc := AList.mem_lookup_iff.mp (lookup_of_mem he)
    exact ⟨⟨(st, day), _⟩, List.mem_filter.mpr ⟨hc, by simp⟩, he⟩

variable (h : Inv S opts ⟨catalog, chunks, .up wal mem, live, gone⟩)
include h

/-- A log of a stream is stored, under a key of the stream. -/
theorem stream_key (he : e ∈ (streamOf rawLen mem ls st).entries) :
    Stored S chunks wal.dir e ∧ (streamFor S opts catalog (S.labels e.log)).1 = st := by
  obtain ⟨hdisk, hmem, -, -⟩ := inv_up_iff.mp h
  rcases mem_streamOf.mp he with he | ⟨day, he⟩
  · exact ⟨hmem.head_stored he, (hmem.headOf st e he).1⟩
  · have hchunk := (published_of_phase h (st, day)).1.subset he
    exact ⟨Or.inr ⟨_, hchunk⟩, congrArg Prod.fst (hdisk.keyed _ e hchunk)⟩

/-- The streams hold what the store holds. -/
theorem mem_streamsOf (rawLen : List (Entry L) → ℕ) (e : Entry L) :
    e ∈ (streamsOf rawLen ⟨catalog, chunks, .up wal mem, live, gone⟩).flatMap Stream.entries ↔
      e ∈ holdings (⟨catalog, chunks, .up wal mem, live, gone⟩ : State L LabelSet) := by
  rw [mem_holdings h]
  unfold streamsOf
  rw [List.flatMap_map, List.mem_flatMap]
  constructor
  · rintro ⟨⟨ls, st⟩, -, he⟩
    rcases mem_streamOf.mp he with he | ⟨day, he⟩
    · exact Or.inl ⟨st, he⟩
    · exact Or.inr ⟨(st, day), he⟩
  · intro he
    have hin : ∃ st, ∀ ls, e ∈ (streamOf rawLen mem ls st).entries := by
      rcases he with ⟨st, he⟩ | ⟨k, he⟩
      · exact ⟨st, fun ls => mem_streamOf.mpr (Or.inl he)⟩
      · exact ⟨k.1, fun ls => mem_streamOf.mpr (Or.inr ⟨k.2, he⟩)⟩
    obtain ⟨st, hin⟩ := hin
    obtain ⟨hstored, hst⟩ := stream_key h (hin (S.labels e.log))
    have hlt := streamFor_lt ((inv_up_iff.mp h).1.settled e hstored)
    rw [hst] at hlt
    exact ⟨(catalog.get ⟨st, hlt⟩, st), List.mem_zipIdx_iff_getElem?.mpr (by simp [hlt]), hin _⟩

theorem streams_nodup : (((streamsOf rawLen ⟨catalog, chunks, .up wal mem, live, gone⟩).flatMap
      Stream.entries).map Entry.seq).Nodup := by
  have hstored := fun e he => stored_of_held h ((mem_streamsOf h rawLen e).mp he)
  refine List.Nodup.map_on (fun e he e' he' =>
    (inv_up_iff.mp h).1.unique e e' (hstored e he) (hstored e' he')) ?_
  unfold streamsOf
  rw [List.flatMap_map]
  refine List.nodup_flatMap.mpr ⟨?_, ?_⟩
  · rintro ⟨ls, st⟩ hst
    refine (holdings_nodup h).of_map.sublist ?_
    rw [streamOf_entries]
    have hlt : st < catalog.length := by
      have hget := List.mem_zipIdx_iff_getElem?.mp hst
      exact (List.getElem?_eq_some_iff.mp hget).1
    refine List.Sublist.append ?_ (List.filter_sublist.flatMap _)
    exact List.sublist_flatten_of_mem (List.mem_map_of_mem (List.mem_range.mpr hlt))
  · have hpair : catalog.zipIdx.Pairwise (fun x y => x.2 ≠ y.2) := by
      have hsnd : (catalog.zipIdx.map Prod.snd).Nodup := by
        rw [List.zipIdx_map_snd]
        exact List.nodup_range'
      exact List.pairwise_map.mp hsnd
    refine hpair.imp (fun {x y} hne e he he' => ?_)
    exact hne ((stream_key h he).2.symm.trans (stream_key h he').2)

end Inv

section Runs

variable [DecidableEq L] {S : Schema L LabelSet} {opts : Options}

def batchOf : Action L → List L
  | .append batch => batch
  | .refused batch => batch
  | .failedLog batch _ => batch
  | .failedSync batch => batch
  | .crashLogging batch _ => batch
  | _ => []

def Serves : Action L → Prop
  | .failedLog _ _ => False
  | .failedSync _ => False
  | .expire _ => False
  | _ => True

def Interrupted (a : Action L) : Prop := ∃ batch cut, a = .crashLogging batch cut

def Serving (S : Schema L LabelSet) (labels : Finset LabelSet) (_ : State L LabelSet)
    (a : Action L) : Prop :=
  Serves a ∧ ∀ l ∈ batchOf a, S.labels l ∈ labels

def Whole (S : Schema L LabelSet) (labels : Finset LabelSet) (s : State L LabelSet)
    (a : Action L) : Prop :=
  Serving S labels s a ∧ ¬ Interrupted a

variable {a : Action L} {catalog : List LabelSet}

omit [DecidableEq L] in
theorem Serving.clean (h : Serving S labels s a) : Clean S opts s a := by
  intro wal mem _
  cases a with
  | failedLog batch cut => exact h.1.elim
  | expire k => exact h.1.elim
  | _ => trivial

/-- What a step leaves: the catalog may grow by the streams of its batch, whatever is stored was
stored or is of the batch, and no acknowledgement is lost. -/
structure Leaves (S : Schema L LabelSet) (opts : Options) (s : State L LabelSet) (a : Action L)
    (s' : State L LabelSet) : Prop where
  catalog : s'.catalog = s.catalog ∨ s'.catalog = (streamsFor S opts s.catalog (batchOf a)).2
  stored : ∀ e, Stored S s'.chunks (State.dir s') e → Stored S s.chunks (State.dir s) e ∨
    e.log ∈ batchOf a ∧ (¬ Interrupted a → e ∈ s'.live)
  live : s.live ⊆ s'.live

theorem leaves_step {s' : State L LabelSet} (h : Inv S opts s) (ha : Serves a)
    (hstep : step S opts s a = some s') : Leaves S opts s a s' := by
  obtain ⟨catalog, chunks, process, live, gone⟩ := s
  cases a with
  | append batch =>
    simp only [step] at hstep
    split at hstep
    next wal seq heads published =>
      obtain ⟨hguard, rfl⟩ := Option.ite_some_none_eq_some.mp hstep
      obtain ⟨hp, htop⟩ := prepare_ready S opts catalog seq batch hguard.2.1
      obtain ⟨hdisk, hmem, -, -⟩ := inv_up_iff.mp h
      obtain ⟨-, -, hwal⟩ := hdisk.written hmem.newest hmem.bounded hp htop hguard.2.1 _ _ rfl
      refine ⟨Or.inr rfl, fun e he => ?_, List.subset_append_left _ _⟩
      rcases stored_written hwal he with he | he
      · exact Or.inl he
      · exact Or.inr ⟨(mem_entriesFrom he).2.1, fun _ => List.mem_append_right _ he⟩
    next => cases hstep
  | refused batch =>
    simp only [step] at hstep
    split at hstep
    next wal seq heads published =>
      obtain ⟨-, rfl⟩ := Option.ite_some_none_eq_some.mp hstep
      exact ⟨Or.inr rfl, fun e he => Or.inl he, List.Subset.refl _⟩
    next => cases hstep
  | failedLog batch cut | failedSync batch | expire k => exact ha.elim
  | crashLogging batch cut =>
    simp only [step] at hstep
    split at hstep
    next wal seq heads published =>
      obtain ⟨hguard, rfl⟩ := Option.ite_some_none_eq_some.mp hstep
      obtain ⟨hp, htop⟩ := prepare_ready S opts catalog seq batch hguard.2.1
      obtain ⟨q, hq, -, hrecs, hsub⟩ := ready_cut hp (wholeBefore_initial _ cut)
      obtain ⟨hdisk, hmem, -, -⟩ := inv_up_iff.mp h
      obtain ⟨-, -, hwal⟩ := hdisk.written hmem.newest hmem.bounded hq
        (fun e he => htop e (hsub.subset he)) hguard.2.1 _ _ rfl
      refine ⟨Or.inr rfl, fun e he => ?_, List.Subset.refl _⟩
      rw [hrecs] at hwal
      rcases stored_written hwal he with he | he
      · exact Or.inl he
      · exact Or.inr ⟨(mem_entriesFrom (hsub.subset he)).2.1, fun hnot => (hnot ⟨_, _, rfl⟩).elim⟩
    next => cases hstep
  | sealBegin st =>
    simp only [step] at hstep
    split at hstep
    next =>
      split at hstep
      next => cases hstep
      next =>
        obtain rfl := Option.some.inj hstep
        exact ⟨Or.inl rfl, fun e he => Or.inl he, List.Subset.refl _⟩
    next => cases hstep
  | sealWrite =>
    simp only [step] at hstep
    split at hstep
    next wal seq heads published st day group groups =>
      obtain rfl := Option.some.inj hstep
      obtain ⟨-, hmem, -, -⟩ := inv_up_iff.mp h
      obtain ⟨-, hgroups⟩ : (∀ k, blocksAt published k = blocksAt chunks k) ∧
        (day, group) :: groups = dayGroups (sortedEntries (heads st)) := hmem.phase
      have hgroup := mem_group (hmem.headNodup st) hgroups
      refine ⟨Or.inl rfl, fun e he => Or.inl (stored_addBlock (fun e he => ?_) he),
        List.Subset.refl _⟩
      exact hmem.head_stored ((hgroup e).mp he).1
    next => cases hstep
  | publish | sealAbort | sealEnd | crash =>
    simp only [step] at hstep
    split at hstep
    next =>
      obtain rfl := Option.some.inj hstep
      exact ⟨Or.inl rfl, fun e he => Or.inl he, List.Subset.refl _⟩
    next => cases hstep
  | truncate k | crashTruncating k =>
    simp only [step] at hstep
    split at hstep
    next =>
      obtain rfl := Option.some.inj hstep
      exact ⟨Or.inl rfl, fun e he => Or.inl (stored_pruned he), List.Subset.refl _⟩
    next => cases hstep
  | reopen =>
    simp only [step] at hstep
    split at hstep
    next d =>
      obtain ⟨top, heads, hrecover, -⟩ := inv_reopen h
      rw [hrecover] at hstep
      obtain rfl := Option.some.inj hstep
      exact ⟨Or.inl rfl, fun e he => Or.inl (stored_openLog he), List.Subset.refl _⟩
    next => cases hstep

omit [DecidableEq L] in
/-- While the labels are of a set that fits, a catalog within it takes the next ones as they are. -/
theorem streamFor_within (hfit : labels.card ≤ opts.maxStreams) (hn : catalog.Nodup)
    (hin : ∀ ls ∈ catalog, ls ∈ labels) (hls : ls ∈ labels) :
    (streamFor S opts catalog ls).2.Nodup ∧
      (∀ x ∈ (streamFor S opts catalog ls).2, x ∈ labels) ∧
        ls ∈ (streamFor S opts catalog ls).2 := by
  have hfull : opts.maxStreams ≤ catalog.length → ls ∈ catalog := by
    intro hmax
    have hsub : catalog.toFinset ⊆ labels := fun x hx => hin x (List.mem_toFinset.mp hx)
    have heq : catalog.toFinset = labels := by
      refine Finset.eq_of_subset_of_card_le hsub ?_
      rw [List.toFinset_card_of_nodup hn]
      exact hfit.trans hmax
    rw [← heq] at hls
    exact List.mem_toFinset.mp hls
  unfold streamFor
  by_cases hmem : ls ∈ catalog
  · rw [if_pos hmem]
    exact ⟨hn, hin, hmem⟩
  · rw [if_neg hmem, if_neg (fun hmax => hmem (hfull hmax))]
    refine ⟨?_, ?_, by simp⟩
    · exact hn.append (List.nodup_singleton _) (List.disjoint_singleton.mpr hmem)
    · exact List.forall_mem_append.mpr ⟨hin, List.forall_mem_singleton.mpr hls⟩

omit [DecidableEq L] in
theorem streamsFor_within (hfit : labels.card ≤ opts.maxStreams) (hn : catalog.Nodup)
    (hin : ∀ ls ∈ catalog, ls ∈ labels) {batch : List L}
    (hbatch : ∀ l ∈ batch, S.labels l ∈ labels) :
    (streamsFor S opts catalog batch).2.Nodup ∧
      ∀ x ∈ (streamsFor S opts catalog batch).2, x ∈ labels := by
  induction batch generalizing catalog with
  | nil => exact ⟨hn, hin⟩
  | cons l rest ih =>
    obtain ⟨hn', hin', -⟩ := streamFor_within hfit hn hin (hbatch l List.mem_cons_self)
    exact ih hn' hin' (List.forall_mem_cons.mp hbatch).2

structure Known (S : Schema L LabelSet) (labels : Finset LabelSet)
    (s : State L LabelSet) : Prop where
  nodup : s.catalog.Nodup
  within : ∀ ls ∈ s.catalog, ls ∈ labels
  stored : ∀ e, Stored S s.chunks (State.dir s) e → S.labels e.log ∈ labels

theorem known_run (hfit : labels.card ≤ opts.maxStreams) (h : Reached S opts (Serving S labels) s) :
    Known S labels s := by
  induction h with
  | init =>
    exact ⟨List.nodup_nil, fun ls hls => (by cases hls), fun e he => absurd he (not_stored_init e)⟩
  | @step s s' a hbefore ha hstep ih =>
    have hinv := inv_run (hbefore.weaken (fun _ _ h => h.clean))
    have hleaves := leaves_step hinv ha.1 hstep
    have hgrown := streamsFor_within hfit ih.nodup ih.within ha.2
    have hcatalog : s'.catalog.Nodup ∧ ∀ ls ∈ s'.catalog, ls ∈ labels := by
      rcases hleaves.catalog with heq | heq
      · rw [heq]
        exact ⟨ih.nodup, ih.within⟩
      · rw [heq]
        exact hgrown
    refine ⟨hcatalog.1, hcatalog.2, fun e he => ?_⟩
    rcases hleaves.stored e he with he | ⟨he, -⟩
    · exact ih.stored e he
    · exact ha.2 e.log he

/-- Every stored log is acknowledged, if no crash came into an append. -/
theorem stored_live (h : Reached S opts (Whole S labels) s) :
    ∀ e, Stored S s.chunks (State.dir s) e → e ∈ s.live := by
  induction h with
  | init => exact fun e he => absurd he (not_stored_init e)
  | @step s s' a hbefore ha hstep ih =>
    have hinv := inv_run (hbefore.weaken (fun _ _ h => h.1.clean))
    have hleaves := leaves_step hinv ha.1.1 hstep
    intro e he
    rcases hleaves.stored e he with he | ⟨-, he⟩
    · exact hleaves.live (ih e he)
    · exact he ha.2

/-- Where the labels fit, every log is in the stream of its own. -/
theorem own_run {C : Coding L} (hfit : labels.card ≤ opts.maxStreams)
    (h : Reached C.schema opts (Serving C.schema labels) s) (rawLen : List (Entry L) → ℕ) :
    Own C.toDecoded (streamsOf rawLen s) := by
  have hknown := known_run hfit h
  have hinv := inv_run (h.weaken (fun _ _ ha => ha.clean))
  obtain ⟨catalog, chunks, process, live, gone⟩ := s
  cases process with
  | down d =>
    intro st hst
    cases hst
  | up wal mem =>
    intro st hst e he
    obtain ⟨⟨ls, i⟩, hi, rfl⟩ := List.mem_map.mp hst
    obtain ⟨hstored, hst⟩ := stream_key hinv he
    have hmem : C.schema.labels e.log ∈ catalog := by
      have hin := (streamFor_within (S := C.schema) hfit hknown.nodup hknown.within
        (hknown.stored e hstored)).2.2
      rwa [(inv_up_iff.mp hinv).1.settled e hstored] at hin
    unfold streamFor at hst
    rw [if_pos hmem] at hst
    change catalog.idxOf (C.schema.labels e.log) = i at hst
    have hget : catalog[i]? = some ls := List.mem_zipIdx_iff_getElem?.mp hi
    rw [← hst, List.getElem?_idxOf hmem] at hget
    exact Option.some.inj hget

/-- In every run whose labels fit, a search with UTF-8 attribute patterns and a budget for all
blocks comes to an end, and its pages list exactly the logs in the store that are in the window
and satisfy the query, in search order. The store holds every acknowledged log once, and no other
unless a crash interrupted an append. -/
theorem search_finds_all (C : Coding L) (labels : Finset LabelSet)
    (hfit : labels.card ≤ opts.maxStreams) (s : State L LabelSet)
    (h : Reached C.schema opts (Serving C.schema labels) s) (wal : Wal (List Record))
    (mem : Memory L) (hup : s.process = .up wal mem) (lib : Lib F) (rawLen : List (Entry L) → ℕ)
    (q : Option (Node F)) (hq : ∀ s ∈ queryPatterns q, Valid s) :
    (∃ view : Streams L, view.list = streamsOf rawLen s ∧
      ∀ r : Request L, r.content = contentOf lib C.toDecoded q view → Unlimited r →
        (∃ calls a, Following r calls ∧ calls.getLast? = some a ∧ (a.page r).cursor = none) ∧
        ∀ calls a, Following r calls → calls.getLast? = some a → (a.page r).cursor = none →
          logsOf r calls = sortBy (fun e => r.order.pos e.key) ((holdings s).filter (fun e =>
            decide (r.lo ≤ e.ts ∧ e.ts ≤ r.hi) && compileQuery lib q (C.log e.log)))) ∧
      (∀ e ∈ s.live, (holdings s).count e = 1) ∧
      (Reached C.schema opts (Whole C.schema labels) s → ∀ e ∈ holdings s, e ∈ s.live) := by
  have hinv := inv_run (h.weaken (fun _ _ ha => ha.clean))
  have hown := own_run hfit h rawLen
  have hintact := intact_of_inv hinv hup
  obtain ⟨catalog, chunks, process, live, gone⟩ := s
  subst hup
  have hmem := mem_streamsOf hinv rawLen
  let view : Streams L :=
    { list := streamsOf rawLen ⟨catalog, chunks, .up wal mem, live, gone⟩
      distinct := keys_nodup (streams_nodup hinv)
      numbered := fun e he =>
        (inv_up_iff.mp hinv).1.numbered e (stored_of_held hinv ((hmem e).mp he)) }
  refine ⟨⟨view, rfl, fun r hr hbudget => ⟨?_, ?_⟩⟩, hintact.live, ?_⟩
  · exact exists_last r (fun a ha => not_standing hbudget ha)
  · intro calls a hcalls ha hend
    rw [(following_found lib C.toDecoded q hq view r hr hcalls ha).2 hend,
      found_own lib C.toDecoded q hown]
    refine ascending_ext (ascending_filter _ (keys_nodup (streams_nodup hinv)) _)
      (ascending_filter _ (keys_nodup (holdings_nodup hinv)) _) (fun e => ?_)
    rw [mem_sortBy, mem_sortBy, List.mem_filter, List.mem_filter, hmem e]
  · intro hwhole e he
    exact stored_live hwhole e (stored_of_held hinv he)

end Runs

def accentedCoding : Coding Unit where
  toDecoded := accented
  encode := plain.encodeLog
  decode := plain.decodeLog
  decode_encode := plain.decode_encode

def accentedEntry : Entry Unit := ⟨1700000000000, 1, ()⟩

/-- The log is appended, and its stream sealed. -/
theorem accented_sealed : ∃ wal, Reached accentedCoding.schema usual
    (Serving accentedCoding.schema {labelsOf accentedLog})
    ⟨[labelsOf accentedLog], addBlock ∅ (0, 19675) [accentedEntry],
      .up wal ⟨1, Function.update (Function.update (fun _ => Head.empty) 0 ⟨[accentedEntry], 0⟩) 0
        ⟨[], 0⟩, addBlock ∅ (0, 19675) [accentedEntry], .sealing 0 []⟩, [accentedEntry], []⟩ := by
  have hquiet : ∀ {s : State Unit LabelSet} {a : Action Unit}, Serves a → batchOf a = [] →
      Serving accentedCoding.schema {labelsOf accentedLog} s a := by
    intro s a ha hbatch
    refine ⟨ha, fun l hl => ?_⟩
    rw [hbatch] at hl
    cases hl
  have h₁ := Reached.step (a := .reopen)
    (Reached.init : Reached accentedCoding.schema usual _ _) (hquiet trivial rfl) rfl
  have h₂ := Reached.step (a := .append [()]) h₁ ⟨trivial, fun l _ => Finset.mem_singleton.mpr rfl⟩
    (if_pos ⟨by simp, by decide, first_writable⟩)
  have h₃ := Reached.step (a := .sealBegin 0) h₂ (hquiet trivial rfl) rfl
  have h₄ := Reached.step (a := .sealWrite) h₃ (hquiet trivial rfl) rfl
  have h₅ := Reached.step (a := .publish) h₄ (hquiet trivial rfl) rfl
  exact ⟨_, h₅⟩

/-- A search of the sealed stream for the last two letters of the word. -/
theorem accented_finds : ∃ s : State Unit LabelSet, accentedEntry ∈ s.live ∧
    ∃ view : Streams Unit, view.list = streamsOf (fun _ => 100) s ∧
      ∀ r : Request Unit, r.content = contentOf plainLib accented (containing [0x62, 0x63]) view →
        Unlimited r → ∃ calls a, Following r calls ∧ calls.getLast? = some a ∧
          (a.page r).cursor = none := by
  obtain ⟨wal, h⟩ := accented_sealed
  obtain ⟨⟨view, hview, hr⟩, -⟩ := search_finds_all accentedCoding {labelsOf accentedLog}
    (by decide) _ h
    wal _ rfl plainLib (fun _ => 100) (containing [0x62, 0x63]) letters_valid
  exact ⟨_, List.mem_singleton.mpr rfl, view, hview, fun r hc hbudget => (hr r hc hbudget).1⟩

/-- A search for the second byte of the accented letter and the letters after it ends without the
log, which is acknowledged, in the store, and satisfies the query. -/
theorem sealed_log_missed : ∃ s : State Unit LabelSet,
    Reached accentedCoding.schema usual (Serving accentedCoding.schema {labelsOf accentedLog}) s ∧
      accentedEntry ∈ s.live ∧ accentedEntry ∈ holdings s ∧
      streamsOf (fun _ => 100) s = accentedStreams.list ∧
      compileQuery plainLib (containing [0xA9, 0x62, 0x63]) accentedLog = true ∧
      Unlimited (accentedRequest (containing [0xA9, 0x62, 0x63])) ∧
      Following (accentedRequest (containing [0xA9, 0x62, 0x63]))
        [accentedCall (containing [0xA9, 0x62, 0x63])] ∧
      ((accentedCall (containing [0xA9, 0x62, 0x63])).page
        (accentedRequest (containing [0xA9, 0x62, 0x63]))).cursor = none ∧
      logsOf (accentedRequest (containing [0xA9, 0x62, 0x63]))
        [accentedCall (containing [0xA9, 0x62, 0x63])] = [] := by
  obtain ⟨wal, h⟩ := accented_sealed
  have hbudget : Unlimited (accentedRequest (containing [0xA9, 0x62, 0x63])) := by
    change (100 : ℤ) ≤ 1000
    decide
  exact ⟨_, h, List.mem_singleton.mpr rfl, List.mem_singleton.mpr rfl,
    rfl, by decide +kernel, hbudget,
    accentedCall_following _, cut_character_page.1, cut_character_page.2⟩

end Ozymandias.LogFinds
