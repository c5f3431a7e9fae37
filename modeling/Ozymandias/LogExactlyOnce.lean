import Ozymandias.LogSteps

/-!
Runs of the log store. In every run that keeps clear of the two failures, an
opening after a crash succeeds, and the store then holds every acknowledged log
that was not deleted exactly once, none that was deleted, no two logs of one
number, and numbers the next batch above them all. A chunk that is deleted while
the log still holds its entries comes back with the next opening.
-/
namespace Ozymandias.LogExactlyOnce

open WalFrame WalLog LogRecords LogSearch LogStore LogStreams
  LogRecovery LogSteps TimeMerge Peaks

variable {Log Label : Type} [DecidableEq Label] {S : Schema Log Label} {opts : Options}
  {catalog : List Label} {chunks : Chunks Log} {wal : Wal (List Record)} {d : Dir (List Record)}
  {mem : Memory Log} {seq : ℕ} {heads : Heads Log} {published : Chunks Log}
  {live gone : List (Entry Log)}

section Runs

variable [DecidableEq Log]

/-- No call of the log fails after a complete record, and no chunk is deleted while the log holds an
entry of it. -/
def Clean (S : Schema Log Label) (opts : Options) (s : State Log Label) (a : Action Log) : Prop :=
  ∀ wal mem, s.process = .up wal mem →
    match a with
    | .failedLog batch cut => wholeBefore (prepare S opts s.catalog mem.seq batch).records cut = []
    | .expire k => ∀ e ∈ (blocksAt s.chunks k).flatten, ∀ n, (n, e) ∉ walEntries S wal.dir
    | _ => True

inductive Reached (S : Schema Log Label) (opts : Options)
    (Allowed : State Log Label → Action Log → Prop) : State Log Label → Prop
  | init : Reached S opts Allowed State.init
  | step {s s' : State Log Label} {a : Action Log} (h : Reached S opts Allowed s)
      (ha : Allowed s a) (hstep : step S opts s a = some s') : Reached S opts Allowed s'

variable {e : Entry Log} {s : State Log Label}

theorem Reached.weaken {P Q : State Log Label → Action Log → Prop} (h : Reached S opts P s)
    (hPQ : ∀ s a, P s a → Q s a) : Reached S opts Q s := by
  induction h with
  | init => exact Reached.init
  | step _ ha hstep ih => exact Reached.step ih (hPQ _ _ ha) hstep

omit [DecidableEq Log] [DecidableEq Label] in
theorem not_stored_init (e : Entry Log) : ¬ Stored S (∅ : Chunks Log) Dir.empty e := by
  rintro (⟨n, hn⟩ | ⟨k, hk⟩)
  · cases hn
  · cases hk

omit [DecidableEq Log] in
theorem inv_init : Inv S opts (State.init : State Log Label) := by
  refine inv_down_iff.mpr ⟨⟨?_, rfl, List.nodup_nil, ?_, ?_, ?_, ?_, ?_, ?_, ?_⟩, ?_, ?_⟩
  · exact nofun
  · intro k
    exact List.nodup_nil
  · exact nofun
  · exact fun e he => absurd he (not_stored_init e)
  · exact fun e _ he => absurd he (not_stored_init e)
  · exact fun e he => absurd he (not_stored_init e)
  · exact fun e he => absurd he (not_stored_init e)
  · exact nofun
  · exact nofun
  · exact nofun

theorem inv_step {s' : State Log Label} {a : Action Log} (h : Inv S opts s)
    (hclean : Clean S opts s a) (hstep : step S opts s a = some s') : Inv S opts s' := by
  obtain ⟨catalog, chunks, process, live, gone⟩ := s
  cases a with
  | append batch =>
    simp only [step] at hstep
    split at hstep
    next wal seq heads published =>
      obtain ⟨hguard, rfl⟩ := Option.ite_some_none_eq_some.mp hstep
      obtain ⟨hp, htop⟩ := prepare_ready S opts catalog seq batch hguard.2.1
      exact inv_append h hp htop (Nat.le_add_right _ _) hguard.2.1
    next => cases hstep
  | refused batch =>
    simp only [step] at hstep
    split at hstep
    next wal seq heads published =>
      obtain ⟨hguard, rfl⟩ := Option.ite_some_none_eq_some.mp hstep
      obtain ⟨-, hmem, -, -⟩ := inv_up_iff.mp h
      exact inv_same h (streamsFor_spec S opts catalog batch).1 hmem.newest rfl rfl hmem.phase
    next => cases hstep
  | failedLog batch cut =>
    simp only [step] at hstep
    split at hstep
    next wal seq heads published =>
      obtain ⟨hguard, rfl⟩ := Option.ite_some_none_eq_some.mp hstep
      have hcut : wholeBefore (prepare S opts catalog seq batch).records cut = [] :=
        hclean _ _ rfl
      rw [hcut]
      exact inv_failedLog h (streamsFor_spec S opts catalog batch).1 _
    next => cases hstep
  | failedSync batch =>
    simp only [step] at hstep
    split at hstep
    next wal seq heads published =>
      obtain ⟨hguard, rfl⟩ := Option.ite_some_none_eq_some.mp hstep
      obtain ⟨hp, htop⟩ := prepare_ready S opts catalog seq batch hguard.2.1
      exact inv_written h hp htop (Nat.le_add_right _ _) hguard.2.1 _
    next => cases hstep
  | crashLogging batch cut =>
    simp only [step] at hstep
    split at hstep
    next wal seq heads published =>
      obtain ⟨hguard, rfl⟩ := Option.ite_some_none_eq_some.mp hstep
      obtain ⟨hp, htop⟩ := prepare_ready S opts catalog seq batch hguard.2.1
      exact inv_crashLogging h hp htop (Nat.le_add_right _ _) hguard.2.1 cut
    next => cases hstep
  | sealBegin st =>
    simp only [step] at hstep
    split at hstep
    next wal seq heads published =>
      split at hstep
      next => cases hstep
      next =>
        obtain rfl := Option.some.inj hstep
        exact inv_phase h ⟨(inv_up_iff.mp h).2.1.phase, rfl⟩
    next => cases hstep
  | sealWrite =>
    simp only [step] at hstep
    split at hstep
    next wal seq heads published st day group groups =>
      obtain rfl := Option.some.inj hstep
      exact inv_sealWrite h
    next => cases hstep
  | publish =>
    simp only [step] at hstep
    split at hstep
    next wal seq heads published st day group groups =>
      obtain rfl := Option.some.inj hstep
      exact inv_publish h
    next => cases hstep
  | sealAbort | sealEnd =>
    simp only [step] at hstep
    split at hstep
    next =>
      obtain rfl := Option.some.inj hstep
      have hphase := (inv_up_iff.mp h).2.1.phase
      exact inv_phase h hphase.1
    next => cases hstep
  | truncate k =>
    simp only [step] at hstep
    split at hstep
    next wal seq heads published =>
      obtain rfl := Option.some.inj hstep
      exact inv_truncate h k
    next => cases hstep
  | crashTruncating k =>
    simp only [step] at hstep
    split at hstep
    next wal seq heads published =>
      obtain rfl := Option.some.inj hstep
      exact inv_crash (inv_truncate h k)
    next => cases hstep
  | expire k =>
    simp only [step] at hstep
    split at hstep
    next wal seq heads published =>
      obtain ⟨-, rfl⟩ := Option.ite_some_none_eq_some.mp hstep
      exact inv_expire h (hclean _ _ rfl)
    next => cases hstep
  | crash =>
    simp only [step] at hstep
    split at hstep
    next wal mem =>
      obtain rfl := Option.some.inj hstep
      exact inv_crash h
    next => cases hstep
  | reopen =>
    simp only [step] at hstep
    split at hstep
    next d =>
      obtain ⟨top, heads, hrecover, hinv⟩ := inv_reopen h
      rw [hrecover] at hstep
      obtain rfl := Option.some.inj hstep
      exact hinv
    next => cases hstep

theorem inv_run (h : Reached S opts (Clean S opts) s) : Inv S opts s := by
  induction h with
  | init => exact inv_init
  | step _ ha hstep ih => exact inv_step ih ha hstep

/-- Everything that is in the store: the heads of its streams and the blocks it knows. -/
def holdings (s : State Log Label) : List (Entry Log) :=
  match s.process with
  | .down _ => []
  | .up _ mem => (List.range s.catalog.length).flatMap (fun st => (mem.heads st).entries) ++
      mem.published.entries.flatMap (fun c => c.2.flatten)

/-- Every live log is held once and no deleted one, and numbers are unique and rising. -/
structure Intact (S : Schema Log Label) (opts : Options) (s : State Log Label) : Prop where
  live : ∀ e ∈ s.live, (holdings s).count e = 1
  gone : ∀ e ∈ s.gone, e ∉ holdings s
  distinct : ((holdings s).map Entry.seq).Nodup
  above : ∀ wal mem, s.process = .up wal mem → ∀ batch,
    ∀ e' ∈ (prepare S opts s.catalog mem.seq batch).entries, ∀ e ∈ holdings s, e.seq < e'.seq

omit [DecidableEq Log] [DecidableEq Label] in
theorem blocksAt_of_mem {p : Σ _ : ChunkKey, List (List (Entry Log))} (h : p ∈ chunks.entries) :
    blocksAt chunks p.1 = p.2 := by
  have hlookup : chunks.lookup p.1 = some p.2 := AList.mem_lookup_iff.mpr h
  unfold blocksAt
  rw [hlookup]
  rfl

omit [DecidableEq Log] [DecidableEq Label] in
theorem mem_blocks {c : Chunks Log} :
    e ∈ c.entries.flatMap (fun c => c.2.flatten) ↔ ∃ k, e ∈ (blocksAt c k).flatten := by
  constructor
  · intro he
    obtain ⟨p, hmem, he⟩ := List.mem_flatMap.mp he
    rw [← blocksAt_of_mem hmem] at he
    exact ⟨p.1, he⟩
  · rintro ⟨k, he⟩
    exact List.mem_flatMap.mpr ⟨⟨k, _⟩, AList.mem_lookup_iff.mp (lookup_of_mem he), he⟩

section Held

omit [DecidableEq Log]
variable (h : Inv S opts ⟨catalog, chunks, .up wal mem, live, gone⟩)
include h

/-- What is published is on disk, and what is on disk is published or still in a head. -/
theorem published_of_phase (k : ChunkKey) :
    (blocksAt mem.published k).flatten.Sublist (blocksAt chunks k).flatten ∧
      ∀ e ∈ (blocksAt chunks k).flatten,
        e ∈ (blocksAt mem.published k).flatten ∨ e ∈ (mem.heads k.1).entries := by
  obtain ⟨-, hmem, -, -⟩ := inv_up_iff.mp h
  rcases blocks_published hmem.phase k with heq | ⟨group, groups, hgroups, heq⟩
  · rw [heq]
    exact ⟨List.Sublist.refl _, fun _ => Or.inl⟩
  · rw [heq, List.flatten_append, List.flatten_singleton]
    refine ⟨List.sublist_append_left _ _, fun e he => ?_⟩
    rcases List.mem_append.mp he with he | he
    · exact Or.inl he
    · exact Or.inr ((mem_group (hmem.headNodup k.1) hgroups e).mp he).1

theorem mem_holdings (e : Entry Log) :
    e ∈ holdings (⟨catalog, chunks, .up wal mem, live, gone⟩ : State Log Label) ↔
      (∃ st, e ∈ (mem.heads st).entries) ∨ ∃ k, e ∈ (blocksAt mem.published k).flatten := by
  obtain ⟨hdisk, hmem, -, -⟩ := inv_up_iff.mp h
  unfold holdings
  rw [List.mem_append, mem_blocks]
  refine or_congr_left ?_
  rw [List.mem_flatMap]
  constructor
  · rintro ⟨st, -, he⟩
    exact ⟨st, he⟩
  · rintro ⟨st, he⟩
    exact ⟨st, List.mem_range.mpr (hmem.stream_lt hdisk he), he⟩

/-- A held entry is on disk, too. -/
theorem stored_of_held
    (he : e ∈ holdings (⟨catalog, chunks, .up wal mem, live, gone⟩ : State Log Label)) :
    Stored S chunks wal.dir e := by
  rcases (mem_holdings h e).mp he with ⟨st, he⟩ | ⟨k, he⟩
  · exact (inv_up_iff.mp h).2.1.head_stored he
  · exact Or.inr ⟨k, (published_of_phase h k).1.subset he⟩

theorem holdings_nodup :
    ((holdings (⟨catalog, chunks, .up wal mem, live, gone⟩ : State Log Label)).map
      Entry.seq).Nodup := by
  obtain ⟨hdisk, hmem, -, -⟩ := inv_up_iff.mp h
  refine List.Nodup.map_on (fun e he e' he' =>
    hdisk.unique e e' (stored_of_held h he) (stored_of_held h he')) (List.Nodup.append ?_ ?_ ?_)
  · refine List.nodup_flatMap.mpr ⟨fun st _ => (hmem.headNodup st).of_map, ?_⟩
    refine List.nodup_range.imp (fun {a b} hne e he he' => ?_)
    exact hne ((hmem.headOf a e he).1.symm.trans (hmem.headOf b e he').1)
  · have hin : ∀ c ∈ mem.published.entries, c.2.flatten.Sublist (blocksAt chunks c.1).flatten := by
      intro c hc
      rw [← blocksAt_of_mem hc]
      exact (published_of_phase h c.1).1
    refine List.nodup_flatMap.mpr ⟨fun c hc => (hdisk.blockNodup c.1).of_map.sublist (hin c hc), ?_⟩
    refine (List.nodupKeys_iff_pairwise.mp mem.published.nodupKeys).imp_of_mem
      (fun {a b} ha hb hne e he he' => ?_)
    have hkey := hdisk.keyed _ e ((hin a ha).subset he)
    exact hne (hkey.symm.trans (hdisk.keyed _ e ((hin b hb).subset he')))
  · intro e he he'
    obtain ⟨st, -, he⟩ := List.mem_flatMap.mp he
    obtain ⟨k, hk⟩ := mem_blocks.mp he'
    have hfresh := hmem.fresh st e he
    rw [hdisk.keyed k e ((published_of_phase h k).1.subset hk)] at hfresh
    exact lt_irrefl _ ((sealedUpTo_lt.mp hfresh).2 e hk)

end Held

/-- In every state of a clean run that is open, all is in order. -/
theorem intact_of_inv (h : Inv S opts s) (hup : s.process = .up wal mem) : Intact S opts s := by
  obtain ⟨catalog, chunks, process, live, gone⟩ := s
  subst hup
  obtain ⟨hdisk, hmem, hlive, hgone⟩ := inv_up_iff.mp h
  refine ⟨?_, ?_, holdings_nodup h, ?_⟩
  · intro e he
    refine List.count_eq_one_of_mem (List.Nodup.of_map _ (holdings_nodup h)) ?_
    rw [mem_holdings h]
    rcases hlive e he with hk | hh
    · rcases (published_of_phase h _).2 e hk with hp | hh
      · exact Or.inr ⟨_, hp⟩
      · exact Or.inl ⟨_, hh⟩
    · exact Or.inl ⟨_, hh⟩
  · intro e he hheld
    exact hgone e he e (stored_of_held h hheld) rfl
  · intro wal' mem' hproc batch e' he' e he
    obtain ⟨rfl, rfl⟩ := Process.up.inj hproc
    have hle := hmem.bounded e (stored_of_held h he)
    have hlo := (mem_entriesFrom he').2.2.1
    omega

theorem step_reopen {top : ℕ} (h : recover S opts catalog chunks d = .ok ⟨catalog, top, heads⟩) :
    step S opts ⟨catalog, chunks, .down d, live, gone⟩ .reopen =
      some ⟨catalog, chunks, .up (openLog recordFiles opts.walSegmentSize d)
        ⟨top, heads, loadChunks catalog chunks, .idle⟩, live, gone⟩ := by
  simp only [step]
  rw [h]

/-- After a crash in a clean run the store opens, and all is in order. -/
theorem recovers_exactly_once {s : State Log Label} (h : Reached S opts (Clean S opts) s)
    (hdown : s.process = .down d) : ∃ s', step S opts s .reopen = some s' ∧ s'.live = s.live ∧
      s'.gone = s.gone ∧ Intact S opts s' := by
  have hinv := inv_run h
  obtain ⟨catalog, chunks, process, live, gone⟩ := s
  subst hdown
  obtain ⟨top, heads, hrecover, hopen⟩ := inv_reopen hinv
  exact ⟨_, step_reopen hrecover, rfl, rfl, intact_of_inv hopen rfl⟩

/-- Whenever the log still holds an entry of a chunk that is deleted, the next opening brings the
entry back. -/
theorem logged_chunk_returns
    (h : Inv S opts ⟨catalog, chunks, .up wal ⟨seq, heads, published, .idle⟩, live, gone⟩)
    {k : ChunkKey} {n : ℕ} (he : e ∈ (blocksAt chunks k).flatten)
    (hn : (n, e) ∈ walEntries S wal.dir) : ∃ s₁ s₂ s₃,
      step S opts ⟨catalog, chunks, .up wal ⟨seq, heads, published, .idle⟩,
        live, gone⟩ (.expire k) =
        some s₁ ∧ step S opts s₁ .crash = some s₂ ∧ step S opts s₂ .reopen = some s₃ ∧
      e ∈ s₃.gone ∧ e ∈ holdings s₃ := by
  obtain ⟨hdisk, hmem, -, -⟩ := inv_up_iff.mp h
  have hpub : (published.lookup k).isSome := by
    have hblocks : blocksAt published k = blocksAt chunks k := hmem.phase k
    rw [lookup_of_mem (by rw [hblocks]; exact he)]
    rfl
  obtain ⟨top, heads', hrecover, -, hheads⟩ := recover_spec (disk_erase hdisk k)
  have hkey : keyOf S opts catalog e = k := hdisk.keyed k e he
  have hsealed : sealedUpTo (chunks.erase k) (keyOf S opts catalog e) < e.seq := by
    refine sealedUpTo_lt.mpr ⟨(hdisk.numbered e (Or.inl ⟨n, hn⟩)).1, fun e' he' => ?_⟩
    rw [hkey] at he'
    exact absurd rfl (mem_erased.mp he').1
  have hhead : e ∈ (heads' (keyOf S opts catalog e).1).entries := by
    rw [(hheads _).1]
    exact List.mem_map.mpr ⟨(n, e), mem_unsealedIn.mpr ⟨hn, rfl, hsealed⟩, rfl⟩
  refine ⟨_, _, _, if_pos hpub, rfl, step_reopen hrecover, List.mem_append_right _ he, ?_⟩
  refine List.mem_append_left _ (List.mem_flatMap.mpr ⟨_, List.mem_range.mpr ?_, hhead⟩)
  exact streamFor_lt (hdisk.settled e (Or.inl ⟨n, hn⟩))

end Runs

def plain : Schema Unit Unit where
  ts _ := 1700000000000
  labels _ := ()
  overflow _ := ()
  overflow_overflow _ := rfl
  encodeLog _ := [123, 125]
  decodeLog _ := some ()
  decode_encode _ := rfl

def usual : Options := ⟨100000, 33554432⟩

def first : Entry Unit := ⟨1700000000000, 1, ()⟩

theorem first_records : (prepare plain usual [] 0 [()]).records =
      [⟨1, [0, 0, 0, 0, 0, 0, 0, 1, 1, 2, 123, 125]⟩] := by
  have hone : Varint.appendUvarint 1 = [1] := by
    rw [Varint.appendUvarint]
    rfl
  have htwo : Varint.appendUvarint 2 = [2] := by
    rw [Varint.appendUvarint]
    rfl
  change [(⟨1, putUint64 1 ++ Varint.appendUvarint 1 ++
    ((Varint.appendUvarint 2 ++ [123, 125]) ++ [])⟩ : Record)] = _
  rw [hone, htwo]
  rfl

theorem first_writable : ∀ r ∈ (prepare plain usual [] 0 [()]).records, r.Writable := by
  rw [first_records]
  decide

/-- A store with one log. -/
theorem appended : ∃ wal, Reached plain usual (Clean plain usual)
    ⟨[()], ∅, .up wal ⟨1, Function.update (fun _ => Head.empty) 0 ⟨[first], 0⟩, ∅, .idle⟩,
      [first], []⟩ := by
  have h₁ := Reached.step (a := .reopen)
    (Reached.init : Reached plain usual (Clean plain usual) _) (fun _ _ _ => trivial) rfl
  have h₂ := Reached.step (a := .append [()]) h₁ (fun _ _ _ => trivial)
    (if_pos ⟨by simp, by decide, first_writable⟩)
  exact ⟨_, h₂⟩

/-- The log survives a crash. -/
theorem appended_recovers : ∃ s s' : State Unit Unit, Reached plain usual (Clean plain usual) s ∧
    first ∈ s.live ∧ step plain usual s .reopen = some s' ∧ (holdings s').count first = 1 := by
  obtain ⟨wal, h⟩ := appended
  have hdown := Reached.step (a := .crash) h (fun _ _ _ => trivial) rfl
  obtain ⟨s', hstep, hlive, -, hintact⟩ := recovers_exactly_once hdown rfl
  refine ⟨_, s', hdown, List.mem_singleton.mpr rfl, hstep, hintact.live first ?_⟩
  rw [hlive]
  exact List.mem_singleton.mpr rfl

/-- The log is sealed into a block; its segment is the current one, which a truncation never takes.
Then its day is deleted, and after a crash the log is back. -/
theorem deleted_log_returns : ∃ s : State Unit Unit, Reached plain usual (fun _ _ => True) s ∧
    ∃ e ∈ s.gone, e ∈ holdings s := by
  obtain ⟨wal, h⟩ := appended
  obtain ⟨-, n, hn, -⟩ := ((inv_up_iff.mp (inv_run h)).2.1).headOf 0 first
    (List.mem_singleton.mpr rfl)
  have h₁ := Reached.step (a := .sealBegin 0) h (fun _ _ _ => trivial) rfl
  have h₂ := Reached.step (a := .sealWrite) h₁ (fun _ _ _ => trivial) rfl
  have h₃ := Reached.step (a := .publish) h₂ (fun _ _ _ => trivial) rfl
  have h₄ := Reached.step (a := .sealEnd) h₃ (fun _ _ _ => trivial) rfl
  have h₅ := Reached.step (a := .truncate 0) h₄ (fun _ _ _ => trivial) rfl
  obtain ⟨s₁, s₂, s₃, hexpire, hcrash, hreopen, hgone, hheld⟩ :=
    logged_chunk_returns (k := (0, 19675)) (inv_run h₅) (List.mem_singleton.mpr rfl) hn
  have hsealed := h₅.weaken (fun _ _ _ => trivial)
  exact ⟨s₃, .step (.step (.step hsealed trivial hexpire) trivial hcrash) trivial
    hreopen, first, hgone, hheld⟩

end Ozymandias.LogExactlyOnce
