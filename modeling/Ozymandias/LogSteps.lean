import Ozymandias.LogRecovery

/-!
The steps of the log store. Every one keeps the invariant, provided that a call
of the log that fails leaves no complete record, and that a chunk is deleted
only when none of its entries is left in the log. A directory is always one
that recovery can read, and recovery finds in it what the invariant says.
-/
namespace Ozymandias.LogSteps

open WalFrame WalLog WalSegments LogSearch LogStore LogStreams
  LogRecovery TimeMerge Peaks

variable {Log Label : Type} {S : Schema Log Label} {opts : Options} {catalog : List Label}
  {chunks : Chunks Log} {wal : Wal (List Record)} {d : Dir (List Record)} {mem : Memory Log}
  {seq : ℕ} {heads : Heads Log} {published : Chunks Log} {live gone : List (Entry Log)}
  {catalog' : List Label} {day : ℤ} {e : Entry Log} {group : List (Entry Log)}
  {groups : List (ℤ × List (Entry Log))} {k : ChunkKey} {p : Prepared Log Label}
  {phase : Phase Log} {st top : ℕ} {wal' : Wal (List Record)}

theorem mem_addBlock {k' : ChunkKey} : e ∈ (blocksAt (addBlock chunks k group) k').flatten ↔
      e ∈ (blocksAt chunks k').flatten ∨ k' = k ∧ e ∈ group := by
  rw [blocksAt_addBlock]
  split
  next heq => simp [heq]
  next hne => simp [hne]

theorem stored_addBlock (hgroup : ∀ e ∈ group, Stored S chunks d e)
    (he : Stored S (addBlock chunks k group) d e) : Stored S chunks d e := by
  rcases he with hn | ⟨k', hk'⟩
  · exact Or.inl hn
  · rcases mem_addBlock.mp hk' with hk' | ⟨-, he⟩
    · exact Or.inr ⟨k', hk'⟩
    · exact hgroup e he

theorem stored_pruned {safe k : ℕ} (he : Stored S chunks (pruned Record.frameSize d safe k) e) :
    Stored S chunks d e := by
  have hsub : (walEntries S (pruned Record.frameSize d safe k)).Sublist (walEntries S d) :=
    (tagged_pruned Record.frameSize d safe k).1.flatMap _
  rcases he with ⟨n, hn⟩ | hk
  · exact Or.inl ⟨n, hsub.subset hn⟩
  · exact Or.inr hk

theorem mem_erased {k' : ChunkKey} :
    e ∈ (blocksAt (chunks.erase k) k').flatten ↔ k' ≠ k ∧ e ∈ (blocksAt chunks k').flatten := by
  rw [blocksAt_erase]
  split
  next heq => simp [heq]
  next hne => simp [hne]

theorem stored_erased (he : Stored S (chunks.erase k) d e) :
    Stored S chunks d e := by
  rcases he with hn | ⟨k', hk'⟩
  · exact Or.inl hn
  · exact Or.inr ⟨k', (mem_erased.mp hk').2⟩

/-- Without checkpoints, what is replayed is the segments. -/
theorem replayed_eq (d : Dir (List Record)) (hcp : d.checkpoints.entries = []) :
    replayed d = (tagged d.segments).map (fun x => (segmentNumber (.segment x.1), x.2)) := by
  unfold replayed Dir.files tagged
  rw [hcp, List.map_nil, List.nil_append, List.flatMap_map, List.map_flatMap]
  simp only [List.map_map, Function.comp_def]

theorem entriesIn_replayed (hcp : d.checkpoints.entries = []) : entriesIn S (replayed d) =
      (walEntries S d).map (fun x => (segmentNumber (.segment x.1), x.2)) := by
  rw [replayed_eq d hcp]
  unfold walEntries entriesIn
  rw [List.flatMap_map, List.map_flatMap]
  simp only [List.map_map, Function.comp_def]

theorem walEntries_openLog (S : Schema Log Label) (size : ℤ) (d : Dir (List Record)) :
    walEntries S (openLog recordFiles size d).dir = walEntries S d :=
  congrArg (entriesIn S) (openLog_newest Record.frameSize d size).2.1

theorem stored_openLog {size : ℤ} (he : Stored S chunks (openLog recordFiles size d).dir e) :
    Stored S chunks d e := by
  unfold Stored at he
  rwa [walEntries_openLog] at he

variable [DecidableEq Label]

theorem inv_up_iff : Inv S opts ⟨catalog, chunks, .up wal mem, live, gone⟩ ↔
    DiskInv S opts catalog chunks wal.dir ∧ MemoryInv S opts catalog chunks wal mem ∧
      (∀ e ∈ live, e ∈ (blocksAt chunks (keyOf S opts catalog e)).flatten ∨
        e ∈ (mem.heads (keyOf S opts catalog e).1).entries) ∧
      ∀ e ∈ gone, ∀ e', Stored S chunks wal.dir e' → e'.seq ≠ e.seq := by
  constructor
  · intro h
    exact ⟨h.disk, h.memory wal mem rfl, h.live, h.gone⟩
  · rintro ⟨hdisk, hmem, hlive, hgone⟩
    refine ⟨hdisk, ?_, hlive, hgone⟩
    intro w m heq
    obtain ⟨rfl, rfl⟩ := Process.up.inj heq
    exact hmem

theorem inv_down_iff : Inv S opts ⟨catalog, chunks, .down d, live, gone⟩ ↔
    DiskInv S opts catalog chunks d ∧
      (∀ e ∈ live, e ∈ (blocksAt chunks (keyOf S opts catalog e)).flatten ∨
        (∃ n, (n, e) ∈ walEntries S d) ∧ sealedUpTo chunks (keyOf S opts catalog e) < e.seq) ∧
      ∀ e ∈ gone, ∀ e', Stored S chunks d e' → e'.seq ≠ e.seq := by
  constructor
  · intro h
    exact ⟨h.disk, h.live, h.gone⟩
  · rintro ⟨hdisk, hlive, hgone⟩
    exact ⟨hdisk, fun w m heq => (nomatch heq), hlive, hgone⟩

theorem reused_nil (gone : List (Entry Log)) : reused gone [] = gone :=
  List.filter_eq_self.mpr (fun _ _ => by simp)

theorem reused_sub {entries entries' : List (Entry Log)} (h : entries' ⊆ entries)
    (he : e ∈ reused gone entries) : e ∈ reused gone entries' := by
  obtain ⟨hmem, hnot⟩ := List.mem_filter.mp he
  have hnot : e.seq ∉ entries.map Entry.seq := of_decide_eq_true hnot
  exact List.mem_filter.mpr ⟨hmem, decide_eq_true (fun hin => hnot (List.map_subset _ h hin))⟩

theorem sealedUpTo_congr {c c' : Chunks Log} (h : blocksAt c k = blocksAt c' k) :
    sealedUpTo c k = sealedUpTo c' k := by
  unfold sealedUpTo
  rw [h]

/-- The entries of a group are those of the head that are of its day. -/
theorem mem_group {h : Head Log} (hn : (h.entries.map Entry.seq).Nodup)
    (hgroups : (day, group) :: groups = dayGroups (sortedEntries h)) (e : Entry Log) :
    e ∈ group ↔ e ∈ h.entries ∧ dayOf e.ts = day := by
  rw [(dayGroups_spec hn hgroups 0).1, List.mem_filter, decide_eq_true_eq]
  unfold sortedEntries
  rw [mem_sortBy]

/-- Disk and memory agree on a chunk, unless a block of it is written and not published. -/
theorem blocks_published (h : PhaseInv chunks mem) (k : ChunkKey) :
    blocksAt mem.published k = blocksAt chunks k ∨
      ∃ group groups, (k.2, group) :: groups = dayGroups (sortedEntries (mem.heads k.1)) ∧
        blocksAt chunks k = blocksAt mem.published k ++ [group] := by
  unfold PhaseInv at h
  split at h
  next => exact Or.inl (h k)
  next => exact Or.inl (h k)
  next => exact Or.inl (h.1 k)
  next st day group groups hphase =>
    obtain ⟨hblocks, hgroups⟩ := h
    have hk := hblocks k
    split at hk
    next heq =>
      subst heq
      exact Or.inr ⟨group, groups, hgroups, hk⟩
    next => exact Or.inl hk.symm

section Up

variable (h : Inv S opts ⟨catalog, chunks, .up wal mem, live, gone⟩)
include h

/-- A step that leaves heads and chunks alone: the log may get some entries, the catalog some
streams. -/
theorem inv_quiet (hext : Extends S opts catalog catalog')
    (hdisk' : DiskInv S opts catalog' chunks wal'.dir)
    (hnew : Newest wal') (entries : List (Entry Log))
    (hbound : ∀ e, Stored S chunks wal'.dir e → e.seq ≤ top)
    (hkeep : ∀ st, ∀ e ∈ (mem.heads st).entries, ∀ n, (n, e) ∈ walEntries S wal.dir →
      (mem.heads st).seg ≤ n → (n, e) ∈ walEntries S wal'.dir)
    (hstored : ∀ e, Stored S chunks wal'.dir e → Stored S chunks wal.dir e ∨ e ∈ entries)
    (hphase : PhaseInv chunks ⟨top, mem.heads, mem.published, phase⟩) :
    Inv S opts ⟨catalog', chunks, .up wal' ⟨top, mem.heads, mem.published, phase⟩, live,
      reused gone entries⟩ := by
  obtain ⟨hdisk, hmem, hlive, hgone⟩ := inv_up_iff.mp h
  refine inv_up_iff.mpr ⟨hdisk', hmem.quiet hdisk hext hnew hbound hkeep hphase, ?_,
    reused_fresh hgone hstored⟩
  intro e he
  rw [h.live_key hext he]
  exact hlive e he

/-- A step after which the log has the same records. -/
theorem inv_same (hext : Extends S opts catalog catalog') (hnew : Newest wal')
    (htagged : tagged wal'.dir.segments = tagged wal.dir.segments)
    (hcp : wal'.dir.checkpoints = wal.dir.checkpoints)
    (hphase : PhaseInv chunks ⟨mem.seq, mem.heads, mem.published, phase⟩) :
    Inv S opts ⟨catalog', chunks, .up wal' ⟨mem.seq, mem.heads, mem.published, phase⟩,
      live, gone⟩ := by
  obtain ⟨hdisk, hmem, -, -⟩ := inv_up_iff.mp h
  have hwal : walEntries S wal'.dir = walEntries S wal.dir := congrArg (entriesIn S) htagged
  have hstored : ∀ e, Stored S chunks wal'.dir e → Stored S chunks wal.dir e := by
    intro e he
    unfold Stored at he
    rwa [hwal] at he
  have hdisk' : DiskInv S opts catalog' chunks wal'.dir :=
    (hdisk.grow hext).shrink (by rw [htagged]) (by rw [hcp]; exact hdisk.noCheckpoints)
  rw [← reused_nil gone]
  refine inv_quiet h hext hdisk' hnew [] (fun e he => hmem.bounded e (hstored e he)) ?_
    (fun e he => Or.inl (hstored e he)) hphase
  intro st e he n hn hle
  rwa [hwal]

/-- The phase alone changes. -/
theorem inv_phase (hphase : PhaseInv chunks ⟨mem.seq, mem.heads, mem.published, phase⟩) :
    Inv S opts ⟨catalog, chunks, .up wal ⟨mem.seq, mem.heads, mem.published, phase⟩, live, gone⟩ :=
  inv_same h (Extends.refl catalog) (inv_up_iff.mp h).2.1.newest rfl rfl hphase

/-- What a crash leaves of the acknowledged logs. -/
theorem live_crash : ∀ e ∈ live, e ∈ (blocksAt chunks (keyOf S opts catalog e)).flatten ∨
      (∃ n, (n, e) ∈ walEntries S wal.dir) ∧
        sealedUpTo chunks (keyOf S opts catalog e) < e.seq := by
  obtain ⟨-, hmem, hlive, -⟩ := inv_up_iff.mp h
  intro e he
  rcases hlive e he with hk | hh
  · exact Or.inl hk
  obtain ⟨-, n, hn, -⟩ := hmem.headOf _ e hh
  have hfresh := hmem.fresh _ e hh
  rcases blocks_published hmem.phase
    (keyOf S opts catalog e) with heq | ⟨group, groups, hgroups, heq⟩
  · rw [sealedUpTo_congr heq] at hfresh
    exact Or.inr ⟨⟨n, hn⟩, hfresh⟩
  · left
    rw [heq, List.flatten_append, List.flatten_singleton]
    exact List.mem_append_right _ ((mem_group (hmem.headNodup _) hgroups e).mpr ⟨hh, rfl⟩)

theorem inv_crash : Inv S opts ⟨catalog, chunks, .down wal.dir, live, gone⟩ := by
  obtain ⟨hdisk, -, -, hgone⟩ := inv_up_iff.mp h
  exact inv_down_iff.mpr ⟨hdisk, live_crash h, hgone⟩

end Up

/-- A call of the log that fails before its first record is complete. -/
theorem inv_failedLog
    (h : Inv S opts ⟨catalog, chunks, .up wal ⟨seq, heads, published, .idle⟩, live, gone⟩)
    (hext : Extends S opts catalog catalog') (recs : List Record) :
    Inv S opts ⟨catalog', chunks, .up ((wal.rollFor recordFiles recs).write recordFiles [])
        ⟨seq, heads, published, .idle⟩, live, gone⟩ := by
  obtain ⟨-, hmem, -, -⟩ := inv_up_iff.mp h
  obtain ⟨hroll, htagged, hcp⟩ := rollFor_newest Record.frameSize hmem.newest recs
  obtain ⟨hwrite, htagged', hcp'⟩ := write_newest Record.frameSize hroll []
  rw [htagged, List.map_nil, List.append_nil] at htagged'
  exact inv_same h hext hwrite htagged' (hcp'.trans hcp) hmem.phase

/-- The first records of a batch, as a batch of their own. -/
theorem ready_cut (hp : Ready S opts catalog seq p) {recs : List Record}
    (hpre : recs <+: p.records) :
    ∃ q, Ready S opts catalog seq q ∧ q.catalog = p.catalog ∧
      q.records = recs ∧ q.entries <+: p.entries := by
  obtain ⟨rest, hrest⟩ := hpre
  have hentries : recs.flatMap (recordEntries S) <+: p.entries := by
    rw [← hp.decodes, ← hrest, List.flatMap_append]
    exact List.prefix_append _ _
  refine ⟨⟨p.catalog, (recs.flatMap (recordEntries S)).map (fun e => (keyOf S opts p.catalog e).1),
    recs.flatMap (recordEntries S), recs⟩, ?_, rfl, rfl, hentries⟩
  refine ⟨hp.grows, fun e he => hp.settled e (hentries.subset he), ?_, ?_, rfl,
    hp.ascending.sublist hentries.sublist, fun e he => hp.above e (hentries.subset he),
    fun e he => hp.stamped e (hentries.subset he)⟩
  · rw [← List.map_prod_right_eq_zip]
  · intro r hr
    exact hp.coded r (by rw [← hrest]; exact List.mem_append_left _ hr)

section Batch

variable (h : Inv S opts ⟨catalog, chunks, .up wal ⟨seq, heads, published, .idle⟩, live, gone⟩)
  (hp : Ready S opts catalog seq p) (htop : ∀ e ∈ p.entries, e.seq ≤ top) (hseq : seq ≤ top)
  (hmax : top < maxUint64)
include h hp htop hseq hmax

theorem inv_append : Inv S opts ⟨p.catalog, chunks, .up (wal.commit recordFiles p.records)
        ⟨top, addAll heads (wal.commit recordFiles p.records).segment (p.streams.zip p.entries),
          published, .idle⟩, live ++ p.entries, reused gone p.entries⟩ := by
  obtain ⟨hdisk, hmem, hlive, hgone⟩ := inv_up_iff.mp h
  obtain ⟨hdisk', -, hwal⟩ := hdisk.written hmem.newest hmem.bounded hp htop hmax p.records
    (wal.commit recordFiles p.records) rfl
  refine inv_up_iff.mpr ⟨hdisk', hmem.append hdisk hp htop hseq hmax, ?_,
    reused_fresh hgone (fun e he => stored_written hwal he)⟩
  intro e he
  rw [(addAll_spec ..).1]
  rcases List.mem_append.mp he with he | he
  · rw [h.live_key hp.grows he]
    rcases hlive e he with hk | hh
    · exact Or.inl hk
    · exact Or.inr (List.mem_append_left _ hh)
  · right
    rw [hp.pairs]
    refine List.mem_append_right _ (List.mem_map.mpr ⟨((keyOf S opts p.catalog e).1, e), ?_, rfl⟩)
    exact List.mem_filter.mpr ⟨List.mem_map_of_mem he, by simp⟩

/-- The log gets records that no head does. -/
theorem inv_written (recs : List Record) :
    Inv S opts ⟨p.catalog, chunks, .up ((wal.rollFor recordFiles recs).write recordFiles p.records)
      ⟨top, heads, published, .idle⟩, live, reused gone p.entries⟩ := by
  obtain ⟨hdisk, hmem, -, -⟩ := inv_up_iff.mp h
  obtain ⟨hdisk', hnew, hwal⟩ := hdisk.written hmem.newest hmem.bounded hp htop hmax recs _ rfl
  refine inv_quiet h hp.grows hdisk' hnew p.entries ?_ ?_
    (fun e he => stored_written hwal he) hmem.phase
  · intro e he
    rcases stored_written hwal he with he | he
    · exact (hmem.bounded e he).trans hseq
    · exact htop e he
  · intro st e he n hn hle
    rw [hwal]
    exact List.mem_append_left _ hn

theorem inv_crashLogging (cut : ℕ) :
    Inv S opts ⟨p.catalog, chunks, .down ((wal.rollFor recordFiles p.records).write recordFiles
        (wholeBefore p.records cut)).dir, live, reused gone p.entries⟩ := by
  obtain ⟨q, hq, hcat, hrecs, hsub⟩ := ready_cut hp (wholeBefore_initial p.records cut)
  have htopq : ∀ e ∈ q.entries, e.seq ≤ top := fun e he => htop e (hsub.subset he)
  have hcrash := inv_crash (inv_written h hq htopq hseq hmax p.records)
  rw [hcat, hrecs] at hcrash
  obtain ⟨hdown, hlive, hgone⟩ := inv_down_iff.mp hcrash
  exact inv_down_iff.mpr ⟨hdown, hlive, fun e he => hgone e (reused_sub hsub.subset he)⟩

end Batch

/-- A block of the first day of a head, on disk beside the others. -/
theorem inv_sealWrite (h : Inv S opts ⟨catalog, chunks,
      .up wal ⟨seq, heads, published, .sealing st ((day, group) :: groups)⟩, live, gone⟩) :
    Inv S opts ⟨catalog, addBlock chunks (st, day) group,
      .up wal ⟨seq, heads, published, .written st day group groups⟩, live, gone⟩ := by
  obtain ⟨hdisk, hmem, hlive, hgone⟩ := inv_up_iff.mp h
  obtain ⟨hpub, hgroups⟩ : (∀ k, blocksAt published k = blocksAt chunks k) ∧
    (day, group) :: groups = dayGroups (sortedEntries (heads st)) := hmem.phase
  have hgroup := mem_group (hmem.headNodup st) hgroups
  have hkey : ∀ e ∈ group, keyOf S opts catalog e = (st, day) := by
    intro e he
    obtain ⟨hhead, hday⟩ := (hgroup e).mp he
    exact Prod.ext (hmem.headOf st e hhead).1 hday
  have hstored : ∀ e, Stored S (addBlock chunks (st, day) group) wal.dir e →
    Stored S chunks wal.dir e :=
    fun e => stored_addBlock (fun e he => hmem.head_stored ((hgroup e).mp he).1)
  have hnonempty : ∃ e, e ∈ (heads st).entries := by
    refine List.exists_mem_of_ne_nil _ (fun hnil => ?_)
    have hsorted : sortedEntries (heads st) = [] := by
      unfold sortedEntries
      rw [hnil]
      rfl
    rw [hsorted] at hgroups
    cases hgroups
  refine inv_up_iff.mpr ⟨⟨hdisk.coded, hdisk.noCheckpoints, hdisk.logNodup, ?_, ?_,
    fun e he => hdisk.settled e (hstored e he),
    fun e e' he he' => hdisk.unique e e' (hstored e he) (hstored e' he'),
    fun e he => hdisk.numbered e (hstored e he), fun e he => hdisk.stamped e (hstored e he), ?_⟩,
    ⟨hmem.newest, fun e he => hmem.bounded e (hstored e he), hmem.headOf,
      hmem.headNodup, hmem.fresh,
      ?_, hgroups⟩, ?_, fun e he e' he' => hgone e he e' (hstored e' he')⟩
  · intro k
    rw [blocksAt_addBlock]
    split
    next heq =>
      rw [List.flatten_append, List.flatten_singleton, List.map_append]
      refine List.Nodup.append (hdisk.blockNodup _) ?_ ?_
      · rw [(dayGroups_spec (hmem.headNodup st) hgroups 0).1]
        have hperm : (sortedEntries (heads st)).Perm (heads st).entries :=
          List.perm_insertionSort _ _
        have hsorted := (hperm.map Entry.seq).nodup_iff.mpr (hmem.headNodup st)
        exact hsorted.sublist (List.filter_sublist.map _)
      · intro x hx hx'
        obtain ⟨e, he, rfl⟩ := List.mem_map.mp hx
        obtain ⟨e', he', hseq⟩ := List.mem_map.mp hx'
        have hfresh := hmem.fresh st e' ((hgroup e').mp he').1
        rw [hkey e' he', sealedUpTo_congr (hpub _)] at hfresh
        have hlt := (sealedUpTo_lt.mp hfresh).2 e he
        omega
    next => exact hdisk.blockNodup k
  · intro k e he
    rcases mem_addBlock.mp he with hold | ⟨heq, hin⟩
    · exact hdisk.keyed k e hold
    · rw [heq]
      exact hkey e hin
  · intro k blocks hk
    unfold addBlock at hk
    by_cases heq : k = (st, day)
    · obtain ⟨e, he⟩ := hnonempty
      rw [heq]
      exact hmem.stream_lt hdisk he
    · rw [AList.lookup_insert_ne heq] at hk
      exact hdisk.known k blocks hk
  · intro k
    rw [blocksAt_addBlock]
    split
    next heq => rw [heq, hpub]
    next => exact (hpub k).symm
  · intro e he
    rcases hlive e he with hk | hh
    · exact Or.inl (mem_addBlock.mpr (Or.inl hk))
    · exact Or.inr hh

/-- The block is published and its entries leave the head. -/
theorem inv_publish (h : Inv S opts ⟨catalog, chunks,
      .up wal ⟨seq, heads, published, .written st day group groups⟩, live, gone⟩) :
    Inv S opts ⟨catalog, chunks, .up wal ⟨seq, Function.update heads st
        ⟨(heads st).entries.filter (fun e => dayOf e.ts ≠ day), (heads st).seg⟩,
      addBlock published (st, day) group, .sealing st groups⟩, live, gone⟩ := by
  obtain ⟨hdisk, hmem, hlive, hgone⟩ := inv_up_iff.mp h
  obtain ⟨hpub, hgroups⟩ : (∀ k, blocksAt chunks k =
    if k = (st, day) then blocksAt published k ++ [group] else blocksAt published k) ∧
    (day, group) :: groups = dayGroups (sortedEntries (heads st)) := hmem.phase
  have hgroup := mem_group (hmem.headNodup st) hgroups
  set left : Head Log :=
    ⟨(heads st).entries.filter (fun e => dayOf e.ts ≠ day), (heads st).seg⟩ with hleft
  have hheads : ∀ st' e, e ∈ (Function.update heads st left st').entries ↔
        e ∈ (heads st').entries ∧ ¬ (st' = st ∧ dayOf e.ts = day) := by
    intro st' e
    by_cases heq : st' = st
    · subst heq
      simp [hleft]
    · rw [Function.update_of_ne heq]
      simp [heq]
  have hseg : ∀ st', (Function.update heads st left st').seg = (heads st').seg := by
    intro st'
    by_cases heq : st' = st
    · subst heq
      simp [hleft]
    · rw [Function.update_of_ne heq]
  refine inv_up_iff.mpr ⟨hdisk, ⟨hmem.newest, hmem.bounded, ?_, ?_, ?_, ?_, ?_⟩, ?_, hgone⟩
  · intro st' e he
    obtain ⟨hst, n, hn, hle⟩ := hmem.headOf st' e ((hheads st' e).mp he).1
    refine ⟨hst, n, hn, ?_⟩
    rw [hseg]
    exact hle
  · intro st'
    change ((Function.update heads st _ st').entries.map Entry.seq).Nodup
    by_cases heq : st' = st
    · subst heq
      rw [Function.update_self]
      exact (hmem.headNodup st').sublist (List.filter_sublist.map _)
    · rw [Function.update_of_ne heq]
      exact hmem.headNodup st'
  · intro st' e he
    obtain ⟨hhead, hnot⟩ := (hheads st' e).mp he
    have hst : (keyOf S opts catalog e).1 = st' := (hmem.headOf st' e hhead).1
    have hne : keyOf S opts catalog e ≠ (st, day) := by
      intro heq
      exact hnot ⟨by rw [← hst, heq], congrArg Prod.snd heq⟩
    have hsame : blocksAt (addBlock published (st, day) group) (keyOf S opts catalog e) =
        blocksAt published (keyOf S opts catalog e) := by
      rw [blocksAt_addBlock, if_neg hne]
    rw [sealedUpTo_congr hsame]
    exact hmem.fresh st' e hhead
  · intro k
    rw [blocksAt_addBlock, hpub]
    split
    next heq => rw [heq]
    next => rfl
  · change groups = dayGroups (sortedEntries (Function.update heads st _ st))
    rw [Function.update_self]
    exact (dayGroups_spec (hmem.headNodup st) hgroups (heads st).seg).2
  · intro e he
    rcases hlive e he with hk | hh
    · exact Or.inl hk
    · by_cases hday : (keyOf S opts catalog e).1 = st ∧ dayOf e.ts = day
      · left
        have hkey : keyOf S opts catalog e = (st, day) := Prod.ext hday.1 hday.2
        have hin : e ∈ group := (hgroup e).mpr ⟨by rw [← hday.1]; exact hh, hday.2⟩
        rw [hkey, hpub, if_pos rfl, List.flatten_append, List.flatten_singleton]
        exact List.mem_append_right _ hin
      · exact Or.inr ((hheads _ e).mpr ⟨hh, hday⟩)

theorem foldl_min_le {xs : List ℕ} {safe r : ℤ} (h : xs.foldl (fun safe st =>
      if (heads st).entries = [] then safe else min safe (heads st).seg) safe = r) :
    r ≤ safe ∧ ∀ st ∈ xs, (heads st).entries ≠ [] → r ≤ (heads st).seg := by
  induction xs generalizing safe with
  | nil => exact ⟨le_of_eq h.symm, by simp⟩
  | cons x xs ih =>
    obtain ⟨hle, hall⟩ := ih h
    beta_reduce at hle
    refine ⟨hle.trans ?_, fun st hst hne => ?_⟩
    · split
      · exact le_rfl
      · exact min_le_left _ _
    · rcases List.mem_cons.mp hst with rfl | hst
      · rw [if_neg hne] at hle
        exact hle.trans (min_le_right _ _)
      · exact hall st hst hne

theorem safeSegment_le (segment streams : ℕ) (heads : Heads Log) :
    safeSegment segment streams heads ≤ segment ∧
      ∀ st < streams, (heads st).entries ≠ [] → ∀ n : ℕ, (heads st).seg ≤ n →
        safeSegment segment streams heads ≤ n := by
  obtain ⟨hle, hall⟩ := foldl_min_le (rfl : (List.range streams).foldl _ (segment : ℤ) = _)
  refine ⟨Int.toNat_le.mpr hle, fun st hst hne n hn => Int.toNat_le.mpr ?_⟩
  exact (hall st (List.mem_range.mpr hst) hne).trans hn

/-- Removing segments before the oldest that a head needs. -/
theorem inv_truncate
    (h : Inv S opts ⟨catalog, chunks, .up wal ⟨seq, heads, published, .truncating⟩, live, gone⟩)
    (k : ℕ) :
    Inv S opts ⟨catalog, chunks, .up { wal with
      dir := pruned Record.frameSize wal.dir (safeSegment wal.segment catalog.length heads) k }
      ⟨seq, heads, published, .idle⟩, live, gone⟩ := by
  obtain ⟨hdisk, hmem, -, -⟩ := inv_up_iff.mp h
  obtain ⟨hsegment, hheads⟩ := safeSegment_le wal.segment catalog.length heads
  generalize safeSegment wal.segment catalog.length heads = safe at hsegment hheads
  obtain ⟨hsub, hkeep⟩ := tagged_pruned Record.frameSize wal.dir safe k
  have hcp : (pruned Record.frameSize wal.dir safe k).checkpoints.entries = [] := by
    refine List.eq_nil_iff_forall_not_mem.mpr (fun e he => ?_)
    have hold := (pruned_spec Record.frameSize wal.dir safe k).old e he
    rw [hdisk.noCheckpoints] at hold
    cases hold
  rw [← reused_nil gone]
  refine inv_quiet h (Extends.refl catalog) (hdisk.shrink hsub hcp)
    (pruned_newest Record.frameSize hmem.newest hsegment k) []
    (fun e he => hmem.bounded e (stored_pruned he)) ?_
      (fun e he => Or.inl (stored_pruned he)) hmem.phase
  intro st e he n hn hle
  have hsafe := hheads st (hmem.stream_lt hdisk he) (List.ne_nil_of_mem he) n hle
  obtain ⟨x, hx, hxe⟩ := List.mem_flatMap.mp hn
  have hxn : x.1 = n := by
    obtain ⟨e', -, heq⟩ := List.mem_map.mp hxe
    exact congrArg Prod.fst heq
  exact List.mem_flatMap.mpr ⟨x, hkeep x hx (by rw [hxn]; exact hsafe), hxe⟩

theorem disk_erase (h : DiskInv S opts catalog chunks d) (k : ChunkKey) :
    DiskInv S opts catalog (chunks.erase k) d := by
  refine ⟨h.coded, h.noCheckpoints, h.logNodup, ?_,
    fun k' e he => h.keyed k' e (mem_erased.mp he).2,
    fun e he => h.settled e (stored_erased he),
    fun e e' he he' => h.unique e e' (stored_erased he) (stored_erased he'),
    fun e he => h.numbered e (stored_erased he), fun e he => h.stamped e (stored_erased he), ?_⟩
  · intro k'
    rw [blocksAt_erase]
    split
    next => exact List.nodup_nil
    next => exact h.blockNodup k'
  · intro k' blocks hk'
    by_cases heq : k' = k
    · rw [heq, AList.lookup_erase] at hk'
      cases hk'
    · rw [AList.lookup_erase_ne heq] at hk'
      exact h.known k' blocks hk'

/-- A chunk of which the log holds nothing is deleted. -/
theorem inv_expire [DecidableEq Log]
    (h : Inv S opts ⟨catalog, chunks, .up wal ⟨seq, heads, published, .idle⟩, live, gone⟩)
    (hclean : ∀ e ∈ (blocksAt chunks k).flatten, ∀ n, (n, e) ∉ walEntries S wal.dir) :
    Inv S opts ⟨catalog, chunks.erase k, .up wal ⟨seq, heads, published.erase k, .idle⟩,
      live.filter (fun e => e ∉ (blocksAt chunks k).flatten),
      gone ++ (blocksAt chunks k).flatten⟩ := by
  obtain ⟨hdisk, hmem, hlive, hgone⟩ := inv_up_iff.mp h
  have hpub : ∀ k, blocksAt published k = blocksAt chunks k := hmem.phase
  refine inv_up_iff.mpr ⟨disk_erase hdisk k, ⟨hmem.newest,
    fun e he => hmem.bounded e (stored_erased he), hmem.headOf, hmem.headNodup, ?_, ?_⟩, ?_, ?_⟩
  · intro st e he
    have hold := sealedUpTo_lt.mp (hmem.fresh st e he)
    refine sealedUpTo_lt.mpr ⟨hold.1, fun e' he' => hold.2 e' ?_⟩
    rw [blocksAt_erase] at he'
    split at he'
    next => cases he'
    next => exact he'
  · intro k'
    rw [blocksAt_erase, blocksAt_erase, hpub]
  · intro e he
    obtain ⟨he, hnot⟩ := List.mem_filter.mp he
    have hnot : e ∉ (blocksAt chunks k).flatten := of_decide_eq_true hnot
    rcases hlive e he with hk | hh
    · refine Or.inl (mem_erased.mpr ⟨?_, hk⟩)
      intro heq
      rw [heq] at hk
      exact hnot hk
    · exact Or.inr hh
  · intro e he e' he' heq
    rcases List.mem_append.mp he with he | he
    · exact hgone e he e' (stored_erased he') heq
    · have hsame := hdisk.unique e' e (stored_erased he') (Or.inr ⟨k, he⟩) heq
      subst hsame
      rcases he' with ⟨n, hn⟩ | ⟨k', hk'⟩
      · exact hclean e' he n hn
      · obtain ⟨hne, hk'⟩ := mem_erased.mp hk'
        exact hne ((hdisk.keyed k' e' hk').symm.trans (hdisk.keyed k e' he))

theorem segmentNumber_le (n : ℕ) : segmentNumber (.segment n) ≤ n := by
  rcases Nat.lt_or_ge n (10 ^ 8) with hn | hn
  · exact le_of_eq (WalRecovery.segmentNumber_of_lt n hn)
  · exact le_of_lt (WalRecovery.segmentNumber_lt n hn)

def unsealedIn (S : Schema Log Label) (opts : Options) (catalog : List Label) (chunks : Chunks Log)
    (d : Dir (List Record)) (st : ℕ) : List (ℕ × Entry Log) :=
  unsealedOf S opts catalog chunks st (walEntries S d)

theorem mem_unsealedIn {n : ℕ} :
    (n, e) ∈ unsealedIn S opts catalog chunks d st ↔ (n, e) ∈ walEntries S d ∧
      (keyOf S opts catalog e).1 = st ∧ sealedUpTo chunks (keyOf S opts catalog e) < e.seq := by
  unfold unsealedIn unsealedOf
  rw [List.mem_filter, Bool.and_eq_true, decide_eq_true_eq, decide_eq_true_eq]
  tauto

/-- Recovery succeeds; a head gets the entries of its stream that no chunk is sealed beyond, and the
segment of the first. -/
theorem recover_spec (h : DiskInv S opts catalog chunks d) :
    ∃ top heads, recover S opts catalog chunks d = .ok ⟨catalog, top, heads⟩ ∧
      (∀ e, Stored S chunks d e → e.seq ≤ top) ∧
      ∀ st, (heads st).entries = (unsealedIn S opts catalog chunks d st).map Prod.snd ∧
        ∀ x ∈ (unsealedIn S opts catalog chunks d st).head?,
          (heads st).seg = segmentNumber (.segment x.1) := by
  have hloaded := blocksAt_loadChunks catalog chunks h.known
  have hentries := entriesIn_replayed (S := S) h.noCheckpoints
  have hspec := replayRecords_spec S opts (loadChunks catalog chunks) (replayed d)
    ⟨catalog, maxSeq (loadChunks catalog chunks), fun _ => Head.empty⟩
    (by
      rw [replayed_eq d h.noCheckpoints]
      intro x hx
      obtain ⟨y, hy, rfl⟩ := List.mem_map.mp hx
      exact h.coded y hy)
    (by
      rw [hentries]
      intro x hx
      obtain ⟨y, hy, rfl⟩ := List.mem_map.mp hx
      exact h.settled y.2 (Or.inl ⟨y.1, hy⟩))
  have hunsealed : ∀ st, unsealedOf S opts catalog (loadChunks catalog chunks) st
      (entriesIn S (replayed d)) = (unsealedIn S opts catalog chunks d st).map
        (fun x => (segmentNumber (.segment x.1), x.2)) := by
    intro st
    unfold unsealedIn unsealedOf
    rw [hentries, List.filter_map]
    congr 1
    refine List.filter_congr (fun x _ => ?_)
    simp only [Function.comp_apply]
    rw [sealedUpTo_congr (hloaded _)]
  refine ⟨_, _, hspec, ?_, fun st => ⟨?_, ?_⟩⟩
  · obtain ⟨hchunks, hlog⟩ := foldl_max_spec (fun x : ℤ × Entry Log => x.2.seq)
      (entriesIn S (replayed d)) (maxSeq (loadChunks catalog chunks))
    rintro e (⟨n, hn⟩ | ⟨k, hk⟩)
    · refine hlog (segmentNumber (.segment n), e) ?_
      rw [hentries]
      exact List.mem_map_of_mem hn
    · rw [← hloaded] at hk
      exact (seq_le_maxSeq hk).trans hchunks
  · rw [(replayInto_spec ..).1, hunsealed, List.map_map]
    rfl
  · intro x hx
    rw [(replayInto_spec ..).2, hunsealed]
    cases hun : unsealedIn S opts catalog chunks d st with
    | nil =>
      rw [hun] at hx
      cases hx
    | cons y rest =>
      rw [hun] at hx
      obtain rfl := Option.some.inj hx
      rfl

/-- A store that is opened. -/
theorem inv_reopen (h : Inv S opts ⟨catalog, chunks, .down d, live, gone⟩) :
    ∃ top heads, recover S opts catalog chunks d = .ok ⟨catalog, top, heads⟩ ∧
      Inv S opts ⟨catalog, chunks, .up (openLog recordFiles opts.walSegmentSize d)
        ⟨top, heads, loadChunks catalog chunks, .idle⟩, live, gone⟩ := by
  obtain ⟨hdisk, hlive, hgone⟩ := inv_down_iff.mp h
  obtain ⟨top, heads, hrecover, hbound, hheads⟩ := recover_spec hdisk
  obtain ⟨hnew, htagged, hcp⟩ := openLog_newest Record.frameSize d opts.walSegmentSize
  have hloaded := blocksAt_loadChunks catalog chunks hdisk.known
  have hmemhead : ∀ st e, e ∈ (heads st).entries ↔
      ∃ n, (n, e) ∈ unsealedIn S opts catalog chunks d st := by
    intro st e
    rw [(hheads st).1]
    simp
  refine ⟨top, heads, hrecover, inv_up_iff.mpr ⟨?_, ⟨hnew, fun e he => hbound e (stored_openLog he),
    ?_, ?_, ?_, hloaded⟩, ?_, fun e he e' he' => hgone e he e' (stored_openLog he')⟩⟩
  · exact hdisk.shrink (by rw [htagged]) (by rw [hcp]; exact hdisk.noCheckpoints)
  · intro st e he
    obtain ⟨n, hn⟩ := (hmemhead st e).mp he
    obtain ⟨hin, hst, -⟩ := mem_unsealedIn.mp hn
    refine ⟨hst, n, by rw [walEntries_openLog]; exact hin, ?_⟩
    have hord : (unsealedIn S opts catalog chunks d st).Pairwise (fun a b => a.1 ≤ b.1) :=
      List.Pairwise.filter _ (pairwise_flatMap_tags (pairwise_tagged d.segments))
    have hseg := (hheads st).2
    cases hun : unsealedIn S opts catalog chunks d st with
    | nil =>
      rw [hun] at hn
      cases hn
    | cons x rest =>
      rw [hun] at hn hord hseg
      rw [hseg x rfl]
      refine (segmentNumber_le x.1).trans (Nat.cast_le.mpr ?_)
      rcases List.mem_cons.mp hn with heq | hrest
      · rw [← heq]
      · exact (List.pairwise_cons.mp hord).1 _ hrest
  · intro st
    rw [(hheads st).1, List.map_map]
    exact hdisk.logNodup.sublist (List.filter_sublist.map _)
  · intro st e he
    obtain ⟨n, hn⟩ := (hmemhead st e).mp he
    rw [sealedUpTo_congr (hloaded _)]
    exact (mem_unsealedIn.mp hn).2.2
  · intro e he
    rcases hlive e he with hk | ⟨⟨n, hn⟩, hlt⟩
    · exact Or.inl hk
    · exact Or.inr ((hmemhead _ e).mpr ⟨n, mem_unsealedIn.mpr ⟨hn, rfl, hlt⟩⟩)

end Ozymandias.LogSteps
