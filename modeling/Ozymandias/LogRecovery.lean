import Ozymandias.LogStreams

/-!
Exactly-once recovery of the log store. Between any two steps every
acknowledged log is in a block of the chunk of its stream and day, or in the
log with a number beyond that chunk; a crash loses only memory, and replay puts
exactly the logs of the second kind back into the heads. It fails in two ways:
the entries of a chunk that is deleted can still be in the log, and a call that
fails inside a later record leaves numbers in the log that are given out again.
-/
namespace Ozymandias.LogRecovery

open WalFrame WalLog WalRecovery WalSegments LogSearch LogStore
  LogStreams TimeMerge Peaks

variable {Log : Type} {e : Entry Log} {h : Head Log} {n : ℕ} {xs : List ℕ} {c : Chunks Log}
  {k : ChunkKey}

/-- The first group of sorted entries is everything of the first day. -/
theorem dayGroups_cons {es : List (Entry Log)}
    (h : (e :: es).Pairwise (fun a b => dayOf a.ts ≤ dayOf b.ts)) :
    dayGroups (e :: es) = (dayOf e.ts, (e :: es).filter (fun x => dayOf x.ts = dayOf e.ts)) ::
        dayGroups ((e :: es).filter (fun x => dayOf x.ts ≠ dayOf e.ts)) := by
  induction es generalizing e with
  | nil => simp [dayGroups]
  | cons e' es ih =>
    obtain ⟨hfirst, hrest⟩ := List.pairwise_cons.mp h
    have htail := ih hrest
    rw [dayGroups.eq_def]
    simp only [htail]
    by_cases hday : dayOf e'.ts = dayOf e.ts
    · rw [if_pos hday, hday, List.filter_cons_of_pos (a := e) (by simp),
        List.filter_cons_of_neg (a := e) (by simp)]
    · rw [if_neg hday, ← htail]
      have hne : ∀ x ∈ e' :: es, dayOf x.ts ≠ dayOf e.ts := by
        intro x hx heq
        have hle : dayOf e'.ts ≤ dayOf x.ts := by
          rcases List.mem_cons.mp hx with rfl | hx
          · exact le_rfl
          · exact (List.pairwise_cons.mp hrest).1 x hx
        have hge := hfirst e' List.mem_cons_self
        omega
      rw [List.filter_cons_of_pos (by simp), List.filter_cons_of_neg (a := e) (by simp),
        List.filter_eq_nil_iff.mpr (fun x hx => by simpa using hne x hx),
        List.filter_eq_self.mpr (fun x hx => by simpa using hne x hx)]

theorem pairwise_days (h : Head Log) :
    (sortedEntries h).Pairwise (fun a b => dayOf a.ts ≤ dayOf b.ts) := by
  refine (pairwise_sortBy Entry.key h.entries).imp
    (fun {a b} hab => Int.ediv_le_ediv (by decide) ?_)
  rcases Prod.Lex.le_iff.mp hab with hlt | ⟨heq, -⟩
  · exact le_of_lt hlt
  · exact le_of_eq heq

theorem ascending_sortedEntries (hn : (h.entries.map Entry.seq).Nodup) :
    Ascending Entry.key (sortedEntries h) := by
  refine ascending_sortBy ?_
  have hinj : (h.entries.map Entry.key).map (fun k => (ofLex k).2) = h.entries.map Entry.seq := by
    rw [List.map_map]
    rfl
  exact List.Nodup.of_map _ (hinj ▸ hn)

/-- Taking a day out of a head takes its first group. -/
theorem dayGroups_spec (hn : (h.entries.map Entry.seq).Nodup) {day : ℤ} {group : List (Entry Log)}
    {groups : List (ℤ × List (Entry Log))}
    (hgroups : (day, group) :: groups = dayGroups (sortedEntries h)) (seg : ℤ) :
    group = (sortedEntries h).filter (fun e => dayOf e.ts = day) ∧ groups = dayGroups (sortedEntries
        ⟨h.entries.filter (fun e => dayOf e.ts ≠ day), seg⟩) := by
  cases hes : sortedEntries h with
  | nil =>
    rw [hes] at hgroups
    simp [dayGroups] at hgroups
  | cons e es =>
    have hsorted := pairwise_days h
    rw [hes] at hsorted
    rw [hes, dayGroups_cons hsorted] at hgroups
    obtain ⟨hpair, hrest⟩ := List.cons.inj hgroups
    obtain ⟨rfl, hgroup⟩ := Prod.mk.inj hpair
    refine ⟨hgroup, ?_⟩
    rw [hrest, ← hes]
    congr 1
    have hsub : ((h.entries.filter (fun x => decide (dayOf x.ts ≠ dayOf e.ts))).map
      Entry.seq).Nodup :=
      hn.sublist (List.filter_sublist.map _)
    refine ascending_ext ((ascending_sortedEntries hn).filter _) (ascending_sortedEntries hsub)
      (fun x => ?_)
    unfold sortedEntries
    rw [List.mem_filter, mem_sortBy, mem_sortBy, List.mem_filter]

theorem blocksAt_addBlock (c : Chunks Log) (k : ChunkKey) (b : List (Entry Log)) (k' : ChunkKey) :
    blocksAt (addBlock c k b) k' = if k' = k then blocksAt c k ++ [b] else blocksAt c k' := by
  unfold addBlock
  by_cases hk : k' = k
  · subst hk
    rw [if_pos rfl]
    conv_lhs => unfold blocksAt
    rw [AList.lookup_insert]
    rfl
  · rw [if_neg hk]
    unfold blocksAt
    rw [AList.lookup_insert_ne hk]

theorem blocksAt_erase (c : Chunks Log) (k k' : ChunkKey) :
    blocksAt (c.erase k) k' = if k' = k then [] else blocksAt c k' := by
  unfold blocksAt
  by_cases hk : k' = k
  · subst hk
    rw [if_pos rfl, AList.lookup_erase]
    rfl
  · rw [if_neg hk, AList.lookup_erase_ne hk]

theorem lookup_of_mem (he : e ∈ (blocksAt c k).flatten) : c.lookup k = some (blocksAt c k) := by
  unfold blocksAt at he ⊢
  cases hlookup : c.lookup k with
  | none =>
    rw [hlookup] at he
    cases he
  | some blocks => rfl

theorem foldr_max_lt : xs.foldr max 0 < n ↔ 0 < n ∧ ∀ x ∈ xs, x < n := by
  induction xs with
  | nil => simp
  | cons x xs ih =>
    rw [List.foldr_cons, max_lt_iff]
    simp only [List.mem_cons, forall_eq_or_imp]
    tauto

theorem le_foldr_max {x : ℕ} (hx : x ∈ xs) : x ≤ xs.foldr max 0 := by
  by_contra hlt
  have hall := (foldr_max_lt.mp (not_le.mp hlt)).2 x hx
  omega

/-- A chunk is sealed up to less than a number if all its entries are. -/
theorem sealedUpTo_lt : sealedUpTo c k < n ↔ 0 < n ∧ ∀ e ∈ (blocksAt c k).flatten, e.seq < n := by
  unfold sealedUpTo
  rw [foldr_max_lt]
  refine and_congr_right (fun hn => ?_)
  constructor
  · intro h e he
    obtain ⟨b, hb, he⟩ := List.mem_flatten.mp he
    exact (foldr_max_lt.mp (h _ (List.mem_map_of_mem hb))).2 _ (List.mem_map_of_mem he)
  · intro h x hx
    obtain ⟨b, hb, rfl⟩ := List.mem_map.mp hx
    refine foldr_max_lt.mpr ⟨hn, fun y hy => ?_⟩
    obtain ⟨e, he, rfl⟩ := List.mem_map.mp hy
    exact h e (List.mem_flatten.mpr ⟨b, hb, he⟩)

theorem seq_le_maxSeq (he : e ∈ (blocksAt c k).flatten) : e.seq ≤ maxSeq c := by
  have hentry := AList.mem_lookup_iff.mp (lookup_of_mem he)
  obtain ⟨b, hb, he⟩ := List.mem_flatten.mp he
  refine le_trans ?_ (le_foldr_max (List.mem_map_of_mem hentry))
  refine le_trans ?_ (le_foldr_max (List.mem_map_of_mem hb))
  exact le_foldr_max (List.mem_map_of_mem he)

/-- Loading finds every chunk whose stream is known. -/
theorem blocksAt_loadChunks {Label : Type} (catalog : List Label) (c : Chunks Log)
    (h : ∀ k blocks, c.lookup k = some blocks → k.1 < catalog.length) (k : ChunkKey) :
    blocksAt (loadChunks catalog c) k = blocksAt c k := by
  have hfold : ∀ (l : List (Sigma (fun _ : ChunkKey => List (List (Entry Log)))))
      (m : Chunks Log), l.NodupKeys → (∀ e ∈ l, e.1.1 < catalog.length) →
      (l.foldl (fun m e => if e.1.1 < catalog.length then m.insert e.1 e.2 else m) m).lookup k =
        ((l.dlookup k).or (m.lookup k)) := by
    intro l
    induction l with
    | nil => intro m _ _; simp
    | cons e l ih =>
      intro m hnodup hall
      obtain ⟨k', blocks⟩ := e
      obtain ⟨hnew, hrest⟩ := List.nodupKeys_cons.mp hnodup
      rw [List.foldl_cons, if_pos (hall _ List.mem_cons_self),
        ih _ hrest (List.forall_mem_cons.mp hall).2]
      by_cases hk : k = k'
      · subst hk
        have hnone : l.dlookup k = none := List.dlookup_eq_none.mpr hnew
        rw [hnone, List.dlookup_cons_eq, AList.lookup_insert]
        rfl
      · rw [AList.lookup_insert_ne hk, List.dlookup_cons_ne _ _ hk]
  unfold blocksAt loadChunks
  rw [hfold c.entries ∅ c.nodupKeys]
  · rw [AList.lookup_empty, Option.or_none]
    rfl
  · intro e he
    exact h e.1 e.2 (AList.mem_lookup_iff.mpr he)

section Invariant

variable {Label : Type} [DecidableEq Label] {S : Schema Log Label} {opts : Options}

def walEntries (S : Schema Log Label) (d : Dir (List Record)) : List (ℕ × Entry Log) :=
  entriesIn S (tagged d.segments)

def Stored (S : Schema Log Label) (chunks : Chunks Log) (d : Dir (List Record)) (e : Entry Log) :
    Prop :=
  (∃ n, (n, e) ∈ walEntries S d) ∨ ∃ k, e ∈ (blocksAt chunks k).flatten

structure DiskInv (S : Schema Log Label) (opts : Options) (catalog : List Label)
    (chunks : Chunks Log) (d : Dir (List Record)) : Prop where
  coded : ∀ x ∈ tagged d.segments, Coded S x.2
  noCheckpoints : d.checkpoints.entries = []
  logNodup : ((walEntries S d).map (fun x => x.2.seq)).Nodup
  blockNodup : ∀ k, ((blocksAt chunks k).flatten.map Entry.seq).Nodup
  keyed : ∀ k, ∀ e ∈ (blocksAt chunks k).flatten, keyOf S opts catalog e = k
  settled : ∀ e, Stored S chunks d e → Settled S opts catalog (S.labels e.log)
  unique : ∀ e e', Stored S chunks d e → Stored S chunks d e' → e.seq = e'.seq → e = e'
  numbered : ∀ e, Stored S chunks d e → 0 < e.seq ∧ e.seq < maxUint64
  stamped : ∀ e, Stored S chunks d e → e.ts = S.ts e.log
  known : ∀ k blocks, chunks.lookup k = some blocks → k.1 < catalog.length

/-- Where a seal is, between the published chunks and those on disk. -/
def PhaseInv (chunks : Chunks Log) (mem : Memory Log) : Prop :=
  match mem.phase with
  | .idle => ∀ k, blocksAt mem.published k = blocksAt chunks k
  | .truncating => ∀ k, blocksAt mem.published k = blocksAt chunks k
  | .sealing st groups => (∀ k, blocksAt mem.published k = blocksAt chunks k) ∧
      groups = dayGroups (sortedEntries (mem.heads st))
  | .written st day group groups =>
      (∀ k, blocksAt chunks k =
        if k = (st, day) then blocksAt mem.published k ++ [group] else blocksAt mem.published k) ∧
      (day, group) :: groups = dayGroups (sortedEntries (mem.heads st))

structure MemoryInv (S : Schema Log Label) (opts : Options) (catalog : List Label)
    (chunks : Chunks Log) (wal : Wal (List Record)) (mem : Memory Log) : Prop where
  newest : Newest wal
  bounded : ∀ e, Stored S chunks wal.dir e → e.seq ≤ mem.seq
  headOf : ∀ st, ∀ e ∈ (mem.heads st).entries, (keyOf S opts catalog e).1 = st ∧
    ∃ n, (n, e) ∈ walEntries S wal.dir ∧ (mem.heads st).seg ≤ n
  headNodup : ∀ st, ((mem.heads st).entries.map Entry.seq).Nodup
  fresh : ∀ st, ∀ e ∈ (mem.heads st).entries,
    sealedUpTo mem.published (keyOf S opts catalog e) < e.seq
  phase : PhaseInv chunks mem

/-- Where the acknowledged logs are while the store is open, and while it is not. -/
def Live (S : Schema Log Label) (opts : Options) (s : State Log Label) : Prop :=
  match s.process with
  | .up _ mem => ∀ e ∈ s.live, e ∈ (blocksAt s.chunks (keyOf S opts s.catalog e)).flatten ∨
      e ∈ (mem.heads (keyOf S opts s.catalog e).1).entries
  | .down d => ∀ e ∈ s.live, e ∈ (blocksAt s.chunks (keyOf S opts s.catalog e)).flatten ∨
      (∃ n, (n, e) ∈ walEntries S d) ∧ sealedUpTo s.chunks (keyOf S opts s.catalog e) < e.seq

def State.dir (s : State Log Label) : Dir (List Record) :=
  match s.process with
  | .up wal _ => wal.dir
  | .down d => d

structure Inv (S : Schema Log Label) (opts : Options) (s : State Log Label) : Prop where
  disk : DiskInv S opts s.catalog s.chunks (State.dir s)
  memory : ∀ wal mem, s.process = .up wal mem → MemoryInv S opts s.catalog s.chunks wal mem
  live : Live S opts s
  gone : ∀ e ∈ s.gone, ∀ e', Stored S s.chunks (State.dir s) e' → e'.seq ≠ e.seq

variable {catalog catalog' : List Label} {chunks : Chunks Log} {d : Dir (List Record)}
  {e : Entry Log} {top : ℕ} {wal : Wal (List Record)}

theorem keyOf_extends (h : Extends S opts catalog catalog')
    (he : Settled S opts catalog (S.labels e.log)) :
    keyOf S opts catalog' e = keyOf S opts catalog e := by
  unfold keyOf
  rw [h.same _ he]

/-- The disk with a catalog that has grown. -/
theorem DiskInv.grow (h : DiskInv S opts catalog chunks d)
    (hext : Extends S opts catalog catalog') :
    DiskInv S opts catalog' chunks d := by
  refine ⟨h.coded, h.noCheckpoints, h.logNodup, h.blockNodup, ?_, ?_, h.unique, h.numbered,
    h.stamped, ?_⟩
  · intro k e he
    rw [keyOf_extends hext (h.settled e (Or.inr ⟨k, he⟩))]
    exact h.keyed k e he
  · intro e he
    exact hext.settled (h.settled e he)
  · intro k blocks hk
    exact (h.known k blocks hk).trans_le hext.length_le

variable {d' : Dir (List Record)} {entries : List (Entry Log)} {wal' : Wal (List Record)}
  {p : Prepared Log Label} {seq : ℕ} {mem : Memory Log} {s : State Log Label}

/-- A directory with fewer records. -/
theorem DiskInv.shrink (h : DiskInv S opts catalog chunks d)
    (hsub : (tagged d'.segments).Sublist (tagged d.segments)) (hcp : d'.checkpoints.entries = []) :
    DiskInv S opts catalog chunks d' := by
  have hwal : (walEntries S d').Sublist (walEntries S d) := hsub.flatMap _
  have hstored : ∀ e, Stored S chunks d' e → Stored S chunks d e := by
    rintro e (⟨n, hn⟩ | hk)
    · exact Or.inl ⟨n, hwal.subset hn⟩
    · exact Or.inr hk
  exact ⟨fun x hx => h.coded x (hsub.subset hx), hcp, h.logNodup.sublist (hwal.map _), h.blockNodup,
    h.keyed, fun e he => h.settled e (hstored e he),
    fun e e' he he' => h.unique e e' (hstored e he) (hstored e' he'),
    fun e he => h.numbered e (hstored e he), fun e he => h.stamped e (hstored e he), h.known⟩

theorem addAll_spec (heads : Heads Log) (seg : ℤ) (xs : List (ℕ × Entry Log)) (st : ℕ) :
    (addAll heads seg xs st).entries =
      (heads st).entries ++ (xs.filter (fun x => x.1 = st)).map Prod.snd ∧
    (addAll heads seg xs st).seg =
      if (heads st).entries = [] ∧ xs.filter (fun x => x.1 = st) ≠ [] then
        seg else (heads st).seg := by
  induction xs generalizing heads with
  | nil => simp [addAll]
  | cons x xs ih =>
    obtain ⟨st', e⟩ := x
    rw [addAll, (ih _).1, (ih _).2]
    by_cases hst : st' = st
    · subst hst
      by_cases hnil : (heads st').entries = []
      · simp [addTo, Head.add]
      · simp [addTo, Head.add]
    · rw [List.filter_cons_of_neg (by simpa using hst)]
      unfold addTo
      rw [Function.update_of_ne (Ne.symm hst)]
      exact ⟨rfl, rfl⟩

structure Ready (S : Schema Log Label) (opts : Options) (catalog : List Label) (seq : ℕ)
    (p : Prepared Log Label) : Prop where
  grows : Extends S opts catalog p.catalog
  settled : ∀ e ∈ p.entries, Settled S opts p.catalog (S.labels e.log)
  pairs : p.streams.zip p.entries = p.entries.map (fun e => ((keyOf S opts p.catalog e).1, e))
  coded : ∀ r ∈ p.records, Coded S r
  decodes : p.records.flatMap (recordEntries S) = p.entries
  ascending : p.entries.Pairwise (fun a b => a.seq < b.seq)
  above : ∀ e ∈ p.entries, seq < e.seq
  stamped : ∀ e ∈ p.entries, e.ts = S.ts e.log

theorem prepare_ready (S : Schema Log Label) (opts : Options) (catalog : List Label) (seq : ℕ)
    (batch : List Log)
    (hfits : seq + batch.length < maxUint64) :
    Ready S opts catalog seq (prepare S opts catalog seq batch) ∧
      ∀ e ∈ (prepare S opts catalog seq batch).entries, e.seq ≤ seq + batch.length := by
  obtain ⟨hext, hsettled, hids⟩ := streamsFor_spec S opts catalog batch
  have hmax : maxUint64 = 2 ^ 64 - 1 := rfl
  obtain ⟨hcoded, hdecodes⟩ := batchRecords_spec S (seq + 1) batch (by omega)
  have hmem : ∀ e ∈ entriesFrom S (seq + 1) batch, _ := fun e he => mem_entriesFrom he
  refine ⟨⟨hext, ?_, ?_, hcoded, hdecodes, entriesFrom_ascending S _ _, ?_, ?_⟩, ?_⟩
  · intro e he
    exact hsettled e.log (hmem e he).2.1
  · have hstreams : (prepare S opts catalog seq batch).streams = (entriesFrom S (seq + 1) batch).map
          (fun e => (keyOf S opts (streamsFor S opts catalog batch).2 e).1) := by
      change (streamsFor S opts catalog batch).1 = _
      rw [hids]
      conv_lhs => rw [← map_log_entriesFrom S (seq + 1) batch, List.map_map]
      rw [map_log_entriesFrom]
      rfl
    rw [hstreams]
    change List.zip _ (entriesFrom S (seq + 1) batch) = _
    rw [← List.map_prod_right_eq_zip]
    rfl
  · intro e he
    have hlo := (hmem e he).2.2.1
    omega
  · intro e he
    exact (hmem e he).1
  · intro e he
    have hhi := (hmem e he).2.2.2
    omega

omit [DecidableEq Label] in
theorem stored_written
    (hwal : walEntries S wal'.dir = walEntries S wal.dir ++
      entries.map (fun e => (wal'.segment, e)))
    (he : Stored S chunks wal'.dir e) : Stored S chunks wal.dir e ∨ e ∈ entries := by
  rcases he with ⟨n, hn⟩ | hk
  · rw [hwal] at hn
    rcases List.mem_append.mp hn with hn | hn
    · exact Or.inl (Or.inl ⟨n, hn⟩)
    · obtain ⟨e', he', heq⟩ := List.mem_map.mp hn
      obtain ⟨-, rfl⟩ := Prod.mk.inj heq
      exact Or.inr he'
  · exact Or.inl (Or.inr hk)

/-- The log after a call that has written these records, of all that it was given. -/
theorem DiskInv.written (h : DiskInv S opts catalog chunks wal.dir) (hnew : Newest wal)
    (hbound : ∀ e, Stored S chunks wal.dir e → e.seq ≤ seq) (hp : Ready S opts catalog seq p)
    (htop : ∀ e ∈ p.entries, e.seq ≤ top) (hmax : top < maxUint64) (all : List Record)
    (wal' : Wal (List Record))
    (hwal' : wal' = (wal.rollFor recordFiles all).write recordFiles p.records) :
    DiskInv S opts p.catalog chunks wal'.dir ∧ Newest wal' ∧
      walEntries S wal'.dir = walEntries S wal.dir ++ p.entries.map
        (fun e => (wal'.segment, e)) := by
  obtain ⟨hroll, hrolled, hrollcp⟩ := rollFor_newest Record.frameSize hnew all
  obtain ⟨hnew', htagged, hcp⟩ := write_newest Record.frameSize hroll p.records
  rw [hrolled] at htagged
  rw [hrollcp] at hcp
  rw [← hwal'] at hnew' htagged hcp
  have hsegment : wal'.segment = (wal.rollFor recordFiles all).segment := by
    rw [hwal']
    unfold Wal.write
    split <;> rfl
  rw [← hsegment] at htagged
  have hwal : walEntries S wal'.dir =
      walEntries S wal.dir ++ p.entries.map (fun e => (wal'.segment, e)) := by
    unfold walEntries
    rw [htagged]
    unfold entriesIn
    rw [List.flatMap_append, ← hp.decodes, List.map_flatMap, List.flatMap_map]
  have hgrown := h.grow hp.grows
  have hstored : ∀ e, Stored S chunks wal'.dir e →
      Stored S chunks wal.dir e ∨ e ∈ p.entries := fun e he => stored_written hwal he
  have hasc : Ascending Entry.seq p.entries := hp.ascending
  refine ⟨⟨?_, ?_, ?_, h.blockNodup, hgrown.keyed, ?_, ?_, ?_, ?_, hgrown.known⟩, hnew', hwal⟩
  · intro x hx
    rw [htagged] at hx
    rcases List.mem_append.mp hx with hx | hx
    · exact h.coded x hx
    · obtain ⟨r, hr, rfl⟩ := List.mem_map.mp hx
      exact hp.coded r hr
  · rw [hcp]
    exact h.noCheckpoints
  · rw [hwal, List.map_append, List.map_map]
    refine List.Nodup.append h.logNodup ?_ ?_
    · exact List.pairwise_map.mpr (hp.ascending.imp ne_of_lt)
    · intro x hx hx'
      obtain ⟨y, hy, rfl⟩ := List.mem_map.mp hx
      obtain ⟨e, he, heq⟩ := List.mem_map.mp hx'
      have hle := hbound y.2 (Or.inl ⟨y.1, hy⟩)
      have hgt := hp.above e he
      have heq : e.seq = y.2.seq := heq
      omega
  · intro e he
    rcases hstored e he with he | he
    · exact hgrown.settled e he
    · exact hp.settled e he
  · intro e e' he he' heq
    rcases hstored e he with h₁ | h₁ <;> rcases hstored e' he' with h₂ | h₂
    · exact h.unique e e' h₁ h₂ heq
    · have hle := hbound e h₁
      have hgt := hp.above e' h₂
      omega
    · have hle := hbound e' h₂
      have hgt := hp.above e h₁
      omega
    · exact eq_of_time_eq hasc h₁ h₂ heq
  · intro e he
    rcases hstored e he with he | he
    · exact h.numbered e he
    · have hgt := hp.above e he
      have hle := htop e he
      omega
  · intro e he
    rcases hstored e he with he | he
    · exact h.stamped e he
    · exact hp.stamped e he

omit [DecidableEq Label] in
theorem mem_walEntries {n : ℕ} (h : (n, e) ∈ walEntries S d) :
    ∃ c, (n, c) ∈ d.segments.entries := by
  unfold walEntries entriesIn at h
  obtain ⟨⟨m, r⟩, hx, he⟩ := List.mem_flatMap.mp h
  obtain ⟨e', -, heq⟩ := List.mem_map.mp he
  obtain ⟨rfl, rfl⟩ := Prod.mk.inj heq
  obtain ⟨c, hc, -⟩ := mem_tagged.mp hx
  exact ⟨c, hc⟩

theorem MemoryInv.head_stored (h : MemoryInv S opts catalog chunks wal mem) {st : ℕ}
    (he : e ∈ (mem.heads st).entries) : Stored S chunks wal.dir e := by
  obtain ⟨-, n, hn, -⟩ := h.headOf st e he
  exact Or.inl ⟨n, hn⟩

theorem MemoryInv.stream_lt (h : MemoryInv S opts catalog chunks wal mem)
    (hdisk : DiskInv S opts catalog chunks wal.dir) {st : ℕ} (he : e ∈ (mem.heads st).entries) :
    st < catalog.length := by
  have hst : (keyOf S opts catalog e).1 = st := (h.headOf st e he).1
  rw [← hst]
  exact streamFor_lt (hdisk.settled e (h.head_stored he))

/-- The memory after an append. -/
theorem MemoryInv.append {heads : Heads Log} {published : Chunks Log}
    (h : MemoryInv S opts catalog chunks wal ⟨seq, heads, published, .idle⟩)
    (hdisk : DiskInv S opts catalog chunks wal.dir) (hp : Ready S opts catalog seq p)
    (htop : ∀ e ∈ p.entries, e.seq ≤ top) (hseq : seq ≤ top) (hmax : top < maxUint64) :
    MemoryInv S opts p.catalog chunks (wal.commit recordFiles p.records)
      ⟨top, addAll heads (wal.commit recordFiles p.records).segment (p.streams.zip p.entries),
        published, .idle⟩ := by
  have hphase : ∀ k, blocksAt published k = blocksAt chunks k := h.phase
  obtain ⟨-, hnew, hwal⟩ := hdisk.written h.newest h.bounded hp htop hmax p.records
    (wal.commit recordFiles p.records) rfl
  generalize wal.commit recordFiles p.records = wal' at hnew hwal ⊢
  have hkey : ∀ st, ∀ e ∈ (heads st).entries, keyOf S opts p.catalog e = keyOf S opts catalog e :=
    fun st e he => keyOf_extends hp.grows (hdisk.settled e (h.head_stored he))
  have hheads : ∀ st, (addAll heads wal'.segment (p.streams.zip p.entries) st).entries =
      (heads st).entries ++ p.entries.filter (fun e => (keyOf S opts p.catalog e).1 = st) := by
    intro st
    rw [(addAll_spec ..).1, hp.pairs, List.filter_map]
    simp [Function.comp_def]
  have hmem : ∀ st e, e ∈ (addAll heads wal'.segment (p.streams.zip p.entries) st).entries →
      e ∈ (heads st).entries ∨ e ∈ p.entries ∧ (keyOf S opts p.catalog e).1 = st := by
    intro st e he
    rw [hheads, List.mem_append, List.mem_filter, decide_eq_true_eq] at he
    exact he
  have hseg : ∀ n e, (n, e) ∈ walEntries S wal.dir → n ≤ wal'.segment := by
    intro n e hn
    have hn' : (n, e) ∈ walEntries S wal'.dir := by
      rw [hwal]
      exact List.mem_append_left _ hn
    obtain ⟨c, hc⟩ := mem_walEntries hn'
    exact hnew.newest _ hc
  refine ⟨hnew, ?_, ?_, ?_, ?_, hphase⟩
  · intro e he
    rcases stored_written hwal he with he | he
    · exact (h.bounded e he).trans hseq
    · exact htop e he
  · intro st e he
    have hsegst := (addAll_spec heads wal'.segment (p.streams.zip p.entries) st).2
    rcases hmem st e he with he | ⟨he, hst⟩
    · obtain ⟨hst, n, hn, hle⟩ := h.headOf st e he
      have hne : (heads st).entries ≠ [] := List.ne_nil_of_mem he
      rw [if_neg (fun hnil => hne hnil.1)] at hsegst
      refine ⟨by rw [hkey st e he]; exact hst, n, ?_, ?_⟩
      · rw [hwal]
        exact List.mem_append_left _ hn
      · change (addAll heads _ _ st).seg ≤ n
        rw [hsegst]
        exact hle
    · refine ⟨hst, wal'.segment, ?_, ?_⟩
      · rw [hwal]
        exact List.mem_append_right _ (List.mem_map_of_mem he)
      · change (addAll heads _ _ st).seg ≤ _
        rw [hsegst]
        split
        next => exact le_rfl
        next hno =>
          cases hes : (heads st).entries with
          | nil =>
            exfalso
            refine hno ⟨hes, ?_⟩
            rw [hp.pairs]
            exact List.ne_nil_of_mem
              (List.mem_filter.mpr ⟨List.mem_map_of_mem he, decide_eq_true hst⟩)
          | cons e₀ es =>
            have he₀ : e₀ ∈ (heads st).entries := by rw [hes]; exact List.mem_cons_self
            obtain ⟨-, n, hn, hle⟩ := h.headOf st e₀ he₀
            have hn' := hseg n e₀ hn
            have hle : (heads st).seg ≤ n := hle
            omega
  · intro st
    rw [hheads st, List.map_append]
    refine List.Nodup.append (h.headNodup st) ?_ ?_
    · have hnodup : (p.entries.map Entry.seq).Nodup :=
        List.pairwise_map.mpr (hp.ascending.imp ne_of_lt)
      exact hnodup.sublist (List.filter_sublist.map _)
    · intro x hx hx'
      obtain ⟨e, he, rfl⟩ := List.mem_map.mp hx
      obtain ⟨e', he', heq⟩ := List.mem_map.mp hx'
      have hle : e.seq ≤ seq := h.bounded e (h.head_stored he)
      have hgt := hp.above e' (List.mem_filter.mp he').1
      omega
  · intro st e he
    rcases hmem st e he with he | ⟨he, -⟩
    · rw [hkey st e he]
      exact h.fresh st e he
    · have hgt := hp.above e he
      refine sealedUpTo_lt.mpr ⟨by omega, fun e' he' => ?_⟩
      rw [hphase] at he'
      have hle : e'.seq ≤ seq := h.bounded e' (Or.inr ⟨_, he'⟩)
      omega

/-- The memory when heads and chunks stay as they are, and the log keeps what the heads need. -/
theorem MemoryInv.quiet (h : MemoryInv S opts catalog chunks wal mem)
    (hdisk : DiskInv S opts catalog chunks wal.dir) (hext : Extends S opts catalog catalog')
    (hnew : Newest wal') (hbound : ∀ e, Stored S chunks wal'.dir e → e.seq ≤ top)
    (hkeep : ∀ st, ∀ e ∈ (mem.heads st).entries, ∀ n, (n, e) ∈ walEntries S wal.dir →
      (mem.heads st).seg ≤ n → (n, e) ∈ walEntries S wal'.dir)
    {phase : Phase Log} (hphase : PhaseInv chunks ⟨top, mem.heads, mem.published, phase⟩) :
    MemoryInv S opts catalog' chunks wal' ⟨top, mem.heads, mem.published, phase⟩ := by
  have hkey : ∀ st, ∀ e ∈ (mem.heads st).entries, keyOf S opts catalog' e =
    keyOf S opts catalog e :=
    fun st e he => keyOf_extends hext (hdisk.settled e (h.head_stored he))
  refine ⟨hnew, hbound, ?_, h.headNodup, ?_, hphase⟩
  · intro st e he
    obtain ⟨hst, n, hn, hle⟩ := h.headOf st e he
    exact ⟨by rw [hkey st e he]; exact hst, n, hkeep st e he n hn hle, hle⟩
  · intro st e he
    rw [hkey st e he]
    exact h.fresh st e he

/-- What is acknowledged is on disk. -/
theorem Inv.live_stored (h : Inv S opts s) (he : e ∈ s.live) :
    Stored S s.chunks (State.dir s) e := by
  have hlive := h.live
  unfold Live at hlive
  unfold State.dir
  cases hproc : s.process with
  | down d =>
    rw [hproc] at hlive
    rcases hlive e he with hk | ⟨hn, -⟩
    · exact Or.inr ⟨_, hk⟩
    · exact Or.inl hn
  | up wal mem =>
    rw [hproc] at hlive
    rcases hlive e he with hk | hh
    · exact Or.inr ⟨_, hk⟩
    · exact (h.memory wal mem hproc).head_stored hh

theorem Inv.live_key (h : Inv S opts s) (hext : Extends S opts s.catalog catalog)
    (he : e ∈ s.live) :
    keyOf S opts catalog e = keyOf S opts s.catalog e :=
  keyOf_extends hext (h.disk.settled e (h.live_stored he))

omit [DecidableEq Label] in
/-- The numbers of a batch are not those of deleted logs that are still remembered. -/
theorem reused_fresh {gone : List (Entry Log)}
    (h : ∀ e ∈ gone, ∀ e', Stored S chunks d e' → e'.seq ≠ e.seq)
    (hstored : ∀ e, Stored S chunks d' e → Stored S chunks d e ∨ e ∈ entries) :
    ∀ e ∈ reused gone entries, ∀ e', Stored S chunks d' e' → e'.seq ≠ e.seq := by
  intro e he e' he' heq
  obtain ⟨he, hnot⟩ := List.mem_filter.mp he
  rcases hstored e' he' with he' | he'
  · exact h e he e' he' heq
  · have hnot : e.seq ∉ entries.map Entry.seq := of_decide_eq_true hnot
    exact hnot (heq ▸ List.mem_map_of_mem he')

end Invariant

end Ozymandias.LogRecovery
