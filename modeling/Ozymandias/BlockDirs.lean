import Ozymandias.BlockReadBack

/-!
The directories of the blocks. A block is written in a temporary directory and
renamed into place; it is deleted behind a tombstone, the meta file first and
the other entries in any order. A crash leaves the directories as they are at
that point. Startup finishes the deletions, removes what was being written,
opens the rest, and deletes the blocks that an open block was compacted from.
-/
namespace Ozymandias.BlockDirs

open BitLists Selection TimeMerge HeadModel HeadSelect BlockModel BlockFiles
  BlockReadBack ChunkFile IndexFile

/-- A directory is named by its block; the name of one under construction has a suffix. -/
structure Name where
  id : Ulid
  tmp : Bool
  deriving DecidableEq

inductive MetaFile where
  | torn
  | written (m : Meta)
  deriving DecidableEq

structure Contents where
  tombstone : Bool
  metaJson : Option MetaFile
  index : Option (List Byte)
  chunks : Option (List Byte)
  deriving DecidableEq

abbrev Disk := GoMap Name Contents

def complete (f : Files) : Contents := ⟨false, some (.written f.info), some f.index, some f.chunks⟩

def nothing : Contents := ⟨false, none, none, none⟩

inductive DirErr where
  | noMeta
  | tornMeta
  | noIndex
  | index (e : IndexErr)
  | noChunks
  | chunks (e : ChunkFileErr)
  deriving DecidableEq

def openDir (c : Contents) : Except DirErr OpenBlock :=
  match c.metaJson with
  | none => .error .noMeta
  | some .torn => .error .tornMeta
  | some (.written m) =>
    match c.index with
    | none => .error .noIndex
    | some index =>
      match openIndexReader index with
      | .error e => .error (.index e)
      | .ok ix =>
        match c.chunks with
        | none => .error .noChunks
        | some chunks =>
          match openChunkReader chunks with
          | .error e => .error (.chunks e)
          | .ok _ => .ok ⟨m, ix, chunks⟩

def keepDirs (p : Name → Contents → Bool) (d : Disk) : Disk :=
  ⟨d.entries.filter (fun e => p e.1 e.2), d.nodupKeys.sublist List.filter_sublist⟩

def cleanCondemned (d : Disk) : Disk := keepDirs (fun _ c => !c.tombstone) d

def cleanTmp (d : Disk) : Disk := keepDirs (fun n c => !n.tmp && c.metaJson.isSome) d

def openEach : List (Σ _ : Name, Contents) → Except DirErr (List (Name × OpenBlock))
  | [] => .ok []
  | e :: rest =>
    if e.1.tmp = true ∨ e.2.metaJson = none then openEach rest
    else
      match openDir e.2 with
      | .error err => .error err
      | .ok o =>
        match openEach rest with
        | .error err => .error err
        | .ok out => .ok ((e.1, o) :: out)

def openAll (d : Disk) : Except DirErr (List (Name × OpenBlock)) :=
  match openEach d.entries with
  | .error e => .error e
  | .ok out => .ok (sortBy (fun p => toLex (p.2.info.minTime, p.2.info.ulid)) out)

def superseded (blocks : List (Name × OpenBlock)) : List Ulid :=
  blocks.flatMap (fun p => p.2.info.sources)

def dropSuperseded (blocks : List (Name × OpenBlock)) (d : Disk) :
    List (Name × OpenBlock) × Disk :=
  let (dropped, kept) := blocks.partition (fun p => decide (p.2.info.ulid ∈ superseded blocks))
  (kept, keepDirs (fun n _ => decide (n ∉ dropped.map Prod.fst)) d)

structure Started where
  opened : List (Name × OpenBlock)
  kept : List (Name × OpenBlock)
  disk : Disk

def startup (d : Disk) : Except DirErr Started :=
  let d := cleanTmp (cleanCondemned d)
  match openAll d with
  | .error e => .error e
  | .ok opened => .ok ⟨opened, (dropSuperseded opened d).1, (dropSuperseded opened d).2⟩

def Written (f : Files) : Prop :=
  ∃ opts series b, writeBlock opts series = .ok b ∧
    (∀ ss ∈ series, ∀ x ∈ ss.samples, InRange x) ∧
    (∀ ss ∈ series, ∀ t ∈ ss.series.tags, t.key ≠ metricName) ∧
    writeFiles opts series = .ok f ∧ f.index.length < 2 ^ 64

/-- The directories, the ids that have been used, the blocks that have been published, newest
first, and those whose deletion has begun. -/
structure State where
  disk : Disk
  made : List Ulid
  published : List Files
  begun : List Ulid

/-- One change on disk. A temporary directory has any contents until it is renamed. The swap of
the open blocks after a compaction is in memory and leaves nothing here. -/
inductive Step : State → State → Prop
  | mkdir (s : State) (id : Ulid) (hnew : id ∉ s.made) :
    Step s { s with disk := s.disk.insert ⟨id, true⟩ nothing, made := id :: s.made }
  | scratch (s : State) (id : Ulid) (c c' : Contents) (hdir : s.disk.lookup ⟨id, true⟩ = some c) :
    Step s { s with disk := s.disk.insert ⟨id, true⟩ c' }
  | discard (s : State) (id : Ulid) : Step s { s with disk := s.disk.erase ⟨id, true⟩ }
  | rename (s : State) (f : Files) (hwritten : Written f)
      (hsources : ∀ src ∈ f.info.sources, src ∈ s.published.map (fun g => g.info.ulid))
      (hdir : s.disk.lookup ⟨f.info.ulid, true⟩ = some (complete f)) :
    Step s { s with
      disk := (s.disk.erase ⟨f.info.ulid, true⟩).insert ⟨f.info.ulid, false⟩ (complete f)
      published := f :: s.published }
  | condemn (s : State) (id : Ulid) (c : Contents) (hdir : s.disk.lookup ⟨id, false⟩ = some c) :
    Step s { s with
      disk := s.disk.insert ⟨id, false⟩ { c with tombstone := true }
      begun := id :: s.begun }
  | dropMeta (s : State) (id : Ulid) (c : Contents) (hdir : s.disk.lookup ⟨id, false⟩ = some c)
      (htomb : c.tombstone = true) :
    Step s { s with disk := s.disk.insert ⟨id, false⟩ { c with metaJson := none } }
  | dropTombstone (s : State) (id : Ulid) (c : Contents)
      (hdir : s.disk.lookup ⟨id, false⟩ = some c) (hmeta : c.metaJson = none) :
    Step s { s with disk := s.disk.insert ⟨id, false⟩ { c with tombstone := false } }
  | dropIndex (s : State) (id : Ulid) (c : Contents) (hdir : s.disk.lookup ⟨id, false⟩ = some c)
      (hmeta : c.metaJson = none) :
    Step s { s with disk := s.disk.insert ⟨id, false⟩ { c with index := none } }
  | dropChunks (s : State) (id : Ulid) (c : Contents) (hdir : s.disk.lookup ⟨id, false⟩ = some c)
      (hmeta : c.metaJson = none) :
    Step s { s with disk := s.disk.insert ⟨id, false⟩ { c with chunks := none } }
  | rmdir (s : State) (id : Ulid) (hdir : s.disk.lookup ⟨id, false⟩ = some nothing) :
    Step s { s with disk := s.disk.erase ⟨id, false⟩ }

/-- Finished blocks and nothing else; each names only older ones as its sources. -/
structure Initial (s : State) : Prop where
  disk : ∀ n, s.disk.lookup n = (s.published.find?
    (fun f => decide (n = ⟨f.info.ulid, false⟩))).map complete
  written : ∀ f ∈ s.published, Written f
  ids : (s.published.map (fun f => f.info.ulid)).Nodup
  order : s.published.Pairwise (fun f g => f.info.ulid ∉ g.info.sources)
  irrefl : ∀ f ∈ s.published, f.info.ulid ∉ f.info.sources
  made : ∀ f ∈ s.published, f.info.ulid ∈ s.made ∧ ∀ src ∈ f.info.sources, src ∈ s.made
  begun : s.begun = []

def Reachable (s : State) : Prop := ∃ s₀, Initial s₀ ∧ Relation.ReflTransGen Step s₀ s

/-- A published directory: whole, whole behind a tombstone, or without its meta file. -/
def Fits (f : Files) (begun : Prop) (c : Contents) : Prop :=
  (c = complete f ∧ ¬ begun) ∨
    (begun ∧ (c = { complete f with tombstone := true } ∨ c.metaJson = none))

structure Sound (s : State) : Prop where
  written : ∀ f ∈ s.published, Written f
  ids : (s.published.map (fun f => f.info.ulid)).Nodup
  order : s.published.Pairwise (fun f g => f.info.ulid ∉ g.info.sources)
  irrefl : ∀ f ∈ s.published, f.info.ulid ∉ f.info.sources
  made : ∀ f ∈ s.published, f.info.ulid ∈ s.made ∧ ∀ src ∈ f.info.sources, src ∈ s.made
  tmp : ∀ id c, s.disk.lookup ⟨id, true⟩ = some c → id ∈ s.made ∧
    ∀ f ∈ s.published, f.info.ulid ≠ id ∧ id ∉ f.info.sources
  dirs : ∀ id c, s.disk.lookup ⟨id, false⟩ = some c →
    ∃ f ∈ s.published, f.info.ulid = id ∧ Fits f (id ∈ s.begun) c
  kept : ∀ f ∈ s.published, f.info.ulid ∉ s.begun →
    s.disk.lookup ⟨f.info.ulid, false⟩ = some (complete f)
  begun : ∀ id ∈ s.begun, id ∈ s.published.map (fun f => f.info.ulid)

variable {c : Contents} {f : Files} {s : State} {d : Disk} {id : Ulid}

theorem sound_initial (h : Initial s) : Sound s where
  written := h.written
  ids := h.ids
  order := h.order
  irrefl := h.irrefl
  made := h.made
  tmp id c hc := by
    rw [h.disk, Option.map_eq_some_iff] at hc
    obtain ⟨f, hf, -⟩ := hc
    have := List.find?_some hf
    simp at this
  dirs id c hc := by
    rw [h.disk, Option.map_eq_some_iff] at hc
    obtain ⟨f, hf, rfl⟩ := hc
    have hname := List.find?_some hf
    simp only [decide_eq_true_eq, Name.mk.injEq, and_true] at hname
    refine ⟨f, List.mem_of_find?_eq_some hf, hname.symm, Or.inl ⟨rfl, ?_⟩⟩
    rw [h.begun]
    exact List.not_mem_nil
  kept f hf _ := by
    rw [h.disk]
    cases hfind : s.published.find?
        (fun g => decide ((⟨f.info.ulid, false⟩ : Name) = ⟨g.info.ulid, false⟩)) with
    | none =>
      have := List.find?_eq_none.mp hfind f hf
      simp at this
    | some g =>
      have hname := List.find?_some hfind
      simp only [decide_eq_true_eq, Name.mk.injEq, and_true] at hname
      rw [List.inj_on_of_nodup_map h.ids hf (List.mem_of_find?_eq_some hfind) hname]
      rfl
  begun id hid := by
    rw [h.begun] at hid
    cases hid

/-- A change inside one published directory whose deletion has begun. -/
theorem Sound.update (h : Sound s) (begun' : List Ulid) (hdir : s.disk.lookup ⟨id, false⟩ = some c)
    (hbegun : ∀ id', id' ∈ begun' ↔ id' = id ∨ id' ∈ s.begun)
    (hother : ∀ n, n ≠ ⟨id, false⟩ → d.lookup n = s.disk.lookup n)
    (hfits : ∀ f c', Fits f (id ∈ s.begun) c → d.lookup ⟨id, false⟩ = some c' → Fits f True c') :
    Sound { s with disk := d, begun := begun' } := by
  refine ⟨h.written, h.ids, h.order, h.irrefl, h.made, fun id' c₁ hc₁ => ?_, fun id' c₁ hc₁ => ?_,
    fun f hf hnot => ?_, fun id' hid' => ?_⟩
  · rw [hother _ (by simp)] at hc₁
    exact h.tmp id' c₁ hc₁
  · by_cases hid : id' = id
    · subst hid
      obtain ⟨f, hf, hname, hc⟩ := h.dirs id' c hdir
      refine ⟨f, hf, hname, ?_⟩
      rw [eq_true ((hbegun id').mpr (Or.inl rfl))]
      exact hfits f c₁ hc hc₁
    · rw [hother _ (by simp [hid])] at hc₁
      obtain ⟨f, hf, hname, hc⟩ := h.dirs id' c₁ hc₁
      refine ⟨f, hf, hname, ?_⟩
      have hiff : (id' ∈ begun') = (id' ∈ s.begun) := by
        rw [hbegun]
        simp [hid]
      rw [hiff]
      exact hc
  · rw [hbegun, not_or] at hnot
    rw [hother _ (by simp [hnot.1])]
    exact h.kept f hf hnot.2
  · rcases (hbegun id').mp hid' with rfl | hid'
    · obtain ⟨f, hf, hname, -⟩ := h.dirs _ c hdir
      exact List.mem_map.mpr ⟨f, hf, hname⟩
    · exact h.begun id' hid'

theorem Sound.begun_of (h : Sound s) (hdir : s.disk.lookup ⟨id, false⟩ = some c)
    (hpart : c.tombstone = true ∨ c.metaJson = none) : id ∈ s.begun := by
  obtain ⟨f, -, -, ⟨rfl, -⟩ | ⟨hbegun, -⟩⟩ := h.dirs id c hdir
  · rcases hpart with h | h <;> cases h
  · exact hbegun

theorem fits_noMeta (h : c.metaJson = none) : Fits f True c :=
  Or.inr ⟨trivial, Or.inr h⟩

/-- Inside a directory that is being deleted. -/
theorem Sound.update_begun (h : Sound s) (hdir : s.disk.lookup ⟨id, false⟩ = some c)
    (hpart : c.tombstone = true ∨ c.metaJson = none)
    (hother : ∀ n, n ≠ ⟨id, false⟩ → d.lookup n = s.disk.lookup n)
    (hleft : ∀ c', d.lookup ⟨id, false⟩ = some c' → c'.metaJson = none) :
    Sound { s with disk := d } := by
  refine h.update s.begun hdir (fun id' => ?_) hother (fun f c' _ hc' => fits_noMeta (hleft c' hc'))
  constructor
  · exact Or.inr
  · rintro (rfl | hid')
    · exact h.begun_of hdir hpart
    · exact hid'

variable {n : Name} {o : OpenBlock}

theorem noMeta_insert {c' : Contents} (h : c.metaJson = none)
    (hc : (d.insert n c).lookup n = some c') :
    c'.metaJson = none := by
  rw [AList.lookup_insert] at hc
  cases hc
  exact h

/-- A change among the temporary directories. -/
theorem Sound.tmpDirs (h : Sound s) {made' : List Ulid} (hmade : ∀ id ∈ s.made, id ∈ made')
    (hsame : ∀ id, d.lookup ⟨id, false⟩ = s.disk.lookup ⟨id, false⟩)
    (htmp : ∀ id c, d.lookup ⟨id, true⟩ = some c →
      (∃ c', s.disk.lookup ⟨id, true⟩ = some c') ∨ id ∈ made' ∧ id ∉ s.made) :
    Sound { s with disk := d, made := made' } := by
  refine ⟨h.written, h.ids, h.order, h.irrefl, fun f hf => ⟨hmade _ (h.made f hf).1,
    fun src hsrc => hmade _ ((h.made f hf).2 src hsrc)⟩, fun id c hc => ?_, fun id c hc => ?_,
    fun f hf hnot => ?_, h.begun⟩
  · rcases htmp id c hc with ⟨c', hc'⟩ | ⟨hin, hnew⟩
    · obtain ⟨hold, hapart⟩ := h.tmp id c' hc'
      exact ⟨hmade id hold, hapart⟩
    · refine ⟨hin, fun f hf => ⟨?_, fun hsrc => hnew ((h.made f hf).2 id hsrc)⟩⟩
      rintro rfl
      exact hnew (h.made f hf).1
  · rw [hsame] at hc
    exact h.dirs id c hc
  · rw [hsame]
    exact h.kept f hf hnot

theorem Sound.rename (h : Sound s) (hwritten : Written f)
    (hsources : ∀ src ∈ f.info.sources, src ∈ s.published.map (fun g => g.info.ulid))
    (hdir : s.disk.lookup ⟨f.info.ulid, true⟩ = some (complete f)) :
    Sound { s with
      disk := (s.disk.erase ⟨f.info.ulid, true⟩).insert ⟨f.info.ulid, false⟩ (complete f)
      published := f :: s.published } := by
  obtain ⟨hmade, hapart⟩ := h.tmp _ _ hdir
  have hfresh : f.info.ulid ∉ s.published.map (fun g => g.info.ulid) := by
    intro hmem
    obtain ⟨g, hg, hid⟩ := List.mem_map.mp hmem
    exact (hapart g hg).1 hid
  have hold : ∀ {g : Files}, g ∈ s.published → g.info.ulid ≠ f.info.ulid :=
    fun hg => (hapart _ hg).1
  refine ⟨?_, List.nodup_cons.mpr ⟨hfresh, h.ids⟩, List.pairwise_cons.mpr
    ⟨fun g hg => (hapart g hg).2, h.order⟩, ?_, ?_, ?_, ?_, ?_, fun id hid => ?_⟩
  · exact List.forall_mem_cons.mpr ⟨hwritten, h.written⟩
  · exact List.forall_mem_cons.mpr ⟨fun hself => hfresh (hsources _ hself), h.irrefl⟩
  · refine List.forall_mem_cons.mpr ⟨⟨hmade, fun src hsrc => ?_⟩, h.made⟩
    obtain ⟨g, hg, rfl⟩ := List.mem_map.mp (hsources src hsrc)
    exact (h.made g hg).1
  · intro id c hc
    rw [AList.lookup_insert_ne (by simp)] at hc
    have hne : id ≠ f.info.ulid := by
      rintro rfl
      rw [AList.lookup_erase] at hc
      cases hc
    rw [AList.lookup_erase_ne (by simp [hne])] at hc
    obtain ⟨hin, hothers⟩ := h.tmp id c hc
    refine ⟨hin, List.forall_mem_cons.mpr ⟨⟨fun heq => hne heq.symm, fun hsrc => ?_⟩, hothers⟩⟩
    obtain ⟨g, hg, hid⟩ := List.mem_map.mp (hsources id hsrc)
    exact (hothers g hg).1 hid
  · intro id c hc
    by_cases hid : id = f.info.ulid
    · subst hid
      rw [AList.lookup_insert] at hc
      cases hc
      refine ⟨f, List.mem_cons_self, rfl, Or.inl ⟨rfl, fun hbegun => hfresh (h.begun _ hbegun)⟩⟩
    · rw [AList.lookup_insert_ne (by simp [hid]), AList.lookup_erase_ne (by simp)] at hc
      obtain ⟨g, hg, hname, hfits⟩ := h.dirs id c hc
      exact ⟨g, List.mem_cons_of_mem _ hg, hname, hfits⟩
  · intro g hg hnot
    rcases List.mem_cons.mp hg with rfl | hg
    · exact AList.lookup_insert _
    · rw [AList.lookup_insert_ne (by simp [hold hg]), AList.lookup_erase_ne (by simp)]
      exact h.kept g hg hnot
  · exact List.mem_cons_of_mem _ (h.begun id hid)

theorem sound_step {s' : State} (h : Sound s) (hstep : Step s s') : Sound s' := by
  cases hstep with
  | mkdir id hnew =>
    refine h.tmpDirs (fun _ hid => List.mem_cons_of_mem _ hid)
      (fun id' => AList.lookup_insert_ne (by simp)) (fun id' c hc => ?_)
    by_cases hid : id' = id
    · exact Or.inr ⟨hid ▸ List.mem_cons_self, hid ▸ hnew⟩
    · rw [AList.lookup_insert_ne (by simp [hid])] at hc
      exact Or.inl ⟨c, hc⟩
  | scratch id c c' hdir =>
    refine h.tmpDirs (fun _ hid => hid) (fun id' => AList.lookup_insert_ne (by simp))
      (fun id' c₁ hc₁ => Or.inl ?_)
    by_cases hid : id' = id
    · exact ⟨c, hid ▸ hdir⟩
    · rw [AList.lookup_insert_ne (by simp [hid])] at hc₁
      exact ⟨c₁, hc₁⟩
  | discard id =>
    refine h.tmpDirs (fun _ hid => hid) (fun id' => AList.lookup_erase_ne (by simp))
      (fun id' c₁ hc₁ => Or.inl ?_)
    by_cases hid : id' = id
    · rw [hid, AList.lookup_erase] at hc₁
      cases hc₁
    · rw [AList.lookup_erase_ne (by simp [hid])] at hc₁
      exact ⟨c₁, hc₁⟩
  | rename f hwritten hsources hdir => exact h.rename hwritten hsources hdir
  | condemn id c hdir =>
    refine h.update (id :: s.begun) hdir (fun id' => List.mem_cons)
      (fun _ => AList.lookup_insert_ne)
      (fun f c' hfits hc' => ?_)
    rw [AList.lookup_insert] at hc'
    cases hc'
    rcases hfits with ⟨rfl, -⟩ | ⟨-, rfl | hmeta⟩
    · exact Or.inr ⟨trivial, Or.inl rfl⟩
    · exact Or.inr ⟨trivial, Or.inl rfl⟩
    · exact fits_noMeta hmeta
  | dropMeta id c hdir htomb =>
    exact h.update_begun hdir (Or.inl htomb) (fun _ => AList.lookup_insert_ne)
      (fun _ => noMeta_insert rfl)
  | dropTombstone id c hdir hmeta | dropIndex id c hdir hmeta | dropChunks id c hdir hmeta =>
    exact h.update_begun hdir (Or.inr hmeta) (fun _ => AList.lookup_insert_ne)
      (fun _ => noMeta_insert hmeta)
  | rmdir id hdir =>
    refine h.update_begun hdir (Or.inr rfl) (fun _ => AList.lookup_erase_ne) (fun c hc => ?_)
    rw [AList.lookup_erase] at hc
    cases hc

theorem sound_reachable (h : Reachable s) : Sound s := by
  obtain ⟨s₀, hinit, hsteps⟩ := h
  induction hsteps with
  | refl => exact sound_initial hinit
  | tail _ hstep ih => exact sound_step ih hstep

theorem info_openFiles (h : openFiles f = .ok o) : o.info = f.info := by
  unfold openFiles at h
  split at h
  · cases h
  · split at h <;> cases h
    rfl

theorem Written.opens (h : Written f) : ∃ o, openFiles f = .ok o := by
  obtain ⟨opts, series, b, hb, hrange, hname, hfiles, hsize⟩ := h
  obtain ⟨f', hf', hopen⟩ := files_written hb hrange hname
  rw [hfiles] at hf'
  cases hf'
  obtain ⟨o, ho, -⟩ := hopen hsize
  exact ⟨o, ho⟩

theorem openDir_complete (h : openFiles f = .ok o) : openDir (complete f) = .ok o := by
  unfold openFiles at h
  unfold openDir complete
  cases hix : openIndexReader f.index with
  | error e =>
    rw [hix] at h
    cases h
  | ok ix =>
    cases hchunks : openChunkReader f.chunks with
    | error e =>
      simp only [hix, hchunks] at h
      cases h
    | ok c =>
      simp only [hix, hchunks] at h ⊢
      rw [Except.ok.inj h]

theorem lookup_keepDirs {p : Name → Contents → Bool} :
    (keepDirs p d).lookup n = some c ↔ d.lookup n = some c ∧ p n c = true := by
  change c ∈ (keepDirs p d).lookup n ↔ c ∈ d.lookup n ∧ p n c = true
  rw [AList.mem_lookup_iff, AList.mem_lookup_iff]
  exact List.mem_filter

def Present (s : State) (f : Files) : Prop := f ∈ s.published ∧ f.info.ulid ∉ s.begun

def Named (s : State) (id : Ulid) : Prop := ∃ g, Present s g ∧ id ∈ g.info.sources

/-- What is left to open are the directories of present blocks. -/
theorem lookup_cleaned (h : Sound s) : (cleanTmp (cleanCondemned s.disk)).lookup n = some c ↔
      ∃ f, Present s f ∧ n = ⟨f.info.ulid, false⟩ ∧ c = complete f := by
  unfold cleanTmp cleanCondemned
  rw [lookup_keepDirs, lookup_keepDirs]
  constructor
  · rintro ⟨⟨hc, htomb⟩, hname⟩
    obtain ⟨id, tmp⟩ := n
    rw [Bool.and_eq_true] at hname
    obtain ⟨htmp, hmeta⟩ := hname
    cases tmp with
    | true => cases htmp
    | false =>
      obtain ⟨f, hf, rfl, ⟨rfl, hnot⟩ | ⟨-, rfl | hnone⟩⟩ := h.dirs id c hc
      · exact ⟨f, ⟨hf, hnot⟩, rfl, rfl⟩
      · cases htomb
      · rw [hnone] at hmeta
        cases hmeta
  · rintro ⟨f, ⟨hf, hnot⟩, rfl, rfl⟩
    exact ⟨⟨h.kept f hf hnot, rfl⟩, rfl⟩

theorem openEach_spec {es : List (Σ _ : Name, Contents)}
    (h : ∀ e ∈ es, e.1.tmp = false ∧ e.2.metaJson ≠ none ∧ ∃ o, openDir e.2 = .ok o) :
    ∃ out, openEach es = .ok out ∧ ∀ n o, (n, o) ∈ out ↔ ∃ e ∈ es, e.1 = n ∧
      openDir e.2 = .ok o := by
  induction es with
  | nil => exact ⟨[], rfl, by simp⟩
  | cons e es ih =>
    obtain ⟨htmp, hmeta, o, ho⟩ := h e (by simp)
    obtain ⟨out, hout, hmem⟩ := ih (List.forall_mem_cons.mp h).2
    refine ⟨(e.1, o) :: out, ?_, fun n o' => ?_⟩
    · rw [openEach, if_neg (by simp [htmp, hmeta]), ho, hout]
    · rw [List.mem_cons, hmem]
      simp only [List.mem_cons, exists_eq_or_imp, Prod.mk.injEq, ho, Except.ok.injEq]
      exact or_congr_left (and_congr eq_comm eq_comm)

theorem openAll_spec (h : Sound s) :
    ∃ opened, openAll (cleanTmp (cleanCondemned s.disk)) = .ok opened ∧ ∀ n o, (n, o) ∈ opened ↔
        ∃ f, Present s f ∧ n = ⟨f.info.ulid, false⟩ ∧ openFiles f = .ok o := by
  have hentry : ∀ e, e ∈ (cleanTmp (cleanCondemned s.disk)).entries ↔
      ∃ f, Present s f ∧ e.1 = ⟨f.info.ulid, false⟩ ∧ e.2 = complete f := by
    rintro ⟨n, c⟩
    rw [← AList.mem_lookup_iff]
    exact lookup_cleaned h
  have hopens : ∀ e ∈ (cleanTmp (cleanCondemned s.disk)).entries,
      e.1.tmp = false ∧ e.2.metaJson ≠ none ∧ ∃ o, openDir e.2 = .ok o := by
    intro e he
    obtain ⟨f, hf, hname, hc⟩ := (hentry e).mp he
    obtain ⟨o, ho⟩ := (h.written f hf.1).opens
    rw [hname, hc]
    exact ⟨rfl, by simp [complete], o, openDir_complete ho⟩
  obtain ⟨out, hout, hmem⟩ := openEach_spec hopens
  refine ⟨sortBy _ out, by rw [openAll, hout], fun n o => ?_⟩
  rw [mem_sortBy, hmem]
  constructor
  · rintro ⟨e, he, rfl, ho⟩
    obtain ⟨f, hf, hname, hc⟩ := (hentry e).mp he
    obtain ⟨o', ho'⟩ := (h.written f hf.1).opens
    rw [hc, openDir_complete ho'] at ho
    cases ho
    exact ⟨f, hf, hname, ho'⟩
  · rintro ⟨f, hf, rfl, ho⟩
    exact ⟨⟨_, complete f⟩, (hentry _).mpr ⟨f, hf, rfl, rfl⟩, rfl, openDir_complete ho⟩

/-- What startup opens, keeps and leaves on disk. -/
theorem startup_spec (h : Sound s) : ∃ r, startup s.disk = .ok r ∧ (∀ n o, (n, o) ∈ r.opened ↔
        ∃ f, Present s f ∧ n = ⟨f.info.ulid, false⟩ ∧ openFiles f = .ok o) ∧
      (∀ n o, (n, o) ∈ r.kept ↔ (n, o) ∈ r.opened ∧ ¬ Named s o.info.ulid) ∧
      ∀ n c, r.disk.lookup n = some c ↔ ∃ f, Present s f ∧ ¬ Named s f.info.ulid ∧
        n = ⟨f.info.ulid, false⟩ ∧ c = complete f := by
  obtain ⟨opened, hopen, hmem⟩ := openAll_spec h
  have hsup : ∀ id, id ∈ superseded opened ↔ Named s id := by
    intro id
    unfold superseded
    rw [List.mem_flatMap]
    constructor
    · rintro ⟨⟨n, o⟩, hno, hid⟩
      obtain ⟨g, hg, -, ho⟩ := (hmem n o).mp hno
      exact ⟨g, hg, by rw [← info_openFiles ho]; exact hid⟩
    · rintro ⟨g, hg, hid⟩
      obtain ⟨o, ho⟩ := (h.written g hg.1).opens
      exact ⟨(_, o), (hmem _ o).mpr ⟨g, hg, rfl, ho⟩, by rw [info_openFiles ho]; exact hid⟩
  refine ⟨_, by unfold startup; dsimp only; rw [hopen], hmem, fun n o => ?_, fun n c => ?_⟩
  · dsimp only [dropSuperseded]
    simp [hsup]
  · dsimp only [dropSuperseded]
    rw [List.partition_eq_filter_filter, lookup_keepDirs, lookup_cleaned h]
    constructor
    · rintro ⟨⟨f, hf, rfl, rfl⟩, hnot⟩
      refine ⟨f, hf, fun hnamed => ?_, rfl, rfl⟩
      obtain ⟨o, ho⟩ := (h.written f hf.1).opens
      refine of_decide_eq_true hnot (List.mem_map.mpr ⟨(_, o), List.mem_filter.mpr ⟨?_, ?_⟩, rfl⟩)
      · exact (hmem _ o).mpr ⟨f, hf, rfl, ho⟩
      · rw [decide_eq_true_eq, info_openFiles ho, hsup]
        exact hnamed
    · rintro ⟨f, hf, hfree, rfl, rfl⟩
      refine ⟨⟨f, hf, rfl, rfl⟩, decide_eq_true ?_⟩
      intro hdropped
      obtain ⟨⟨n, o⟩, hno, hname⟩ := List.mem_map.mp hdropped
      obtain ⟨hno, hid⟩ := List.mem_filter.mp hno
      obtain ⟨f', hf', rfl, ho⟩ := (hmem n o).mp hno
      rw [decide_eq_true_eq, info_openFiles ho, hsup, (Name.mk.inj hname).1] at hid
      exact hfree hid

/-- A present block was compacted from another one, directly or through present blocks. -/
def Supersedes (s : State) : Files → Files → Prop :=
  Relation.TransGen (fun g f => Present s g ∧ f.info.ulid ∈ g.info.sources)

/-- Names go from newer to older blocks. -/
theorem Sound.named_older (h : Sound s) {g : Files} {i j : ℕ} (hf : s.published[i]? = some f)
    (hg : s.published[j]? = some g) (hsrc : f.info.ulid ∈ g.info.sources) : j < i := by
  obtain ⟨hi, rfl⟩ := List.getElem?_eq_some_iff.mp hf
  obtain ⟨hj, rfl⟩ := List.getElem?_eq_some_iff.mp hg
  by_contra hle
  rcases Nat.lt_or_eq_of_le (Nat.le_of_not_lt hle) with hlt | rfl
  · exact List.pairwise_iff_getElem.mp h.order i j hi hj hlt hsrc
  · exact h.irrefl _ (List.getElem_mem _) hsrc

/-- A block that is named is superseded by one that is not. -/
theorem Sound.exists_top (h : Sound s) (hf : Present s f) (hnamed : Named s f.info.ulid) :
    ∃ g, Present s g ∧ Supersedes s g f ∧ ¬ Named s g.info.ulid := by
  obtain ⟨i, hi⟩ := List.mem_iff_getElem?.mp hf.1
  induction i using Nat.strongRecOn generalizing f with
  | ind i ih =>
    obtain ⟨g, hg, hsrc⟩ := hnamed
    by_cases htop : Named s g.info.ulid
    · obtain ⟨j, hj⟩ := List.mem_iff_getElem?.mp hg.1
      obtain ⟨k, hk, hsup, hfree⟩ := ih j (h.named_older hi hj hsrc) hg htop hj
      exact ⟨k, hk, hsup.tail ⟨hg, hsrc⟩, hfree⟩
    · exact ⟨g, hg, .single ⟨hg, hsrc⟩, htop⟩

/-- After a crash at any point, startup succeeds. It opens only directories that hold their files
as written; no two blocks that stay open are one compacted from the other; a block whose deletion
had not begun stays open unless one that stays open supersedes it; and the directories of the
blocks that stay open are all that is left on disk. -/
theorem startup_after_crash {s : State} (h : Reachable s) :
    ∃ r, startup s.disk = .ok r ∧
      (∀ n o, (n, o) ∈ r.opened → ∃ f ∈ s.published, s.disk.lookup n = some (complete f) ∧
        openFiles f = .ok o) ∧
      (∀ n o n' o', (n, o) ∈ r.kept → (n', o') ∈ r.kept → o'.info.ulid ∉ o.info.sources) ∧
      (∀ f ∈ s.published, f.info.ulid ∉ s.begun →
        (∃ o, (⟨f.info.ulid, false⟩, o) ∈ r.kept ∧ openFiles f = .ok o) ∨
        ∃ g o, (⟨g.info.ulid, false⟩, o) ∈ r.kept ∧ openFiles g = .ok o ∧ Supersedes s g f) ∧
      ∀ n, (∃ c, r.disk.lookup n = some c) ↔ ∃ o, (n, o) ∈ r.kept := by
  have hsound := sound_reachable h
  obtain ⟨r, hr, hopened, hkept, hdisk⟩ := startup_spec hsound
  have hstays : ∀ f, Present s f → ¬ Named s f.info.ulid →
      ∃ o, (⟨f.info.ulid, false⟩, o) ∈ r.kept ∧ openFiles f = .ok o := by
    intro f hf hfree
    obtain ⟨o, ho⟩ := (hsound.written f hf.1).opens
    refine ⟨o, (hkept _ o).mpr ⟨(hopened _ o).mpr ⟨f, hf, rfl, ho⟩, ?_⟩, ho⟩
    rw [info_openFiles ho]
    exact hfree
  refine ⟨r, hr, fun n o hno => ?_, fun n o n' o' hno hno' => ?_, fun f hf hnot => ?_, fun n => ?_⟩
  · obtain ⟨f, hf, rfl, ho⟩ := (hopened n o).mp hno
    exact ⟨f, hf.1, hsound.kept f hf.1 hf.2, ho⟩
  · obtain ⟨f, hf, -, ho⟩ := (hopened n o).mp ((hkept n o).mp hno).1
    rw [info_openFiles ho]
    exact fun hsrc => ((hkept n' o').mp hno').2 ⟨f, hf, hsrc⟩
  · by_cases hnamed : Named s f.info.ulid
    · obtain ⟨g, hg, hsup, hfree⟩ := hsound.exists_top ⟨hf, hnot⟩ hnamed
      obtain ⟨o, ho, hopen⟩ := hstays g hg hfree
      exact Or.inr ⟨g, o, ho, hopen, hsup⟩
    · exact Or.inl (hstays f ⟨hf, hnot⟩ hnamed)
  · constructor
    · rintro ⟨c, hc⟩
      obtain ⟨f, hf, hfree, rfl, -⟩ := (hdisk n c).mp hc
      obtain ⟨o, ho, -⟩ := hstays f hf hfree
      exact ⟨o, ho⟩
    · rintro ⟨o, ho⟩
      obtain ⟨hop, hfree⟩ := (hkept n o).mp ho
      obtain ⟨f, hf, rfl, hfo⟩ := (hopened n o).mp hop
      refine ⟨complete f, (hdisk _ _).mpr ⟨f, hf, ?_, rfl, rfl⟩⟩
      rw [← info_openFiles hfo]
      exact hfree

theorem exists_written : ∃ f, Written f ∧ f.info.sources = [] := by
  obtain ⟨b, hb⟩ := writeBlock_bare
  obtain ⟨f, hf, hopen⟩ := files_written hb inRange_bare unnamed_bare
  obtain ⟨o, ho, hopens⟩ := hopen (size_bare f hf)
  refine ⟨f, ⟨_, _, b, hb, inRange_bare, unnamed_bare, hf, size_bare f hf⟩, ?_⟩
  rw [← info_openFiles ho, hopens.info]
  exact (info_writeBlock hb).2.2.1

def oneDir (f : Files) : Disk := AList.insert ⟨f.info.ulid, false⟩ (complete f) ∅

def condemnedOne (f : Files) : State :=
  ⟨AList.insert ⟨f.info.ulid, false⟩ { complete f with tombstone := true } (oneDir f),
    [f.info.ulid], [f], [f.info.ulid]⟩

theorem lookup_oneDir (f : Files) (n : Name) : (oneDir f).lookup n =
    ([f].find? (fun f => decide (n = ⟨f.info.ulid, false⟩))).map complete := by
  unfold oneDir
  by_cases hn : n = ⟨f.info.ulid, false⟩
  · rw [hn, AList.lookup_insert]
    simp
  · rw [AList.lookup_insert_ne hn]
    simp [hn]

theorem reachable_condemnedOne (hf : Written f) (hsources : f.info.sources = []) :
    Reachable (condemnedOne f) := by
  refine ⟨⟨oneDir f, [f.info.ulid], [f], []⟩,
    ⟨lookup_oneDir f, by simpa using hf, List.nodup_singleton _, List.pairwise_singleton _ _, ?_,
      ?_, rfl⟩, .single (.condemn _ f.info.ulid (complete f) ?_)⟩
  · simp [hsources]
  · simp [hsources]
  · rw [lookup_oneDir]
    simp

theorem startup_after_crash_one : ∃ s, Reachable s ∧ s.begun ≠ [] ∧
    ∃ r, startup s.disk = .ok r := by
  obtain ⟨f, hf, hsources⟩ := exists_written
  have hreach := reachable_condemnedOne hf hsources
  obtain ⟨r, hr, -⟩ := startup_after_crash hreach
  exact ⟨_, hreach, List.cons_ne_nil _ _, r, hr⟩

end Ozymandias.BlockDirs
