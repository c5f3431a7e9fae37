import Ozymandias.IndexRoundTrip

/-!
A block on disk. The writer turns the samples of a series into chunks, appends
them to the chunks file as they fill and keeps where each one went; at the end
the index file is written. Reading a series goes through the index to the
chunks of the window. The files written for a block answer every read as the
block of the model does.
-/
namespace Ozymandias.BlockFiles

open BitLists SeriesModel Selection Peaks TimeMerge HeadModel HeadSelect BlockModel
  ChunkFile IndexFile IndexRoundTrip BitStream

inductive FilesErr where
  | ref (key : GoString) (e : RefErr)
  | encoding (e : ChunkErr)
  | empty
  deriving DecidableEq

structure Files where
  info : Meta
  index : List Byte
  chunks : List Byte

def writeChunk (w : ChunkWriter) (c : BlockChunk) :
    Except ChunkErr (ChunkWriter × ChunkRef) :=
  match encodeChunk c.samples with
  | .error e => .error e
  | .ok data =>
    let (w, off, recLen) := w.write encodingGorilla data
    .ok (w, ⟨c.minT, c.maxT, off, recLen⟩)

def writeChunks (w : ChunkWriter) :
    List BlockChunk → Except ChunkErr (ChunkWriter × List ChunkRef)
  | [] => .ok (w, [])
  | c :: cs =>
    match writeChunk w c with
    | .error e => .error e
    | .ok (w, ref) =>
      match writeChunks w cs with
      | .error e => .error e
      | .ok (w, refs) => .ok (w, ref :: refs)

structure FilesWriter where
  chunks : ChunkWriter
  ix : List SeriesEntry
  minT : ℤ
  maxT : ℤ

def maxInt64 : ℤ := 2 ^ 63 - 1

def FilesWriter.new : FilesWriter := ⟨ChunkWriter.new, [], maxInt64, minInt64⟩

def FilesWriter.addSeries (w : FilesWriter) (ss : SeriesSamples) : Except FilesErr FilesWriter :=
  if hne : ss.samples = [] then .ok w
  else
    match validate ss.series with
    | some e => .error (.ref ss.series.key e)
    | none =>
      match writeChunks w.chunks (rechunk ss.samples) with
      | .error e => .error (.encoding e)
      | .ok (chunks, refs) =>
        .ok ⟨chunks, w.ix ++ [⟨ss.series, refs⟩], min w.minT (ss.samples.head hne).t,
          max w.maxT (ss.samples.getLast hne).t⟩

def FilesWriter.addAll (w : FilesWriter) : List SeriesSamples → Except FilesErr FilesWriter
  | [] => .ok w
  | ss :: rest =>
    match w.addSeries ss with
    | .error e => .error e
    | .ok w => w.addAll rest

def FilesWriter.close (opts : WriterOptions) (w : FilesWriter) : Except FilesErr Files :=
  if w.ix = [] then .error .empty
  else .ok ⟨⟨opts.ulid, w.minT, w.maxT, opts.level, opts.sources, opts.resolutionS⟩,
    writeIndex w.ix, w.chunks.file⟩

def writeFiles (opts : WriterOptions) (series : List SeriesSamples) : Except FilesErr Files :=
  match FilesWriter.new.addAll series with
  | .error e => .error e
  | .ok w => w.close opts

inductive OpenErr where
  | index (e : IndexErr)
  | chunks (e : ChunkFileErr)
  deriving DecidableEq

inductive ReadErr where
  | chunk (key : GoString) (e : ChunkFileErr)
  | encoding (key : GoString) (got : Byte)
  | decoding (key : GoString) (e : ChunkErr)
  | noSeries (id n : ℕ)
  deriving DecidableEq

structure OpenBlock where
  info : Meta
  ix : IndexReader
  chunks : List Byte

def openFiles (f : Files) : Except OpenErr OpenBlock :=
  match openIndexReader f.index with
  | .error e => .error (.index e)
  | .ok ix =>
    match openChunkReader f.chunks with
    | .error e => .error (.chunks e)
    | .ok _ => .ok ⟨f.info, ix, f.chunks⟩

def OpenBlock.overlaps (b : OpenBlock) (start stop : ℤ) : Bool :=
  decide (b.info.minTime ≤ stop ∧ start ≤ b.info.maxTime)

def readSamples (file : List Byte) (key : GoString) (start stop : ℤ) :
    List ChunkRef → Except ReadErr (List Sample)
  | [] => .ok []
  | c :: rest =>
    if c.maxT < start ∨ stop < c.minT then readSamples file key start stop rest
    else
      match chunkAt file c.off c.recLen with
      | .error e => .error (.chunk key e)
      | .ok (encoding, data) =>
        if encoding ≠ encodingGorilla then .error (.encoding key encoding)
        else
          match readChunk data start stop with
          | .error e => .error (.decoding key e)
          | .ok samples =>
            match readSamples file key start stop rest with
            | .error e => .error e
            | .ok more => .ok (samples ++ more)

def OpenBlock.samples (b : OpenBlock) (s : SeriesEntry) (start stop : ℤ) :
    Except ReadErr (List Sample) := readSamples b.chunks s.ref.key start stop s.chunks

def OpenBlock.readIds (b : OpenBlock) (start stop : ℤ) :
    List ℕ → Except ReadErr (List SeriesSamples)
  | [] => .ok []
  | id :: ids =>
    match b.ix.series[id]? with
    | none => .error (.noSeries id b.ix.series.length)
    | some s =>
      match b.samples s start stop with
      | .error e => .error e
      | .ok samples =>
        match b.readIds start stop ids with
        | .error e => .error e
        | .ok out => .ok (if samples = [] then out else ⟨s.ref, samples⟩ :: out)

def OpenBlock.select (b : OpenBlock) (sel : Selector) (start stop : ℤ) :
    Except ReadErr (List SeriesSamples) :=
  if b.overlaps start stop then
    match b.readIds start stop (IndexSelect.select b.ix.lookup sel) with
    | .error e => .error e
    | .ok out => .ok (sortByKey out)
  else .ok []

def OpenBlock.readAll (b : OpenBlock) : List SeriesEntry → Except ReadErr (List SeriesSamples)
  | [] => .ok []
  | s :: rest =>
    match b.samples s b.info.minTime b.info.maxTime with
    | .error e => .error e
    | .ok samples =>
      match b.readAll rest with
      | .error e => .error e
      | .ok out => .ok (⟨s.ref, samples⟩ :: out)

def OpenBlock.all (b : OpenBlock) : Except ReadErr (List SeriesSamples) := b.readAll b.ix.series

def OpenBlock.samplesFor (b : OpenBlock) (key : GoString) : Except ReadErr (List Sample) :=
  match b.ix.series.find? (fun s => decide (byteOrder key ≤ keyOrder s.ref)) with
  | none => .ok []
  | some s =>
    if s.ref.key = key then b.samples s b.info.minTime b.info.maxTime else .ok []

structure Holds (file : List Byte) (c : BlockChunk) (r : ChunkRef) : Prop where
  minT : r.minT = c.minT
  maxT : r.maxT = c.maxT
  data : ∃ data front back, file = front ++ chunkRecord encodingGorilla data ++ back ∧
    r.off = front.length ∧ r.recLen = (chunkRecord encodingGorilla data).length ∧
    (chunkRecord encodingGorilla data).length ≤ maxChunkLen ∧
    ∀ start stop, readChunk data start stop = .ok (readWindow start stop c.samples)

structure Stored (file : List Byte) (s : BlockSeries) (e : SeriesEntry) : Prop where
  ref : e.ref = s.ref
  chunks : List.Forall₂ (Holds file) s.chunks e.chunks

variable {f : FilesWriter} {file : List Byte} {w : Writer} {c : BlockChunk} {e : SeriesEntry}
  {s : BlockSeries} {α β : Type} {es : List SeriesEntry} {o : OpenBlock} {ss : List BlockSeries}
  {b : Block} {w' : Writer} {series : List SeriesSamples} {ref : SeriesRef} {opts : WriterOptions}
  {R : α → β → Prop} {as : List α} {bs : List β}

theorem Holds.append {r : ChunkRef} (h : Holds file c r) (more : List Byte) :
    Holds (file ++ more) c r := by
  obtain ⟨data, front, back, hfile, hoff, hlen, hsmall, hread⟩ := h.data
  refine ⟨h.minT, h.maxT, data, front, back ++ more, ?_, hoff, hlen, hsmall, hread⟩
  rw [hfile, List.append_assoc]

theorem Stored.append (h : Stored file s e) (more : List Byte) : Stored (file ++ more) s e :=
  ⟨h.ref, h.chunks.imp (fun _ _ hc => hc.append more)⟩

structure Encodable (c : BlockChunk) : Prop where
  ascending : Ascending Sample.t c.samples
  range : ∀ x ∈ c.samples, InRange x

theorem writeChunk_spec {w : ChunkWriter} (hoff : w.off = w.file.length) (hc : Encodable c) :
    ∃ w' r more, writeChunk w c = .ok (w', r) ∧ w'.off = w'.file.length ∧
      w'.file = w.file ++ more ∧ Holds w'.file c r := by
  obtain ⟨data, hencode, hsmall, hread⟩ := encodeChunk_spec c.capped hc.ascending hc.range
  refine ⟨_, _, chunkRecord encodingGorilla data, by unfold writeChunk; rw [hencode], ?_, rfl,
    rfl, rfl, data, w.file, [], (List.append_nil _).symm, hoff, rfl, hsmall _, ?_⟩
  · unfold ChunkWriter.write
    rw [List.length_append, hoff]
  · intro start stop
    rw [hread, readWindow_eq hc.ascending]
    rfl

theorem writeChunks_spec {w : ChunkWriter} (hoff : w.off = w.file.length) {cs : List BlockChunk}
    (hcs : ∀ c ∈ cs, Encodable c) :
    ∃ w' rs more, writeChunks w cs = .ok (w', rs) ∧ w'.off = w'.file.length ∧
      w'.file = w.file ++ more ∧ List.Forall₂ (Holds w'.file) cs rs := by
  induction cs generalizing w with
  | nil => exact ⟨w, [], [], rfl, hoff, (List.append_nil _).symm, .nil⟩
  | cons c cs ih =>
    obtain ⟨w₁, r, more₁, hwrite, hoff₁, hfile₁, hr⟩ := writeChunk_spec hoff (hcs c (by simp))
    obtain ⟨w₂, rs, more₂, hrest, hoff₂, hfile₂, hrs⟩ :=
      ih hoff₁ (List.forall_mem_cons.mp hcs).2
    refine ⟨w₂, r :: rs, more₁ ++ more₂, ?_, hoff₂, ?_, .cons ?_ hrs⟩
    · rw [writeChunks, hwrite]
      dsimp only
      rw [hrest]
    · rw [hfile₂, hfile₁, List.append_assoc]
    · rw [hfile₂]
      exact hr.append more₂

/-- Reading a stored series visits the chunks that the series of the model visits. -/
theorem readSamples_stored (h : Stored file s e) (key : GoString) (start stop : ℤ) :
    readSamples file key start stop e.chunks = .ok (s.samplesIn start stop) := by
  unfold BlockSeries.samplesIn
  have hchunks := h.chunks
  generalize s.chunks = cs at hchunks ⊢
  generalize e.chunks = rs at hchunks
  induction hchunks with
  | nil => rfl
  | cons hc hrest ih =>
    rename_i c r cs rs
    rw [readSamples, hc.minT, hc.maxT]
    by_cases hout : c.maxT < start ∨ stop < c.minT
    · rw [if_pos hout, ih, List.filter_cons_of_neg (by simpa [or_iff_not_imp_left] using hout)]
    · obtain ⟨data, front, back, hfile, hoff, hlen, hsmall, hread⟩ := hc.data
      rw [if_neg hout, hoff, hlen, chunkAt_record hfile hsmall]
      dsimp only
      rw [if_neg (not_not.mpr rfl), hread, ih, List.filter_cons_of_pos (by simpa using hout),
        List.flatMap_cons]

structure Opens (b : Block) (o : OpenBlock) : Prop where
  info : o.info = b.info
  series : List.Forall₂ (Stored o.chunks) b.series o.ix.series
  indexes : IndexSelect.Indexes o.ix.lookup (fun id => (o.ix.series[id]?).map SeriesEntry.ref)

theorem exists_right_at (h : List.Forall₂ R as bs) {i : ℕ} {a : α} (ha : as[i]? = some a) :
    ∃ b, bs[i]? = some b ∧ R a b := by
  induction h generalizing i with
  | nil => cases ha
  | cons hab _ ih =>
    cases i with
    | zero =>
      cases ha
      exact ⟨_, rfl, hab⟩
    | succ i => exact ih ha

theorem readAll_opened (h : List.Forall₂ (Stored o.chunks) ss es) :
    o.readAll es = .ok (ss.map (fun s => ⟨s.ref, s.samplesIn o.info.minTime o.info.maxTime⟩)) := by
  induction h with
  | nil => rfl
  | cons hs _ ih =>
    unfold OpenBlock.readAll OpenBlock.samples
    rw [readSamples_stored hs, ih, hs.ref]
    rfl

theorem find_stored (h : List.Forall₂ (Stored file) ss es) (p : SeriesRef → Bool) :
    (ss.find? (fun s => p s.ref) = none ∧ es.find? (fun e => p e.ref) = none) ∨
      ∃ s e, ss.find? (fun s => p s.ref) = some s ∧ es.find? (fun e => p e.ref) = some e ∧
        Stored file s e := by
  induction h with
  | nil => exact Or.inl ⟨rfl, rfl⟩
  | cons hs hrest ih =>
    rename_i s e ss es
    cases hp : p s.ref with
    | true =>
      refine Or.inr ⟨s, e, List.find?_cons_of_pos hp, List.find?_cons_of_pos ?_, hs⟩
      rw [hs.ref]
      exact hp
    | false =>
      rw [List.find?_cons_of_neg (by simp [hp]), List.find?_cons_of_neg (by simp [hs.ref, hp])]
      exact ih

/-- The ids of a list, and the series that they name. -/
theorem readIds_opened (h : Opens b o) (start stop : ℤ) {ids : List ℕ}
    (hids : ∀ id ∈ ids, id < b.series.length) :
    o.readIds start stop ids = .ok (((ids.filterMap (fun id => b.series[id]?)).map
      (fun s => ⟨s.ref, s.samplesIn start stop⟩)).filter (fun ss => decide (ss.samples ≠ []))) := by
  induction ids with
  | nil => rfl
  | cons id ids ih =>
    obtain ⟨s, hs⟩ : ∃ s, b.series[id]? = some s :=
      ⟨_, List.getElem?_eq_getElem (hids id (by simp))⟩
    obtain ⟨e, he, hstored⟩ := exists_right_at h.series hs
    unfold OpenBlock.readIds OpenBlock.samples
    rw [he]
    dsimp only
    rw [readSamples_stored hstored, ih (List.forall_mem_cons.mp hids).2,
      List.filterMap_cons, hs, hstored.ref]
    dsimp only
    rw [List.map_cons]
    by_cases hnil : s.samplesIn start stop = []
    · rw [if_pos hnil, List.filter_cons_of_neg (by simp [hnil])]
    · rw [if_neg hnil, List.filter_cons_of_pos (by simp [hnil])]

section

variable {b : Block} {o : OpenBlock} (h : Opens b o)
include h

theorem ref_opened (id : ℕ) :
    (o.ix.series[id]?).map SeriesEntry.ref = (b.series[id]?).map BlockSeries.ref := by
  cases hs : b.series[id]? with
  | some s =>
    obtain ⟨e, he, hstored⟩ := exists_right_at h.series hs
    rw [he, Option.map_some, Option.map_some, hstored.ref]
  | none =>
    have hlen := h.series.length_eq
    rw [List.getElem?_eq_none (by rw [← hlen]; exact List.getElem?_eq_none_iff.mp hs)]
    rfl

/-- The index picks the series that the selector selects, in their order. -/
theorem select_ids (sel : Selector) :
    (∀ id ∈ IndexSelect.select o.ix.lookup sel, id < b.series.length) ∧
      (IndexSelect.select o.ix.lookup sel).filterMap (fun id => b.series[id]?) =
        b.series.filter (fun s => sel.selects s.ref) := by
  obtain ⟨hsorted, hmem⟩ := IndexSelect.select_spec h.indexes sel
  have hids : ∀ id, id ∈ IndexSelect.select o.ix.lookup sel ↔
      ∃ s, b.series[id]? = some s ∧ sel.selects s.ref = true := by
    intro id
    rw [hmem id]
    simp only [ref_opened h, Option.map_eq_some_iff, exists_exists_and_eq_and]
  have hlt : ∀ id ∈ IndexSelect.select o.ix.lookup sel, id < b.series.length := by
    intro id hid
    obtain ⟨s, hs, -⟩ := (hids id).mp hid
    exact (List.getElem?_eq_some_iff.mp hs).1
  refine ⟨hlt, ascending_ext ?_ (Ascending.filter b.sorted _) (fun s => ?_)⟩
  · refine List.pairwise_filterMap.mpr (hsorted.imp ?_)
    intro i j hij s hs s' hs'
    obtain ⟨hi, rfl⟩ := List.getElem?_eq_some_iff.mp hs
    obtain ⟨hj, rfl⟩ := List.getElem?_eq_some_iff.mp hs'
    exact List.pairwise_iff_getElem.mp b.sorted i j hi hj hij
  · rw [List.mem_filterMap, List.mem_filter]
    constructor
    · rintro ⟨id, hid, hs⟩
      obtain ⟨s', hs', hsel⟩ := (hids id).mp hid
      rw [hs] at hs'
      cases hs'
      exact ⟨List.mem_of_getElem? hs, hsel⟩
    · rintro ⟨hs, hsel⟩
      obtain ⟨id, hid⟩ := List.mem_iff_getElem?.mp hs
      exact ⟨id, (hids id).mpr ⟨s, hid, hsel⟩, hid⟩

/-- Selecting from the files is selecting from the block. -/
theorem select_opened (sel : Selector) (start stop : ℤ) :
    o.select sel start stop = .ok (b.select sel start stop) := by
  obtain ⟨hlt, hseries⟩ := select_ids h sel
  unfold OpenBlock.select Block.select OpenBlock.overlaps Block.overlaps
  rw [h.info, readIds_opened h start stop hlt, hseries]
  split <;> rfl

theorem all_opened : o.all = .ok b.contents := by
  unfold OpenBlock.all
  rw [readAll_opened h.series, h.info]
  refine congrArg Except.ok (List.map_congr_left (fun s hs => ?_))
  rw [b.samplesIn_all hs]

theorem samplesFor_opened (key : GoString) : o.samplesFor key = .ok (b.samplesFor key) := by
  unfold OpenBlock.samplesFor Block.samplesFor
  rcases find_stored h.series (fun ref => decide (byteOrder key ≤ keyOrder ref)) with
    ⟨hs, he⟩ | ⟨s, e, hs, he, hstored⟩
  · rw [hs, he]
  · rw [hs, he]
    dsimp only
    unfold OpenBlock.samples
    rw [readSamples_stored hstored, hstored.ref, h.info]
    split <;> rfl

end

theorem openChunkReader_header (rest : List Byte) :
    openChunkReader (chunksHeader ++ rest) = .ok () := by
  have hlen : ¬ (chunksHeader ++ rest).length < chunksHeaderLen := by
    simp [chunksHeader, chunksHeaderLen, WalFrame.putUint32]
  have hmagic : WalFrame.uint32 (chunksHeader ++ rest) = chunksMagic := by
    exact WalFrame.uint32_putUint32 _ _ (by decide)
  have hversion : (chunksHeader ++ rest).getD 4 0 = chunksVersion := rfl
  unfold openChunkReader
  rw [if_neg hlen, hmagic, hversion, if_neg (not_not.mpr rfl), if_neg (not_not.mpr rfl)]

/-- What the file writer has written when the writer of the model has these series. -/
structure Wrote (f : FilesWriter) (w : Writer) : Prop where
  off : f.chunks.off = f.chunks.file.length
  header : ∃ rest, f.chunks.file = chunksHeader ++ rest
  series : List.Forall₂ (Stored f.chunks.file) w.series f.ix
  minT : f.minT = (w.series.map BlockSeries.firstT).foldl min maxInt64
  maxT : f.maxT = (w.series.map BlockSeries.lastT).foldl max minInt64

theorem wrote_new : Wrote FilesWriter.new Writer.new :=
  ⟨rfl, ⟨[], (List.append_nil _).symm⟩, .nil, rfl, rfl⟩

theorem addSeries_wrote {ss : SeriesSamples} (h : Wrote f w) (hrange : ∀ x ∈ ss.samples, InRange x)
    (hadd : w.addSeries ss = .ok w') : ∃ f', f.addSeries ss = .ok f' ∧ Wrote f' w' := by
  rcases addSeries_cases hadd with ⟨hnil, rfl⟩ | ⟨s, href, hchunks, hne, hseries⟩
  · exact ⟨f, dif_pos hnil, h⟩
  · have hsamples : s.samples = ss.samples := by
      rw [BlockSeries.samples, hchunks, samples_rechunk]
    have hcs : ∀ c ∈ rechunk ss.samples, Encodable c := by
      intro c hc
      rw [← hchunks] at hc
      refine ⟨s.ascending.of_mem_flatMap hc, fun x hx => hrange x ?_⟩
      rw [← hsamples]
      exact List.mem_flatMap.mpr ⟨c, hc, hx⟩
    obtain ⟨cw, rs, more, hwrite, hoff, hfile, hrs⟩ := writeChunks_spec h.off hcs
    have hvalid : validate ss.series = none := by
      rw [← href]
      exact s.valid
    refine ⟨⟨cw, f.ix ++ [⟨ss.series, rs⟩], min f.minT (ss.samples.head hne).t,
      max f.maxT (ss.samples.getLast hne).t⟩, ?_, hoff, ?_, ?_, ?_, ?_⟩
    · unfold FilesWriter.addSeries
      rw [dif_neg hne, hvalid]
      rw [hwrite]
    · obtain ⟨rest, hrest⟩ := h.header
      exact ⟨rest ++ more, by rw [hfile, hrest, List.append_assoc]⟩
    · rw [hseries]
      refine List.rel_append ?_ (.cons ⟨href.symm, by rw [hchunks]; exact hrs⟩ .nil)
      rw [hfile]
      exact h.series.imp (fun _ _ hs => hs.append more)
    · obtain ⟨x, hx, hxt⟩ := s.exists_first
      rw [hsamples, List.head?_eq_some_head hne] at hx
      rw [hseries, List.map_append, List.foldl_append, ← h.minT, Option.some.inj hx, hxt]
      rfl
    · obtain ⟨x, hx, hxt⟩ := s.exists_last
      rw [hsamples, List.getLast?_eq_some_getLast hne] at hx
      rw [hseries, List.map_append, List.foldl_append, ← h.maxT, Option.some.inj hx, hxt]
      rfl

theorem addAll_wrote (h : Wrote f w) (hrange : ∀ ss ∈ series, ∀ x ∈ ss.samples, InRange x)
    (hadd : w.addAll series = .ok w') : ∃ f', f.addAll series = .ok f' ∧ Wrote f' w' := by
  induction series generalizing f w with
  | nil =>
    cases hadd
    exact ⟨f, rfl, h⟩
  | cons ss rest ih =>
    unfold Writer.addAll at hadd
    cases hone : w.addSeries ss with
    | error e =>
      rw [hone] at hadd
      cases hadd
    | ok w₁ =>
      rw [hone] at hadd
      obtain ⟨f₁, hf₁, h₁⟩ := addSeries_wrote h (hrange ss (by simp)) hone
      obtain ⟨f', hf', h'⟩ := ih h₁ (List.forall_mem_cons.mp hrange).2 hadd
      refine ⟨f', ?_, h'⟩
      rw [FilesWriter.addAll, hf₁]
      exact hf'

/-- Lists that correspond, and agree on what they are sorted by, correspond when sorted. -/
theorem forall₂_sortBy {τ : Type} [LinearOrder τ] {time : α → τ} {time' : β → τ}
    (h : List.Forall₂ R as bs) (htime : ∀ a b, R a b → time a = time' b) :
    List.Forall₂ R (sortBy time as) (sortBy time' bs) := by
  have hinsert : ∀ {a : α} {b : β} {as : List α} {bs : List β}, R a b → List.Forall₂ R as bs →
      List.Forall₂ R (as.orderedInsert (Order.Preimage time (· ≤ ·)) a)
        (bs.orderedInsert (Order.Preimage time' (· ≤ ·)) b) := by
    intro a b as bs hab h
    induction h with
    | nil => exact .cons hab .nil
    | cons hab' hrest ih =>
      rename_i a' b' as bs
      unfold List.orderedInsert
      have hiff : Order.Preimage time (· ≤ ·) a a' ↔ Order.Preimage time' (· ≤ ·) b b' := by
        unfold Order.Preimage
        rw [htime a b hab, htime a' b' hab']
      by_cases hle : Order.Preimage time (· ≤ ·) a a'
      · rw [if_pos hle, if_pos (hiff.mp hle)]
        exact .cons hab (.cons hab' hrest)
      · rw [if_neg hle, if_neg (fun hle' => hle (hiff.mpr hle'))]
        exact .cons hab' ih
  induction h with
  | nil => exact .nil
  | cons hab _ ih => exact hinsert hab ih

/-- Tags in order are distinct. -/
theorem nodup_tags (h : validate ref = none) : ref.tags.Nodup := by
  have hsorted : anyUnsorted ref.tags = false := by
    unfold validate at h
    split at h
    · cases h
    · split at h
      · cases h
      · exact Bool.eq_false_iff.mpr ‹_›
  have hchain : ref.tags.IsChain (fun t u => termOrder t < termOrder u) := by
    generalize ref.tags = ts at hsorted
    induction ts with
    | nil => exact .nil
    | cons t ts ih =>
      cases ts with
      | nil => exact .singleton _
      | cons u ts =>
        obtain ⟨htu, hrest⟩ := Bool.or_eq_false_iff.mp hsorted
        refine .cons_cons ?_ (ih hrest)
        obtain ⟨hkey, hvalue⟩ := Bool.or_eq_false_iff.mp htu
        rw [Bool.and_eq_false_iff, decide_eq_false_iff_not, decide_eq_false_iff_not] at hvalue
        refine Prod.Lex.toLex_lt_toLex.mpr ?_
        rcases lt_or_eq_of_le (not_lt.mp (of_decide_eq_false hkey)) with hlt | heq
        · exact Or.inl hlt
        · refine Or.inr ⟨heq, not_le.mp (hvalue.resolve_left ?_)⟩
          exact not_not.mpr (byteOrder_injective heq)
  refine (List.isChain_iff_pairwise.mp hchain).imp ?_
  rintro t u hlt rfl
  exact lt_irrefl _ hlt

theorem nodup_terms (h : validate ref = none) (hname : ∀ t ∈ ref.tags, t.key ≠ metricName) :
    (terms ref).Nodup := by
  refine List.nodup_cons.mpr ⟨fun hmem => ?_, nodup_tags h⟩
  exact hname _ hmem rfl

/-- Finishing the files of a block, and opening them. -/
theorem close_opens (h : Wrote f w) (hclose : w.close opts = .ok b)
    (hrange : ∀ s ∈ b.series, ∀ x ∈ s.samples, InRange x)
    (hname : ∀ s ∈ b.series, ∀ t ∈ s.ref.tags, t.key ≠ metricName) :
    ∃ files, f.close opts = .ok files ∧
      (files.index.length < 2 ^ 64 → ∃ o, openFiles files = .ok o ∧ Opens b o) := by
  obtain ⟨lo, hi, hlo, hhi, hinfo, hseries⟩ := close_spec hclose
  have hne : f.ix ≠ [] := by
    intro hnil
    have hlen := h.series.length_eq
    rw [hnil, List.length_nil, List.length_eq_zero_iff] at hlen
    rw [hlen] at hlo
    cases hlo
  have hmin : f.minT = lo := by
    obtain ⟨s, hs, x, hx, hxt⟩ := b.minTime_mem
    have hle := (hrange s hs x hx).2
    rw [hxt, hinfo] at hle
    dsimp only at hle
    rw [h.minT, List.foldl_min, hlo, Option.getD_some]
    exact min_eq_right (by unfold maxInt64; omega)
  have hmax : f.maxT = hi := by
    obtain ⟨s, hs, x, hx, hxt⟩ := b.maxTime_mem
    have hle := (hrange s hs x hx).1
    rw [hxt, hinfo] at hle
    rw [h.maxT, List.foldl_max, hhi]
    exact max_eq_right hle
  refine ⟨_, if_neg hne, fun hsize => ?_⟩
  have hstored : List.Forall₂ (Stored f.chunks.file) b.series
      (sortBy (fun e => keyOrder e.ref) f.ix) := by
    rw [hseries]
    refine forall₂_sortBy h.series (fun s e hs => ?_)
    rw [hs.ref]
  generalize hentries : sortBy (fun e : SeriesEntry => keyOrder e.ref) f.ix = entries at hstored
  have hstorable : ∀ e ∈ entries, e.Storable (buildSymbols entries) := by
    intro e he
    obtain ⟨s, hs, hse⟩ := exists_left_of_mem hstored he
    refine ⟨fun t ht => mem_buildSymbols.mpr (Or.inr ⟨e, he, ht⟩), fun r hr => ?_⟩
    obtain ⟨c, hc, hcr⟩ := exists_left_of_mem hse.chunks hr
    obtain ⟨x, hx, hxt⟩ := c.exists_last
    have hin := hrange s hs x (List.mem_flatMap.mpr ⟨c, hc, List.mem_of_getLast? hx⟩)
    rw [InRange, hxt, ← hcr.maxT] at hin
    exact ⟨hin.1, hin.2⟩
  have hterms : ∀ e ∈ entries, (terms e.ref).Nodup := by
    intro e he
    obtain ⟨s, hs, hse⟩ := exists_left_of_mem hstored he
    rw [hse.ref]
    exact nodup_terms s.valid (hname s hs)
  have hindex : writeIndex f.ix = writeSorted entries := by
    rw [writeIndex, hentries]
  have hbody : (indexBody entries).length < 2 ^ 64 := by
    rw [hindex, writeSorted, List.length_append] at hsize
    omega
  obtain ⟨ids, hopen, hids⟩ := open_written hstorable hbody
  obtain ⟨rest, hrest⟩ := h.header
  have hchunks : openChunkReader f.chunks.file = .ok () := by
    rw [hrest]
    exact openChunkReader_header rest
  let ix : IndexReader := ⟨buildSymbols entries, ids, entries, indexBody entries,
    (postingsTable entries).2, List.range entries.length⟩
  have hopened : Opened entries ix := by
    refine ⟨rfl, fun t => ?_, rfl, rfl, rfl, rfl⟩
    rw [hids]
    by_cases ht : t ∈ buildSymbols entries
    · rw [if_pos ht, if_pos ht, symID_of_mem ht]
    · rw [if_neg ht, if_neg ht]
  refine ⟨⟨⟨opts.ulid, f.minT, f.maxT, opts.level, opts.sources, opts.resolutionS⟩, ix,
    f.chunks.file⟩, ?_, by rw [hinfo, hmin, hmax], hstored, indexes_opened hopened hterms⟩
  unfold openFiles
  rw [hindex, hopen]
  rw [hchunks]

/-- The files of a block, and what reading them gives. -/
theorem files_written (hb : writeBlock opts series = .ok b)
    (hrange : ∀ ss ∈ series, ∀ x ∈ ss.samples, InRange x)
    (hname : ∀ ss ∈ series, ∀ t ∈ ss.series.tags, t.key ≠ metricName) :
    ∃ files, writeFiles opts series = .ok files ∧
      (files.index.length < 2 ^ 64 → ∃ o, openFiles files = .ok o ∧ Opens b o) := by
  have hmem : ∀ s ∈ b.series, (⟨s.ref, s.samples⟩ : SeriesSamples) ∈ series := by
    intro s hs
    exact ((mem_writeBlock hb _).mp (List.mem_map_of_mem hs)).1
  obtain ⟨w, hadd, hclose⟩ := writeBlock_cases hb
  obtain ⟨f, hf, hwrote⟩ := addAll_wrote wrote_new hrange hadd
  obtain ⟨files, hfiles, hopen⟩ := close_opens hwrote hclose
    (fun s hs x hx => hrange _ (hmem s hs) x hx) (fun s hs t ht => hname _ (hmem s hs) t ht)
  refine ⟨files, ?_, hopen⟩
  rw [writeFiles, hf]
  exact hfiles

end Ozymandias.BlockFiles
