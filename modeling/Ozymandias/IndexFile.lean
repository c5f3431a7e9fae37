import Ozymandias.ChunkFile
import Ozymandias.CompactPlan

/-!
The index file of a block, byte by byte. Every string of the block is a symbol
and is written once; series, postings and the offset table refer to symbols by
their ordinals, and ordinals are ordered as the strings are. Reading the file
gives back the series in the order of their keys and an offset table that leads
to the postings of every term.
-/
namespace Ozymandias.IndexFile

open BitLists WalFrame SeriesModel Selection Varint TimeMerge HeadModel CompactPlan
  HeadSelect

structure ChunkRef where
  minT : ℤ
  maxT : ℤ
  off : ℕ
  recLen : ℕ
  deriving DecidableEq

structure SeriesEntry where
  ref : SeriesRef
  chunks : List ChunkRef
  deriving DecidableEq

structure TableEntry where
  keySym : ℕ
  valSym : ℕ
  off : ℕ
  deriving DecidableEq

structure PostingList where
  key : GoString
  value : GoString
  ids : List ℕ
  deriving DecidableEq

def PostingList.term (l : PostingList) : Tag := ⟨l.key, l.value⟩

def indexMagic : ℕ := 0x4f5a4958

def indexVersion : Byte := 1

def indexHeadLen : ℕ := 5

def tocLen : ℕ := 8 * 4

def strings (ref : SeriesRef) : List GoString :=
  ref.metric :: ref.tags.flatMap (fun t => [t.key, t.value])

def buildSymbols (series : List SeriesEntry) : List GoString :=
  sortBy byteOrder (metricName :: series.flatMap (fun s => strings s.ref)).dedup

def symID (syms : List GoString) (s : GoString) : ℕ := if s ∈ syms then syms.idxOf s else 0

def additions (series : List SeriesEntry) : List (Tag × ℕ) :=
  series.zipIdx.flatMap (fun p => (terms p.1.ref).map (fun t => (t, p.2)))

def termOrder (t : Tag) : List ℕ ×ₗ List ℕ := toLex (byteOrder t.key, byteOrder t.value)

def idsOf (series : List SeriesEntry) (t : Tag) : List ℕ :=
  ((additions series).filter (fun a => decide (a.1 = t))).map Prod.snd

def invert (series : List SeriesEntry) : List PostingList :=
  (sortBy termOrder ((additions series).map Prod.fst).dedup).map
    (fun t => ⟨t.key, t.value, idsOf series t⟩)

def encodeSymbols (syms : List GoString) : List Byte :=
  appendUvarint syms.length ++ syms.flatMap appendString

def encodeTag (syms : List GoString) (t : Tag) : List Byte :=
  appendUvarint (symID syms t.key) ++ appendUvarint (symID syms t.value)

def encodeChunkRef (c : ChunkRef) : List Byte :=
  appendVarint c.minT ++ appendUvarint ((c.maxT - c.minT) % 2 ^ 64).toNat ++ appendUvarint c.off ++
    appendUvarint c.recLen

def encodeEntry (syms : List GoString) (s : SeriesEntry) : List Byte :=
  appendUvarint (symID syms s.ref.metric) ++ appendUvarint s.ref.tags.length ++
    s.ref.tags.flatMap (encodeTag syms) ++ appendUvarint s.chunks.length ++
    s.chunks.flatMap encodeChunkRef

def encodeEntries (syms : List GoString) (series : List SeriesEntry) : List Byte :=
  appendUvarint series.length ++ series.flatMap (encodeEntry syms)

def encodeDeltas : ℕ → List ℕ → List Byte
  | _, [] => []
  | prev, id :: rest => appendUvarint (id - prev) ++ encodeDeltas id rest

def encodeIds (ids : List ℕ) : List Byte :=
  appendUvarint ids.length ++ encodeDeltas 0 ids

def encodePostings (syms : List GoString) : ℕ → List PostingList → List Byte × List TableEntry
  | _, [] => ([], [])
  | off, l :: rest =>
    let (more, table) := encodePostings syms (off + (encodeIds l.ids).length) rest
    (encodeIds l.ids ++ more, ⟨symID syms l.key, symID syms l.value, off⟩ :: table)

def encodeTableEntry (e : TableEntry) : List Byte :=
  appendUvarint e.keySym ++ appendUvarint e.valSym ++ appendUvarint e.off

def encodeTable (table : List TableEntry) : List Byte :=
  appendUvarint table.length ++ table.flatMap encodeTableEntry

def putUint64 (n : ℕ) : List Byte := (leBytes 8 n).reverse

def indexHeader : List Byte := putUint32 indexMagic ++ [indexVersion]

def symbolsBytes (series : List SeriesEntry) : List Byte := encodeSymbols (buildSymbols series)

def entriesBytes (series : List SeriesEntry) : List Byte :=
  encodeEntries (buildSymbols series) series

def seriesOff (series : List SeriesEntry) : ℕ := indexHeadLen + (symbolsBytes series).length

def postingsOff (series : List SeriesEntry) : ℕ := seriesOff series + (entriesBytes series).length

def postingsTable (series : List SeriesEntry) : List Byte × List TableEntry :=
  encodePostings (buildSymbols series) (postingsOff series) (invert series)

def tableOff (series : List SeriesEntry) : ℕ :=
  postingsOff series + (postingsTable series).1.length

def toc (series : List SeriesEntry) : List Byte :=
  putUint64 indexHeadLen ++ putUint64 (seriesOff series) ++ putUint64 (postingsOff series) ++
    putUint64 (tableOff series)

def indexBody (series : List SeriesEntry) : List Byte :=
  indexHeader ++ symbolsBytes series ++ entriesBytes series ++ (postingsTable series).1 ++
    encodeTable (postingsTable series).2 ++ toc series

def writeSorted (series : List SeriesEntry) : List Byte :=
  indexBody series ++ putUint32 (crc32c (indexBody series)).toNat

def writeIndex (series : List SeriesEntry) : List Byte :=
  writeSorted (sortBy (fun s => keyOrder s.ref) series)

inductive DecodeErr where
  | truncatedUvarint
  | truncatedVarint
  | stringExceeds (n remaining : ℕ)
  deriving DecidableEq

structure Decoder where
  b : List Byte
  err : Option DecodeErr
  deriving DecidableEq

def Decoder.uvarint (d : Decoder) : ℕ × Decoder :=
  match d.err with
  | some _ => (0, d)
  | none =>
    match Varint.uvarint d.b with
    | none => (0, { d with err := some .truncatedUvarint })
    | some (v, rest) => (v, { d with b := rest })

def Decoder.varint (d : Decoder) : ℤ × Decoder :=
  match d.err with
  | some _ => (0, d)
  | none =>
    match Varint.varint d.b with
    | none => (0, { d with err := some .truncatedVarint })
    | some (v, rest) => (v, { d with b := rest })

def Decoder.str (d : Decoder) : GoString × Decoder :=
  let (n, d) := d.uvarint
  match d.err with
  | some _ => ([], d)
  | none =>
    if d.b.length < n then ([], { d with err := some (.stringExceeds n d.b.length) })
    else (d.b.take n, { d with b := d.b.drop n })

inductive IndexErr where
  | tooShort
  | badMagic (got : ℕ)
  | badVersion (got : Byte)
  | corrupt (got want : ℕ)
  | tocOutside
  | symbolsClaim (n : ℕ) (e : Option DecodeErr)
  | symbol (i : ℕ) (e : Option DecodeErr)
  | noSymbol (i n : ℕ)
  | seriesClaim (n : ℕ) (e : Option DecodeErr)
  | tagsClaim (i n : ℕ) (e : Option DecodeErr)
  | chunksClaim (i n : ℕ) (e : Option DecodeErr)
  | series (i : ℕ) (e : Option DecodeErr)
  | tableClaim (n : ℕ) (e : Option DecodeErr)
  | postingsOutside (i : ℕ)
  | table (e : DecodeErr)
  deriving DecidableEq

structure IndexReader where
  symbols : List GoString
  symID : GoMap GoString ℕ
  series : List SeriesEntry
  postings : List Byte
  table : List TableEntry
  all : List ℕ

def readSymbolsFrom : ℕ → Decoder → List GoString → GoMap GoString ℕ →
    Except IndexErr (List GoString × GoMap GoString ℕ)
  | 0, _, syms, ids => .ok (syms, ids)
  | n + 1, d, syms, ids =>
    let (s, d) := d.str
    if d.err ≠ none then .error (.symbol syms.length d.err)
    else readSymbolsFrom n d (syms ++ [s]) (ids.insert s syms.length)

def readSymbols (d : Decoder) : Except IndexErr (List GoString × GoMap GoString ℕ) :=
  let (n, d) := d.uvarint
  if d.err ≠ none ∨ d.b.length < n then .error (.symbolsClaim n d.err)
  else readSymbolsFrom n d [] ∅

def sym (symbols : List GoString) (i : ℕ) : Except IndexErr GoString :=
  match symbols[i]? with
  | none => .error (.noSymbol i symbols.length)
  | some s => .ok s

def readTags (symbols : List GoString) : ℕ → Decoder → Except IndexErr (List Tag × Decoder)
  | 0, d => .ok ([], d)
  | n + 1, d =>
    let (i, d) := d.uvarint
    match sym symbols i with
    | .error e => .error e
    | .ok key =>
      let (j, d) := d.uvarint
      match sym symbols j with
      | .error e => .error e
      | .ok value =>
        match readTags symbols n d with
        | .error e => .error e
        | .ok (tags, d) => .ok (⟨key, value⟩ :: tags, d)

def readChunkRef (d : Decoder) : ChunkRef × Decoder :=
  let (minT, d) := d.varint
  let (span, d) := d.uvarint
  let (off, d) := d.uvarint
  let (recLen, d) := d.uvarint
  (⟨minT, wrap64 (minT + wrap64 span), off, recLen⟩, d)

def readChunkRefs : ℕ → Decoder → List ChunkRef × Decoder
  | 0, d => ([], d)
  | n + 1, d =>
    let (c, d) := readChunkRef d
    let (cs, d) := readChunkRefs n d
    (c :: cs, d)

def readEntry (symbols : List GoString) (i : ℕ) (d : Decoder) :
    Except IndexErr (SeriesEntry × Decoder) :=
  let (m, d) := d.uvarint
  match sym symbols m with
  | .error e => .error e
  | .ok metric =>
    let (ntags, d) := d.uvarint
    if d.err ≠ none ∨ d.b.length < ntags then .error (.tagsClaim i ntags d.err)
    else
      match readTags symbols ntags d with
      | .error e => .error e
      | .ok (tags, d) =>
        let (nchunks, d) := d.uvarint
        if d.err ≠ none ∨ d.b.length < nchunks then .error (.chunksClaim i nchunks d.err)
        else
          let (chunks, d) := readChunkRefs nchunks d
          if d.err ≠ none then .error (.series i d.err) else .ok (⟨⟨metric, tags⟩, chunks⟩, d)

def readEntries (symbols : List GoString) : ℕ → ℕ → Decoder → Except IndexErr (List SeriesEntry)
  | 0, _, _ => .ok []
  | n + 1, i, d =>
    match readEntry symbols i d with
    | .error e => .error e
    | .ok (s, d) =>
      match readEntries symbols n (i + 1) d with
      | .error e => .error e
      | .ok series => .ok (s :: series)

def readSeries (symbols : List GoString) (d : Decoder) : Except IndexErr (List SeriesEntry) :=
  let (n, d) := d.uvarint
  if d.err ≠ none ∨ d.b.length < n then .error (.seriesClaim n d.err)
  else readEntries symbols n 0 d

def readTableEntry (d : Decoder) : TableEntry × Decoder :=
  let (keySym, d) := d.uvarint
  let (valSym, d) := d.uvarint
  let (off, d) := d.uvarint
  (⟨keySym, valSym, off⟩, d)

def readTableFrom (size : ℕ) : ℕ → ℕ → Decoder → Except IndexErr (List TableEntry)
  | 0, _, d =>
    match d.err with
    | none => .ok []
    | some e => .error (.table e)
  | n + 1, i, d =>
    let (e, d) := readTableEntry d
    if size ≤ e.off then .error (.postingsOutside i)
    else
      match readTableFrom size n (i + 1) d with
      | .error e => .error e
      | .ok table => .ok (e :: table)

def readTable (size : ℕ) (d : Decoder) : Except IndexErr (List TableEntry) :=
  let (n, d) := d.uvarint
  if d.err ≠ none ∨ d.b.length < n then .error (.tableClaim n d.err)
  else readTableFrom size n 0 d

def uint64At (bytes : List Byte) (i : ℕ) : ℕ := leNumber ((bytes.drop i).take 8).reverse

def openIndexReader (b : List Byte) : Except IndexErr IndexReader :=
  if b.length < indexHeadLen + tocLen + 4 then .error .tooShort
  else if uint32 b ≠ indexMagic then .error (.badMagic (uint32 b))
  else if b.getD 4 0 ≠ indexVersion then .error (.badVersion (b.getD 4 0))
  else
    let body := b.take (b.length - 4)
    let sum := uint32 (b.drop (b.length - 4))
    if (crc32c body).toNat ≠ sum then .error (.corrupt (crc32c body).toNat sum)
    else
      let offs := (List.range 4).map
        (fun i => uint64At (body.drop (body.length - tocLen)) (8 * i))
      if offs.any (fun off => decide (body.length < off)) then .error .tocOutside
      else
        match readSymbols ⟨body.drop (offs.getD 0 0), none⟩ with
        | .error e => .error e
        | .ok (symbols, ids) =>
          match readSeries symbols ⟨body.drop (offs.getD 1 0), none⟩ with
          | .error e => .error e
          | .ok series =>
            match readTable body.length ⟨body.drop (offs.getD 3 0), none⟩ with
            | .error e => .error e
            | .ok table => .ok ⟨symbols, ids, series, body, table, List.range series.length⟩

def readDeltas : ℕ → ℕ → Decoder → List ℕ
  | 0, _, _ => []
  | n + 1, prev, d =>
    let (delta, d) := d.uvarint
    if d.err ≠ none then [] else (prev + delta) :: readDeltas n (prev + delta) d

def IndexReader.readPostings (r : IndexReader) (off : ℕ) : List ℕ :=
  let (n, d) := Decoder.uvarint ⟨r.postings.drop off, none⟩
  if d.err ≠ none ∨ d.b.length + 1 < n then [] else readDeltas n 0 d

def IndexReader.postingsOf (r : IndexReader) (key value : GoString) : List ℕ :=
  match r.symID.lookup key, r.symID.lookup value with
  | some k, some v =>
    match r.table.find? (fun e => decide (k < e.keySym ∨ e.keySym = k ∧ v ≤ e.valSym)) with
    | none => []
    | some e => if e.keySym ≠ k ∨ e.valSym ≠ v then [] else r.readPostings e.off
  | _, _ => []

def symbolsWhile (symbols : List GoString) : List TableEntry → List GoString
  | [] => []
  | e :: rest =>
    match sym symbols e.valSym with
    | .error _ => []
    | .ok v => v :: symbolsWhile symbols rest

def IndexReader.tagValues (r : IndexReader) (key : GoString) : List GoString :=
  match r.symID.lookup key with
  | none => []
  | some k =>
    symbolsWhile r.symbols ((r.table.dropWhile (fun e => decide (e.keySym < k))).takeWhile
      (fun e => decide (e.keySym = k)))

def IndexReader.lookup (r : IndexReader) : IndexSelect.Lookup where
  postings := r.postingsOf
  tagValues := r.tagValues
  allSeries := r.all

variable {syms : List GoString}

@[simp] theorem uvarint_encoded (n : ℕ) (rest : List Byte) :
    Decoder.uvarint ⟨appendUvarint n ++ rest, none⟩ = (n, ⟨rest, none⟩) := by
  simp [Decoder.uvarint, uvarint_append]

@[simp] theorem varint_encoded (t : ℤ) (rest : List Byte) :
    Decoder.varint ⟨appendVarint t ++ rest, none⟩ = (t, ⟨rest, none⟩) := by
  simp [Decoder.varint, varint_append]

@[simp] theorem str_encoded (t : GoString) (rest : List Byte) :
    Decoder.str ⟨appendString t ++ rest, none⟩ = (t, ⟨rest, none⟩) := by
  simp [Decoder.str, appendString]

/-- A count that the bytes behind it can hold is not refused. -/
theorem not_claimed {n : ℕ} {bytes : List Byte} (h : n ≤ bytes.length) (rest : List Byte) :
    ¬ ((none : Option DecodeErr) ≠ none ∨ (bytes ++ rest).length < n) := by
  simp
  omega

variable {t : GoString} {series : List SeriesEntry} {size : ℕ} {table : List TableEntry}
  {ids : List ℕ}

theorem symID_of_mem (ht : t ∈ syms) : symID syms t = syms.idxOf t := if_pos ht

theorem sym_symID (ht : t ∈ syms) : sym syms (symID syms t) = .ok t := by
  have hget : syms[syms.idxOf t]? = some t := by
    rw [List.getElem?_eq_getElem (List.idxOf_lt_length_of_mem ht), List.getElem_idxOf]
  unfold sym
  rw [symID_of_mem ht, hget]

theorem readSymbolsFrom_encoded {acc : List GoString} {ids : GoMap GoString ℕ}
    (hnodup : (acc ++ syms).Nodup)
    (hids : ∀ t, ids.lookup t = if t ∈ acc then some (acc.idxOf t) else none) (rest : List Byte) :
    ∃ ids', readSymbolsFrom syms.length ⟨syms.flatMap appendString ++ rest, none⟩ acc ids =
        .ok (acc ++ syms, ids') ∧
      ∀ t, ids'.lookup t = if t ∈ acc ++ syms then some ((acc ++ syms).idxOf t) else none := by
  induction syms generalizing acc ids with
  | nil => exact ⟨ids, by rw [List.append_nil]; rfl, by rw [List.append_nil]; exact hids⟩
  | cons s syms ih =>
    have hsplit : acc ++ s :: syms = (acc ++ [s]) ++ syms := by simp
    have hnew : s ∉ acc := fun h => (List.nodup_append.mp hnodup).2.2 s h s (by simp) rfl
    rw [hsplit] at hnodup ⊢
    have hids' : ∀ t, (ids.insert s acc.length).lookup t =
        if t ∈ acc ++ [s] then some ((acc ++ [s]).idxOf t) else none := by
      intro t
      by_cases ht : t = s
      · subst ht
        rw [List.idxOf_append_of_notMem hnew]
        simp
      · rw [AList.lookup_insert_ne ht, hids t]
        by_cases hacc : t ∈ acc
        · rw [if_pos hacc, if_pos (by simp [hacc]), List.idxOf_append_of_mem hacc]
        · rw [if_neg hacc, if_neg (by simp [hacc, ht])]
    obtain ⟨ids'', hread, hspec⟩ := ih hnodup hids'
    refine ⟨ids'', ?_, hspec⟩
    rw [List.length_cons, List.flatMap_cons, List.append_assoc, readSymbolsFrom]
    simpa using hread

theorem readSymbols_encoded (hnodup : syms.Nodup) (rest : List Byte) :
    ∃ ids, readSymbols ⟨encodeSymbols syms ++ rest, none⟩ = .ok (syms, ids) ∧
      ∀ t, ids.lookup t = if t ∈ syms then some (syms.idxOf t) else none := by
  have hlen := length_le_flatMap length_appendString_pos syms
  have hnone : ∀ t, (∅ : GoMap GoString ℕ).lookup t =
      if t ∈ ([] : List GoString) then some (([] : List GoString).idxOf t) else none :=
    fun t => by simp
  obtain ⟨ids, hread, hids⟩ := readSymbolsFrom_encoded (by exact hnodup) hnone rest
  refine ⟨ids, ?_, hids⟩
  unfold readSymbols encodeSymbols
  rw [List.append_assoc, uvarint_encoded]
  dsimp only
  rw [if_neg (not_claimed hlen rest)]
  exact hread

theorem readTags_encoded {tags : List Tag} (htags : ∀ t ∈ tags, t.key ∈ syms ∧ t.value ∈ syms)
    (rest : List Byte) :
    readTags syms tags.length ⟨tags.flatMap (encodeTag syms) ++ rest, none⟩ =
      .ok (tags, ⟨rest, none⟩) := by
  induction tags with
  | nil => rfl
  | cons t tags ih =>
    obtain ⟨hkey, hvalue⟩ := htags t (by simp)
    rw [List.length_cons, List.flatMap_cons, encodeTag, List.append_assoc, List.append_assoc,
      readTags, uvarint_encoded]
    dsimp only
    rw [sym_symID hkey]
    rw [uvarint_encoded]
    rw [sym_symID hvalue]
    rw [ih (List.forall_mem_cons.mp htags).2]

structure ChunkRef.InRange (c : ChunkRef) : Prop where
  lo : minInt64 ≤ c.maxT
  hi : c.maxT < 2 ^ 63

theorem readChunkRef_encoded {c : ChunkRef} (hc : c.InRange) (rest : List Byte) :
    readChunkRef ⟨encodeChunkRef c ++ rest, none⟩ = (c, ⟨rest, none⟩) := by
  have hmax : wrap64 (c.minT + wrap64 (((c.maxT - c.minT) % 2 ^ 64).toNat : ℕ)) = c.maxT := by
    have hlo := hc.lo
    have hhi := hc.hi
    unfold minInt64 at hlo
    unfold wrap64
    rw [Int.add_bmod_bmod, Int.bmod_def]
    split <;> omega
  unfold readChunkRef encodeChunkRef
  simp only [List.append_assoc, varint_encoded, uvarint_encoded, hmax]

theorem readChunkRefs_encoded {cs : List ChunkRef} (hcs : ∀ c ∈ cs, c.InRange) (rest : List Byte) :
    readChunkRefs cs.length ⟨cs.flatMap encodeChunkRef ++ rest, none⟩ = (cs, ⟨rest, none⟩) := by
  induction cs with
  | nil => rfl
  | cons c cs ih =>
    rw [List.length_cons, List.flatMap_cons, List.append_assoc, readChunkRefs,
      readChunkRef_encoded (hcs c (by simp))]
    dsimp only
    rw [ih (List.forall_mem_cons.mp hcs).2]

theorem length_encodeTag_pos (syms : List GoString) (t : Tag) : 0 < (encodeTag syms t).length := by
  have := length_appendUvarint_pos (symID syms t.key)
  rw [encodeTag, List.length_append]
  omega

theorem length_encodeChunkRef_pos (c : ChunkRef) : 0 < (encodeChunkRef c).length := by
  have := length_appendUvarint_pos c.recLen
  rw [encodeChunkRef, List.length_append]
  omega

theorem length_encodeEntry_pos (syms : List GoString) (s : SeriesEntry) :
    0 < (encodeEntry syms s).length := by
  have := length_appendUvarint_pos (symID syms s.ref.metric)
  simp only [encodeEntry, List.length_append]
  omega

structure SeriesEntry.Storable (syms : List GoString) (s : SeriesEntry) : Prop where
  strings : ∀ t ∈ IndexFile.strings s.ref, t ∈ syms
  chunks : ∀ c ∈ s.chunks, c.InRange

theorem readEntry_encoded {s : SeriesEntry} (hs : s.Storable syms) (i : ℕ) (rest : List Byte) :
    readEntry syms i ⟨encodeEntry syms s ++ rest, none⟩ = .ok (s, ⟨rest, none⟩) := by
  have hmetric : s.ref.metric ∈ syms := hs.strings _ (by simp [IndexFile.strings])
  have htags : ∀ t ∈ s.ref.tags, t.key ∈ syms ∧ t.value ∈ syms := by
    intro t ht
    refine ⟨hs.strings _ (List.mem_cons_of_mem _ (List.mem_flatMap.mpr ⟨t, ht, by simp⟩)),
      hs.strings _ (List.mem_cons_of_mem _ (List.mem_flatMap.mpr ⟨t, ht, by simp⟩))⟩
  have hntags := length_le_flatMap (length_encodeTag_pos syms) s.ref.tags
  have hnchunks := length_le_flatMap length_encodeChunkRef_pos s.chunks
  unfold readEntry encodeEntry
  simp only [List.append_assoc, uvarint_encoded, sym_symID hmetric]
  rw [if_neg (not_claimed hntags _), readTags_encoded htags]
  simp only [uvarint_encoded]
  rw [if_neg (not_claimed hnchunks _), readChunkRefs_encoded hs.chunks]
  simp

theorem readEntries_encoded (hs : ∀ s ∈ series, s.Storable syms) (i : ℕ) (rest : List Byte) :
    readEntries syms series.length i ⟨series.flatMap (encodeEntry syms) ++ rest, none⟩ =
      .ok series := by
  induction series generalizing i with
  | nil => rfl
  | cons s series ih =>
    rw [List.length_cons, List.flatMap_cons, List.append_assoc, readEntries,
      readEntry_encoded (hs s (by simp))]
    dsimp only
    rw [ih (List.forall_mem_cons.mp hs).2]

theorem readSeries_encoded (hs : ∀ s ∈ series, s.Storable syms) (rest : List Byte) :
    readSeries syms ⟨encodeEntries syms series ++ rest, none⟩ = .ok series := by
  have hlen := length_le_flatMap (length_encodeEntry_pos syms) series
  unfold readSeries encodeEntries
  rw [List.append_assoc, uvarint_encoded]
  dsimp only
  rw [if_neg (not_claimed hlen rest), readEntries_encoded hs]

theorem readTableFrom_encoded (hsize : ∀ e ∈ table, e.off < size) (i : ℕ) (rest : List Byte) :
    readTableFrom size table.length i ⟨table.flatMap encodeTableEntry ++ rest, none⟩ =
      .ok table := by
  induction table generalizing i with
  | nil => rfl
  | cons e table ih =>
    have hread : readTableEntry
      ⟨encodeTableEntry e ++ (table.flatMap encodeTableEntry ++ rest), none⟩ =
        (e, ⟨table.flatMap encodeTableEntry ++ rest, none⟩) := by
      unfold readTableEntry encodeTableEntry
      simp only [List.append_assoc, uvarint_encoded]
    rw [List.length_cons, List.flatMap_cons, List.append_assoc, readTableFrom, hread]
    dsimp only
    rw [if_neg (not_le.mpr (hsize e (by simp))), ih (List.forall_mem_cons.mp hsize).2]

theorem readTable_encoded (hsize : ∀ e ∈ table, e.off < size) (rest : List Byte) :
    readTable size ⟨encodeTable table ++ rest, none⟩ = .ok table := by
  have hpos : ∀ e : TableEntry, 0 < (encodeTableEntry e).length := by
    intro e
    have := length_appendUvarint_pos e.off
    rw [encodeTableEntry, List.length_append]
    omega
  have hlen := length_le_flatMap hpos table
  unfold readTable encodeTable
  rw [List.append_assoc, uvarint_encoded]
  dsimp only
  rw [if_neg (not_claimed hlen rest), readTableFrom_encoded hsize]

theorem readDeltas_encoded {prev : ℕ} (hprev : ∀ id ∈ ids, prev ≤ id) (hasc : ids.Pairwise (· ≤ ·))
    (rest : List Byte) :
    readDeltas ids.length prev ⟨encodeDeltas prev ids ++ rest, none⟩ = ids := by
  induction ids generalizing prev with
  | nil => rfl
  | cons id ids ih =>
    obtain ⟨hle, hrest⟩ := List.pairwise_cons.mp hasc
    have hid : prev + (id - prev) = id := Nat.add_sub_cancel' (hprev id (by simp))
    rw [List.length_cons, encodeDeltas, List.append_assoc, readDeltas, uvarint_encoded]
    dsimp only
    rw [if_neg (by simp), hid, ih hle hrest]

theorem length_encodeDeltas (prev : ℕ) (ids : List ℕ) :
    ids.length ≤ (encodeDeltas prev ids).length := by
  induction ids generalizing prev with
  | nil => exact le_rfl
  | cons id ids ih =>
    have := length_appendUvarint_pos (id - prev)
    have := ih id
    rw [encodeDeltas, List.length_append, List.length_cons]
    omega

theorem readPostings_encoded {r : IndexReader} {off : ℕ} {rest : List Byte}
    (hasc : ids.Pairwise (· ≤ ·)) (hbytes : r.postings.drop off = encodeIds ids ++ rest) :
    r.readPostings off = ids := by
  have hlen := length_encodeDeltas 0 ids
  unfold IndexReader.readPostings
  rw [hbytes, encodeIds, List.append_assoc, uvarint_encoded]
  dsimp only
  rw [if_neg (by simp; omega), readDeltas_encoded (fun _ _ => Nat.zero_le _) hasc]

end Ozymandias.IndexFile
