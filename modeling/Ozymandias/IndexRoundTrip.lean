import Mathlib.Data.List.TakeWhile
import Ozymandias.IndexFile

/-!
What an open index file answers. The table of contents leads to the sections,
so that opening a written file gives the series in the order of their keys. The
offset table is searched on ordinals, and because ordinals are ordered as the
strings are, the search finds the postings of exactly the term that is asked
for: the file indexes its series.
-/
namespace Ozymandias.IndexRoundTrip

open BitLists WalFrame SeriesModel Selection Varint TimeMerge Peaks IndexFile

variable {id : ℕ} {syms : List GoString} {t : Tag} {α : Type} {as : List α} {β : Type}
  {R : α → β → Prop} {bs : List β}

theorem length_putUint64 (n : ℕ) : (putUint64 n).length = 8 := by
  rw [putUint64, List.length_reverse, length_leBytes]

variable {n : ℕ} {front body : List Byte} {lists : List PostingList} {a b : GoString}
  {table : List TableEntry} {e : TableEntry} {l : PostingList}

theorem uint64At_putUint64 (hn : n < 2 ^ 64) (rest : List Byte) :
    uint64At (putUint64 n ++ rest) 0 = n := by
  unfold uint64At
  rw [List.drop_zero, List.take_left' (length_putUint64 n), putUint64, List.reverse_reverse,
    leNumber_leBytes]
  exact Nat.mod_eq_of_lt hn

theorem uint64At_skip (n : ℕ) (rest : List Byte) (i : ℕ) :
    uint64At (putUint64 n ++ rest) (8 + i) = uint64At rest i := by
  unfold uint64At
  rw [← List.drop_drop, List.drop_left' (length_putUint64 n)]

section

variable (series : List SeriesEntry)

theorem length_toc : (toc series).length = tocLen := by
  rfl

theorem length_indexBody : (indexBody series).length =
    tableOff series + (encodeTable (postingsTable series).2).length + tocLen := by
  simp only [indexBody, List.length_append, tableOff, postingsOff]
  rfl

theorem offsets_le : indexHeadLen ≤ (indexBody series).length ∧
    seriesOff series ≤ (indexBody series).length ∧ postingsOff series ≤ (indexBody series).length ∧
    tableOff series ≤ (indexBody series).length := by
  rw [length_indexBody]
  unfold tableOff postingsOff seriesOff
  omega

theorem toc_eq : (indexBody series).drop ((indexBody series).length - tocLen) = toc series := by
  unfold indexBody
  rw [List.length_append, length_toc, Nat.add_sub_cancel, List.drop_left]

theorem drop_symbols :
    ∃ rest, (indexBody series).drop indexHeadLen = symbolsBytes series ++ rest := by
  refine ⟨entriesBytes series ++ ((postingsTable series).1 ++
    (encodeTable (postingsTable series).2 ++ toc series)), ?_⟩
  simp only [indexBody, List.append_assoc]
  exact List.drop_left' rfl

theorem drop_entries : ∃ rest, (indexBody series).drop (seriesOff series) =
    entriesBytes series ++ rest := by
  refine ⟨(postingsTable series).1 ++ (encodeTable (postingsTable series).2 ++ toc series), ?_⟩
  have hsplit : indexBody series = (indexHeader ++ symbolsBytes series) ++ (entriesBytes series ++
      ((postingsTable series).1 ++ (encodeTable (postingsTable series).2 ++ toc series))) := by
    simp only [indexBody, List.append_assoc]
  rw [hsplit]
  exact List.drop_left' (by rw [List.length_append]; rfl)

theorem drop_table : ∃ rest, (indexBody series).drop (tableOff series) =
    encodeTable (postingsTable series).2 ++ rest := by
  refine ⟨toc series, ?_⟩
  have hsplit : indexBody series = (indexHeader ++ symbolsBytes series ++ entriesBytes series ++
      (postingsTable series).1) ++ (encodeTable (postingsTable series).2 ++ toc series) := by
    simp only [indexBody, List.append_assoc]
  rw [hsplit]
  refine List.drop_left' ?_
  simp only [List.length_append, tableOff, postingsOff]
  rfl

theorem toc_offsets (hsize : (indexBody series).length < 2 ^ 64) :
    (List.range 4).map (fun i => uint64At (toc series) (8 * i)) =
      [indexHeadLen, seriesOff series, postingsOff series, tableOff series] := by
  obtain ⟨h0, h1, h2, h3⟩ := offsets_le series
  have hlast := uint64At_putUint64 (lt_of_le_of_lt h3 hsize) []
  rw [List.append_nil] at hlast
  have htoc : toc series = putUint64 indexHeadLen ++ (putUint64 (seriesOff series) ++
      (putUint64 (postingsOff series) ++ putUint64 (tableOff series))) := by
    simp only [toc, List.append_assoc]
  change [uint64At (toc series) 0, uint64At (toc series) (8 + 0),
    uint64At (toc series) (8 + (8 + 0)),
    uint64At (toc series) (8 + (8 + (8 + 0)))] = _
  rw [htoc]
  simp only [uint64At_skip, hlast, uint64At_putUint64 (lt_of_le_of_lt h0 hsize),
    uint64At_putUint64 (lt_of_le_of_lt h1 hsize), uint64At_putUint64 (lt_of_le_of_lt h2 hsize)]

end

theorem exists_left_of_mem (h : List.Forall₂ R as bs) {b : β} (hb : b ∈ bs) : ∃ a ∈ as, R a b := by
  induction h with
  | nil => cases hb
  | cons hab _ ih =>
    rcases List.mem_cons.mp hb with rfl | hb
    · exact ⟨_, List.mem_cons_self, hab⟩
    · obtain ⟨a, ha, hR⟩ := ih hb
      exact ⟨a, List.mem_cons_of_mem _ ha, hR⟩

theorem pairwise_right {S : α → α → Prop} {T : β → β → Prop} (h : List.Forall₂ R as bs)
    (hST : ∀ a b a' b', R a b → R a' b' → S a a' → T b b') (hs : as.Pairwise S) :
    bs.Pairwise T := by
  induction h with
  | nil => exact .nil
  | cons hab hrest ih =>
    obtain ⟨hlt, hs⟩ := List.pairwise_cons.mp hs
    refine List.pairwise_cons.mpr ⟨fun b' hb' => ?_, ih hs⟩
    obtain ⟨a', ha', hR⟩ := exists_left_of_mem hrest hb'
    exact hST _ _ _ _ hab hR (hlt a' ha')

structure Leads (syms : List GoString) (body : List Byte) (l : PostingList) (e : TableEntry) :
    Prop where
  key : e.keySym = symID syms l.key
  value : e.valSym = symID syms l.value
  ids : ∃ rest, body.drop e.off = encodeIds l.ids ++ rest
  inside : e.off < body.length

theorem encodePostings_leads {back : List Byte} {off : ℕ} (hoff : front.length = off)
    (hbody : body = front ++ ((encodePostings syms off lists).1 ++ back)) :
    List.Forall₂ (Leads syms body) lists (encodePostings syms off lists).2 := by
  induction lists generalizing front off with
  | nil => exact .nil
  | cons l lists ih =>
    have hsplit : encodePostings syms off (l :: lists) =
        (encodeIds l.ids ++ (encodePostings syms (off + (encodeIds l.ids).length) lists).1,
          ⟨symID syms l.key, symID syms l.value, off⟩ ::
            (encodePostings syms (off + (encodeIds l.ids).length) lists).2) := rfl
    rw [hsplit] at hbody ⊢
    rw [List.append_assoc] at hbody
    refine .cons ⟨rfl, rfl, ⟨_, by rw [hbody]; exact List.drop_left' hoff⟩, ?_⟩ ?_
    · have hpos := length_appendUvarint_pos l.ids.length
      rw [hbody]
      simp only [List.length_append, encodeIds]
      omega
    · have hoff' : (front ++ encodeIds l.ids).length = off + (encodeIds l.ids).length := by
        rw [List.length_append, hoff]
      refine ih hoff' ?_
      rw [hbody, List.append_assoc]

theorem postings_lead (series : List SeriesEntry) :
    List.Forall₂ (Leads (buildSymbols series) (indexBody series)) (invert series)
      (postingsTable series).2 := by
  have hfront : (indexHeader ++ symbolsBytes series ++ entriesBytes series).length =
      postingsOff series := by
    rw [List.length_append, List.length_append]
    rfl
  have hbody : indexBody series = (indexHeader ++ symbolsBytes series ++ entriesBytes series) ++
      ((postingsTable series).1 ++ (encodeTable (postingsTable series).2 ++ toc series)) := by
    simp only [indexBody, List.append_assoc]
  exact encodePostings_leads hfront hbody

theorem buildSymbols_nodup (series : List SeriesEntry) : (buildSymbols series).Nodup :=
  ((List.perm_insertionSort _ _).nodup_iff).mpr (List.nodup_dedup _)

variable {series : List SeriesEntry}

/-- Opening the file of series that it can hold. -/
theorem open_written {series : List SeriesEntry}
    (hstorable : ∀ s ∈ series, s.Storable (buildSymbols series))
    (hsize : (indexBody series).length < 2 ^ 64) :
    ∃ ids, openIndexReader (writeSorted series) = .ok ⟨buildSymbols series, ids, series,
        indexBody series, (postingsTable series).2, List.range series.length⟩ ∧
      ∀ t, ids.lookup t =
        if t ∈ buildSymbols series then some ((buildSymbols series).idxOf t) else none := by
  obtain ⟨h0, h1, h2, h3⟩ := offsets_le series
  have hlen : (writeSorted series).length = (indexBody series).length + 4 := by
    rw [writeSorted, List.length_append]
    rfl
  have hlong : indexHeadLen + tocLen + 4 ≤ (writeSorted series).length := by
    rw [hlen, length_indexBody]
    unfold tableOff postingsOff seriesOff
    omega
  have hmagic : uint32 (writeSorted series) = indexMagic := by
    exact uint32_putUint32 _ _ (by decide)
  have hversion : (writeSorted series).getD 4 0 = indexVersion := by
    rfl
  have hbody : (writeSorted series).take ((writeSorted series).length - 4) = indexBody series := by
    rw [hlen, Nat.add_sub_cancel, writeSorted, List.take_left]
  have hsum : uint32 ((writeSorted series).drop ((writeSorted series).length - 4)) =
      (crc32c (indexBody series)).toNat := by
    rw [hlen, Nat.add_sub_cancel, writeSorted, List.drop_left, uint32_crc]
  have hoffs := toc_offsets series hsize
  obtain ⟨restSymbols, hsymbols⟩ := drop_symbols series
  obtain ⟨restEntries, hentries⟩ := drop_entries series
  obtain ⟨restTable, htable⟩ := drop_table series
  obtain ⟨ids, hread, hids⟩ := readSymbols_encoded (buildSymbols_nodup series) restSymbols
  have hinside : ∀ e ∈ (postingsTable series).2, e.off < (indexBody series).length := by
    intro e he
    obtain ⟨l, -, hl⟩ := exists_left_of_mem (postings_lead series) he
    exact hl.inside
  have hsyms : readSymbols ⟨(indexBody series).drop indexHeadLen, none⟩ =
      .ok (buildSymbols series, ids) := by
    rw [hsymbols]
    exact hread
  have hseries : readSeries (buildSymbols series)
      ⟨(indexBody series).drop (seriesOff series), none⟩ = .ok series := by
    rw [hentries]
    exact readSeries_encoded hstorable restEntries
  have hentry : readTable (indexBody series).length
      ⟨(indexBody series).drop (tableOff series), none⟩ = .ok (postingsTable series).2 := by
    rw [htable]
    exact readTable_encoded hinside restTable
  refine ⟨ids, ?_, hids⟩
  unfold openIndexReader
  rw [if_neg (not_lt.mpr hlong), if_neg (not_not.mpr hmagic), if_neg (not_not.mpr hversion)]
  rw [hbody, hsum, if_neg (not_not.mpr rfl), toc_eq, hoffs, if_neg (by simp; omega)]
  simp only [List.getD_cons_zero, List.getD_cons_succ, hsyms, hseries, hentry]

theorem ascending_buildSymbols (series : List SeriesEntry) :
    Ascending byteOrder (buildSymbols series) :=
  ascending_sortBy ((List.nodup_dedup _).map byteOrder_injective)

theorem mem_buildSymbols {t : GoString} :
    t ∈ buildSymbols series ↔ t = metricName ∨ ∃ s ∈ series, t ∈ strings s.ref := by
  unfold buildSymbols
  rw [mem_sortBy, List.mem_dedup, List.mem_cons, List.mem_flatMap]

theorem symID_inj (ha : a ∈ syms) (hb : b ∈ syms) : symID syms a = symID syms b ↔ a = b := by
  rw [symID_of_mem ha, symID_of_mem hb, List.idxOf_inj ha]

/-- Ordinals are ordered as the strings are. -/
theorem symID_lt_iff (hasc : Ascending byteOrder syms) (ha : a ∈ syms) (hb : b ∈ syms) :
    symID syms a < symID syms b ↔ byteOrder a < byteOrder b := by
  have hmono : ∀ {a b}, a ∈ syms → b ∈ syms → symID syms a < symID syms b →
      byteOrder a < byteOrder b := by
    intro a b ha hb hlt
    rw [symID_of_mem ha, symID_of_mem hb] at hlt
    have := List.pairwise_iff_getElem.mp hasc _ _ (List.idxOf_lt_length_of_mem ha)
      (List.idxOf_lt_length_of_mem hb) hlt
    rwa [List.getElem_idxOf, List.getElem_idxOf] at this
  refine ⟨hmono ha hb, fun hab => ?_⟩
  rcases lt_trichotomy (symID syms a) (symID syms b) with hlt | heq | hgt
  · exact hlt
  · rw [(symID_inj ha hb).mp heq] at hab
    exact absurd hab (lt_irrefl _)
  · exact absurd hab (lt_asymm (hmono hb ha hgt))

/-- The search's test on ordinals is the order of the terms. -/
theorem not_less_iff (hasc : Ascending byteOrder syms) {u : Tag}
    (ht : t.key ∈ syms ∧ t.value ∈ syms) (hu : u.key ∈ syms ∧ u.value ∈ syms) :
    (symID syms t.key < symID syms u.key ∨
        symID syms u.key = symID syms t.key ∧ symID syms t.value ≤ symID syms u.value) ↔
      termOrder t ≤ termOrder u := by
  unfold termOrder
  rw [Prod.Lex.toLex_le_toLex, symID_lt_iff hasc ht.1 hu.1, symID_inj hu.1 ht.1, ← not_lt,
    symID_lt_iff hasc hu.2 ht.2, not_lt]
  refine or_congr Iff.rfl (and_congr_left (fun _ => ?_))
  exact ⟨fun h => congrArg byteOrder h.symm, fun h => (byteOrder_injective h).symm⟩

/-- The search finds the entry of the term, or one of another term, or none. -/
theorem search_table (h : List.Forall₂ (Leads syms body) lists table)
    (hasc : Ascending byteOrder syms)
    (hsorted : Ascending (fun l : PostingList => termOrder l.term) lists)
    (hmem : ∀ l ∈ lists, l.key ∈ syms ∧ l.value ∈ syms) (ht : t.key ∈ syms ∧ t.value ∈ syms) :
    ∃ found, table.find? (fun e => decide (symID syms t.key < e.keySym ∨
        e.keySym = symID syms t.key ∧ symID syms t.value ≤ e.valSym)) = found ∧
      ((∃ l ∈ lists, l.term = t ∧ ∃ e, found = some e ∧ Leads syms body l e) ∨
        (∀ l ∈ lists, l.term ≠ t) ∧ ∀ e, found = some e →
          e.keySym ≠ symID syms t.key ∨ e.valSym ≠ symID syms t.value) := by
  induction h with
  | nil => exact ⟨none, rfl, .inr ⟨nofun, nofun⟩⟩
  | @cons l e lists table hl _ ih =>
    obtain ⟨hlt, hrest⟩ := List.pairwise_cons.mp hsorted
    have hlmem := hmem l List.mem_cons_self
    have htest := not_less_iff hasc ht (u := l.term) hlmem
    change (symID syms t.key < symID syms l.key ∨ symID syms l.key = symID syms t.key ∧
      symID syms t.value ≤ symID syms l.value) ↔ _ at htest
    rw [← hl.key, ← hl.value] at htest
    by_cases hle : termOrder t ≤ termOrder l.term
    · refine ⟨some e, List.find?_cons_of_pos (by exact decide_eq_true (htest.mpr hle)), ?_⟩
      by_cases heq : l.term = t
      · exact .inl ⟨l, List.mem_cons_self, heq, e, rfl, hl⟩
      · refine .inr ⟨fun l' hl' => ?_, fun e' he' => ?_⟩
        · rcases List.mem_cons.mp hl' with rfl | hl'
          · exact heq
          · rintro rfl
            exact absurd hle (not_le.mpr (hlt l' hl'))
        · cases he'
          by_contra hboth
          push Not at hboth
          obtain ⟨hk, hv⟩ := hboth
          rw [hl.key, symID_inj hlmem.1 ht.1] at hk
          rw [hl.value, symID_inj hlmem.2 ht.2] at hv
          refine heq ?_
          unfold PostingList.term
          rw [hk, hv]
    · obtain ⟨found, hfind, hcases⟩ := ih hrest (List.forall_mem_cons.mp hmem).2
      rw [List.find?_cons_of_neg (by simpa using fun h' => hle (htest.mp h'))]
      refine ⟨found, hfind, ?_⟩
      rcases hcases with ⟨l', hl', hterm, hfound⟩ | ⟨hnone, hother⟩
      · exact .inl ⟨l', List.mem_cons_of_mem _ hl', hterm, hfound⟩
      · refine .inr ⟨fun l' hl' => ?_, hother⟩
        rcases List.mem_cons.mp hl' with rfl | hl'
        · rintro rfl
          exact hle le_rfl
        · exact hnone l' hl'

/-- The run of one value in a sorted list. -/
theorem mem_run (hsorted : table.Pairwise (fun e e' => e.keySym ≤ e'.keySym)) {k : ℕ}
    (he : e ∈ table) (hk : e.keySym = k) :
    e ∈ (table.dropWhile (fun e => decide (e.keySym < k))).takeWhile
      (fun e => decide (e.keySym = k)) := by
  induction table with
  | nil => cases he
  | cons f table ih =>
    obtain ⟨hle, hrest⟩ := List.pairwise_cons.mp hsorted
    by_cases hlt : f.keySym < k
    · rw [List.dropWhile_cons_of_pos (by exact decide_eq_true hlt)]
      refine ih hrest ((List.mem_cons.mp he).resolve_left ?_)
      rintro rfl
      omega
    · have hfk : f.keySym = k := by
        rcases List.mem_cons.mp he with rfl | he
        · exact hk
        · have := hle e he
          omega
      rw [List.dropWhile_cons_of_neg (by simpa using hlt),
        List.takeWhile_cons_of_pos (by exact decide_eq_true hfk)]
      rcases List.mem_cons.mp he with rfl | he
      · exact List.mem_cons_self
      · have hkeep : table.dropWhile (fun e => decide (e.keySym < k)) = table := by
          refine List.dropWhile_eq_self_iff.mpr (fun hl => ?_)
          simpa [hfk] using hle _ (List.getElem_mem hl)
        rw [hkeep] at ih
        exact List.mem_cons_of_mem _ (ih hrest he)

theorem mem_symbolsWhile {es : List TableEntry} (hes : ∀ e ∈ es, ∃ v, sym syms e.valSym = .ok v)
    (he : e ∈ es) {v : GoString} (hv : sym syms e.valSym = .ok v) : v ∈ symbolsWhile syms es := by
  induction es with
  | nil => cases he
  | cons f es ih =>
    obtain ⟨u, hu⟩ := hes f List.mem_cons_self
    unfold symbolsWhile
    rw [hu]
    rcases List.mem_cons.mp he with rfl | he
    · rw [hu] at hv
      cases hv
      exact List.mem_cons_self
    · exact List.mem_cons_of_mem _ (ih (List.forall_mem_cons.mp hes).2 he)

theorem mem_additions :
    (t, id) ∈ additions series ↔ ∃ s, series[id]? = some s ∧ t ∈ terms s.ref := by
  unfold additions
  rw [List.mem_flatMap]
  constructor
  · rintro ⟨⟨s, i⟩, hs, hmem⟩
    obtain ⟨u, hu, heq⟩ := List.mem_map.mp hmem
    cases heq
    exact ⟨s, List.mem_zipIdx_iff_getElem?.mp hs, hu⟩
  · rintro ⟨s, hs, ht⟩
    exact ⟨(s, id), List.mem_zipIdx_iff_getElem?.mpr hs, List.mem_map_of_mem ht⟩

theorem mem_idsOf :
    id ∈ idsOf series t ↔ ∃ s, series[id]? = some s ∧ t ∈ terms s.ref := by
  rw [← mem_additions]
  constructor
  · intro hid
    obtain ⟨⟨u, i⟩, hmem, rfl⟩ := List.mem_map.mp hid
    obtain ⟨hmem, heq⟩ := List.mem_filter.mp hmem
    have hu : u = t := of_decide_eq_true heq
    rw [← hu]
    exact hmem
  · intro hmem
    exact List.mem_map.mpr ⟨(t, id), List.mem_filter.mpr ⟨hmem, decide_eq_true rfl⟩, rfl⟩

/-- A series without repeated terms gives its id once to a term that it has. -/
theorem pick_term {ts : List Tag} (hts : ts.Nodup) (t : Tag) (id : ℕ) :
    ((ts.map (fun u => (u, id))).filter (fun a => decide (a.1 = t))).map Prod.snd =
      if t ∈ ts then [id] else [] := by
  have hfilter : ts.filter (fun u => decide (u = t)) = List.replicate (ts.count t) t :=
    List.filter_beq t
  rw [List.filter_map, List.map_map]
  change (ts.filter (fun u => decide (u = t))).map (fun _ => id) = _
  rw [hfilter]
  split
  next hmem =>
    rw [List.count_eq_one_of_mem hts hmem]
    rfl
  next hno =>
    rw [List.count_eq_zero_of_not_mem hno]
    rfl

theorem picked_sublist (hterms : ∀ s ∈ series, (terms s.ref).Nodup) (t : Tag) (n : ℕ) :
    ((((series.zipIdx n).flatMap (fun p => (terms p.1.ref).map (fun u => (u, p.2)))).filter
      (fun a => decide (a.1 = t))).map Prod.snd).Sublist (List.range' n series.length) := by
  induction series generalizing n with
  | nil => exact .slnil
  | cons s series ih =>
    have hrest := ih (List.forall_mem_cons.mp hterms).2 (n + 1)
    rw [List.zipIdx_cons, List.flatMap_cons, List.filter_append, List.map_append,
      pick_term (hterms s List.mem_cons_self), List.length_cons, List.range'_succ]
    split
    · exact hrest.cons_cons n
    · exact hrest.cons n

theorem sorted_idsOf (hterms : ∀ s ∈ series, (terms s.ref).Nodup) (t : Tag) :
    IndexSets.Sorted (idsOf series t) :=
  List.Pairwise.sublist (picked_sublist hterms t 0) (List.pairwise_lt_range' 1)

theorem mem_invert :
    l ∈ invert series ↔ l.ids = idsOf series l.term ∧ ∃ id, (l.term, id) ∈ additions series := by
  unfold invert
  rw [List.mem_map]
  constructor
  · rintro ⟨t, ht, rfl⟩
    rw [mem_sortBy, List.mem_dedup, List.mem_map] at ht
    obtain ⟨⟨u, id⟩, hmem, rfl⟩ := ht
    exact ⟨rfl, id, hmem⟩
  · rintro ⟨hids, id, hmem⟩
    refine ⟨l.term, mem_sortBy.mpr (List.mem_dedup.mpr (List.mem_map.mpr ⟨_, hmem, rfl⟩)), ?_⟩
    obtain ⟨key, value, ids⟩ := l
    rw [show ids = idsOf series ⟨key, value⟩ from hids]
    rfl

theorem termOrder_injective : Function.Injective termOrder := by
  rintro ⟨k, v⟩ ⟨k', v'⟩ h
  obtain ⟨hk, hv⟩ := Prod.mk.inj (toLex_inj.mp h)
  rw [Tag.mk.injEq]
  exact ⟨byteOrder_injective hk, byteOrder_injective hv⟩

theorem ascending_invert (series : List SeriesEntry) :
    Ascending (fun l : PostingList => termOrder l.term) (invert series) := by
  have hsorted : Ascending termOrder (sortBy termOrder ((additions series).map Prod.fst).dedup) :=
    ascending_sortBy ((List.nodup_dedup _).map termOrder_injective)
  exact List.pairwise_map.mpr hsorted

theorem terms_symbols {s : SeriesEntry} (hs : s ∈ series) (ht : t ∈ terms s.ref) :
    t.key ∈ buildSymbols series ∧ t.value ∈ buildSymbols series := by
  rw [mem_buildSymbols, mem_buildSymbols]
  rcases List.mem_cons.mp ht with rfl | ht
  · exact ⟨.inl rfl, .inr ⟨s, hs, List.mem_cons_self⟩⟩
  · exact ⟨.inr ⟨s, hs, List.mem_cons_of_mem _ (List.mem_flatMap.mpr ⟨t, ht, by simp⟩)⟩,
      .inr ⟨s, hs, List.mem_cons_of_mem _ (List.mem_flatMap.mpr ⟨t, ht, by simp⟩)⟩⟩

theorem invert_symbols (hl : l ∈ invert series) :
    l.key ∈ buildSymbols series ∧ l.value ∈ buildSymbols series := by
  obtain ⟨-, id, hmem⟩ := mem_invert.mp hl
  obtain ⟨s, hs, ht⟩ := mem_additions.mp hmem
  exact terms_symbols (List.mem_of_getElem? hs) ht

theorem table_sorted (series : List SeriesEntry) :
    (postingsTable series).2.Pairwise (fun e e' => e.keySym ≤ e'.keySym) := by
  have hkeys : (invert series).Pairwise (fun l l' =>
      symID (buildSymbols series) l.key ≤ symID (buildSymbols series) l'.key) := by
    refine List.Pairwise.imp_of_mem ?_ (ascending_invert series)
    intro l l' hl hl' hlt
    rw [← not_lt, symID_lt_iff (ascending_buildSymbols series) (invert_symbols hl').1
      (invert_symbols hl).1, not_lt]
    rcases Prod.Lex.toLex_lt_toLex.mp hlt with hkey | ⟨hkey, -⟩
    · exact le_of_lt hkey
    · exact le_of_eq hkey
  refine pairwise_right (postings_lead series) ?_ hkeys
  intro l e l' e' hl hl' hle
  rw [hl.key, hl'.key]
  exact hle

structure Opened (series : List SeriesEntry) (r : IndexReader) : Prop where
  symbols : r.symbols = buildSymbols series
  ordinals : ∀ t, r.symID.lookup t =
    if t ∈ buildSymbols series then some (symID (buildSymbols series) t) else none
  postings : r.postings = indexBody series
  table : r.table = (postingsTable series).2
  all : r.all = List.range series.length
  entries : r.series = series

section

variable {r : IndexReader} (hr : Opened series r) (hterms : ∀ s ∈ series, (terms s.ref).Nodup)
include hr

include hterms in
/-- The postings of a term are the ids of the series that have it. -/
theorem postingsOf_eq (key value : GoString) :
    r.postingsOf key value = idsOf series ⟨key, value⟩ := by
  by_cases hsyms : key ∈ buildSymbols series ∧ value ∈ buildSymbols series
  · obtain ⟨found, hfind, hcases⟩ := search_table (t := ⟨key, value⟩) (postings_lead series)
      (ascending_buildSymbols series) (ascending_invert series)
        (fun l hl => invert_symbols hl) hsyms
    unfold IndexReader.postingsOf
    rw [hr.ordinals, hr.ordinals, if_pos hsyms.1, if_pos hsyms.2, hr.table]
    dsimp only at hfind ⊢
    rw [hfind]
    rcases hcases with ⟨l, hl, hterm, e, rfl, hlead⟩ | ⟨hnone, hother⟩
    · obtain ⟨hids, -⟩ := mem_invert.mp hl
      obtain ⟨rest, hrest⟩ := hlead.ids
      have hkey : l.key = key := congrArg Tag.key hterm
      have hvalue : l.value = value := congrArg Tag.value hterm
      dsimp only
      rw [hlead.key, hlead.value, hkey, hvalue, if_neg (by simp)]
      rw [hids, hterm] at hrest
      refine readPostings_encoded ?_ (by rw [hr.postings]; exact hrest)
      exact (sorted_idsOf hterms _).imp le_of_lt
    · have hnil : idsOf series ⟨key, value⟩ = [] := by
        refine List.eq_nil_iff_forall_not_mem.mpr (fun id hid => ?_)
        refine hnone ⟨key, value, idsOf series ⟨key, value⟩⟩ (mem_invert.mpr ⟨rfl, id, ?_⟩) rfl
        exact mem_additions.mpr (mem_idsOf.mp hid)
      rw [hnil]
      cases found with
      | none => rfl
      | some e =>
        dsimp only
        rw [if_pos (hother e rfl)]
  · have hnil : idsOf series ⟨key, value⟩ = [] := by
      refine List.eq_nil_iff_forall_not_mem.mpr (fun id hid => ?_)
      obtain ⟨s, hs, ht⟩ := mem_idsOf.mp hid
      exact hsyms (terms_symbols (List.mem_of_getElem? hs) ht)
    rw [hnil]
    unfold IndexReader.postingsOf
    rw [hr.ordinals, hr.ordinals]
    by_cases hkey : key ∈ buildSymbols series
    · rw [if_pos hkey, if_neg (fun hvalue => hsyms ⟨hkey, hvalue⟩)]
    · rw [if_neg hkey]

/-- The values of a key include that of every term with it. -/
theorem mem_tagValues (ht : (t, id) ∈ additions series) :
    t.value ∈ r.tagValues t.key := by
  obtain ⟨s, hs, hterm⟩ := mem_additions.mp ht
  have hsyms := terms_symbols (List.mem_of_getElem? hs) hterm
  obtain ⟨e, he, hlead⟩ := exists_left_of_mem (postings_lead series).flip
    (mem_invert.mpr ⟨rfl, id, ht⟩ : (⟨t.key, t.value, idsOf series t⟩ : PostingList) ∈
      invert series)
  unfold IndexReader.tagValues
  rw [hr.ordinals, if_pos hsyms.1, hr.table, hr.symbols]
  refine mem_symbolsWhile (fun f hf => ?_) (mem_run (table_sorted series) he hlead.key) ?_
  · have hf' : f ∈ (postingsTable series).2 :=
      (List.dropWhile_suffix _).subset ((List.takeWhile_prefix _).subset hf)
    obtain ⟨l, hl, hlead'⟩ := exists_left_of_mem (postings_lead series) hf'
    exact ⟨l.value, by rw [hlead'.value]; exact sym_symID (invert_symbols hl).2⟩
  · rw [hlead.value]
    exact sym_symID hsyms.2

/-- An open file indexes its series by their ordinals. -/
theorem indexes_opened (hterms : ∀ s ∈ series, (terms s.ref).Nodup) :
    IndexSelect.Indexes r.lookup (fun id => (series[id]?).map SeriesEntry.ref) where
  sorted key value := by
    change IndexSets.Sorted (r.postingsOf key value)
    rw [postingsOf_eq hr hterms]
    exact sorted_idsOf hterms _
  mem_postings key value id := by
    change id ∈ r.postingsOf key value ↔ _
    rw [postingsOf_eq hr hterms, mem_idsOf]
    cases series[id]? with
    | none => simp
    | some s => simp
  mem_tagValues key value := by
    rintro ⟨id, hid⟩
    change id ∈ r.postingsOf key value at hid
    rw [postingsOf_eq hr hterms] at hid
    exact mem_tagValues hr (mem_additions.mpr (mem_idsOf.mp hid))
  sorted_all := by
    change IndexSets.Sorted r.all
    rw [hr.all]
    exact List.pairwise_lt_range
  mem_all id := by
    change id ∈ r.all ↔ _
    rw [hr.all, List.mem_range]
    simp [List.getElem?_eq_some_iff]

end

end Ozymandias.IndexRoundTrip
