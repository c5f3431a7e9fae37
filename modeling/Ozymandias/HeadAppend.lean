import Ozymandias.HeadModel
import Ozymandias.OrderedCover

/-!
What `Append` does, against the log it writes. The log is followed as entries;
ids are given to keys once and for all, every sample has its definition before
it, and every series of the head is defined. A batch that is committed extends
the log by all its entries and offers its samples to the series in order; a
batch that is rolled back may have left any number of its first entries in the
log, and leaves the head as it was.
-/

namespace Ozymandias.HeadAppend

open WalFrame SeriesModel HeadSeries HeadRecords HeadModel Peaks OrderedCover

def events (keyOf : ℕ → GoString) (entries : List LogEntry) (key : GoString) : List Sample :=
  ((entries.flatMap LogEntry.batch).filter (fun s => decide (keyOf s.id = key))).map
    LogSample.sample

theorem events_append (keyOf : ℕ → GoString) (entries more : List LogEntry) (key : GoString) :
    events keyOf (entries ++ more) key = events keyOf entries key ++ events keyOf more key := by
  simp [events]

structure Declared (keyOf : ℕ → GoString) (entries : List LogEntry) : Prop where
  key : ∀ {id ref}, LogEntry.series id ref ∈ entries → keyOf id = ref.key
  before : ∀ {pre batch post}, entries = pre ++ .samples batch :: post →
    ∀ s ∈ batch, ∃ ref, LogEntry.series s.id ref ∈ pre

variable {o : Options}

structure InLog (h : Head o) (keyOf : ℕ → GoString) (entries : List LogEntry) : Prop where
  wf : h.Wf
  declared : Declared keyOf entries
  series : ∀ {id ms}, h.byID.lookup id = some ms →
    ms.logged = true ∧ LogEntry.series id ms.ref ∈ entries
  ids : ∀ {id ref}, LogEntry.series id ref ∈ entries → id ≤ h.nextID

variable {h h' h'' : Head o} {keyOf : ℕ → GoString} {entries written : List LogEntry} {i id : ℕ}
  {mark : ℕ → Bool → Bool} {ms : MemSeries o.blockRange} {ref : SeriesRef} {s : LogSample}
  {batch : List (SeriesRef × Sample)} {targets : List (Except HeadErr ℕ)} {α : Type}
  {outs : List (Except HeadErr α)}

theorem Declared.sample (h : Declared keyOf entries) (hs : s ∈ entries.flatMap LogEntry.batch) :
    ∃ ref, LogEntry.series s.id ref ∈ entries := by
  obtain ⟨e, he, hse⟩ := List.mem_flatMap.mp hs
  cases e with
  | series id ref => cases hse
  | samples batch =>
    obtain ⟨pre, post, hsplit⟩ := List.append_of_mem he
    obtain ⟨ref, href⟩ := h.before hsplit s hse
    exact ⟨ref, by rw [hsplit]; exact List.mem_append_left _ href⟩

theorem Declared.take (h : Declared keyOf entries) (n : ℕ) : Declared keyOf (entries.take n) where
  key hid := h.key (List.mem_of_mem_take hid)
  before {pre batch post} hsplit := by
    have hentries : entries = pre ++ .samples batch :: (post ++ entries.drop n) := by
      calc entries = entries.take n ++ entries.drop n := (List.take_append_drop n entries).symm
        _ = pre ++ .samples batch :: (post ++ entries.drop n) := by rw [hsplit]; simp
    exact h.before hentries

theorem InLog.key_eq (hl : InLog h keyOf entries) (hms : h.byID.lookup id = some ms) :
    keyOf id = ms.ref.key :=
  hl.declared.key (hl.series hms).2

theorem events_congr {keyOf' : ℕ → GoString}
    (h : ∀ s ∈ entries.flatMap LogEntry.batch, keyOf' s.id = keyOf s.id) (key : GoString) :
    events keyOf' entries key = events keyOf entries key := by
  refine congrArg (List.map LogSample.sample) (List.filter_congr ?_)
  intro s hs
  rw [h s hs]

structure Extends (created : List ℕ) (h h' : Head o) : Prop where
  wf : h'.Wf
  minValid : h'.minValid = h.minValid
  nextID : h.nextID ≤ h'.nextID
  shards : ∀ {key id}, h.shards.lookup key = some id → h'.shards.lookup key = some id
  byID : ∀ {id ms}, h.byID.lookup id = some ms → h'.byID.lookup id = some ms
  new : ∀ {id ms}, h'.byID.lookup id = some ms → h.byID.lookup id = some ms ∨
    id ∈ created ∧ h.nextID < id ∧ ms.chunks = [] ∧ ms.logged = false
  content : ∀ key, h'.content key = h.content key

theorem Extends.trans {created created' : List ℕ} (he : Extends created h h')
    (he' : Extends created' h' h'') : Extends (created ++ created') h h'' where
  wf := he'.wf
  minValid := he'.minValid.trans he.minValid
  nextID := he.nextID.trans he'.nextID
  shards hk := he'.shards (he.shards hk)
  byID hms := he'.byID (he.byID hms)
  content key := (he'.content key).trans (he.content key)
  new hms := by
    rcases he'.new hms with hold | ⟨hmem, hlt, hrest⟩
    · rcases he.new hold with hold | ⟨hmem, hrest⟩
      · exact Or.inl hold
      · exact Or.inr ⟨List.mem_append_left _ hmem, hrest⟩
    · exact Or.inr ⟨List.mem_append_right _ hmem, lt_of_le_of_lt he.nextID hlt, hrest⟩

theorem extends_of_eq (hw : h.Wf) (hshards : h'.shards = h.shards) (hbyID : h'.byID = h.byID)
    (hnext : h'.nextID = h.nextID) (hmin : h'.minValid = h.minValid) :
    Extends [] h h' := by
  have hs : SameShape h h' := ⟨hshards, hnext, hmin, fun id => by rw [hbyID]⟩
  refine ⟨hs.wf hw, hmin, le_of_eq hnext.symm, ?_, ?_, ?_, ?_⟩
  · intro key id hk
    rw [hshards]
    exact hk
  · intro id ms hms
    rw [hbyID]
    exact hms
  · intro id ms hms
    rw [hbyID] at hms
    exact Or.inl hms
  · intro key
    unfold Head.content Head.find
    rw [hshards, hbyID]

/-- A series is there, cannot be created, or is created under the next id. -/
theorem getOrCreate_spec (hw : h.Wf) (ref : SeriesRef) :
    match h.getOrCreate ref with
    | (h', .error _) => Extends [] h h'
    | (h', .ok (id, isNew)) =>
      Extends (if isNew then [id] else []) h h' ∧ h'.shards.lookup ref.key = some id := by
  unfold Head.getOrCreate
  cases hkey : h.shards.lookup ref.key with
  | some id => exact ⟨extends_of_eq hw rfl rfl rfl rfl, hkey⟩
  | none =>
    by_cases hlimit : 0 < o.maxSeriesPerMetric ∧
        o.maxSeriesPerMetric ≤ (h.perMetric.lookup ref.metric).getD 0
    · rw [if_pos hlimit]
      exact extends_of_eq hw rfl rfl rfl rfl
    · rw [if_neg hlimit]
      let counted : Head o := { h with nextID := h.nextID + 1 }
      let ms := MemSeries.fresh o.blockRange (h.nextID + 1) ref false
      have hwc : counted.Wf := ⟨hw.id_eq, hw.shard_of, hw.of_shard,
        fun hms => Nat.le_succ_of_le (hw.le_nextID hms)⟩
      have hid : counted.byID.lookup ms.id = none := by
        cases hms : counted.byID.lookup ms.id with
        | none => rfl
        | some ms' => exact absurd (hw.le_nextID hms) (by simp [ms, MemSeries.fresh])
      have hcontent := content_register hwc hid hkey rfl
      refine ⟨⟨wf_register hwc hid hkey le_rfl, rfl, Nat.le_succ _, ?_, ?_, ?_, hcontent⟩, ?_⟩
      · intro key id hk
        rw [shards_register, if_neg]
        · exact hk
        · rintro rfl
          change h.shards.lookup ref.key = _ at hk
          rw [hkey] at hk
          cases hk
      · intro id ms' hms'
        rw [lookup_register, if_neg]
        · exact hms'
        · rintro rfl
          exact absurd (hw.le_nextID hms') (by simp [MemSeries.fresh])
      · intro id ms' hms'
        rw [lookup_register] at hms'
        split at hms'
        next heq =>
          cases hms'
          refine Or.inr ⟨by simp [heq, MemSeries.fresh], ?_, rfl, rfl⟩
          rw [heq]
          exact Nat.lt_succ_self _
        · exact Or.inl hms'
      · rw [shards_register]
        exact if_pos rfl

structure Resolves (minValid : ℤ) (batch : List (SeriesRef × Sample)) (h : Head o)
    (r : Resolution o) : Prop where
  extends_head : Extends r.created h r.head
  targets : List.Forall₂ (fun p t => ∀ id, t = Except.ok id →
    r.head.shards.lookup p.1.key = some id ∧ minValid ≤ p.2.t) batch r.targets
  created : ∀ id ∈ r.created, Except.ok id ∈ r.targets

theorem resolve_spec (hw : h.Wf) (minValid : ℤ) (batch : List (SeriesRef × Sample)) :
    Resolves minValid batch h (h.resolve minValid batch) := by
  induction batch generalizing h with
  | nil => exact ⟨extends_of_eq hw rfl rfl rfl rfl, List.Forall₂.nil, by simp [Head.resolve]⟩
  | cons p rest ih =>
    obtain ⟨ref, s⟩ := p
    unfold Head.resolve
    split
    · have hrest := ih hw
      refine ⟨hrest.extends_head, List.Forall₂.cons (by simp) hrest.targets, ?_⟩
      exact fun id hid => List.mem_cons_of_mem _ (hrest.created id hid)
    next hbound =>
      have hspec := getOrCreate_spec hw ref
      rcases hget : h.getOrCreate ref with ⟨h', res⟩
      rw [hget] at hspec
      cases res with
      | error e =>
        have hrest := ih hspec.wf
        have hext : Extends ([] ++ (h'.resolve minValid rest).created) h
            (h'.resolve minValid rest).head := Extends.trans hspec hrest.extends_head
        refine ⟨hext, List.Forall₂.cons (by simp) hrest.targets, ?_⟩
        exact fun id hid => List.mem_cons_of_mem _ (hrest.created id hid)
      | ok idNew =>
        obtain ⟨id, isNew⟩ := idNew
        obtain ⟨hext, hkey⟩ := hspec
        have hrest := ih hext.wf
        refine ⟨?_, List.Forall₂.cons ?_ hrest.targets, ?_⟩
        · cases isNew with
          | true | false => exact hext.trans hrest.extends_head
        · intro id' hid'
          cases hid'
          exact ⟨hrest.extends_head.shards hkey, not_lt.mp hbound⟩
        · intro id' hid'
          cases isNew with
          | true =>
            rcases List.mem_cons.mp hid' with rfl | hid'
            · exact List.mem_cons_self
            · exact List.mem_cons_of_mem _ (hrest.created id' hid')
          | false => exact List.mem_cons_of_mem _ (hrest.created id' hid')

/-- The valid samples are those of the batch that have a target. -/
theorem mem_validSamples {R : SeriesRef × Sample → Except HeadErr ℕ → Prop}
    (h : List.Forall₂ R batch targets) {x : LogSample} (hx : x ∈ validSamples batch targets) :
    ∃ ref, (ref, x.sample) ∈ batch ∧ R (ref, x.sample) (.ok x.id) := by
  induction h with
  | nil => cases hx
  | @cons p t batch targets hR _ ih =>
    obtain ⟨ref, s⟩ := p
    cases t with
    | error e =>
      obtain ⟨ref', hmem, hR'⟩ := ih hx
      exact ⟨ref', List.mem_cons_of_mem _ hmem, hR'⟩
    | ok id =>
      rcases List.mem_cons.mp hx with rfl | hx
      · exact ⟨ref, List.mem_cons_self, hR⟩
      · obtain ⟨ref', hmem, hR'⟩ := ih hx
        exact ⟨ref', List.mem_cons_of_mem _ hmem, hR'⟩

theorem ok_mem_targets (hlen : batch.length = targets.length) (hid : Except.ok id ∈ targets) :
    id ∈ (validSamples batch targets).map LogSample.id := by
  induction targets generalizing batch with
  | nil => cases hid
  | cons t targets ih =>
    cases batch with
    | nil => simp at hlen
    | cons p batch =>
      have hlen' : batch.length = targets.length := by simpa using hlen
      cases t with
      | error e => exact ih hlen' ((List.mem_cons.mp hid).resolve_left (by simp))
      | ok id' =>
        rcases List.mem_cons.mp hid with heq | hid
        · cases heq
          exact List.mem_cons_self
        · exact List.mem_cons_of_mem _ (ih hlen' hid)

/-- Only the marks of the series change, as `mark` says. -/
structure Marks (mark : ℕ → Bool → Bool) (h h' : Head o) : Prop where
  shape : SameShape h h'
  content : ∀ key, h'.content key = h.content key
  series : ∀ id, h'.byID.lookup id =
    (h.byID.lookup id).map (fun ms => ms.setLogged (mark id ms.logged))

theorem marks_refl (h : Head o)
    (hm : ∀ id ms, h.byID.lookup id = some ms → mark id ms.logged = ms.logged) :
    Marks mark h h where
  shape := SameShape.refl h
  content _ := rfl
  series id := by
    cases hms : h.byID.lookup id with
    | none => rfl
    | some ms =>
      rw [Option.map_some, hm id ms hms]
      rfl

theorem content_of_series (hs : SameShape h h')
    (hsamples : ∀ id, (h'.byID.lookup id).map MemSeries.samples =
      (h.byID.lookup id).map MemSeries.samples) (key : GoString) :
    h'.content key = h.content key := by
  unfold Head.content Head.find
  rw [hs.shards]
  cases h.shards.lookup key with
  | none => rfl
  | some id => rw [Option.bind_some, Option.bind_some, hsamples id]

variable {mark' : ℕ → Bool → Bool} {samples : List LogSample}
  {series : List (ℕ × SeriesRef)} {n : ℕ}
  {r : Rejection}

theorem Marks.congr (hm : Marks mark h h')
    (heq : ∀ id ms, h.byID.lookup id = some ms → mark id ms.logged = mark' id ms.logged) :
    Marks mark' h h' where
  shape := hm.shape
  content := hm.content
  series id := by
    rw [hm.series]
    cases hms : h.byID.lookup id with
    | none => rfl
    | some ms => rw [Option.map_some, Option.map_some, heq id ms hms]

theorem marks_update (hw : h.Wf) (hms : h.byID.lookup id = some ms) (logged : Bool) :
    Marks (fun id' l => if id' = id then logged else l) h (h.update (ms.setLogged logged)) := by
  have hid : ms.id = id := hw.id_eq hms
  have hshape : SameShape h (h.update (ms.setLogged logged)) :=
    sameShape_update hms hid hid rfl
  have hseries : ∀ id', (h.update (ms.setLogged logged)).byID.lookup id' =
      (h.byID.lookup id').map
        (fun ms => ms.setLogged (if id' = id then logged else ms.logged)) := by
    intro id'
    rw [lookup_update]
    change (if id' = ms.id then _ else _) = _
    rw [hid]
    by_cases heq : id' = id
    · rw [if_pos heq, heq, hms, Option.map_some, if_pos rfl]
    · rw [if_neg heq]
      cases h.byID.lookup id' with
      | none => rfl
      | some ms' =>
        rw [Option.map_some, if_neg heq]
        rfl
  refine ⟨hshape, content_of_series hshape ?_, hseries⟩
  intro id'
  rw [hseries]
  cases h.byID.lookup id' with
  | none => rfl
  | some ms' => rfl

theorem Marks.trans {mark'' : ℕ → Bool → Bool} (hm : Marks mark h h') (hm' : Marks mark' h' h'')
    (heq : ∀ id ms, h.byID.lookup id = some ms → mark' id (mark id ms.logged) =
      mark'' id ms.logged) :
    Marks mark'' h h'' where
  shape := hm.shape.trans hm'.shape
  content key := (hm'.content key).trans (hm.content key)
  series id := by
    rw [hm'.series, hm.series]
    cases hms : h.byID.lookup id with
    | none => rfl
    | some ms =>
      rw [Option.map_some, Option.map_some, Option.map_some]
      change some (ms.setLogged (mark' id (mark id ms.logged))) = _
      rw [heq id ms hms]

theorem markPending_spec (hw : h.Wf) (ids : List ℕ) :
    Marks (fun id logged => logged || decide (id ∈ ids)) h (h.markPending ids).1 ∧
      ∀ id ref, (id, ref) ∈ (h.markPending ids).2 ↔
        id ∈ ids ∧ ∃ ms, h.byID.lookup id = some ms ∧ ms.ref = ref ∧ ms.logged = false := by
  induction ids generalizing h with
  | nil => exact ⟨marks_refl h (by simp), by simp [Head.markPending]⟩
  | cons id ids ih =>
    have hpassed : (∀ ms, h.byID.lookup id = some ms → ms.logged = true) →
        Marks (fun id' logged => logged || decide (id' ∈ id :: ids)) h (h.markPending ids).1 ∧
          ∀ id' ref, (id', ref) ∈ (h.markPending ids).2 ↔ id' ∈ id :: ids ∧
            ∃ ms, h.byID.lookup id' = some ms ∧ ms.ref = ref ∧ ms.logged = false := by
      intro hid
      obtain ⟨hmarks, hpending⟩ := ih hw
      refine ⟨hmarks.congr ?_, ?_⟩
      · intro id' ms' hms'
        by_cases heq : id' = id
        · subst heq
          simp [hid ms' hms']
        · simp [heq]
      · intro id' ref
        rw [hpending]
        constructor
        · rintro ⟨hmem, hrest⟩
          exact ⟨List.mem_cons_of_mem _ hmem, hrest⟩
        · rintro ⟨hmem, ms', hms', href, hno⟩
          refine ⟨(List.mem_cons.mp hmem).resolve_left ?_, ms', hms', href, hno⟩
          rintro rfl
          rw [hid ms' hms'] at hno
          cases hno
    unfold Head.markPending
    cases hms : h.byID.lookup id with
    | none => exact hpassed (by simp [hms])
    | some ms =>
      dsimp only
      split
      next hlogged =>
        refine hpassed (fun ms' hms' => ?_)
        rw [hms] at hms'
        cases hms'
        exact hlogged
      next hlogged =>
        have hno : ms.logged = false := by simpa using hlogged
        have hmark := marks_update hw hms true
        obtain ⟨hmarks, hpending⟩ := ih (hmark.shape.wf hw)
        refine ⟨hmark.trans hmarks ?_, ?_⟩
        · intro id' ms' _
          by_cases heq : id' = id <;> simp [heq]
        · intro id' ref
          rw [List.mem_cons, hpending, hmark.series]
          constructor
          · rintro (heq | ⟨hmem, ms', hms', href, hno'⟩)
            · cases heq
              exact ⟨List.mem_cons_self, ms, hms, rfl, hno⟩
            · obtain ⟨ms₀, hms₀, rfl⟩ := Option.map_eq_some_iff.mp hms'
              refine ⟨List.mem_cons_of_mem _ hmem, ms₀, hms₀, href, ?_⟩
              split at hno'
              · cases hno'
              · exact hno'
          · rintro ⟨hmem, ms', hms', href, hno'⟩
            by_cases heq : id' = id
            · subst heq
              rw [hms] at hms'
              cases hms'
              exact Or.inl (by rw [href])
            · refine Or.inr ⟨(List.mem_cons.mp hmem).resolve_left heq, ms', ?_, href, hno'⟩
              rw [hms', Option.map_some, if_neg heq]
              rfl

theorem unmarkPending_spec (hw : h.Wf) (pending : List (ℕ × SeriesRef)) :
    Marks (fun id logged => logged && !decide (id ∈ pending.map Prod.fst)) h
      (h.unmarkPending pending) := by
  induction pending generalizing h with
  | nil => exact marks_refl h (by simp)
  | cons p pending ih =>
    obtain ⟨id, ref⟩ := p
    have hmem : ∀ {id'}, id' ≠ id →
        (id' ∈ ((id, ref) :: pending).map Prod.fst ↔ id' ∈ pending.map Prod.fst) := by
      intro id' hne
      simp [hne]
    unfold Head.unmarkPending
    cases hms : h.byID.lookup id with
    | none =>
      refine (ih hw).congr ?_
      intro id' ms' hms'
      have hne : id' ≠ id := by
        rintro rfl
        rw [hms] at hms'
        cases hms'
      rw [decide_eq_decide.mpr (hmem hne)]
    | some ms =>
      have hmark := marks_update hw hms false
      refine hmark.trans (ih (hmark.shape.wf hw)) ?_
      intro id' ms' _
      by_cases heq : id' = id
      · simp [heq]
      · rw [if_neg heq, decide_eq_decide.mpr (hmem heq)]

structure Offers (minValid : ℤ) (keyOf : ℕ → GoString) (offered : List LogSample) (h h' : Head o) :
    Prop where
  shape : SameShape h h'
  logged : ∀ id, (h'.byID.lookup id).map MemSeries.logged = (h.byID.lookup id).map MemSeries.logged
  content : ∀ key, h'.content key =
    ((offered.filter (fun s => decide (keyOf s.id = key))).map LogSample.sample).foldl
      (accept Sample.t minValid) (h.content key)

theorem offers_nil (minValid : ℤ) (keyOf : ℕ → GoString) (h : Head o) :
    Offers minValid keyOf [] h h := ⟨SameShape.refl h, fun _ => rfl, fun _ => rfl⟩

theorem Offers.trans {minValid : ℤ} {offered offered' : List LogSample}
    (ho : Offers minValid keyOf offered h h') (ho' : Offers minValid keyOf offered' h' h'') :
    Offers minValid keyOf (offered ++ offered') h h'' where
  shape := ho.shape.trans ho'.shape
  logged id := (ho'.logged id).trans (ho.logged id)
  content key := by
    rw [ho'.content, ho.content, List.filter_append, List.map_append, List.foldl_append]

theorem appendTo_eq (hms : h.byID.lookup id = some ms) (s : Sample) (minValid : ℤ) :
    h.appendTo id s minValid =
      (h.update (ms.appendTo s minValid).1, (ms.appendTo s minValid).2) := by
  unfold Head.appendTo
  rw [hms]

theorem sameShape_appendTo (hw : h.Wf) (id : ℕ) (s : Sample) (minValid : ℤ) :
    SameShape h (h.appendTo id s minValid).1 := by
  unfold Head.appendTo
  cases hms : h.byID.lookup id with
  | none => exact SameShape.refl h
  | some ms =>
    have hid := hw.id_eq hms
    exact sameShape_update hms (by simpa using hid) hid (by simp)

theorem sameShape_applyAll (hw : h.Wf) (minValid : ℤ) (batch : List (SeriesRef × Sample))
    (targets : List (Except HeadErr ℕ)) :
    SameShape h (h.applyAll minValid batch targets).1 := by
  induction batch generalizing h targets with
  | nil => cases targets <;> exact SameShape.refl h
  | cons p batch ih =>
    cases targets with
    | nil => exact SameShape.refl h
    | cons t targets =>
      cases t with
      | error e => exact ih hw targets
      | ok id =>
        have hstep := sameShape_appendTo hw id p.2 minValid
        exact hstep.trans (ih (hstep.wf hw) targets)

theorem offers_appendTo (hw : h.Wf) (hms : h.byID.lookup s.id = some ms)
    (hkey : keyOf s.id = ms.ref.key) (minValid : ℤ) :
    Offers minValid keyOf [s] h (h.appendTo s.id s.sample minValid).1 := by
  have hid : ms.id = s.id := hw.id_eq hms
  refine ⟨sameShape_appendTo hw s.id s.sample minValid, ?_, ?_⟩
  · intro id
    rw [appendTo_eq hms, lookup_update]
    split
    next heq =>
      rw [heq, id_appendTo, hid, hms]
      simp
    · rfl
  · intro key
    rw [appendTo_eq hms, content_update hw hms (by simpa using hid) (by simp)]
    by_cases heq : key = ms.ref.key
    · rw [heq, samples_appendTo, content_of_lookup hw hms]
      simp [hkey]
    · have hne : keyOf s.id ≠ key := fun hk => heq (hk.symm.trans hkey)
      rw [if_neg heq]
      simp [hne]

theorem applyAll_offers (hw : h.Wf)
    (hkey : ∀ {id ms}, h.byID.lookup id = some ms → keyOf id = ms.ref.key) (minValid : ℤ)
    (batch : List (SeriesRef × Sample)) (targets : List (Except HeadErr ℕ))
    (hvalid : ∀ s ∈ validSamples batch targets, (h.byID.lookup s.id).isSome = true) :
    Offers minValid keyOf (validSamples batch targets) h (h.applyAll minValid batch targets).1 := by
  induction batch generalizing h targets with
  | nil =>
    cases targets with
    | nil => exact offers_nil minValid keyOf h
    | cons t targets => cases t <;> exact offers_nil minValid keyOf h
  | cons p batch ih =>
    obtain ⟨ref, s⟩ := p
    cases targets with
    | nil => exact offers_nil minValid keyOf h
    | cons t targets =>
      cases t with
      | error e => exact ih hw hkey targets hvalid
      | ok id =>
        obtain ⟨ms, hms⟩ := Option.isSome_iff_exists.mp (hvalid ⟨id, s.t, s.v⟩ List.mem_cons_self)
        have hstep := offers_appendTo hw hms (hkey hms) minValid
        have hrest := ih (hstep.shape.wf hw) ?_ targets ?_
        · exact hstep.trans hrest
        · intro id' ms' hms'
          obtain ⟨ms₀, hms₀, -, href⟩ := hstep.shape.lookup hms'
          rw [← href]
          exact hkey hms₀
        · intro x hx
          obtain ⟨ms', hms'⟩ := Option.isSome_iff_exists.mp (hvalid x (List.mem_cons_of_mem _ hx))
          obtain ⟨ms₁, hms₁, -, -⟩ := hstep.shape.symm.lookup hms'
          exact Option.isSome_iff_exists.mpr ⟨ms₁, hms₁⟩

structure Outcome (key : GoString) (s : Sample) (out : Except HeadErr Bool) (h h' : Head o) :
    Prop where
  grows : ∀ k, ∀ x ∈ h.content k, x ∈ h'.content k
  stored : out = .ok true → s ∈ h'.content key
  duplicate : out = .ok false →
    ∃ x ∈ h'.content key, x.t = s.t ∧ floatEq x.v s.v = true
  only : ∀ k, ∀ x ∈ h'.content k, x ∈ h.content k ∨ k = key ∧ x = s ∧ out = .ok true

theorem appendTo_outcome (hw : h.Wf) {key : GoString} (hid : h.shards.lookup key = some id)
    (s : Sample) (minValid : ℤ) :
    Outcome key s (h.appendTo id s minValid).2 h (h.appendTo id s minValid).1 := by
  obtain ⟨ms, hms, rfl⟩ := hw.of_shard hid
  have hid' : (ms.appendTo s minValid).1.id = id := by simpa using hw.id_eq hms
  have hcontent := content_update hw hms hid' (by simp)
  have hsamples := samples_appendTo ms s minValid
  have hold := content_of_lookup hw hms
  rw [appendTo_eq hms]
  by_cases hstored : minValid ≤ s.t ∧ ¬ Dominated Sample.t ms.samples s
  · have hout := (appendTo_stored_iff ms s minValid).mpr hstored
    rw [accept_of_not_dominated hstored.1 hstored.2] at hsamples
    rw [hout]
    refine ⟨?_, ?_, by simp, ?_⟩
    · intro k x hx
      rw [hcontent]
      split
      next heq =>
        rw [heq, hold] at hx
        rw [hsamples]
        exact List.mem_append_left _ hx
      · exact hx
    · intro _
      rw [hcontent, hsamples]
      simp
    · intro k x hx
      rw [hcontent] at hx
      split at hx
      next heq =>
        rw [hsamples] at hx
        rcases List.mem_append.mp hx with hx | hx
        · left
          rw [heq, hold]
          exact hx
        · exact Or.inr ⟨heq, List.mem_singleton.mp hx, rfl⟩
      · exact Or.inl hx
  · rw [accept_of_refused ms.samples_ascending hstored] at hsamples
    have hsame : ∀ k, (h.update (ms.appendTo s minValid).1).content k = h.content k := by
      intro k
      rw [hcontent]
      split
      next heq =>
        rw [heq, hold, hsamples]
      · rfl
    refine ⟨?_, ?_, ?_, ?_⟩
    · intro k x hx
      rw [hsame]
      exact hx
    · exact fun hout => absurd ((appendTo_stored_iff ms s minValid).mp hout) hstored
    · intro hout
      rw [hsame, hold]
      exact ((appendTo_duplicate_iff ms s minValid).mp hout).2
    · intro k x hx
      rw [hsame] at hx
      exact Or.inl hx

structure Outcomes (batch : List (SeriesRef × Sample)) (outs : List (Except HeadErr Bool))
    (h h' : Head o) : Prop where
  length_eq : outs.length = batch.length
  grows : ∀ k, ∀ x ∈ h.content k, x ∈ h'.content k
  stored : ∀ p, (p, Except.ok true) ∈ batch.zip outs → p.2 ∈ h'.content p.1.key
  duplicate : ∀ p, (p, Except.ok false) ∈ batch.zip outs →
    ∃ x ∈ h'.content p.1.key, x.t = p.2.t ∧ floatEq x.v p.2.v = true
  only : ∀ k, ∀ x ∈ h'.content k, x ∈ h.content k ∨
    ∃ ref : SeriesRef, ref.key = k ∧ ((ref, x), Except.ok true) ∈ batch.zip outs

theorem applyAll_outcomes (hw : h.Wf) (minValid : ℤ)
    (hres : List.Forall₂ (fun p t => ∀ id, t = Except.ok id →
      h.shards.lookup p.1.key = some id) batch targets) :
    Outcomes batch (h.applyAll minValid batch targets).2 h
      (h.applyAll minValid batch targets).1 := by
  induction batch generalizing h targets with
  | nil =>
    cases hres
    exact ⟨rfl, fun _ _ hx => hx, by simp, by simp, fun _ _ hx => Or.inl hx⟩
  | cons p batch ih =>
    obtain ⟨ref, s⟩ := p
    cases hres with
    | @cons _ t _ targets htarget hres =>
      cases t with
      | error e =>
        have hrest := ih hw hres
        refine ⟨congrArg Nat.succ hrest.length_eq, hrest.grows, ?_, ?_, ?_⟩
        · intro p hp
          exact hrest.stored p ((List.mem_cons.mp hp).resolve_left (by simp))
        · intro p hp
          exact hrest.duplicate p ((List.mem_cons.mp hp).resolve_left (by simp))
        · intro k x hx
          rcases hrest.only k x hx with hx | ⟨ref', hk, hmem⟩
          · exact Or.inl hx
          · exact Or.inr ⟨ref', hk, List.mem_cons_of_mem _ hmem⟩
      | ok id =>
        have hid := htarget id rfl
        have hstep := appendTo_outcome hw hid s minValid
        have hshape := sameShape_appendTo hw id s minValid
        have hrest := ih (hshape.wf hw) (hres.imp (fun p t ht id' hid' => by
          rw [hshape.shards]
          exact ht id' hid'))
        refine ⟨congrArg Nat.succ hrest.length_eq, ?_, ?_, ?_, ?_⟩
        · exact fun k x hx => hrest.grows k x (hstep.grows k x hx)
        · intro p hp
          rcases List.mem_cons.mp hp with heq | hp
          · obtain ⟨rfl, hout⟩ := Prod.mk.inj heq
            exact hrest.grows _ _ (hstep.stored hout.symm)
          · exact hrest.stored p hp
        · intro p hp
          rcases List.mem_cons.mp hp with heq | hp
          · obtain ⟨rfl, hout⟩ := Prod.mk.inj heq
            obtain ⟨x, hx, hxt⟩ := hstep.duplicate hout.symm
            exact ⟨x, hrest.grows _ _ hx, hxt⟩
          · exact hrest.duplicate p hp
        · intro k x hx
          rcases hrest.only k x hx with hx | ⟨ref', hk, hmem⟩
          · rcases hstep.only k x hx with hx | ⟨rfl, rfl, hout⟩
            · exact Or.inl hx
            · refine Or.inr ⟨ref, rfl, List.mem_cons.mpr (Or.inl ?_)⟩
              exact congrArg (Prod.mk _) hout.symm
          · exact Or.inr ⟨ref', hk, List.mem_cons_of_mem _ hmem⟩

theorem batch_sampleEntries (samples : List LogSample) :
    (sampleEntries samples).flatMap LogEntry.batch = samples := by
  fun_induction sampleEntries samples with
  | case1 samples hle => simp [LogEntry.batch]
  | case2 samples hlt ih =>
    rw [List.flatMap_cons, ih]
    exact List.take_append_drop _ _

theorem series_notMem_sampleEntries (samples : List LogSample) (id : ℕ) (ref : SeriesRef) :
    LogEntry.series id ref ∉ sampleEntries samples := by
  fun_induction sampleEntries samples with
  | case1 samples hle => simp
  | case2 samples hlt ih => exact fun hmem => ih ((List.mem_cons.mp hmem).resolve_left (by simp))

theorem batch_logEntries (series : List (ℕ × SeriesRef)) (samples : List LogSample) :
    (logEntries series samples).flatMap LogEntry.batch = samples := by
  have hdefs : (series.map (fun p => LogEntry.series p.1 p.2)).flatMap LogEntry.batch = [] := by
    rw [List.flatMap_eq_nil_iff]
    intro e he
    obtain ⟨p, -, rfl⟩ := List.mem_map.mp he
    rfl
  unfold logEntries
  rw [List.flatMap_append, hdefs, batch_sampleEntries, List.nil_append]

theorem series_mem_logEntries :
    LogEntry.series id ref ∈ logEntries series samples ↔ (id, ref) ∈ series := by
  unfold logEntries
  rw [List.mem_append, or_iff_left (series_notMem_sampleEntries samples id ref)]
  simp

/-- Definitions come first. -/
theorem defs_before_samples {batch : List LogSample} {pre post : List LogEntry}
    (h : logEntries series samples = pre ++ .samples batch :: post) {p : ℕ × SeriesRef}
    (hp : p ∈ series) : LogEntry.series p.1 p.2 ∈ pre := by
  rcases append_eq_append_cons h with ⟨cs, rfl, -⟩ | ⟨cs, hdefs, -⟩
  · exact List.mem_append_left _ (List.mem_map.mpr ⟨p, hp, rfl⟩)
  · have hmem : LogEntry.samples batch ∈ series.map (fun p => LogEntry.series p.1 p.2) := by
      rw [hdefs]
      simp
    obtain ⟨p', -, hp'⟩ := List.mem_map.mp hmem
    cases hp'

def keysWith (h : Head o) (keyOf : ℕ → GoString) (id : ℕ) : GoString :=
  match h.byID.lookup id with
  | some ms => ms.ref.key
  | none => keyOf id

theorem keysWith_of_lookup (hms : h.byID.lookup id = some ms) :
    keysWith h keyOf id = ms.ref.key := by
  unfold keysWith
  rw [hms]

section Batch

variable (hl : InLog h keyOf entries) (batch : List (SeriesRef × Sample))
include hl

structure Ready (h : Head o) (batch : List (SeriesRef × Sample)) (p : Prepared o) : Prop where
  resolves : Resolves h.minValid batch h p.resolution
  valid : p.valid = validSamples batch p.resolution.targets
  marks : Marks (fun id logged => logged || decide (id ∈ p.valid.map LogSample.id))
    p.resolution.head p.marked
  pending : ∀ id ref, (id, ref) ∈ p.pending ↔ id ∈ p.valid.map LogSample.id ∧
    ∃ ms, p.resolution.head.byID.lookup id = some ms ∧ ms.ref = ref ∧ ms.logged = false

omit hl in
theorem ready_prepare (hw : h.Wf) : Ready h batch (h.prepare batch) := by
  have hres := resolve_spec hw h.minValid batch
  obtain ⟨hmarks, hpending⟩ := markPending_spec hres.extends_head.wf
    ((validSamples batch (h.resolve h.minValid batch).targets).map LogSample.id)
  exact ⟨hres, rfl, hmarks, hpending⟩

variable {batch} {p : Prepared o} (hp : Ready h batch p)
include hp

omit hl in
theorem Ready.lookup (hs : s ∈ p.valid) : ∃ ref ms, (ref, s.sample) ∈ batch ∧ h.minValid ≤ s.t ∧
      p.resolution.head.byID.lookup s.id = some ms ∧ ms.ref.key = ref.key := by
  rw [hp.valid] at hs
  obtain ⟨ref, hmem, htarget⟩ := mem_validSamples hp.resolves.targets hs
  obtain ⟨hkey, hbound⟩ := htarget s.id rfl
  obtain ⟨ms, hms, hk⟩ := hp.resolves.extends_head.wf.of_shard hkey
  exact ⟨ref, ms, hmem, hbound, hms, hk⟩

/-- Ids that the log has defined keep their key. -/
theorem keysWith_defined (hid : LogEntry.series id ref ∈ entries) :
    keysWith p.resolution.head keyOf id = keyOf id := by
  unfold keysWith
  cases hms : p.resolution.head.byID.lookup id with
  | none => rfl
  | some ms =>
    rcases hp.resolves.extends_head.new hms with hold | ⟨-, hlt, -⟩
    · exact (hl.key_eq hold).symm
    · exact absurd (hl.ids hid) (by omega)

/-- A series that is already logged was there before the batch. -/
theorem series_of_logged (hms : p.resolution.head.byID.lookup id = some ms)
    (hlogged : ms.logged = true) :
    LogEntry.series id ms.ref ∈ entries := by
  rcases hp.resolves.extends_head.new hms with hold | ⟨-, -, -, hno⟩
  · exact (hl.series hold).2
  · rw [hlogged] at hno
    cases hno

/-- The log stays readable, however much of the batch it has. -/
theorem declared_batch (hw : written <+: p.entries) :
    Declared (keysWith p.resolution.head keyOf) (entries ++ written) where
  key {id ref} hid := by
    rcases List.mem_append.mp hid with hid | hid
    · rw [keysWith_defined hl hp hid]
      exact hl.declared.key hid
    · obtain ⟨-, ms, hms, rfl, -⟩ :=
        (hp.pending id ref).mp (series_mem_logEntries.mp (hw.subset hid))
      exact keysWith_of_lookup hms
  before {pre b post} hsplit s hs := by
    rcases append_eq_append_cons hsplit with ⟨cs, rfl, hwritten⟩ | ⟨cs, hentries, -⟩
    · obtain ⟨rest, hrest⟩ := hw
      have hentry : p.entries = cs ++ .samples b :: (post ++ rest) := by
        rw [← hrest, hwritten]
        simp
      have hvalid : s ∈ p.valid := by
        rw [← batch_logEntries p.pending p.valid]
        change s ∈ p.entries.flatMap LogEntry.batch
        rw [hentry]
        simp [LogEntry.batch, hs]
      obtain ⟨ref, ms, -, -, hms, -⟩ := hp.lookup hvalid
      refine ⟨ms.ref, List.mem_append.mpr ?_⟩
      cases hlogged : ms.logged with
      | true => exact Or.inl (series_of_logged hl hp hms hlogged)
      | false =>
        have hpend : (s.id, ms.ref) ∈ p.pending :=
          (hp.pending _ _).mpr ⟨List.mem_map_of_mem hvalid, ms, hms, rfl, hlogged⟩
        exact Or.inr (defs_before_samples hentry hpend)
    · exact hl.declared.before hentries s hs

/-- What the log says is what it said, and then the batch. -/
theorem events_batch (written : List LogEntry) (key : GoString) :
    events (keysWith p.resolution.head keyOf) (entries ++ written) key =
      events keyOf entries key ++ events (keysWith p.resolution.head keyOf) written key := by
  have hold : events (keysWith p.resolution.head keyOf) entries key = events keyOf entries key := by
    refine events_congr ?_ key
    intro s hs
    obtain ⟨ref, href⟩ := hl.declared.sample hs
    exact keysWith_defined hl hp href
  rw [events_append, hold]

theorem ids_batch (hw : written <+: p.entries) (hid : LogEntry.series id ref ∈ entries ++ written) :
    id ≤ p.resolution.head.nextID := by
  rcases List.mem_append.mp hid with hid | hid
  · exact (hl.ids hid).trans hp.resolves.extends_head.nextID
  · obtain ⟨-, ms, hms, -⟩ := (hp.pending id ref).mp (series_mem_logEntries.mp (hw.subset hid))
    exact hp.resolves.extends_head.wf.le_nextID hms

/-- A batch that is rolled back leaves the head as it was. -/
theorem rollback_spec (hw : written <+: p.entries) :
    InLog p.rollback.1 (keysWith p.resolution.head keyOf) (entries ++ written) ∧
      p.rollback.1.minValid = h.minValid ∧ ∀ key, p.rollback.1.content key = h.content key := by
  have hext := hp.resolves.extends_head
  have hwm := hp.marks.shape.wf hext.wf
  have hun := unmarkPending_spec hwm p.pending
  have hf := forgets_empty (hun.shape.wf hwm) p.resolution.created
  refine ⟨⟨⟨hf.wf.id_eq, hf.wf.shard_of, hf.wf.of_shard, hf.wf.le_nextID⟩,
    declared_batch hl hp hw, ?_, ?_⟩, ?_, ?_⟩
  · intro id ms hms
    obtain ⟨hkept, hnonempty⟩ := hf.kept hms
    rw [hun.series, hp.marks.series] at hkept
    cases hms₀ : p.resolution.head.byID.lookup id with
    | none =>
      rw [hms₀] at hkept
      cases hkept
    | some ms₀ =>
      rw [hms₀, Option.map_some] at hkept
      cases hkept
      rcases hext.new hms₀ with hold | ⟨hmem, -, hnil, -⟩
      · obtain ⟨hlogged, hentry⟩ := hl.series hold
        have hnot : id ∉ p.pending.map Prod.fst := by
          intro hmem
          obtain ⟨q, hq, rfl⟩ := List.mem_map.mp hmem
          obtain ⟨-, ms', hms', -, hno⟩ := (hp.pending q.1 q.2).mp hq
          rw [hms₀] at hms'
          cases hms'
          rw [hlogged] at hno
          cases hno
        refine ⟨?_, List.mem_append_left _ hentry⟩
        rw [hlogged, decide_eq_false hnot]
        rfl
      · exact absurd hnil (hnonempty hmem)
  · intro id ref hid
    change id ≤ Head.nextID (Head.forgetEmpty _ _)
    rw [hf.nextID, hun.shape.nextID, hp.marks.shape.nextID]
    exact ids_batch hl hp hw hid
  · change Head.minValid (Head.forgetEmpty _ _) = _
    rw [hf.minValid, hun.shape.minValid, hp.marks.shape.minValid, hext.minValid]
  · intro key
    change Head.content (Head.forgetEmpty _ _) key = _
    rw [hf.content, hun.content, hp.marks.content, hext.content]

/-- A batch that is committed offers its samples to the series. -/
theorem commit_spec : InLog (p.commit h.minValid batch).1 (keysWith p.resolution.head keyOf)
        (entries ++ p.entries) ∧
      (p.commit h.minValid batch).1.minValid = h.minValid ∧
      ∀ key, (p.commit h.minValid batch).1.content key =
        (events (keysWith p.resolution.head keyOf) p.entries key).foldl
          (accept Sample.t h.minValid) (h.content key) := by
  have hext := hp.resolves.extends_head
  have hwm := hp.marks.shape.wf hext.wf
  have hkey : ∀ {id ms}, p.marked.byID.lookup id = some ms →
      keysWith p.resolution.head keyOf id = ms.ref.key := by
    intro id ms hms
    obtain ⟨ms₀, hms₀, -, href⟩ := hp.marks.shape.lookup hms
    rw [keysWith_of_lookup hms₀, href]
  have hvalid : ∀ s ∈ validSamples batch p.resolution.targets,
      (p.marked.byID.lookup s.id).isSome = true := by
    intro s hs
    rw [← hp.valid] at hs
    obtain ⟨ref, ms, -, -, hms, -⟩ := hp.lookup hs
    obtain ⟨ms', hms', -⟩ := hp.marks.shape.symm.lookup hms
    exact Option.isSome_iff_exists.mpr ⟨ms', hms'⟩
  have hoff := applyAll_offers hwm hkey h.minValid batch p.resolution.targets hvalid
  have hf := forgets_empty (hoff.shape.wf hwm) p.resolution.created
  refine ⟨⟨⟨hf.wf.id_eq, hf.wf.shard_of, hf.wf.of_shard, hf.wf.le_nextID⟩,
    declared_batch hl hp (List.prefix_refl _), ?_, ?_⟩, ?_, ?_⟩
  · intro id ms hms
    obtain ⟨hkept, -⟩ := hf.kept hms
    obtain ⟨ms₁, hms₁, -, href₁⟩ := hoff.shape.lookup hkept
    obtain ⟨ms₀, hms₀, -, href₀⟩ := hp.marks.shape.lookup hms₁
    have hlogged : ms.logged = (ms₀.logged || decide (id ∈ p.valid.map LogSample.id)) := by
      have hsame := hoff.logged id
      rw [hkept, hp.marks.series, hms₀] at hsame
      exact Option.some.inj hsame
    rw [hlogged, ← href₁, ← href₀]
    rcases hext.new hms₀ with hold | ⟨hmem, -, -, hno⟩
    · obtain ⟨hl₀, hentry⟩ := hl.series hold
      exact ⟨by rw [hl₀]; rfl, List.mem_append_left _ hentry⟩
    · have hid : id ∈ p.valid.map LogSample.id := by
        rw [hp.valid]
        exact ok_mem_targets hp.resolves.targets.length_eq (hp.resolves.created id hmem)
      refine ⟨by rw [hno, decide_eq_true hid]; rfl, List.mem_append_right _ ?_⟩
      exact series_mem_logEntries.mpr ((hp.pending _ _).mpr ⟨hid, ms₀, hms₀, rfl, hno⟩)
  · intro id ref hid
    change id ≤ Head.nextID (Head.forgetEmpty _ _)
    rw [hf.nextID, hoff.shape.nextID, hp.marks.shape.nextID]
    exact ids_batch hl hp (List.prefix_refl _) hid
  · change Head.minValid (Head.forgetEmpty _ _) = _
    rw [hf.minValid, hoff.shape.minValid, hp.marks.shape.minValid, hext.minValid]
  · intro key
    change Head.content (Head.forgetEmpty _ _) key = _
    rw [hf.content, hoff.content, hp.marks.content, hext.content, ← hp.valid]
    unfold events Prepared.entries
    rw [batch_logEntries]

omit hl in
theorem commit_outcomes :
    ∃ outs, (p.commit h.minValid batch).2 = ⟨some (outs.map storedFlag), rejections 0 outs⟩ ∧
      Outcomes batch outs h (p.commit h.minValid batch).1 := by
  have hext := hp.resolves.extends_head
  have hwm := hp.marks.shape.wf hext.wf
  have hres : List.Forall₂ (fun q t => ∀ id, t = Except.ok id →
      p.marked.shards.lookup q.1.key = some id) batch p.resolution.targets := by
    refine hp.resolves.targets.imp ?_
    intro q t ht id hid
    rw [hp.marks.shape.shards]
    exact (ht id hid).1
  have hout := applyAll_outcomes hwm h.minValid hres
  have hf := forgets_empty ((sameShape_applyAll hwm h.minValid batch p.resolution.targets).wf hwm)
    p.resolution.created
  have hstart : ∀ k, p.marked.content k = h.content k := by
    intro k
    rw [hp.marks.content, hext.content]
  have hend : ∀ k, (p.commit h.minValid batch).1.content k =
      (p.marked.applyAll h.minValid batch p.resolution.targets).1.content k := hf.content
  refine ⟨_, rfl, hout.length_eq, ?_, ?_, ?_, ?_⟩
  · intro k x hx
    rw [hend]
    exact hout.grows k x (by rw [hstart]; exact hx)
  · intro q hq
    rw [hend]
    exact hout.stored q hq
  · intro q hq
    rw [hend]
    exact hout.duplicate q hq
  · intro k x hx
    rw [hend] at hx
    rw [← hstart]
    exact hout.only k x hx

end Batch

def failed (res : AppendResult) : Bool := res.rejected.any (fun r => decide (r.index = -1))

def accepted (res : AppendResult) (i : ℕ) : Bool :=
  res.stored.isSome && !res.rejected.any (fun r => decide (r.index = i))

def storedAt (res : AppendResult) (i : ℕ) : Bool := ((res.stored.getD [])[i]?).getD false

theorem storedAt_eq (outs : List (Except HeadErr Bool)) {b : Bool} (hi : outs[i]? = some (.ok b)) :
    storedAt ⟨some (outs.map storedFlag), rejections 0 outs⟩ i = b := by
  unfold storedAt
  simp [hi, storedFlag]

/-- A refused sample is listed. -/
theorem rejected_of_error {e : HeadErr} (h : outs[i]? = some (.error e)) (n : ℕ) :
    ∃ r ∈ rejections n outs, r.index = ((n + i : ℕ) : ℤ) := by
  induction outs generalizing n i with
  | nil => simp at h
  | cons out outs ih =>
    cases i with
    | zero =>
      cases h
      exact ⟨_, List.mem_cons_self, rfl⟩
    | succ i =>
      obtain ⟨r, hr, hindex⟩ := ih h (n + 1)
      refine ⟨r, ?_, by rw [hindex]; congr 1; omega⟩
      cases out with
      | ok a => exact hr
      | error e' => exact List.mem_cons_of_mem _ hr

/-- And nothing else is. -/
theorem error_of_rejected (hr : r ∈ rejections n outs) :
    ∃ i e, r.index = ((n + i : ℕ) : ℤ) ∧ outs[i]? = some (.error e) := by
  induction outs generalizing n with
  | nil => cases hr
  | cons out outs ih =>
    have hlater : r ∈ rejections (n + 1) outs →
        ∃ i e, r.index = ((n + i : ℕ) : ℤ) ∧ (out :: outs)[i]? = some (.error e) := by
      intro hr
      obtain ⟨i, e, hindex, he⟩ := ih hr
      exact ⟨i + 1, e, by rw [hindex]; congr 1; omega, by simpa using he⟩
    cases out with
    | ok a => exact hlater hr
    | error e =>
      rcases List.mem_cons.mp hr with rfl | hr
      · exact ⟨0, e, rfl, rfl⟩
      · exact hlater hr

theorem index_of_mem_rejections (hr : r ∈ rejections n outs) : (n : ℤ) ≤ r.index := by
  obtain ⟨i, e, hindex, -⟩ := error_of_rejected hr
  omega

theorem accepted_iff (outs : List (Except HeadErr Bool)) {out : Except HeadErr Bool}
    (hi : outs[i]? = some out) :
    accepted ⟨some (outs.map storedFlag), rejections 0 outs⟩ i = true ↔ ∃ b, out = .ok b := by
  unfold accepted
  simp only [Option.isSome_some, Bool.true_and, Bool.not_eq_true', List.any_eq_false,
    decide_eq_true_eq]
  constructor
  · intro hnone
    cases out with
    | ok b => exact ⟨b, rfl⟩
    | error e =>
      obtain ⟨r, hr, hindex⟩ := rejected_of_error hi 0
      exact absurd (by rw [hindex]; simp) (hnone r hr)
  · rintro ⟨b, rfl⟩ r hr hindex
    obtain ⟨j, e, hj, he⟩ := error_of_rejected hr
    have hij : j = i := by
      omega
    rw [hij, hi] at he
    cases he

/-- The four ways through `Append`. -/
theorem append_cases {σ : Type} (h : Head o) (log : σ → List Record → σ × Bool) (w : σ)
    (refs : List SeriesRef) (samples : List Sample) :
    let p := h.prepare (refs.zip samples)
    let logged := log w (p.entries.map LogEntry.record)
    refs.length ≠ samples.length ∧ h.append log w refs samples =
        (h, w, ⟨none, [⟨-1, .mismatch refs.length samples.length⟩]⟩) ∨
      refs.length = samples.length ∧ (p.valid = [] ∧ h.append log w refs samples = (p.rollback.1, w,
            ⟨some (samples.map (fun _ => false)), rejections 0 p.resolution.targets⟩) ∨
          p.valid ≠ [] ∧ (logged.2 = false ∧
                h.append log w refs samples = (p.rollback.1, logged.1, p.rollback.2) ∨
              logged.2 = true ∧ h.append log w refs samples =
                ((p.commit h.minValid (refs.zip samples)).1, logged.1,
                  (p.commit h.minValid (refs.zip samples)).2))) := by
  intro p logged
  by_cases hlen : refs.length = samples.length
  · right
    refine ⟨hlen, ?_⟩
    by_cases hvalid : p.valid = []
    · left
      refine ⟨hvalid, ?_⟩
      have hnone : (h.prepare (refs.zip samples)).valid = [] := hvalid
      unfold Head.append
      rw [if_neg (not_not.mpr hlen)]
      rw [if_pos hnone]
      have hmarked : p.marked = p.resolution.head ∧ p.pending = [] := by
        have hempty : validSamples (refs.zip samples)
            (h.resolve h.minValid (refs.zip samples)).targets = [] := hvalid
        simp only [p, Head.prepare, hempty]
        exact ⟨rfl, rfl⟩
      change _ = (Head.countDropped (Head.forgetEmpty (p.marked.unmarkPending p.pending) _) _, w, _)
      rw [hmarked.1, hmarked.2]
      rfl
    · right
      refine ⟨hvalid, ?_⟩
      have happ : h.append log w refs samples =
          ((if logged.2 then p.commit h.minValid (refs.zip samples) else p.rollback).1, logged.1,
            (if logged.2 then p.commit h.minValid (refs.zip samples) else p.rollback).2) := by
        unfold Head.append
        rw [if_neg (not_not.mpr hlen)]
        rw [if_neg hvalid]
      rw [happ]
      cases hwritten : logged.2 with
      | false => exact Or.inl ⟨rfl, rfl⟩
      | true => exact Or.inr ⟨rfl, rfl⟩
  · left
    refine ⟨hlen, ?_⟩
    unfold Head.append
    rw [if_pos hlen]

end Ozymandias.HeadAppend
