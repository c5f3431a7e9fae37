import Ozymandias.HeadSelect
import Ozymandias.DbAppend

/-!
The append-only store that the head implements: under every key one ascending
list of samples. A sample newer than the newest is stored, one that is held
already is accepted and not stored, and any other is refused. The head spreads
a series over chunks, resolves and logs a whole batch before it applies it, and
forgets what it created for a batch that fails; none of this can be seen.
-/
namespace Ozymandias.AppendOnly

open WalFrame SeriesModel HeadSeries HeadModel HeadAppend HeadBooks BlockModel
  TimeMerge Peaks DbAppend
open Selection hiding validate

inductive Verdict where
  | stored
  | duplicate
  | refused
  deriving DecidableEq

def judge (held : List Sample) (s : Sample) : Verdict :=
  if ∀ x ∈ held, x.t < s.t then .stored
  else if ∃ x ∈ held, x.t = s.t ∧ floatEq x.v s.v = true then .duplicate
  else .refused

structure Held where
  series : SeriesRef
  samples : List Sample
  ascending : Ascending Sample.t samples
  nonempty : samples ≠ []

variable {s : Sample} {r : ℤ} {e : Held}

theorem newer_of_stored {held : List Sample} (h : judge held s = .stored) :
    ∀ x ∈ held, x.t < s.t := by
  unfold judge at h
  split at h
  · assumption
  · split at h <;> cases h

def Held.offer (e : Held) (s : Sample) : Held :=
  if h : judge e.samples s = .stored then
    ⟨e.series, e.samples ++ [s], e.ascending.append_singleton (newer_of_stored h), by simp⟩
  else e

def Held.start (ref : SeriesRef) (s : Sample) : Held :=
  ⟨ref, [s], List.pairwise_singleton _ _, by simp⟩

abbrev Reference := GoMap GoString Held

def Reference.offer (m : Reference) (ref : SeriesRef) (s : Sample) : Reference × Verdict :=
  match m.lookup ref.key with
  | none => (m.insert ref.key (.start ref s), .stored)
  | some e => (m.insert ref.key (e.offer s), judge e.samples s)

def Reference.offerAll (m : Reference) : List (SeriesRef × Sample) → Reference × List Verdict
  | [] => (m, [])
  | (ref, s) :: rest =>
    let (m, v) := m.offer ref s
    let (m, vs) := m.offerAll rest
    (m, v :: vs)

/-- One batch, with the verdicts entry by entry; an invalid entry is left out. -/
def Reference.append (m : Reference) : List SeriesSamples → Reference × List (List Verdict)
  | [] => (m, [])
  | ss :: rest =>
    if validate ss = none then
      let (m, vs) := m.offerAll (ss.samples.map (fun s => (ss.series, s)))
      let (m, more) := m.append rest
      (m, vs :: more)
    else
      let (m, more) := m.append rest
      (m, [] :: more)

/-- The wanted series with samples in the window, in the order of their keys. -/
def Reference.select (m : Reference) (wanted : SeriesRef → Bool) (start stop : ℤ) :
    List SeriesSamples :=
  sortByKey ((((m.entries.map Sigma.snd).filter (fun e => wanted e.series)).map
    (fun e => ⟨e.series, e.samples.filter (fun x => inWindow start stop x.t)⟩)).filter
      (fun ss => decide (ss.samples ≠ [])))

variable (m : Reference)

theorem offerAll_cons (p : SeriesRef × Sample) (rest : List (SeriesRef × Sample)) :
    m.offerAll (p :: rest) = (((m.offer p.1 p.2).1.offerAll rest).1,
        (m.offer p.1 p.2).2 :: ((m.offer p.1 p.2).1.offerAll rest).2) := rfl

theorem offerAll_append (xs ys : List (SeriesRef × Sample)) : m.offerAll (xs ++ ys) =
      (((m.offerAll xs).1.offerAll ys).1, (m.offerAll xs).2 ++
        ((m.offerAll xs).1.offerAll ys).2) := by
  induction xs generalizing m with
  | nil => rfl
  | cons p xs ih => rw [List.cons_append, offerAll_cons, offerAll_cons, ih, List.cons_append]

theorem length_offerAll (xs : List (SeriesRef × Sample)) :
    (m.offerAll xs).2.length = xs.length := by
  induction xs generalizing m with
  | nil => rfl
  | cons p xs ih => exact congrArg Nat.succ (ih _)

/-- Entry by entry is the same as one after the other. -/
theorem append_eq (batch : List SeriesSamples) :
    m.append batch = ((m.offerAll (pairs batch)).1, share batch (m.offerAll (pairs batch)).2) := by
  induction batch generalizing m with
  | nil => rfl
  | cons ss rest ih =>
    unfold Reference.append pairs
    rw [List.flatMap_cons, share]
    unfold size
    by_cases hv : validate ss = none
    · have hlen : (m.offerAll (ss.samples.map (fun s => (ss.series, s)))).2.length =
          ss.samples.length := by
        rw [length_offerAll, List.length_map]
      rw [if_pos hv, if_pos hv, if_pos hv, offerAll_append]
      dsimp only
      rw [ih, ← hlen, List.take_left, List.drop_left]
      rfl
    · rw [if_neg hv, if_neg hv, if_neg hv]
      rw [ih, List.drop_zero]
      rfl

def verdict : Except HeadErr Bool → Verdict
  | .ok true => .stored
  | .ok false => .duplicate
  | .error _ => .refused

variable {o : Options} {h : Head o} {id : ℕ} {key : GoString} {keys : GoString → Finset GoString}
  {ms : MemSeries o.blockRange} {ref : SeriesRef} {batch : List (SeriesRef × Sample)}
  {targets : List (Except HeadErr ℕ)} {minValid : ℤ} {m : Reference}

theorem verdict_appendTo (ms : MemSeries r) (s : Sample) (hmin : minValid ≤ s.t) :
    verdict (ms.appendTo s minValid).2 = judge ms.samples s := by
  have hstored := appendTo_stored_iff ms s minValid
  have hduplicate := appendTo_duplicate_iff ms s minValid
  rw [not_dominated] at hstored
  unfold judge
  by_cases hnew : ∀ x ∈ ms.samples, x.t < s.t
  · rw [if_pos hnew, hstored.mpr ⟨hmin, hnew⟩]
    rfl
  · rw [if_neg hnew]
    by_cases hheld : ∃ x ∈ ms.samples, x.t = s.t ∧ floatEq x.v s.v = true
    · rw [if_pos hheld, hduplicate.mpr ⟨hmin, hheld⟩]
      rfl
    · rw [if_neg hheld]
      cases hout : (ms.appendTo s minValid).2 with
      | error e => rfl
      | ok b =>
        cases b with
        | true => exact absurd (hstored.mp hout).2 hnew
        | false => exact absurd (hduplicate.mp hout).2 hheld

theorem samples_taken (ms : MemSeries r) (s : Sample) (hmin : minValid ≤ s.t) :
    (ms.appendTo s minValid).1.samples =
      if judge ms.samples s = .stored then ms.samples ++ [s] else ms.samples := by
  rw [samples_appendTo]
  unfold accept
  rw [if_neg (not_lt.mpr hmin)]
  by_cases hnew : ∀ x ∈ ms.samples, x.t < s.t
  · have hjudge : judge ms.samples s = .stored := by
      unfold judge
      rw [if_pos hnew]
    rw [if_pos hjudge, push_of_not_dominated (not_dominated.mpr hnew)]
  · rw [if_neg (fun h => hnew (newer_of_stored h)),
      push_of_dominated ms.samples_ascending (not_not.mp (fun h => hnew (not_dominated.mp h)))]

def peek (h : Head o) (key : GoString) : Option (SeriesRef × List Sample) :=
  (h.find key).map (fun ms => (ms.ref, ms.samples))

def Held.view (e : Held) : SeriesRef × List Sample := (e.series, e.samples)

theorem peek_of_lookup (hw : h.Wf) (hms : h.byID.lookup id = some ms) :
    peek h ms.ref.key = some (ms.ref, ms.samples) := by
  unfold peek Head.find
  rw [hw.shard_of hms, Option.bind_some, hms]
  rfl

theorem peek_of_shard (hw : h.Wf) (hk : h.shards.lookup key = some id) :
    ∃ ms, h.byID.lookup id = some ms ∧ ms.ref.key = key ∧
      peek h key = some (ms.ref, ms.samples) := by
  obtain ⟨ms, hms, rfl⟩ := hw.of_shard hk
  exact ⟨ms, hms, rfl, peek_of_lookup hw hms⟩

theorem peek_of_find (hms : h.find key = some ms) :
    some (ms.ref, ms.samples) = peek h key := by
  unfold peek
  rw [hms]
  rfl

theorem content_eq_peek (h : Head o) (key : GoString) :
    h.content key = ((peek h key).map Prod.snd).getD [] := by
  unfold Head.content peek
  rw [Option.map_map]
  rfl

theorem peek_marks {mark : ℕ → Bool → Bool} {h' : Head o} (hm : Marks mark h h') (key : GoString) :
    peek h' key = peek h key := by
  unfold peek Head.find
  rw [hm.shape.shards]
  cases h.shards.lookup key with
  | none => rfl
  | some id =>
    rw [Option.bind_some, hm.series id, Option.map_map]
    rfl

def firstRef (batch : List (SeriesRef × Sample)) (key : GoString) : Option SeriesRef :=
  (batch.find? (fun p => decide (p.1.key = key))).map Prod.fst

/-- Series that do not exceed the limit: `keys` has those of every metric. -/
structure Below (keys : GoString → Finset GoString) (h : Head o) : Prop where
  live : ∀ {id ms}, h.byID.lookup id = some ms → ms.ref.key ∈ keys ms.ref.metric
  limit : 0 < o.maxSeriesPerMetric → ∀ metric, ((keys metric).card : ℤ) ≤ o.maxSeriesPerMetric

/-- A key that is not in use leaves room for its series. -/
theorem Below.room (hk : Below keys h) (hb : Books h) (hkey : ref.key ∈ keys ref.metric)
    (hnone : h.shards.lookup ref.key = none) :
    ¬ (0 < o.maxSeriesPerMetric ∧
      o.maxSeriesPerMetric ≤ (h.perMetric.lookup ref.metric).getD 0) := by
  rintro ⟨hpos, hfull⟩
  let keyOf : ℕ → GoString := fun id => ((h.byID.lookup id).map (fun ms => ms.ref.key)).getD []
  have hsub : ∀ id ∈ seriesOf h ref.metric, keyOf id ∈ (keys ref.metric).erase ref.key := by
    intro id hid
    obtain ⟨ms, hms, hmetric⟩ := mem_seriesOf.mp hid
    have hkeyOf : keyOf id = ms.ref.key := by
      simp only [keyOf, hms]
      rfl
    rw [hkeyOf, Finset.mem_erase, ← hmetric]
    refine ⟨?_, hk.live hms⟩
    intro heq
    have hshard := hb.wf.shard_of hms
    rw [heq, hnone] at hshard
    cases hshard
  have hinj : Set.InjOn keyOf (seriesOf h ref.metric) := by
    intro id hid id' hid' heq
    obtain ⟨ms, hms, -⟩ := mem_seriesOf.mp hid
    obtain ⟨ms', hms', -⟩ := mem_seriesOf.mp hid'
    simp only [keyOf, hms, hms', Option.map_some, Option.getD_some] at heq
    have h1 := hb.wf.shard_of hms
    rw [heq, hb.wf.shard_of hms'] at h1
    exact (Option.some.inj h1).symm
  have hcard := Finset.card_le_card_of_injOn keyOf hsub hinj
  have herase := Finset.card_erase_add_one hkey
  have hlimit := hk.limit hpos ref.metric
  rw [hb.counted] at hfull
  omega

theorem getOrCreate_below (hk : Below keys h) (hb : Books h) (hkey : ref.key ∈ keys ref.metric) :
    ∃ id isNew, (h.getOrCreate ref).2 = .ok (id, isNew) ∧ Below keys (h.getOrCreate ref).1 ∧
      ∀ key, peek (h.getOrCreate ref).1 key =
        (peek h key).or (if ref.key = key then some (ref, []) else none) := by
  unfold Head.getOrCreate
  cases hshard : h.shards.lookup ref.key with
  | some id =>
    refine ⟨id, false, rfl, hk, fun key => ?_⟩
    by_cases heq : ref.key = key
    · obtain ⟨ms, -, -, hpeek⟩ := peek_of_shard hb.wf hshard
      rw [← heq, hpeek]
      rfl
    · rw [if_neg heq, Option.or_none]
  | none =>
    rw [if_neg (hk.room hb hkey hshard)]
    have hb' : Books { h with nextID := h.nextID + 1 } :=
      Moves.books (.single (.other rfl rfl rfl rfl (Nat.le_succ _)) :
        Moves false h { h with nextID := h.nextID + 1 }) hb
    have hfree : h.byID.lookup (h.nextID + 1) = none := free_above hb (Nat.lt_succ_self _)
    refine ⟨h.nextID + 1, true, rfl, ⟨fun {id ms} hms => ?_, hk.limit⟩, fun key => ?_⟩
    · rw [lookup_register] at hms
      split at hms
      · cases hms
        exact hkey
      · exact hk.live hms
    · unfold peek
      rw [find_register hb'.wf hfree]
      by_cases heq : ref.key = key
      · subst heq
        have hnone : h.find ref.key = none := by
          unfold Head.find
          rw [hshard]
          rfl
        rw [if_pos (by exact rfl), if_pos rfl, hnone]
        rfl
      · rw [if_neg (by exact fun h' => heq h'.symm), if_neg heq, Option.or_none]
        rfl

theorem firstRef_cons (ref : SeriesRef) (s : Sample) (rest : List (SeriesRef × Sample))
    (key : GoString) :
    firstRef ((ref, s) :: rest) key = if ref.key = key then some ref else firstRef rest key := by
  unfold firstRef
  by_cases heq : ref.key = key <;> simp [heq]

/-- Below the limit every sample gets its series, and the new ones have the refs that come first. -/
theorem resolve_below (hk : Below keys h) (hb : Books h) (hmin : ∀ p ∈ batch, minValid ≤ p.2.t)
    (hkeys : ∀ p ∈ batch, p.1.key ∈ keys p.1.metric) :
    (∀ t ∈ (h.resolve minValid batch).targets, ∃ id, t = .ok id) ∧
      ∀ key, peek (h.resolve minValid batch).head key =
        (peek h key).or ((firstRef batch key).map (fun ref => (ref, []))) := by
  induction batch generalizing h with
  | nil => exact ⟨nofun, fun key => Option.or_none.symm⟩
  | cons p rest ih =>
    obtain ⟨ref, s⟩ := p
    obtain ⟨id, isNew, hok, hk', hpeek⟩ := getOrCreate_below hk hb (hkeys (ref, s) (by simp))
    have hb' := (moves_getOrCreate hb ref).books hb
    obtain ⟨htargets, hrest⟩ := ih hk' hb' (List.forall_mem_cons.mp hmin).2
      (List.forall_mem_cons.mp hkeys).2
    have hge : ¬ s.t < minValid := not_lt.mpr (hmin (ref, s) (by simp))
    have hresolve : let r := (h.getOrCreate ref).1.resolve minValid rest
        h.resolve minValid ((ref, s) :: rest) =
          ⟨r.head, if isNew then id :: r.created else r.created, .ok id :: r.targets⟩ := by
      rw [Head.resolve, if_neg hge]
      cases hget : h.getOrCreate ref with
      | mk g out =>
        rw [hget] at hok
        subst hok
        rfl
    rw [hresolve]
    refine ⟨List.forall_mem_cons.mpr ⟨⟨id, rfl⟩, htargets⟩, fun key => ?_⟩
    rw [hrest, hpeek, firstRef_cons]
    by_cases heq : ref.key = key
    · rw [if_pos heq, if_pos heq]
      cases peek h key <;> rfl
    · rw [if_neg heq, if_neg heq, Option.or_none]

/-- Between the head and the store in the middle of a batch: what is left of it has first
samples of series that are still empty. -/
def Midway (h : Head o) (m : Reference) (rest : List (SeriesRef × Sample)) : Prop :=
  ∀ key, peek h key =
    ((m.lookup key).map Held.view).or ((firstRef rest key).map (fun ref => (ref, [])))

theorem view_offer (e : Held) (s : Sample) : (e.offer s).view =
      (e.series, if judge e.samples s = .stored then e.samples ++ [s] else e.samples) := by
  unfold Held.offer
  split <;> rfl

theorem lookup_offer (ref : SeriesRef) (s : Sample) (key : GoString) :
    (m.offer ref s).1.lookup key =
      if key = ref.key then
        some (((m.lookup ref.key).map (fun e => e.offer s)).getD (.start ref s))
      else m.lookup key := by
  unfold Reference.offer
  cases m.lookup ref.key with
  | none | some e => exact lookup_insert_eq _ _ _ _

theorem appendTo_midway (hw : h.Wf) {rest : List (SeriesRef × Sample)}
    (hmid : Midway h m ((ref, s) :: rest)) (hid : h.shards.lookup ref.key = some id)
    (hmin : minValid ≤ s.t) :
    verdict (h.appendTo id s minValid).2 = (m.offer ref s).2 ∧
      Midway (h.appendTo id s minValid).1 (m.offer ref s).1 rest := by
  obtain ⟨ms, hms, hkey, hpeek⟩ := peek_of_shard hw hid
  have hmsid : ms.id = id := hw.id_eq hms
  have hlook : h.byID.lookup (ms.appendTo s minValid).1.id = some ms := by
    rw [id_appendTo, hmsid]
    exact hms
  have hhere := hmid ref.key
  rw [hpeek, firstRef_cons, if_pos rfl] at hhere
  have hseries : (m.offer ref s).2 = judge ms.samples s ∧
      (((m.lookup ref.key).map (fun e : Held => e.offer s)).getD (Held.start ref s)).view =
        (ms.ref, if judge ms.samples s = .stored then ms.samples ++ [s] else ms.samples) := by
    unfold Reference.offer
    cases hm : m.lookup ref.key with
    | none =>
      rw [hm] at hhere
      obtain ⟨href, hnil⟩ := Prod.mk.inj (Option.some.inj hhere)
      have hjudge : judge [] s = .stored := if_pos nofun
      rw [hnil, hjudge, href]
      exact ⟨rfl, rfl⟩
    | some e =>
      rw [hm] at hhere
      obtain ⟨href, hsamples⟩ := Prod.mk.inj (Option.some.inj hhere)
      rw [href, hsamples]
      exact ⟨rfl, view_offer e s⟩
  rw [appendTo_eq hms]
  refine ⟨(verdict_appendTo ms s hmin).trans hseries.1.symm, fun key => ?_⟩
  unfold peek
  rw [find_update hw hlook (ref_appendTo ..), lookup_offer, hkey]
  by_cases heq : key = ref.key
  · rw [if_pos heq, if_pos heq, Option.map_some, Option.map_some, hseries.2, ref_appendTo,
      samples_taken ms s hmin]
    rfl
  · rw [if_neg heq, if_neg heq]
    have hother := hmid key
    rw [firstRef_cons, if_neg (fun h' => heq h'.symm)] at hother
    exact hother

theorem applyAll_midway (hw : h.Wf) {shards : GoMap GoString ℕ} (hmid : Midway h m batch)
    (hmin : ∀ p ∈ batch, minValid ≤ p.2.t) (hshards : h.shards = shards)
    (htargets : List.Forall₂ (fun p t => ∃ id, t = Except.ok id ∧
      shards.lookup p.1.key = some id) batch targets) :
    (h.applyAll minValid batch targets).2.map verdict = (m.offerAll batch).2 ∧
      Midway (h.applyAll minValid batch targets).1 (m.offerAll batch).1 [] := by
  induction htargets generalizing h m with
  | nil => exact ⟨rfl, hmid⟩
  | @cons p t batch targets hpt _ ih =>
    obtain ⟨ref, s⟩ := p
    obtain ⟨id, rfl, hid⟩ := hpt
    rw [← hshards] at hid
    obtain ⟨hverdict, hmid'⟩ := appendTo_midway hw hmid hid (hmin (ref, s) (by simp))
    have hshape := sameShape_appendTo hw id s minValid
    obtain ⟨hverdicts, hdone⟩ := ih (hshape.wf hw) hmid'
      (List.forall_mem_cons.mp hmin).2 (hshape.shards.trans hshards)
    exact ⟨List.cons_eq_cons.mpr ⟨hverdict, hverdicts⟩, hdone⟩

structure Agrees (h : Head o) (m : Reference) : Prop where
  books : Books h
  minValid : h.minValid = minInt64
  peek : ∀ key, peek h key = (m.lookup key).map Held.view

theorem Agrees.key_eq (ha : Agrees h m) (he : m.lookup key = some e) : e.series.key = key := by
  have hpeek := ha.peek key
  rw [he] at hpeek
  obtain ⟨ms, hms, hview⟩ := Option.map_eq_some_iff.mp hpeek
  have href : ms.ref = e.series := congrArg Prod.fst hview
  rw [← href]
  exact ((find_eq_some_iff ha.books.wf).mp hms).2

/-- Nothing is forgotten where every series has samples. -/
theorem forgetEmpty_of_filled (hfilled : ∀ {id ms}, h.byID.lookup id = some ms → ms.chunks ≠ [])
    (ids : List ℕ) :
    h.forgetEmpty ids = h := by
  fun_induction Head.forgetEmpty h ids with
  | case1 => rfl
  | case2 h id ids hnone ih => exact ih hfilled
  | case3 h id ids ms hms hnil ih => exact absurd hnil (hfilled hms)
  | case4 h id ids ms hms hne ih => exact ih hfilled

def Reference.keysOf (m : Reference) (metric : GoString) : Finset GoString :=
  ((m.entries.map Sigma.snd).filter (fun e => decide (e.series.metric = metric))).map
    (fun e => e.series.key) |>.toFinset

def batchKeys (batch : List (SeriesRef × Sample)) (metric : GoString) : Finset GoString :=
  (batch.filter (fun p => decide (p.1.metric = metric))).map (fun p => p.1.key) |>.toFinset

/-- The store's series and the batch's stay within the limit, if there is one. -/
def Room (o : Options) (m : Reference) (batch : List (SeriesRef × Sample)) : Prop :=
  0 < o.maxSeriesPerMetric →
    ∀ metric, ((m.keysOf metric ∪ batchKeys batch metric).card : ℤ) ≤ o.maxSeriesPerMetric

theorem mem_keysOf (he : m.lookup key = some e) : e.series.key ∈ m.keysOf e.series.metric := by
  unfold Reference.keysOf
  rw [List.mem_toFinset, List.mem_map]
  refine ⟨e, List.mem_filter.mpr ⟨?_, decide_eq_true rfl⟩, rfl⟩
  exact List.mem_map.mpr ⟨⟨key, e⟩, AList.mem_lookup_iff.mp he, rfl⟩

theorem mem_batchKeys {p : SeriesRef × Sample} (hp : p ∈ batch) :
    p.1.key ∈ batchKeys batch p.1.metric := by
  unfold batchKeys
  rw [List.mem_toFinset, List.mem_map]
  exact ⟨p, List.mem_filter.mpr ⟨hp, decide_eq_true rfl⟩, rfl⟩

theorem rejections_of_ok {α : Type} {n : ℕ} {outs : List (Except HeadErr α)}
    (hok : ∀ out ∈ outs, ∃ a, out = .ok a) : rejections n outs = [] := by
  induction outs generalizing n with
  | nil => rfl
  | cons out outs ih =>
    obtain ⟨a, rfl⟩ := hok out List.mem_cons_self
    exact ih (List.forall_mem_cons.mp hok).2

theorem validSamples_ne_nil (hlen : batch.length = targets.length)
    (hok : ∀ t ∈ targets, ∃ id, t = .ok id) (hne : batch ≠ []) :
    validSamples batch targets ≠ [] := by
  cases targets with
  | nil => exact absurd (List.eq_nil_of_length_eq_zero hlen) hne
  | cons t targets =>
    obtain ⟨id, rfl⟩ := hok t List.mem_cons_self
    intro hnil
    have hmem := ok_mem_targets hlen List.mem_cons_self
    rw [hnil] at hmem
    cases hmem

theorem targets_ok {R : SeriesRef × Sample → ℕ → Prop}
    (h : List.Forall₂ (fun p t => ∀ id, t = Except.ok id → R p id) batch targets)
    (hok : ∀ t ∈ targets, ∃ id, t = .ok id) :
    List.Forall₂ (fun p t => ∃ id, t = Except.ok id ∧ R p id) batch targets := by
  induction h with
  | nil => exact .nil
  | cons hpt _ ih =>
    obtain ⟨id, hid⟩ := hok _ List.mem_cons_self
    exact .cons ⟨id, hid, hpt id hid⟩ (ih (List.forall_mem_cons.mp hok).2)

/-- A head without empty series that shows what the store has. -/
theorem filled_of_midway (hw : h.Wf) (hmid : Midway h m []) (hms : h.byID.lookup id = some ms) :
    ms.chunks ≠ [] := by
  have hview := hmid ms.ref.key
  rw [peek_of_lookup hw hms] at hview
  cases hm : m.lookup ms.ref.key with
  | none =>
    rw [hm] at hview
    cases hview
  | some e =>
    rw [hm] at hview
    have hsamples : ms.samples = e.samples := congrArg Prod.snd (Option.some.inj hview)
    rw [ne_eq, ms.chunks_eq_nil_iff, hsamples]
    exact e.nonempty

section

variable (ha : Agrees h m) (hmin : ∀ p ∈ batch, minInt64 ≤ p.2.t) (hroom : Room o m batch)
include ha hmin hroom

theorem resolved : (∀ t ∈ (h.prepare batch).resolution.targets, ∃ id, t = .ok id) ∧
    Midway (h.prepare batch).resolution.head m batch := by
  have hbelow : Below (fun metric => m.keysOf metric ∪ batchKeys batch metric) h := by
    refine ⟨fun {id ms} hms => ?_, hroom⟩
    have hpeek := ha.peek ms.ref.key
    rw [peek_of_lookup ha.books.wf hms] at hpeek
    obtain ⟨e, he, hview⟩ := Option.map_eq_some_iff.mp hpeek.symm
    have href : e.series = ms.ref := congrArg Prod.fst hview
    rw [← href]
    exact Finset.mem_union_left _ (mem_keysOf he)
  have hmin' : ∀ p ∈ batch, h.minValid ≤ p.2.t := by
    rw [ha.minValid]
    exact hmin
  have hres := resolve_below hbelow ha.books hmin'
    (fun p hp => Finset.mem_union_right _ (mem_batchKeys hp))
  refine ⟨hres.1, fun key => ?_⟩
  rw [← ha.peek key]
  exact hres.2 key

/-- A batch that the log has taken. -/
theorem commit_agrees : ∃ outs, ((h.prepare batch).commit h.minValid batch).2 =
        ⟨some (outs.map storedFlag), rejections 0 outs⟩ ∧
      outs.map verdict = (m.offerAll batch).2 ∧
      Agrees ((h.prepare batch).commit h.minValid batch).1 (m.offerAll batch).1 := by
  obtain ⟨hok, hmid⟩ := resolved ha hmin hroom
  set p := h.prepare batch
  have hp : Ready h batch p := ready_prepare _ ha.books.wf
  have hmarks := hp.marks
  have hwm := hmarks.shape.wf hp.resolves.extends_head.wf
  have hmid' : Midway p.marked m batch := fun key => by
    rw [peek_marks hmarks]
    exact hmid key
  have htargets : List.Forall₂ (fun q t => ∃ id, t = Except.ok id ∧
      p.marked.shards.lookup q.1.key = some id) batch p.resolution.targets := by
    rw [hmarks.shape.shards]
    refine targets_ok (hp.resolves.targets.imp ?_) hok
    exact fun q t hqt id hid => (hqt id hid).1
  have hmin' : ∀ p ∈ batch, h.minValid ≤ p.2.t := by
    rw [ha.minValid]
    exact hmin
  obtain ⟨hverdicts, hdone⟩ := applyAll_midway hwm hmid' hmin' rfl htargets
  have hshape := sameShape_applyAll hwm h.minValid batch p.resolution.targets
  have hbm := (moves_prepare ha.books batch).books
    ((moves_resolve ha.books h.minValid batch).books ha.books)
  have hba := (moves_applyAll hbm h.minValid batch p.resolution.targets).books hbm
  refine ⟨_, rfl, hverdicts, ?_⟩
  have hforget := forgetEmpty_of_filled (filled_of_midway (hshape.wf hwm) hdone)
    p.resolution.created
  unfold Prepared.commit
  dsimp only
  rw [hforget]
  refine ⟨(moves_countDropped _ _).books hba, ?_, fun key => ?_⟩
  · exact (hshape.minValid.trans hmarks.shape.minValid).trans
      (hp.resolves.extends_head.minValid.trans ha.minValid)
  · exact (hdone key).trans Option.or_none

/-- A batch that the log has refused. -/
theorem rollback_agrees : Agrees (h.prepare batch).rollback.1 m := by
  obtain ⟨-, hmid⟩ := resolved ha hmin hroom
  set p := h.prepare batch
  have hp : Ready h batch p := ready_prepare _ ha.books.wf
  have hext := hp.resolves.extends_head
  have hwm := hp.marks.shape.wf hext.wf
  have hunmark := unmarkPending_spec hwm p.pending
  have hwu := hunmark.shape.wf hwm
  have hforgets := forgets_empty hwu p.resolution.created
  have hpeek : ∀ key, peek (p.marked.unmarkPending p.pending) key =
      peek p.resolution.head key := by
    intro key
    rw [peek_marks hunmark, peek_marks hp.marks]
  have hbm := (moves_prepare ha.books batch).books
    ((moves_resolve ha.books h.minValid batch).books ha.books)
  have hbu := (moves_unmarkPending hbm p.pending).books hbm
  have hbf := (moves_forgetEmpty hbu p.resolution.created).books hbu
  refine ⟨(moves_countDropped _ _).books hbf, ?_, fun key => ?_⟩
  · exact hforgets.minValid.trans ((hunmark.shape.minValid.trans hp.marks.shape.minValid).trans
      (hext.minValid.trans ha.minValid))
  · change peek ((p.marked.unmarkPending p.pending).forgetEmpty
      p.resolution.created) key = _
    generalize hU : p.marked.unmarkPending p.pending = U at *
    generalize hF : U.forgetEmpty p.resolution.created = F at *
    have hkept : ∀ {ms}, F.find key = some ms → U.find key = some ms ∧
        (ms.id ∈ p.resolution.created → ms.chunks ≠ []) := by
      intro ms hms
      obtain ⟨hlook, hkey⟩ := (find_eq_some_iff hforgets.wf).mp hms
      obtain ⟨hlook', hne⟩ := hforgets.kept hlook
      exact ⟨(find_eq_some_iff hwu).mpr ⟨hlook', hkey⟩, hne⟩
    have hview := (hpeek key).trans (hmid key)
    cases hm : m.lookup key with
    | some e =>
      rw [hm] at hview
      have hcontent : F.content key = e.samples := by
        rw [hforgets.content key, content_eq_peek, hview]
        rfl
      cases hfind : F.find key with
      | none =>
        unfold Head.content at hcontent
        rw [hfind] at hcontent
        exact absurd hcontent.symm e.nonempty
      | some ms =>
        rw [← peek_of_find (hkept hfind).1] at hview
        exact (peek_of_find hfind).symm.trans hview
    | none =>
      rw [hm, Option.map_none] at hview
      cases hfind : F.find key with
      | none =>
        unfold peek
        rw [hfind]
        rfl
      | some ms =>
        obtain ⟨hU', hne⟩ := hkept hfind
        rw [← peek_of_find hU'] at hview
        obtain ⟨ref, -, hpair⟩ := Option.map_eq_some_iff.mp hview.symm
        have hnil : ms.samples = [] := (congrArg Prod.snd hpair).symm
        refine absurd (ms.chunks_eq_nil_iff.mpr hnil) (hne ?_)
        obtain ⟨hlook, hkey⟩ := (find_eq_some_iff hwu).mp hU'
        obtain ⟨ms₁, hms₁, -, href₁⟩ := hunmark.shape.lookup hlook
        obtain ⟨ms₂, hms₂, -, href₂⟩ := hp.marks.shape.lookup hms₁
        rcases hext.new hms₂ with hold | ⟨hmem, -⟩
        · have hold' := peek_of_lookup ha.books.wf hold
          have hpeekOld := ha.peek key
          rw [href₂, href₁, hkey] at hold'
          rw [hold', hm] at hpeekOld
          cases hpeekOld
        · exact hmem

/-- A batch that is not empty is stored or refused as a whole. -/
theorem append_agrees {σ : Type} (log : σ → List Record → σ × Bool) (w : σ) (hne : batch ≠ []) :
    let res := h.append log w (batch.map Prod.fst) (batch.map Prod.snd)
    ((∃ recs, (log w recs).2 = false) ∧ res.2.2 = ⟨none, [⟨-1, .log⟩]⟩ ∧ Agrees res.1 m) ∨
      ∃ outs, res.2.2 = ⟨some (outs.map storedFlag), rejections 0 outs⟩ ∧
        outs.map verdict = (m.offerAll batch).2 ∧ Agrees res.1 (m.offerAll batch).1 := by
  intro res
  have hzip : (batch.map Prod.fst).zip (batch.map Prod.snd) = batch :=
    (List.zip_of_prod rfl rfl).symm
  obtain ⟨hok, -⟩ := resolved ha hmin hroom
  have hp : Ready h batch (h.prepare batch) := ready_prepare _ ha.books.wf
  have hvalid : (h.prepare batch).valid ≠ [] := by
    exact validSamples_ne_nil hp.resolves.targets.length_eq hok hne
  have hcases := append_cases h log w (batch.map Prod.fst) (batch.map Prod.snd)
  rw [hzip] at hcases
  rcases hcases with ⟨hlen, -⟩ | ⟨-, ⟨hnil, -⟩ | ⟨-, ⟨hlog, happ⟩ | ⟨-, happ⟩⟩⟩
  · exact absurd (by rw [List.length_map, List.length_map]) hlen
  · exact absurd hnil hvalid
  · left
    refine ⟨⟨_, hlog⟩, ?_, ?_⟩
    · simp only [res, happ]
      unfold Prepared.rollback
      rw [rejections_of_ok hok]
      rfl
    · simp only [res, happ]
      exact rollback_agrees ha hmin hroom
  · right
    obtain ⟨outs, hres, hverdicts, hagrees⟩ := commit_agrees ha hmin hroom
    refine ⟨outs, ?_, hverdicts, ?_⟩
    · simp only [res, happ]
      exact hres
    · simp only [res, happ]
      exact hagrees

end

end Ozymandias.AppendOnly
