import Ozymandias.MetricEval
import Ozymandias.MetricLex

/-!
Batches are transparent. A cache key spells out everything a selection depends
on, so whatever stands in the cache is what the store would give. Totals and
modifiers write only to arrays that were made after the ones in the cache, so
these never change. Hence every step has one meaning, whatever the cache has and
the memory holds, and every request of a batch has the outcome it has alone.
-/
namespace Ozymandias.MetricBatch

open BitLists SeriesModel Selection MetricQuery MetricSelect MetricFrames MetricEval Delimited
open Ascii (isDigit minus)

def NonDigit (x : GoString) : Prop := ∀ c, x.head? = some c → isDigit c = false

theorem decimal_splits : Splits NonDigit decimal := by
  refine splits_of_class ?_ (fun n => (MetricLex.digits_decimal n).2)
  intro m n hmn
  rw [← MetricLex.digitsValue_decimal m, hmn, MetricLex.digitsValue_decimal]

theorem decimal_ne_minus (n : ℕ) (x y : GoString) : decimal n ++ x ≠ minus :: y := by
  obtain ⟨hne, hdigits⟩ := MetricLex.digits_decimal n
  obtain ⟨c, cs, hcs⟩ := List.exists_cons_of_ne_nil hne
  intro heq
  rw [hcs] at heq
  have hc : c = minus := (List.cons.inj heq).1
  have hdigit := hdigits c (hcs ▸ List.mem_cons_self)
  rw [hc] at hdigit
  exact absurd hdigit (by decide)

theorem decimalInt_splits : Splits NonDigit decimalInt := by
  intro a b x y hx hy heq
  unfold decimalInt at heq
  split_ifs at heq with ha hb hb
  · obtain ⟨habs, hrest⟩ := decimal_splits _ _ x y hx hy (List.cons.inj heq).2
    exact ⟨by omega, hrest⟩
  · exact absurd heq.symm (decimal_ne_minus _ _ _)
  · exact absurd heq (decimal_ne_minus _ _ _)
  · obtain ⟨habs, hrest⟩ := decimal_splits _ _ x y hx hy heq
    exact ⟨by omega, hrest⟩

theorem nonDigit_cons {c : Byte} (h : isDigit c = false) (x : GoString) : NonDigit (c :: x) :=
  Substrings.stop_cons h x

theorem nonDigit_slash (t x : GoString) :
    NonDigit ([slash] ++ t ++ x) := nonDigit_cons (by decide) _

theorem boolText_splits : Splits (fun _ => True) boolText := by
  intro a b x y _ _ heq
  cases a <;> cases b
  · exact ⟨rfl, List.append_cancel_left heq⟩
  · exact absurd (List.cons.inj heq).1 (by decide)
  · exact absurd (List.cons.inj heq).1 (by decide)
  · exact ⟨rfl, List.append_cancel_left heq⟩

theorem rollupText_injective : Function.Injective Rollup.text := by
  intro a b h
  cases a <;> cases b <;> first | rfl | exact absurd h (by decide)

/-- Two marks of one length do not start the same text. -/
theorem not_starts {s t x : GoString} (ht : t <+: x) (hlen : s.length = t.length) (hne : s ≠ t) :
    ¬ s <+: x :=
  fun hs => hne ((List.prefix_of_prefix_length_le hs ht hlen.le).eq_of_length hlen)

section Quote

variable {quote : GoString → GoString} (hquote : Splits (fun _ => True) quote)

include hquote

theorem matcherKey_splits : Splits (fun _ => True) (matcherKey quote) := by
  have hvalue := hquote.after [slash]
  have htype := (decimalInt_splits.pair hvalue (fun _ _ _ => nonDigit_slash _ _)).after [slash]
  have hall := hquote.pair htype (fun _ _ _ => trivial)
  refine hall.comap (f := fun m : Selection.Matcher => (m.key, ((matchCode m.type : ℤ), m.value)))
    ?_
  rintro ⟨k, v, t⟩ ⟨k', v', t'⟩ heq
  simp only [Prod.mk.injEq] at heq
  obtain ⟨rfl, htype, rfl⟩ := heq
  cases t <;> cases t' <;> first | rfl | exact absurd htype (by decide)

def NoComma (x : GoString) : Prop := ¬ [comma] <+: x

theorem checkKey_splits : Splits NoComma (checkKey quote) := by
  have hvalues : Splits NoComma
    (fun vs : List GoString => vs.flatMap (fun v => [comma] ++ quote v)) :=
    hquote.flatMap (fun _ => trivial) (fun x hx => ⟨trivial, hx⟩)
  have hin := (hvalues.after (boolText true)).after [slash]
  have hneg := (boolText_splits.pair hin (fun _ _ _ => trivial)).after [slash]
  have hall := hquote.pair hneg (fun _ _ _ => trivial)
  refine (hall.comap (f := fun m : Membership => (m.key, (m.neg, m.values))) ?_)
  rintro ⟨n, k, vs⟩ ⟨n', k', vs'⟩ heq
  obtain ⟨rfl, rfl, rfl⟩ := heq
  rfl

omit hquote in
theorem gridKey_splits : Splits NonDigit gridKey := by
  have hn := decimalInt_splits.after [slash]
  have hinterval := (decimalInt_splits.pair hn (fun _ _ _ => nonDigit_slash _ _)).after [slash]
  have hall := decimalInt_splits.pair hinterval (fun _ _ _ => nonDigit_slash _ _)
  refine hall.comap (f := fun g : Grid => (g.first, (g.interval, (g.n : ℤ)))) ?_
  rintro ⟨a, b, n⟩ ⟨a', b', n'⟩ heq
  obtain ⟨rfl, rfl, rfl⟩ := heq
  rfl

omit hquote in
/-- The window stands at the end of a key. -/
theorem windowKey_splits : Splits (· = []) windowKey := by
  have hstop := decimalInt_splits.after [slash]
  have hboth := (decimalInt_splits.pair hstop (fun _ _ _ => nonDigit_slash _ _)).after (text " w=")
  rintro (_ | w) (_ | w') x y rfl rfl heq
  · exact ⟨rfl, rfl⟩
  · cases heq
  · cases heq
  · have hend : NonDigit [] := nofun
    exact ⟨congrArg some (hboth w w' [] [] hend hend heq).1, rfl⟩

/-- The key of a selection tells everything the selection depends on. -/
theorem selectionKey_injective {sel sel' : Selector} {post post' : PostFilter} {g g' : Grid}
    {method method' : Rollup} {window window' : Option (ℤ × ℤ)}
    (heq : selectionKey quote sel post g method window =
      selectionKey quote sel' post' g' method' window') :
    sel = sel' ∧ post = post' ∧ g = g' ∧ method = method' ∧ window = window' := by
  have hmethod : Splits (fun _ => True) (fun r : Rollup => quote r.text) :=
    hquote.comap rollupText_injective
  have htail := (hmethod.pair windowKey_splits (fun _ _ _ => trivial)).after (text " r=")
  have hgrid := (gridKey_splits.pair htail
    (fun _ _ _ => nonDigit_cons (c := 0x20) (by decide) _)).after (text " g=")
  have hspaced : ∀ {t x : GoString}, t <+: x → [0x20] <+: t → [0x20] <+: x :=
    fun hx ht => ht.trans hx
  have hchecks : Splits (fun x => text " g=" <+: x)
      (fun post : PostFilter => post.flatMap (fun m => text " p=" ++ checkKey quote m)) := by
    refine (checkKey_splits hquote).flatMap (fun x => ?_) (fun x hx => ⟨?_, ?_⟩)
    · exact not_starts (hspaced (List.prefix_append (text " p=") x) (by decide)) rfl (by decide)
    · exact not_starts (hspaced hx (by decide)) rfl (by decide)
    · exact not_starts hx rfl (by decide)
  have hmatchers : Splits (fun x => text " p=" <+: x ∨ text " g=" <+: x)
      (fun ms : List Selection.Matcher => ms.flatMap
        (fun m => text " s=" ++ matcherKey quote m)) := by
    refine (matcherKey_splits hquote).flatMap (fun _ => trivial) (fun x hx => ⟨trivial, ?_⟩)
    rcases hx with hx | hx
    · exact not_starts hx rfl (by decide)
    · exact not_starts hx rfl (by decide)
  have hchecked := hchecks.pair hgrid (fun b x _ => by
    rw [List.append_assoc]; exact List.prefix_append _ _)
  have hmatched := hmatchers.pair hchecked (fun b x _ => by
    obtain ⟨checks, rest⟩ := b
    cases checks with
    | nil => exact Or.inr ⟨_, (List.append_assoc _ _ _).symm⟩
    | cons m checks => exact Or.inl ⟨_, by simp only [List.append_assoc]; rfl⟩)
  have hall := (hquote.pair hmatched (fun _ _ _ => trivial)).after (text "m=")
  have hkey := hall (sel.metric, sel.matchers, post, g, method, window)
    (sel'.metric, sel'.matchers, post', g', method', window') [] [] rfl rfl (by
      rw [List.append_nil, List.append_nil]
      exact heq)
  simp only [Prod.mk.injEq] at hkey
  obtain ⟨⟨hmetric, hms, hpost, hg, hm, hw⟩, -⟩ := hkey
  exact ⟨by cases sel; cases sel'; simp_all, hpost, hg, hm, hw⟩

end Quote

section Arrays

variable {F K : Type} {h₀ h h' : Heap F} {rows : List (Row K ℕ)} {contents : List (Row K (List F))}

theorem arrayAt_grown (hle : h <+: h') {a : ℕ} (ha : a < h.length) :
    arrayAt h' a = arrayAt h a := by
  obtain ⟨t, rfl⟩ := hle
  simp [arrayAt, List.getD_eq_getElem?_getD, List.getElem?_append_left ha]

theorem map_arrayAt_grown (hle : h <+: h') (hrows : ∀ r ∈ rows, r.values < h.length) :
    rows.map (Row.map (arrayAt h')) = rows.map (Row.map (arrayAt h)) :=
  List.map_congr_left (fun r hr => congrArg (Row.mk r.owner) (arrayAt_grown hle (hrows r hr)))

structure Shows (h : Heap F) (rows : List (Row K ℕ)) (contents : List (Row K (List F))) : Prop where
  shown : rows.map (Row.map (arrayAt h)) = contents
  inside : ∀ r ∈ rows, r.values < h.length

theorem Shows.mono (hs : Shows h rows contents) (hle : h <+: h') : Shows h' rows contents :=
  ⟨(map_arrayAt_grown hle hs.inside).trans hs.shown,
    fun r hr => (hs.inside r hr).trans_le hle.length_le⟩

/-- Rows with arrays of their own, which were made after those of `h₀`. -/
structure Made (h₀ h : Heap F) (rows : List (Row K ℕ))
    (contents : List (Row K (List F))) : Prop where
  base : h₀ <+: h
  shown : rows.map (Row.map (arrayAt h)) = contents
  own : ∀ r ∈ rows, h₀.length ≤ r.values ∧ r.values < h.length
  apart : (rows.map Row.values).Nodup

theorem made_nil (h : Heap F) : Made h h ([] : List (Row K ℕ)) [] :=
  ⟨List.prefix_refl h, rfl, nofun, List.nodup_nil⟩

theorem Made.shows (hm : Made h₀ h rows contents) : Shows h rows contents :=
  ⟨hm.shown, fun r hr => (hm.own r hr).2⟩

theorem Made.rebase (hm : Made h h' rows contents) (hle : h₀ <+: h) : Made h₀ h' rows contents :=
  ⟨hle.trans hm.base, hm.shown, fun r hr => ⟨hle.length_le.trans (hm.own r hr).1, (hm.own r hr).2⟩,
    hm.apart⟩

theorem Made.alloc (hm : Made h₀ h rows contents) (k : K) (v : List F) :
    Made h₀ (h ++ [v]) (rows ++ [⟨k, h.length⟩]) (contents ++ [⟨k, v⟩]) := by
  have hle : h <+: h ++ [v] := List.prefix_append h [v]
  refine ⟨hm.base.trans hle, ?_, ?_, ?_⟩
  · rw [List.map_append, map_arrayAt_grown hle hm.shows.inside, hm.shown]
    simp [Row.map, arrayAt]
  · refine List.forall_mem_append.mpr ⟨fun r hr => ?_, List.forall_mem_singleton.mpr ?_⟩
    · exact ⟨(hm.own r hr).1, (hm.own r hr).2.trans_le hle.length_le⟩
    · exact ⟨hm.base.length_le, by simp⟩
  · rw [List.map_append, List.nodup_append]
    refine ⟨hm.apart, List.nodup_singleton _, fun a ha b hb => ?_⟩
    obtain ⟨r, hr, rfl⟩ := List.mem_map.mp ha
    rw [List.mem_singleton.mp hb]
    exact (hm.own r hr).2.ne

/-- Writing to the array of one row leaves the others, and the arrays of the base, as they are. -/
theorem Made.set (hm : Made h₀ h rows contents) {i : ℕ} {r : Row K ℕ}
    (hr : rows[i]? = some r) (k : K) (v : List F) :
    Made h₀ (h.set r.values v) (rows.set i ⟨k, r.values⟩) (contents.set i ⟨k, v⟩) := by
  obtain ⟨hi, hget⟩ := List.getElem?_eq_some_iff.mp hr
  obtain ⟨hlow, hhigh⟩ := hm.own r (List.mem_of_getElem? hr)
  have haddresses : (rows.set i ⟨k, r.values⟩).map Row.values = rows.map Row.values := by
    refine List.ext_getElem? (fun j => ?_)
    rw [List.map_set, List.getElem?_set, List.getElem?_map]
    split_ifs with hij hlt
    · rw [← hij, hr]
      rfl
    · rw [← hij, hr]
      exact absurd (by simpa using hi) hlt
    · rfl
  refine ⟨?_, List.ext_getElem? (fun j => ?_), fun r' hr' => ?_, haddresses ▸ hm.apart⟩
  · obtain ⟨t, ht⟩ := hm.base
    rw [← ht, List.set_append_right _ _ hlow]
    exact List.prefix_append _ _
  · rw [List.getElem?_map, List.getElem?_set, ← hm.shown, List.getElem?_set, List.getElem?_map,
      List.length_map]
    by_cases hij : i = j
    · simp [hij ▸ hi, hij, Row.map, arrayAt, hhigh]
    · rw [if_neg hij, if_neg hij]
      refine Option.map_congr (fun r' hr' => congrArg (Row.mk r'.owner) ?_)
      have hne : r.values ≠ r'.values := by
        intro heq
        refine hij ((List.getElem?_inj (by simpa using hi) hm.apart).mp ?_)
        rw [List.getElem?_map, List.getElem?_map, hr, hr', Option.map_some, Option.map_some, heq]
      simp [arrayAt, List.getElem?_set_ne hne]
  · rw [List.length_set]
    rcases List.mem_or_eq_of_mem_set hr' with hmem | rfl
    · exact hm.own r' hmem
    · exact ⟨hlow, hhigh⟩

theorem made_allocRows (hm : Made h₀ h rows contents) (made : List (Row K (List F))) :
    Made h₀ (allocRows made h).2 (rows ++ (allocRows made h).1) (contents ++ made) := by
  induction made generalizing h rows contents with
  | nil =>
    rw [List.append_nil]
    exact (List.append_nil rows).symm ▸ hm
  | cons r made ih =>
    have hrest := ih (hm.alloc r.owner r.values)
    rwa [List.append_assoc, List.append_assoc] at hrest

theorem made_rewrite (f : List F → List F) {before lines : List (GroupLine ℕ)}
    {done todo : List (GroupLine (List F))} (hlen : before.length = done.length)
    (hm : Made h₀ h (before ++ lines) (done ++ todo)) :
    Made h₀ (rewrite f lines h).2 (before ++ lines) (done ++ todo.map (Row.map f)) := by
  induction lines generalizing h before done todo with
  | nil =>
    have hshown := hm.shown
    rw [List.map_append] at hshown
    obtain ⟨-, rfl⟩ := List.append_inj hshown (by simpa using hlen)
    exact hm
  | cons l lines ih =>
    have hshown := hm.shown
    rw [List.map_append, List.map_cons] at hshown
    obtain ⟨-, rfl⟩ := List.append_inj hshown (by simpa using hlen)
    have hset := hm.set (i := before.length) (r := l) (by simp) l.owner (f (arrayAt h l.values))
    rw [List.set_append_right _ _ le_rfl, hlen, List.set_append_right _ _ le_rfl, Nat.sub_self,
      List.set_cons_zero, List.set_cons_zero, List.append_cons before,
        List.append_cons done] at hset
    have hrest := ih (by simp [hlen]) hset
    rwa [List.append_assoc, List.append_assoc] at hrest

end Arrays

section Totals

variable {F S E : Type} (e : Evaluator F S E)

def ensured (n : ℕ) (kt : GoString × Tags) (groups : List (Accumulator (List F))) :
    List (Accumulator (List F)) :=
  if groups.any (hasKey kt.1) then groups
  else groups ++ [⟨⟨kt.1, kt.2, List.replicate n 0⟩, List.replicate n e.floats.zero⟩]

def addedTo (agg : Agg) (key : GoString) (v : List F) (groups : List (Accumulator (List F))) :
    List (Accumulator (List F)) :=
  match groups[groups.findIdx (hasKey key)]? with
  | none => groups
  | some acc => groups.set (groups.findIdx (hasKey key)) (Accumulator.plus e agg acc v)

def totals (q : Query) (n : ℕ) (groups : List (Accumulator (List F)))
    (series : List (Bucketed (List F))) : List (Accumulator (List F)) :=
  series.foldl (fun groups b => addedTo e q.agg (groupOf b.owner q.groupBy).1 b.values
    (ensured e n (groupOf b.owner q.groupBy) groups)) groups

variable {e} {h₀ h : Heap F} {accs : List (Accumulator ℕ)} {groups : List (Accumulator (List F))}

theorem any_hasKey (f : ℕ → List F) (key : GoString) :
    (accs.map (Row.map f)).any (hasKey key) = accs.any (hasKey key) := by
  rw [List.any_map]
  rfl

theorem findIdx_hasKey (f : ℕ → List F) (key : GoString) :
    (accs.map (Row.map f)).findIdx (hasKey key) = accs.findIdx (hasKey key) := by
  rw [List.findIdx_map]
  rfl

theorem made_ensureGroup (hm : Made h₀ h accs groups) (n : ℕ) (kt : GoString × Tags) :
    Made h₀ (ensureGroup e n kt accs h).2 (ensureGroup e n kt accs h).1
      (ensured e n kt groups) := by
  unfold ensureGroup ensured
  rw [← hm.shown, any_hasKey]
  split
  · exact ⟨hm.base, rfl, hm.own, hm.apart⟩
  · exact hm.shown ▸ hm.alloc _ _

/-- The series is read where it stands, below the arrays that are written. -/
theorem made_addTo (hm : Made h₀ h accs groups) (agg : Agg) (key : GoString) {series : ℕ}
    (hseries : series < h₀.length) :
    Made h₀ (addTo e agg key series accs h).2 (addTo e agg key series accs h).1
      (addedTo e agg key (arrayAt h₀ series) groups) := by
  unfold addTo addedTo
  rw [← hm.shown, findIdx_hasKey, List.getElem?_map]
  cases hacc : accs[accs.findIdx (hasKey key)]? with
  | none => exact ⟨hm.base, rfl, hm.own, hm.apart⟩
  | some acc =>
    rw [← arrayAt_grown hm.base hseries, hm.shown]
    exact hm.set hacc _ _

theorem made_addSeries (hm : Made h₀ h accs groups) (q : Query) (n : ℕ) {series : List (Bucketed ℕ)}
    (hseries : ∀ b ∈ series, b.values < h₀.length) :
    Made h₀ (series.foldlM (addSeries e q n) accs h).2 (series.foldlM (addSeries e q n) accs h).1
      (totals e q n groups (series.map (Row.map (arrayAt h₀)))) := by
  induction series generalizing h accs groups with
  | nil => exact hm
  | cons b series ih =>
    obtain ⟨hb, hrest⟩ := List.forall_mem_cons.mp hseries
    exact ih (made_addTo (made_ensureGroup hm n _) q.agg _ hb) hrest

/-- The lines of a query are new arrays, and the series they sum up stay as they are. -/
theorem made_aggregate (q : Query) (n : ℕ) {series : List (Bucketed ℕ)}
    {contents : List (Bucketed (List F))} (hs : Shows h series contents) :
    Made h (aggregate e q n series h).2 (aggregate e q n series h).1
      ((totals e q n [] contents).map (Accumulator.group e q.agg)) := by
  have hsum := made_addSeries (e := e) (made_nil h) q n hs.inside
  rw [hs.shown] at hsum
  have hlines := made_allocRows (made_nil (series.foldlM (addSeries e q n) [] h).2)
    ((totals e q n [] contents).map (Accumulator.group e q.agg))
  have heq : (series.foldlM (addSeries e q n) [] h).1.map
      (fun acc => Accumulator.group e q.agg
        (acc.map (arrayAt (series.foldlM (addSeries e q n) [] h).2))) =
      (totals e q n [] contents).map (Accumulator.group e q.agg) := by
    rw [← hsum.shown, List.map_map]
    rfl
  rw [← heq] at hlines ⊢
  exact hlines.rebase hsum.base

end Totals

section Steps

variable {F S E : Type} (e : Evaluator F S E) {c : Cache} {h h' h₀ : Heap F} {g : Grid}
  {method : Rollup} {post : PostFilter} {q : Query} {series : List (Bucketed (List F))}
  {rows : List (Bucketed ℕ)} {α β γ : Type} {q' : Query} {sel : Selector} {clamp : Option (ℤ × ℤ)}

/-- A selection that is not refused is the same for every query. -/
theorem reduceSeries_query {n : ℕ} {set : List (SeriesRef × List (ℤ × F))}
    (h : reduceSeries e q post g method n set = .ok series) :
    reduceSeries e q' post g method n set = .ok series := by
  induction set generalizing n series with
  | nil => exact h
  | cons rs rest ih =>
    unfold reduceSeries at h ⊢
    split at h
    next hpost =>
      rw [if_pos hpost]
      split at h
      · cases h
      next hfew =>
        rw [if_neg hfew]
        cases hrest : reduceSeries e q post g method (n + 1) rest with
        | error err => rw [hrest] at h; cases h
        | ok tail =>
          rw [hrest] at h
          rw [ih hrest]
          exact h
    next hpost =>
      rw [if_neg hpost]
      exact ih h

theorem fetch_query {range : ℤ × ℤ} (h : fetch e q sel post g method range = .ok series) :
    fetch e q' sel post g method range = .ok series := by
  unfold fetch at h ⊢
  split at h
  · cases h
  next set hset =>
    cases hred : reduceSeries e q post g method 0 set.series with
    | error err => rw [hred] at h; cases h
    | ok tail =>
      rw [hred] at h
      rw [reduceSeries_query e hred]
      exact h

/-- Whatever the cache has under a key, the store would give for it. -/
def Sound (h : Heap F) (c : Cache) : Prop :=
  ∀ (q : Query) (sel : Selector) (post : PostFilter) (g : Grid) (method : Rollup)
    (clamp : Option (ℤ × ℤ)) (rows : List (Bucketed ℕ)),
    c.entries.lookup (selectionKey e.floats.quote sel post g method
      (clamp.map (fun _ => readRange clamp g))) = some rows →
    ∃ series, fetch e q sel post g method (readRange clamp g) = .ok series ∧ Shows h rows series

theorem sound_empty (h : Heap F) (budget : ℕ) : Sound e h ⟨∅, budget⟩ :=
  fun _ _ _ _ _ _ _ hlook => nomatch hlook

variable {e} in
theorem Sound.mono (hc : Sound e h c) (hle : h <+: h') : Sound e h' c := by
  intro q sel post g method clamp rows hlook
  obtain ⟨series, hfetch, hshows⟩ := hc q sel post g method clamp rows hlook
  exact ⟨series, hfetch, hshows.mono hle⟩

theorem readRange_of_window {clamp' : Option (ℤ × ℤ)}
    (h : clamp.map (fun _ => readRange clamp g) = clamp'.map (fun _ => readRange clamp' g)) :
    readRange clamp g = readRange clamp' g := by
  cases clamp with
  | none =>
    cases clamp' with
    | none => rfl
    | some w => cases h
  | some w =>
    cases clamp' with
    | none => cases h
    | some w' => exact Option.some.inj h

theorem sound_put (hc : Sound e h c)
    (hfetch : fetch e q sel post g method (readRange clamp g) = .ok series)
    (hshows : Shows h rows series) :
    Sound e h (c.put h (selectionKey e.floats.quote sel post g method
      (clamp.map (fun _ => readRange clamp g))) rows) := by
  unfold Cache.put
  split
  · exact hc
  · intro q' sel' post' g' method' clamp' rows' hlook
    by_cases hkey : selectionKey e.floats.quote sel' post' g' method'
        (clamp'.map (fun _ => readRange clamp' g')) = selectionKey e.floats.quote sel post g method
        (clamp.map (fun _ => readRange clamp g))
    · obtain ⟨rfl, rfl, rfl, rfl, hwindow⟩ := selectionKey_injective e.floats.quote_splits hkey
      rw [hkey, AList.lookup_insert] at hlook
      rw [← Option.some.inj hlook, readRange_of_window hwindow]
      exact ⟨series, fetch_query e hfetch, hshows⟩
    · rw [AList.lookup_insert_ne hkey] at hlook
      exact hc q' sel' post' g' method' clamp' rows' hlook

/-- What a step gives, from the warnings before it: a value and the warnings after it. -/
abbrev Meaning (F E β : Type) := List GoString → Except (EvalErr F E) (β × List GoString)

def Meaning.andThen (d : Meaning F E α) (d' : α → Meaning F E β) : Meaning F E β :=
  fun ws => (d ws).bind (fun aw => d' aw.1 aw.2)

inductive Ends (R : Heap F → α → β → Prop) :
    Except (EvalErr F E) α × State F → Except (EvalErr F E) (β × List GoString) → Prop
  | failed (err : EvalErr F E) (st : State F) : Ends R (.error err, st) (.error err)
  | done (a : α) (b : β) (st : State F) (hR : R st.heap a b) : Ends R (.ok a, st)
    (.ok (b, st.warnings))

/-- Whatever the cache has, and whatever is in the memory above `h₀`: the step ends as its meaning
says, the arrays that were there are as they were, and the cache still tells no lies. -/
def Denotes (h₀ : Heap F) (m : M F E α) (R : Heap F → α → β → Prop) (d : Meaning F E β) : Prop :=
  ∀ s : State F, h₀ <+: s.heap → Sound e s.heap s.cache →
    (s.heap <+: (m.run.run s).2.heap ∧ Sound e (m.run.run s).2.heap (m.run.run s).2.cache) ∧
      Ends R (m.run.run s) (d s.warnings)

inductive Shown (h : Heap F) : Frame F ℕ → Frame F (List F) → Prop
  | scalar (metric : GoString) (v : F) : Shown h (.scalar metric v) (.scalar metric v)
  | lines (metric : GoString) {rows contents} (hs : Shows h rows contents) :
    Shown h (.lines metric rows) (.lines metric contents)

variable {e} {R : Heap F → α → β → Prop} {f : Frame F ℕ} {content : Frame F (List F)}

theorem Shown.map_eq (hf : Shown h f content) : f.map (arrayAt h) = content := by
  cases hf with
  | scalar metric v => rfl
  | lines metric hs => exact congrArg (Frame.lines metric) hs.shown

theorem Shown.mono (hf : Shown h f content) (hle : h <+: h') : Shown h' f content := by
  cases hf with
  | scalar metric v => exact .scalar metric v
  | lines metric hs => exact .lines metric (hs.mono hle)

theorem Shown.relabel (hf : Shown h f content) (metric : GoString) :
    Shown h (f.relabel metric) (content.relabel metric) := by
  cases hf with
  | scalar _ v => exact .scalar metric v
  | lines _ hs => exact .lines metric hs

theorem Denotes.bind {d : Meaning F E β} {m : M F E α} (hm : Denotes e h₀ m R d) {k : α → M F E γ}
    {δ : Type} {R' : Heap F → γ → δ → Prop} {d' : β → Meaning F E δ}
    (hk : ∀ b h a, h₀ <+: h → R h a b → Denotes e h (k a) R' (d' b)) :
    Denotes e h₀ (m >>= k) R' (d.andThen d') := by
  intro s hs hsound
  obtain ⟨⟨hgrown, hsound'⟩, hends⟩ := hm s hs hsound
  show (s.heap <+: (ExceptT.bindCont k (m.run.run s).1 (m.run.run s).2).2.heap ∧
      Sound e (ExceptT.bindCont k (m.run.run s).1 (m.run.run s).2).2.heap
        (ExceptT.bindCont k (m.run.run s).1 (m.run.run s).2).2.cache) ∧
    Ends R' (ExceptT.bindCont k (m.run.run s).1 (m.run.run s).2) (d.andThen d' s.warnings)
  unfold Meaning.andThen
  generalize m.run.run s = r at hgrown hsound' hends ⊢
  generalize d s.warnings = o at hends ⊢
  cases hends with
  | failed err st => exact ⟨⟨hgrown, hsound'⟩, .failed err st⟩
  | done a b st hR =>
    obtain ⟨⟨hmore, hend⟩, hends'⟩ :=
      hk b st.heap a (hs.trans hgrown) hR st (List.prefix_refl _) hsound'
    exact ⟨⟨hgrown.trans hmore, hend⟩, hends'⟩

theorem denotes_pure {a : α} {b : β} (hR : ∀ h, h₀ <+: h → R h a b) :
    Denotes e h₀ (pure a : M F E α) R (fun ws => .ok (b, ws)) :=
  fun s hs hsound => ⟨⟨List.prefix_refl _, hsound⟩, .done a b s (hR _ hs)⟩

theorem denotes_throw (err : EvalErr F E) :
    Denotes e h₀ (throw err : M F E α) R (fun _ => .error err) :=
  fun s _ hsound => ⟨⟨List.prefix_refl _, hsound⟩, .failed err s⟩

theorem denotes_withWarnings (step : Meaning F E α) :
    Denotes e h₀ (withWarnings step) (fun _ a b => a = b) step := by
  intro s _ hsound
  show (s.heap <+: (runStep step s).2.heap ∧
    Sound e (runStep step s).2.heap (runStep step s).2.cache) ∧
    Ends _ (runStep step s) (step s.warnings)
  unfold runStep
  cases step s.warnings with
  | error err => exact ⟨⟨List.prefix_refl _, hsound⟩, .failed err s⟩
  | ok aw => exact ⟨⟨List.prefix_refl _, hsound⟩, .done aw.1 aw.1 { s with warnings := aw.2 } rfl⟩

theorem allocFrame_shown (content : Frame F (List F)) (h : Heap F) :
    h <+: (allocFrame content h).2 ∧ Shown (allocFrame content h).2
      (allocFrame content h).1 content := by
  cases content with
  | scalar metric v => exact ⟨List.prefix_refl h, .scalar metric v⟩
  | lines metric groups =>
    have hmade := made_allocRows (made_nil h) groups
    exact ⟨hmade.base, .lines metric hmade.shows⟩

theorem denotes_making {step : Heap F → Meaning F E (Frame F (List F))}
    {d : Meaning F E (Frame F (List F))}
    (hstep : ∀ h, h₀ <+: h → step h = d) : Denotes e h₀ (making step) Shown d := by
  intro s hs hsound
  have hrun : (making step : M F E (Frame F ℕ)).run.run s =
      ExceptT.bindCont (m := StateM (State F)) (fun made => withHeap (allocFrame made))
        (runStep (step s.heap) s).1 (runStep (step s.heap) s).2 := rfl
  rw [hrun, hstep s.heap hs]
  unfold runStep
  cases d s.warnings with
  | error err => exact ⟨⟨List.prefix_refl _, hsound⟩, .failed err s⟩
  | ok aw =>
    obtain ⟨hgrown, hshown⟩ := allocFrame_shown aw.1 s.heap
    exact ⟨⟨hgrown, hsound.mono hgrown⟩,
      .done _ aw.1 { s with warnings := aw.2, heap := (allocFrame aw.1 s.heap).2 } hshown⟩

theorem denotes_reading {step : Heap F → Except (EvalErr F E) α} {d : Except (EvalErr F E) β}
    (hstep : ∀ s : State F, h₀ <+: s.heap →
      Ends R (step s.heap, s) (d.map (fun b => (b, s.warnings)))) :
    Denotes e h₀ (reading step) R (fun ws => d.map (fun b => (b, ws))) :=
  fun s hs hsound => ⟨⟨List.prefix_refl _, hsound⟩, hstep s hs⟩

/-- Steps in a row have a meaning if the second has one for every value of the first. -/
theorem exists_bind {m : M F E α} (hm : ∃ d, ∀ h₀, Denotes e h₀ m R d) {k : α → M F E γ} {δ : Type}
    {R' : Heap F → γ → δ → Prop} (hk : ∀ b, ∃ d, ∀ h a, R h a b → Denotes e h (k a) R' d) :
    ∃ d, ∀ h₀, Denotes e h₀ (m >>= k) R' d := by
  obtain ⟨d, hd⟩ := hm
  choose d' hd' using hk
  exact ⟨d.andThen d', fun h₀ => (hd h₀).bind (fun b h a _ hR => hd' b h a hR)⟩

theorem exists_bind_eq {m : M F E α} (hm : ∃ d, ∀ h₀, Denotes e h₀ m (fun _ a b => a = b) d)
    {k : α → M F E γ} {δ : Type} {R' : Heap F → γ → δ → Prop}
    (hk : ∀ a, ∃ d, ∀ h₀, Denotes e h₀ (k a) R' d) : ∃ d, ∀ h₀, Denotes e h₀ (m >>= k) R' d := by
  refine exists_bind hm (fun b => ?_)
  obtain ⟨d, hd⟩ := hk b
  exact ⟨d, fun h a hab => hab ▸ hd h⟩

variable (scope : Scope) (q : Query) (g : Grid) (kind : Option Kind)

/-- A cache that tells no lies gives what the store gives, and stays such a cache. -/
theorem denotes_selectBucketed (sel : Selector) (post : PostFilter) (method : Rollup) :
    Denotes e h₀ (selectBucketed e scope q sel post g method) Shows
      (fun ws => (fetch e q sel post g method (readRange scope.clamp g)).map
        (fun series => (series, ws))) := by
  intro s _ hsound
  show (s.heap <+: (lookupOrFetch e scope q sel post g method s).2.heap ∧
    Sound e (lookupOrFetch e scope q sel post g method s).2.heap
      (lookupOrFetch e scope q sel post g method s).2.cache) ∧
    Ends Shows (lookupOrFetch e scope q sel post g method s) _
  unfold lookupOrFetch
  dsimp only
  split
  next rows hlook =>
    obtain ⟨series, hfetch, hshows⟩ := hsound q sel post g method scope.clamp rows hlook
    rw [hfetch]
    exact ⟨⟨List.prefix_refl _, hsound⟩, .done rows series s hshows⟩
  · split
    next err hfetch =>
      rw [hfetch]
      exact ⟨⟨List.prefix_refl _, hsound⟩, .failed err s⟩
    next series hfetch =>
      have hmade := made_allocRows (made_nil s.heap) series
      rw [hfetch]
      exact ⟨⟨hmade.base, sound_put e (hsound.mono hmade.base) hfetch hmade.shows⟩,
        .done _ series { s with
          cache := s.cache.put (allocRows series s.heap).2 _ (allocRows series s.heap).1
          heap := (allocRows series s.heap).2 } hmade.shows⟩

def modified : List Modifier → List (GroupLine (List F)) → Meaning F E (List (GroupLine (List F)))
  | [], groups, ws => .ok (groups, ws)
  | m :: rest, groups, ws => (modifierEffect e q g kind m).bind (fun fw =>
      modified rest (match fw.1 with
        | none => groups
        | some f => groups.map (Row.map f)) (fw.2.foldl warn ws))

theorem applyModifier_run (lines : List (GroupLine ℕ)) (m : Modifier) (s : State F) :
    (applyModifier e q g kind lines m).run.run s =
      match modifierEffect e q g kind m with
      | .error err => (.error err, s)
      | .ok (f, warnings) => (.ok (), { s with
          warnings := warnings.foldl warn s.warnings
          heap := match f with
            | none => s.heap
            | some f => (rewrite f lines s.heap).2 }) := by
  unfold applyModifier liftResult
  cases modifierEffect e q g kind m with
  | error err => rfl
  | ok fw =>
    obtain ⟨f, warnings⟩ := fw
    cases f <;> rfl

/-- Modifiers write to the arrays of their own lines only. -/
theorem modifiers_run {lines : List (GroupLine ℕ)} {groups : List (GroupLine (List F))}
    (ms : List Modifier) (s : State F) (hm : Made h₀ s.heap lines groups) :
    ((ms.forM (applyModifier e q g kind lines)).run.run s).2.cache = s.cache ∧
      h₀ <+: ((ms.forM (applyModifier e q g kind lines)).run.run s).2.heap ∧
      Ends (fun h _ groups => Made h₀ h lines groups)
        ((ms.forM (applyModifier e q g kind lines)).run.run s)
        (modified (e := e) q g kind ms groups s.warnings) := by
  induction ms generalizing s groups with
  | nil => exact ⟨rfl, hm.base, .done () groups s hm⟩
  | cons m ms ih =>
    have hrun : ((m :: ms).forM (applyModifier e q g kind lines)).run.run s =
        ExceptT.bindCont (fun _ => ms.forM (applyModifier e q g kind lines))
          ((applyModifier e q g kind lines m).run.run s).1
          ((applyModifier e q g kind lines m).run.run s).2 := rfl
    rw [hrun, applyModifier_run, modified]
    cases modifierEffect e q g kind m with
    | error err => exact ⟨rfl, hm.base, .failed err s⟩
    | ok fw =>
      obtain ⟨f, warnings⟩ := fw
      cases f with
      | none => exact ih { s with warnings := warnings.foldl warn s.warnings } hm
      | some f =>
        have hnone : ([] : List (GroupLine ℕ)).length = ([] : List (GroupLine (List F))).length :=
          rfl
        exact ih { s with
          warnings := warnings.foldl warn s.warnings
          heap := (rewrite f lines s.heap).2 } (made_rewrite f hnone hm)

/-- New lines and the modifiers on them, as one step. -/
theorem denotes_modified {mk : Mem F (List (GroupLine ℕ))} {groups : List (GroupLine (List F))}
    (hmk : ∀ h, h₀ <+: h → Made h (mk h).2 (mk h).1 groups) :
    Denotes e h₀ (do
        let lines ← withHeap mk
        applyModifiers e q g kind lines) Shown
      ((modified (e := e) q g kind q.modifiers groups).andThen (fun groups ws =>
        .ok (.lines q.metric groups, ws))) := by
  intro s hs hsound
  obtain ⟨hcache, hbase, hends⟩ := modifiers_run (e := e) q g kind q.modifiers
    { s with heap := (mk s.heap).2 } (hmk s.heap hs)
  have hrun : (do
        let lines ← withHeap mk
        applyModifiers e q g kind lines : M F E (Frame F ℕ)).run.run s =
      ExceptT.bindCont (m := StateM (State F))
        (fun _ => pure (Frame.lines q.metric (mk s.heap).1))
        ((q.modifiers.forM (applyModifier e q g kind (mk s.heap).1)).run.run
          { s with heap := (mk s.heap).2 }).1
        ((q.modifiers.forM (applyModifier e q g kind (mk s.heap).1)).run.run
          { s with heap := (mk s.heap).2 }).2 := rfl
  rw [hrun]
  unfold Meaning.andThen
  generalize (q.modifiers.forM (applyModifier e q g kind (mk s.heap).1)).run.run
    { s with heap := (mk s.heap).2 } = r at hcache hbase hends ⊢
  have hkept : s.heap <+: r.2.heap ∧ Sound e r.2.heap r.2.cache := by
    rw [hcache]
    exact ⟨hbase, hsound.mono hbase⟩
  generalize modified q g kind q.modifiers groups s.warnings = o at hends ⊢
  cases hends with
  | failed err st => exact ⟨hkept, .failed err st⟩
  | done a groups st hR => exact ⟨hkept, .done _ _ st (.lines q.metric hR.shows)⟩

theorem denotes_sketchGroups :
    ∃ d, ∀ h₀, Denotes e h₀ (sketchGroups e scope q g kind) (fun _ a b => a = b) d := by
  unfold sketchGroups
  split
  · exact ⟨_, fun _ => denotes_throw _⟩
  · exact ⟨_, fun _ => denotes_throw _⟩
  · exact ⟨_, fun _ => denotes_throw _⟩
  · split
    · exact ⟨_, fun _ => denotes_throw _⟩
    · exact exists_bind_eq ⟨_, fun _ => denotes_withWarnings _⟩
        (fun sp => ⟨_, fun _ => denotes_withWarnings _⟩)

theorem denotes_query : ∃ d, ∀ h₀, Denotes e h₀ (query e scope q g) Shown d := by
  unfold query
  dsimp only
  split
  · exact ⟨_, fun _ => denotes_throw _⟩
  · split
    next quantile hq =>
      exact exists_bind_eq (denotes_sketchGroups scope q g _) (fun groups =>
        ⟨_, fun _ => denotes_modified q g _ (fun h _ => made_allocRows (made_nil h) _)⟩)
    · split
      · exact ⟨_, fun _ => denotes_throw _⟩
      · refine exists_bind_eq ⟨_, fun _ => denotes_withWarnings _⟩ (fun sp => ?_)
        exact exists_bind ⟨_, fun _ => denotes_selectBucketed scope q g sp.1 sp.2 _⟩
          (fun series => ⟨_, fun h rows hshows =>
            denotes_modified q g _ (fun h' hle => made_aggregate q g.n (hshows.mono hle))⟩)

theorem topLines_shows {rows : List (GroupLine ℕ)} {contents : List (GroupLine (List F))}
    (hs : Shows h rows contents) (n : ℕ) (reducer order : GoString) :
    Shows h (topLines e.floats (arrayAt h) n reducer order rows)
      (topLines e.floats id n reducer order contents) := by
  let look : GroupLine ℕ × F → GroupLine (List F) × F := Prod.map (Row.map (arrayAt h)) id
  refine ⟨?_, fun r hr => ?_⟩
  · have hscores : (rows.map
      (fun grp => (grp, reduce e.floats reducer (arrayAt h grp.values)))).map look =
        contents.map (fun grp => (grp, reduce e.floats reducer grp.values)) := by
      rw [← hs.shown, List.map_map, List.map_map]
      rfl
    have hsort := List.map_mergeSort (r := ranksBefore e.floats order)
      (s := ranksBefore e.floats order) (f := look)
      (l := rows.map (fun grp => (grp, reduce e.floats reducer (arrayAt h grp.values))))
      (fun _ _ _ _ => rfl)
    unfold topLines
    rw [List.map_map, show Row.map (arrayAt h) ∘ Prod.fst = Prod.fst ∘ look from rfl,
      ← List.map_map, List.map_take, hsort, hscores]
    rfl
  · obtain ⟨p, hp, rfl⟩ := List.mem_map.mp hr
    obtain ⟨r, hmem, rfl⟩ := List.mem_map.mp (List.mem_mergeSort.mp (List.mem_of_mem_take hp))
    exact hs.inside r hmem

theorem top_ends (args : List (Node F)) {frames : List (Frame F ℕ)}
    {contents : List (Frame F (List F))} (st : State F)
    (hf : List.Forall₂ (Shown st.heap) frames contents) (label : GoString) :
    Ends Shown (top e (arrayAt st.heap) args frames label, st)
      ((top (E := E) e id args contents label).map (fun b => (b, st.warnings))) := by
  match args, hf with
  | [], _ => exact .failed _ st
  | [_], _ => exact .failed _ st
  | _ :: _ :: _, .nil => exact .failed _ st
  | _ :: _ :: _, .cons (.scalar metric v) _ => exact .done _ _ st (.scalar label v)
  | x :: n :: rest, .cons (.lines metric hs) _ =>
    unfold top
    dsimp only
    split
    · exact .failed _ st
    · exact .done _ _ st (.lines label (topLines_shows hs _ _ _))

theorem map_of_shown {frames : List (Frame F ℕ)} {contents : List (Frame F (List F))}
    (hf : List.Forall₂ (Shown h) frames contents) :
    frames.map (Frame.map (arrayAt h)) = contents := by
  induction hf with
  | nil => rfl
  | cons hf _ ih => rw [List.map_cons, hf.map_eq, ih]

mutual

/-- By induction on the tree: a call without a shift evaluates its arguments, a shift its first
one. -/
theorem denotes_node (scope : Scope) (n : Node F) (g : Grid) :
    ∃ d, ∀ h₀, Denotes e h₀ (node e scope n g) Shown d := by
  cases n with
  | number v => exact ⟨_, fun _ => denotes_pure (fun _ _ => .scalar _ v)⟩
  | str s => exact ⟨_, fun _ => denotes_throw _⟩
  | query q => exact denotes_query scope q g
  | neg x =>
    refine exists_bind (denotes_node scope x g) (fun content =>
      ⟨fun ws => .ok (negate e.floats (labelOf e (.neg x)) content, ws), fun h f hf => ?_⟩)
    refine denotes_making (fun h' hle => ?_)
    rw [(hf.mono hle).map_eq]
  | binary op l r =>
    obtain ⟨dl, hl⟩ := denotes_node scope l g
    obtain ⟨dr, hr⟩ := denotes_node scope r g
    refine ⟨dl.andThen (fun left => dr.andThen (fun right ws =>
      .ok (join e.floats op (labelOf e (.binary op l r)) left right ws))),
        fun h₀ => (hl h₀).bind ?_⟩
    intro left h f _ hf
    refine (hr h).bind (fun right h' f' hle hf' => denotes_making (fun h'' hle' => ?_))
    rw [(hf.mono (hle.trans hle')).map_eq, (hf'.mono hle').map_eq]
  | call f args =>
    unfold node
    split
    · match args with
      | [] => exact ⟨_, fun _ => denotes_throw _⟩
      | [x] => exact ⟨_, fun _ => denotes_throw _⟩
      | x :: offset :: rest =>
        refine exists_bind_eq ⟨_, fun _ => denotes_withWarnings _⟩ (fun shifted => ?_)
        exact exists_bind (denotes_node scope x shifted) (fun content =>
          ⟨_, fun h f hf => denotes_pure (fun h' hle => (hf.mono hle).relabel _)⟩)
    · refine exists_bind (denotes_nodes scope args g) (fun contents => ?_)
      split
      · exact ⟨_, fun h frames hf => denotes_reading (fun st hle =>
          top_ends args st (hf.imp (fun _ _ hf => hf.mono hle)) _)⟩
      · refine ⟨fun ws => (applyFn e f args contents (labelOf e (.call f args)) g).map
          (fun made => (made, ws)), fun h frames hf => denotes_making (fun h' hle => ?_)⟩
        rw [map_of_shown (hf.imp (fun _ _ hf => hf.mono hle))]

theorem denotes_nodes (scope : Scope) (args : List (Node F)) (g : Grid) :
    ∃ d, ∀ h₀, Denotes e h₀ (nodes e scope args g) (fun h => List.Forall₂ (Shown h)) d := by
  cases args with
  | nil => exact ⟨_, fun _ => denotes_pure (fun _ _ => .nil)⟩
  | cons a rest =>
    have hrest : ∀ {m : M F E (Frame F ℕ)}, (∃ d, ∀ h₀, Denotes e h₀ m Shown d) →
        ∃ d, ∀ h₀, Denotes e h₀ (do
          let f ← m
          let fs ← nodes e scope rest g
          return f :: fs) (fun h => List.Forall₂ (Shown h)) d := by
      rintro m ⟨d, hd⟩
      obtain ⟨drest, hrest⟩ := denotes_nodes scope rest g
      refine ⟨d.andThen (fun content => drest.andThen (fun contents ws =>
        .ok (content :: contents, ws))), fun h₀ => (hd h₀).bind (fun content h f _ hf => ?_)⟩
      exact (hrest h).bind (fun contents h' fs hle hfs => denotes_pure (fun h'' hle' =>
        .cons (hf.mono (hle.trans hle')) (hfs.imp (fun _ _ hf => hf.mono hle'))))
    unfold nodes
    split
    · exact hrest ⟨_, fun _ => denotes_pure (fun _ _ => .lines [] ⟨rfl, nofun⟩)⟩
    · exact hrest (denotes_node scope a g)

end

/-- Whatever the requests before have left: the outcome is the same, the arrays that were there
are as they were, and the cache still tells no lies. -/
theorem evalWith_keeps (req : Request F) : ∃ outcome, ∀ st : State F, Sound e st.heap st.cache →
    (evalWith e req st).1 = outcome ∧ st.heap <+: (evalWith e req st).2.heap ∧
      Sound e (evalWith e req st).2.heap (evalWith e req st).2.cache := by
  unfold evalWith
  split
  next err hplan => exact ⟨.error err, fun st hsound => ⟨rfl, List.prefix_refl _, hsound⟩⟩
  next g hplan =>
    obtain ⟨d, hd⟩ := denotes_node (e := e) ⟨req.vars, clampOf req g⟩ req.expr g
    refine ⟨(d []).map (fun cw => ⟨req.fromSec, req.toSec, g.interval,
      cw.1.series e.floats (labelOf e req.expr) g, cw.2⟩), fun st hsound => ?_⟩
    obtain ⟨⟨hgrown, hsound'⟩, hends⟩ :=
      hd st.heap { st with warnings := [] } (List.prefix_refl _) hsound
    refine ⟨?_, hgrown, hsound'⟩
    dsimp only at hends ⊢
    generalize (node e ⟨req.vars, clampOf req g⟩ req.expr g).run.run { st with warnings := [] } = r
      at hends ⊢
    generalize d [] = o at hends ⊢
    cases hends with
    | failed err st' => rfl
    | done a b st' hR =>
      exact congrArg (fun content : Frame F (List F) => Except.ok
        (Result.mk req.fromSec req.toSec g.interval
        (content.series e.floats (labelOf e req.expr) g) st'.warnings)) hR.map_eq

/-- Whatever the requests before have left in the cache, and whatever budget it started with. -/
theorem evalAll_eq_map (reqs : List (Request F)) {st : State F} (hst : Sound e st.heap st.cache) :
    evalAll e reqs st = reqs.map (eval e) := by
  induction reqs generalizing st with
  | nil => rfl
  | cons req rest ih =>
    obtain ⟨outcome, hkeeps⟩ := evalWith_keeps (e := e) req
    obtain ⟨hsame, -, hsound⟩ := hkeeps st hst
    rw [evalAll, List.map_cons, ih hsound, hsame,
      ← (hkeeps (fresh selectionCacheBytes) (sound_empty e [] selectionCacheBytes)).1]
    rfl

/-- Every request of a batch has the outcome that it has alone, and the outcome does not depend on
where the budget of the cache runs out. -/
theorem batch_eq_map_eval (e : Evaluator F S E) (reqs : List (Request F)) (hne : reqs ≠ [])
    (hlen : reqs.length ≤ maxQueriesPerBatch) :
    batch e reqs = .ok (reqs.map (eval e)) ∧
      ∀ budget, evalAll e reqs (fresh budget) = reqs.map (eval e) := by
  have hall : ∀ budget, evalAll e reqs (fresh budget) = reqs.map (eval e) :=
    fun budget => evalAll_eq_map reqs (sound_empty e [] budget)
  refine ⟨?_, hall⟩
  have hsome : reqs.isEmpty = false := List.isEmpty_eq_false_iff.mpr hne
  unfold batch
  rw [hsome, if_neg Bool.false_ne_true, if_neg (not_lt.mpr hlen), hall]

end Steps

def escaped (s : GoString) : GoString :=
  s.flatMap (fun c => [Ascii.backslash] ++ [c]) ++ [Ascii.dquote]

theorem escaped_splits : Splits (fun _ => True) escaped := by
  have hbyte : Splits (fun _ => True) (fun c : Byte => [c]) := by
    intro a b x y _ _ heq
    exact List.cons.inj heq
  have hbytes : Splits (fun x => [Ascii.dquote] <+: x)
      (fun s : GoString => s.flatMap (fun c => [Ascii.backslash] ++ [c])) :=
    hbyte.flatMap (fun _ => trivial) (fun x hx => ⟨trivial, not_starts hx rfl (by decide)⟩)
  intro a b x y _ _ heq
  unfold escaped at heq
  rw [List.append_assoc, List.append_assoc] at heq
  obtain ⟨hab, hrest⟩ := hbytes a b _ _ (List.prefix_append _ _) (List.prefix_append _ _) heq
  exact ⟨hab, List.append_cancel_left hrest⟩

def fractions : Floats (Option ℚ) where
  nan := none
  zero := some 0
  one := some 1
  isNaN v := v.isNone
  isPosInf _ := false
  add a b := a.bind (fun a => b.map (a + ·))
  sub a b := a.bind (fun a => b.map (a - ·))
  mul a b := a.bind (fun a => b.map (a * ·))
  div a b := a.bind (fun a => b.map (a / ·))
  neg a := a.map (- ·)
  min a b := a.bind (fun a => b.map (min a ·))
  max a b := a.bind (fun a => b.map (max a ·))
  lt a b := a.any (fun a => b.any (fun b => decide (a < b)))
  eq a b := a.any (fun a => b.any (fun b => decide (a = b)))
  abs a := a.map (fun a => |a|)
  log2 a := a.map (fun a => Nat.log2 a.num.natAbs)
  log10 a := a.map (fun a => ((Nat.toDigits 10 a.num.natAbs).length - 1 : ℕ))
  ofInt z := some z
  toInt a := (a.getD 0).num.tdiv (a.getD 0).den
  parse _ := none
  format a := (a.map (fun a => decimalInt a.num ++ [slash] ++ decimal a.den)).getD (text "NaN")
  quote := escaped
  quote_splits := escaped_splits

def twoSeries : Evaluator (Option ℚ) Unit Unit where
  floats := fractions
  select sel fromMs toMs := .ok ⟨[(⟨sel.metric, [⟨text "route", text "a"⟩]⟩, [(fromMs, some 1)]),
    (⟨sel.metric, [⟨text "route", text "b"⟩]⟩, [(toMs, some 2)])], none⟩
  sketches := none
  metricKind _ := some .count
  merge _ _ := none
  quantile _ _ := none

/-- Three query nodes about one selection; the first writes zeroes into its lines. -/
def shares : List (Request (Option ℚ)) :=
  let byRoute : Node (Option ℚ) :=
    .query ⟨.sum, text "m", [], [text "route"], [.asRate, .fill .zero 0]⟩
  let total : Node (Option ℚ) := .query ⟨.sum, text "m", [], [], []⟩
  [⟨byRoute, 0, 60, 10, noVars, false⟩, ⟨.binary .div byRoute total, 0, 60, 10, noVars, false⟩]

theorem shares_alone : shares ≠ [] ∧ shares.length ≤ maxQueriesPerBatch ∧
    batch twoSeries shares = .ok (shares.map (eval twoSeries)) :=
  ⟨List.cons_ne_nil _ _, by decide,
    (batch_eq_map_eval twoSeries shares (List.cons_ne_nil _ _) (by decide)).1⟩

end Ozymandias.MetricBatch
