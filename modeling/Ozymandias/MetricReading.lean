import Ozymandias.MetricPieces

/-!
Reading printed parts of a metric query. A loop reads back the list of items it
prints, each behind its separator; filters, groupings, modifiers and whole
selections follow.
-/
namespace Ozymandias.MetricReading

open BitLists Ascii Utf8 Substrings Loops MetricQuery MetricLex MetricParse
  MetricTokens MetricPieces
open SeriesModel (GoString colon)

variable {F : Type} {N : Strconv F} {st st' last : Look F} {c : Byte} {key value t r : GoString}
  {m : Matcher} {q : Query}

theorem stops_cons (h : isName c = false) (t : GoString) : Stops (c :: t) := stop_cons h t

theorem comma_mem : (comma, Token.comma) ∈ (punctuationTable : List (Byte × Token F)) := by
  simp [punctuationTable]

theorem period_mem : (period, Token.dot) ∈ (punctuationTable : List (Byte × Token F)) := by
  simp [punctuationTable]

section Loop

variable {α : Type} {again : Token F → Bool} {step : α → Look F → Except (Fail F) (α × Look F)}

theorem repeatWhile_done {a : α} (h : again st.tok = false) :
    repeatWhile again step a st = .ok (a, st) := whileLoop_done h

theorem repeatWhile_step {a a' : α} (h : again st.tok = true) (hstep : step a st = .ok (a', st'))
    (hlt : st'.rest.length < st.rest.length) :
    repeatWhile again step a st = repeatWhile again step a' st' := whileLoop_step h hstep hlt

end Loop

def separated {α : Type} (sep : Byte) (body : α → GoString) (items : List α) : GoString :=
  items.flatMap (fun x => sep :: body x)

theorem joined_cons (sep : Byte) (gap : GoString) (t : GoString) (rest : List GoString) :
    joined (sep :: gap) (t :: rest) = t ++ separated sep (fun s => gap ++ s) rest := by
  induction rest generalizing t with
  | nil => simp [joined, separated]
  | cons t' rest ih =>
    rw [joined, ih t', separated, separated]
    · simp
    · exact nofun

variable {sep : Byte} {sepTok : Token F} {α : Type} {a : α}
  {values rest : List GoString} {seconds : ℕ}

theorem next_separated (hsep : (sep, sepTok) ∈ punctuationTable) (body : α → GoString)
    (hlast : next N r = .ok last) (items : List α) :
    ∃ st, next N (separated sep body items ++ r) = .ok st ∧
      (items = [] ∧ st = last ∨ ∃ x rest, items = x :: rest ∧ st.tok = sepTok ∧
        st.rest = body x ++ (separated sep body rest ++ r)) := by
  cases items with
  | nil => exact ⟨last, hlast, .inl ⟨rfl, rfl⟩⟩
  | cons x rest =>
    have htext : separated sep body (x :: rest) ++ r =
      sep :: (body x ++ (separated sep body rest ++ r)) := by
      simp [separated]
    rw [htext]
    exact ⟨_, next_punctuation hsep _, .inr ⟨x, rest, rfl, rfl, rfl⟩⟩

theorem finish_reads (h : next N st.rest = .ok st') : finish N a st = .ok (a, st') := by
  unfold finish advance
  rw [h, ok_bind]

def AfterMatcher (c : Byte) : Prop := c = comma ∨ c = rbrace

theorem AfterMatcher.stops (h : AfterMatcher c) (t : GoString) : Stops (c :: t) := by
  rcases h with rfl | rfl <;> exact stops_cons (by decide) t

theorem AfterMatcher.mem (h : AfterMatcher c) : c ∈ tagStop := by
  rcases h with rfl | rfl <;> decide

theorem checkTag_ok {stop : GoString} (h : TagValue stop key value) (left : ℕ) (rest : GoString) :
    checkTag (F := F) key ⟨value, left, rest⟩ = .ok () := if_pos h.2

variable (neg : Bool)

theorem tagValue_reads (hvalue : TagValue tagStop key value) (hc : AfterMatcher c)
    (hst' : next N (c :: t) = .ok st') (hst : st.rest = value ++ c :: t) :
    tagValue N neg key st = .ok (.tag neg key value, st') := by
  unfold tagValue
  rw [hst, nextValue_append hvalue.1 hc.mem]
  rw [if_neg hvalue.1.ne_nil, checkTag_ok hvalue, hst']
  rfl

theorem listValue_reads (hvalue : TagValue listStop key value) (hlen : values.length < maxValues)
    (hc : c ∈ listStop) (hst' : next N (c :: t) = .ok st') (hst : st.rest = value ++ c :: t) :
    listValue N key values st = .ok (values ++ [value], st') := by
  unfold listValue
  rw [hst, nextValue_append hvalue.1 hc]
  rw [if_neg hvalue.1.ne_nil, checkTag_ok hvalue, hst']
  exact if_neg hlen.ne

theorem groupKey_reads (hkey : TagName key) {done : List GoString} (hnew : key ∉ done)
    (hc : c = comma ∨ c = rbrace) (hst' : next N (c :: t) = .ok st')
    (hst : st.rest = key ++ c :: t) :
    groupKey N done st = .ok (done ++ [key], st') := by
  have hstop : ∀ d, (c :: t).head? = some d → isKey d = false := by
    rcases hc with rfl | rfl <;> exact stop_cons (by decide) t
  unfold groupKey advanceKey
  rw [hst, nextKey_key hkey hstop, ok_bind]
  dsimp only
  rw [if_pos hkey.valid, if_neg hnew]
  exact finish_reads hst'

variable [DecidableEq F]

theorem expect_self (tok : Token F) (left : ℕ) (rest : GoString) :
    expect tok ⟨tok, left, rest⟩ = .ok () := if_pos rfl

/-- A loop whose step reads an item reads the items that are left. -/
theorem repeatWhile_reads (hsep : (sep, sepTok) ∈ punctuationTable) (body : α → GoString)
    {step : List α → Look F → Except (Fail F) (List α × Look F)} (hlast : next N r = .ok last)
    (hstop : last.tok ≠ sepTok) {items : List α} (hbody : ∀ x ∈ items, body x ≠ [])
    (hstep : ∀ done x rest st st', done ++ x :: rest = items →
      st.rest = body x ++ (separated sep body rest ++ r) →
      next N (separated sep body rest ++ r) = .ok st' → step done st = .ok (done ++ [x], st'))
    {done todo : List α} (hitems : done ++ todo = items)
    (hst : next N (separated sep body todo ++ r) = .ok st) :
    repeatWhile (fun tok => decide (tok = sepTok)) step done st = .ok (items, last) := by
  induction todo generalizing done st with
  | nil =>
    have heq : last = st := Except.ok.inj (hlast.symm.trans hst)
    rw [List.append_nil] at hitems
    rw [← heq, ← hitems]
    exact repeatWhile_done (decide_eq_false hstop)
  | cons x rest ih =>
    obtain ⟨st₁, hread, hcase⟩ := next_separated hsep body hlast (x :: rest)
    obtain rfl : st₁ = st := Except.ok.inj (hread.symm.trans hst)
    rcases hcase with ⟨hnil, -⟩ | ⟨y, ys, hcons, htok, hrest⟩
    · cases hnil
    · cases hcons
      obtain ⟨st₂, hnext, -⟩ := next_separated hsep body hlast rest
      have hone := hstep done x rest st₁ st₂ hitems hrest hnext
      have hlt : st₂.rest.length < st₁.rest.length := by
        have hle := next_outcome (N := N) (separated sep body rest ++ r)
        rw [hnext] at hle
        have hpos := List.length_pos_iff.mpr
          (hbody x (hitems ▸ List.mem_append_right done List.mem_cons_self))
        have hle := hle.rest_le
        rw [hrest, List.length_append]
        omega
      have hitems' : (done ++ [x]) ++ rest = items := by rw [← hitems]; simp
      exact (repeatWhile_step (decide_eq_true htok) hone hlt).trans (ih hitems' hnext)

/-- The text after separated items begins with the separator or as what follows them does. -/
theorem separated_append (sep : Byte) (body : α → GoString) (items : List α) (c : Byte)
    (t : GoString) :
    ∃ d t', separated sep body items ++ c :: t = d :: t' ∧ (d = sep ∨ d = c) := by
  cases items with
  | nil => exact ⟨c, t, rfl, .inr rfl⟩
  | cons x rest => exact ⟨sep, _, rfl, .inl rfl⟩

/-- Items with commas between them, up to the byte that closes them: the first one is read, and
then the loop reads the others. -/
theorem commas_read (step : List GoString → Look F → Except (Fail F) (List GoString × Look F))
    (st : Look F) {close : Byte} {closeTok : Token F}
    (hclose : next N (close :: r) = .ok ⟨closeTok, r.length + 1, r⟩) (hstop : closeTok ≠ .comma)
    {x : GoString} (hne : ∀ y ∈ x :: rest, y ≠ [])
    (hstep : ∀ done y ys c t st st', done ++ y :: ys = x :: rest → c = comma ∨ c = close →
      next N (c :: t) = .ok st' → st.rest = y ++ c :: t → step done st = .ok (done ++ [y], st'))
    (hst : st.rest = joined [comma] (x :: rest) ++ close :: r) :
    ∃ st₁, step [] st = .ok ([x], st₁) ∧
      repeatWhile (fun tok => decide (tok = .comma)) step [x] st₁ =
        .ok (x :: rest, ⟨closeTok, r.length + 1, r⟩) := by
  have hitem : ∀ done y ys st st', done ++ y :: ys = x :: rest →
      st.rest = y ++ (separated comma id ys ++ close :: r) →
      next N (separated comma id ys ++ close :: r) = .ok st' →
        step done st = .ok (done ++ [y], st') := by
    intro done y ys st st' hitems hrest hnext
    obtain ⟨d, t, heq, hd⟩ := separated_append comma id ys close r
    rw [heq] at hrest hnext
    exact hstep done y ys d t st st' hitems hd hnext hrest
  rw [joined_cons, List.append_assoc] at hst
  obtain ⟨st₁, hst₁, -⟩ := next_separated comma_mem id hclose rest
  exact ⟨st₁, hitem [] x rest st st₁ rfl hst hst₁,
    repeatWhile_reads comma_mem id hclose hstop hne hitem rfl hst₁⟩

theorem valueList_reads (hne : values ≠ []) (hlen : values.length ≤ maxValues)
    (hvalues : ∀ v ∈ values, TagValue listStop key v) (hst' : next N r = .ok st')
    (hst : st.rest = [space, lparen] ++ joined [comma] values ++ rparen :: r) :
    valueList N neg key st = .ok (.list neg key values, st') := by
  obtain ⟨v, rest, rfl⟩ := List.exists_cons_of_ne_nil hne
  set text := joined [comma] (v :: rest) ++ rparen :: r with htext
  have hopen : next N st.rest = .ok ⟨.lparen, text.length + 1, text⟩ := by
    rw [hst]
    rfl
  have hclose : next N (rparen :: r) = .ok ⟨.rparen, r.length + 1, r⟩ := rfl
  obtain ⟨st₁, hfirst, hloop⟩ := commas_read (listValue N key) ⟨.lparen, text.length + 1, text⟩
    hclose nofun (fun y hy => (hvalues y hy).1.ne_nil) (by
      intro done y ys c t st st' hitems hc hnext hrest
      refine listValue_reads (hvalues y ?_) ?_ ?_ hnext hrest
      · rw [← hitems]
        simp
      · have hl := congrArg List.length hitems
        rw [List.length_append, List.length_cons] at hl
        omega
      · rcases hc with rfl | rfl <;> decide) htext
  unfold valueList advance
  rw [hopen]
  simp only [ok_bind, hfirst, hloop]
  exact finish_reads hst'

def afterKeyText : Matcher → GoString
  | .var _ => []
  | .tag _ _ value => [colon] ++ value
  | .list _ _ values => inWord ++ joined [comma] values ++ [rparen]

theorem tail_stops (key : GoString) (hm : m = .tag neg key t ∨ ∃ values, m = .list neg key values)
    (r : GoString) : ∀ c, (afterKeyText m ++ r).head? = some c → isKey c = false := by
  rcases hm with rfl | ⟨values, rfl⟩
  · exact stop_cons (c := colon) (by decide) _
  · exact stop_cons (c := space) (by decide) _

theorem afterKey_reads (hm : MatcherOk m)
    (hkind : (∃ value, m = .tag neg key value) ∨ ∃ values, m = .list neg key values)
    (hc : AfterMatcher c) (hst' : next N (c :: t) = .ok st') :
    ∃ st, next N (afterKeyText m ++ c :: t) = .ok st ∧ afterKey N neg key st = .ok (m, st') := by
  rcases hkind with ⟨value, rfl⟩ | ⟨values, rfl⟩
  · obtain ⟨-, hvalue⟩ := hm
    refine ⟨⟨.colon, (value ++ c :: t).length + 1, value ++ c :: t⟩, rfl, ?_⟩
    exact tagValue_reads neg hvalue hc hst' rfl
  · obtain ⟨-, hne, hlen, hvalues⟩ := hm
    have htext : afterKeyText (.list neg key values) ++ c :: t =
        space :: (ofChars ['I', 'N'] ++
          ([space, lparen] ++ joined [comma] values ++ rparen :: c :: t)) := by
      simp [afterKeyText, inWord, ofChars, space, lparen]
    have hword : next N (space :: (ofChars ['I', 'N'] ++
        ([space, lparen] ++ joined [comma] values ++ rparen :: c :: t))) = _ :=
      (next_space _).trans (next_word rfl (stops_cons (by decide) _))
    rw [htext]
    refine ⟨_, hword, ?_⟩
    unfold afterKey
    exact valueList_reads neg hne hlen hvalues hst' rfl

theorem keyed_reads (hm : MatcherOk m)
    (hkind : (∃ value, m = .tag neg key value) ∨ ∃ values, m = .list neg key values)
    (hc : AfterMatcher c) (hst' : next N (c :: t) = .ok st') :
    ∃ left, nextKey N (key ++ (afterKeyText m ++ c :: t)) =
        .ok ⟨.key key, left, afterKeyText m ++ c :: t⟩ ∧
      keyed N neg ⟨.key key, left, afterKeyText m ++ c :: t⟩ = .ok (m, st') := by
  have hkey : TagName key := by
    rcases hkind with ⟨value, rfl⟩ | ⟨values, rfl⟩
    · exact hm.1
    · exact hm.1
  have hstops : ∀ d, (afterKeyText m ++ c :: t).head? = some d → isKey d = false := by
    rcases hkind with ⟨value, rfl⟩ | ⟨values, rfl⟩
    · exact tail_stops neg key (.inl rfl) _
    · exact tail_stops neg key (t := []) (.inr ⟨values, rfl⟩) _
  refine ⟨_, nextKey_key hkey hstops, ?_⟩
  obtain ⟨st, hst, hafter⟩ := afterKey_reads neg hm hkind hc hst'
  unfold keyed advance
  dsimp only
  rw [if_pos hkey.valid, hst]
  exact hafter

/-- The text of a matcher reads back, in the mode of the filter. -/
theorem matcher_reads (hm : MatcherOk m) (hc : AfterMatcher c) (hst' : next N (c :: t) = .ok st') :
    ∃ st, nextKey N (m.string ++ c :: t) = .ok st ∧ matcher N st = .ok (m, st') := by
  have hkeyed : ∀ neg key,
    ((∃ value, m = .tag neg key value) ∨ ∃ values, m = .list neg key values) →
      m.string = (if neg then [bang] else []) ++ (key ++ afterKeyText m) →
      ∃ st, nextKey N (m.string ++ c :: t) = .ok st ∧ matcher N st = .ok (m, st') := by
    intro neg key hkind htext
    obtain ⟨left, hread, hparse⟩ := keyed_reads neg hm hkind hc hst'
    rw [htext]
    cases neg with
    | false =>
      rw [if_neg Bool.false_ne_true, List.nil_append, List.append_assoc]
      exact ⟨_, hread, hparse⟩
    | true =>
      rw [List.append_assoc, List.append_assoc]
      refine ⟨⟨.bang, (key ++ (afterKeyText m ++ c :: t)).length + 1, key ++
        (afterKeyText m ++ c :: t)⟩, rfl, ?_⟩
      unfold matcher advanceKey
      rw [hread]
      exact hparse
  cases m with
  | var name => exact ⟨_, nextKey_var hm (hc.stops t), finish_reads hst'⟩
  | tag neg key value =>
    exact hkeyed neg key (.inl ⟨value, rfl⟩) (by simp [Matcher.string, afterKeyText])
  | list neg key values =>
    exact hkeyed neg key (.inr ⟨values, rfl⟩) (by simp [Matcher.string, afterKeyText])

theorem matcher_first (h : matcher N st = .ok (m, st')) :
    st.tok ≠ .star ∧ st.tok ≠ .rbrace := by
  unfold matcher keyed at h
  constructor <;> intro htok <;> rw [htok] at h <;> cases h

theorem matchers_reads {rest : List Matcher} (hms : ∀ x ∈ m :: rest, MatcherOk x) (t : GoString) :
    ∃ st, nextKey N (joined [comma] ((m :: rest).map Matcher.string) ++ rbrace :: t) = .ok st ∧
      st.tok ≠ .star ∧ st.tok ≠ .rbrace ∧
      matchers N st = .ok (m :: rest, ⟨.rbrace, t.length + 1, t⟩) := by
  have hclose : next N (rbrace :: t) = .ok ⟨.rbrace, t.length + 1, t⟩ := rfl
  have htext : joined [comma] ((m :: rest).map Matcher.string) ++ rbrace :: t =
      m.string ++ (separated comma Matcher.string rest ++ rbrace :: t) := by
    rw [List.map_cons, joined_cons]
    simp [separated, List.flatMap_map]
  obtain ⟨st₁, hst₁, -⟩ := next_separated comma_mem Matcher.string hclose rest
  obtain ⟨d, t', heq, hd⟩ := separated_append comma Matcher.string rest rbrace t
  obtain ⟨st, hst, hfirst⟩ := matcher_reads (hms m List.mem_cons_self) hd (heq ▸ hst₁)
  rw [← heq] at hst
  have hloop : repeatWhile (fun tok => decide (tok = .comma)) (nextMatcher N) [m] st₁ =
      .ok (m :: rest, ⟨.rbrace, t.length + 1, t⟩) := by
    refine repeatWhile_reads comma_mem Matcher.string hclose (fun h => by cases h) ?_ ?_ rfl hst₁
    · intro x _
      cases x <;> simp [Matcher.string, inWord]
    · intro done x xs st₂ st₃ hitems hrest hnext
      obtain ⟨d, t', heq, hd⟩ := separated_append comma Matcher.string xs rbrace t
      have hx : MatcherOk x := hms x (hitems ▸ List.mem_append_right done List.mem_cons_self)
      obtain ⟨st₄, hst₄, hparse⟩ := matcher_reads hx hd (heq ▸ hnext)
      unfold nextMatcher advanceKey
      rw [hrest, heq, hst₄]
      simp only [ok_bind, hparse]
  rw [htext]
  refine ⟨st, hst, (matcher_first hfirst).1, (matcher_first hfirst).2, ?_⟩
  unfold matchers
  simp only [hfirst, ok_bind, hloop]
  exact if_pos trivial

/-- The filter of a query reads back, between its braces. -/
theorem filter_reads (hq : ∀ m ∈ q.filter, MatcherOk m)
    (hst : st.rest = q.filterString ++ rbrace :: t) :
    filter N st = .ok (q.filter, ⟨.rbrace, t.length + 1, t⟩) := by
  unfold filter advanceKey
  rw [hst]
  unfold Query.filterString
  cases hfilter : q.filter with
  | nil => rfl
  | cons m rest =>
    rw [hfilter] at hq
    obtain ⟨st₁, hst₁, hstar, hbrace, hparse⟩ := matchers_reads (N := N) hq t
    rw [if_neg (List.cons_ne_nil _ _), hst₁, ok_bind]
    split
    next htok =>
      exact absurd htok hstar
    next htok =>
      exact absurd htok hbrace
    · exact hparse

theorem grouping_reads (hkeys : ∀ k ∈ key :: rest, TagName k) (hnodup : (key :: rest).Nodup)
    (hst' : next N r = .ok st')
    (hst : st.rest = [space, lbrace] ++ joined [comma] (key :: rest) ++ rbrace :: r) :
    grouping N st = .ok (key :: rest, st') := by
  set text := joined [comma] (key :: rest) ++ rbrace :: r with htext
  have hopen : next N st.rest = .ok ⟨.lbrace, text.length + 1, text⟩ := by
    rw [hst]
    rfl
  have hclose : next N (rbrace :: r) = .ok ⟨.rbrace, r.length + 1, r⟩ := rfl
  have hne : ∀ k ∈ key :: rest, k ≠ [] := by
    intro k hk
    obtain ⟨c, ks, hcons, -⟩ := (hkeys k hk).shape
    rw [hcons]
    exact List.cons_ne_nil c ks
  obtain ⟨st₁, hfirst, hloop⟩ := commas_read (groupKey N) ⟨.lbrace, text.length + 1, text⟩
    hclose nofun hne (by
      intro done k ks c t st st' hitems hc hnext hrest
      refine groupKey_reads (hkeys k ?_) ?_ hc hnext hrest
      · rw [← hitems]
        exact List.mem_append_right _ List.mem_cons_self
      · rw [← hitems] at hnodup
        intro hmem
        exact (List.nodup_append.mp hnodup).2.2 k hmem k List.mem_cons_self rfl) htext
  unfold grouping advance
  rw [hopen]
  simp only [ok_bind, expect_self, hfirst, hloop]
  exact (if_pos trivial).trans (finish_reads hst')

structure Plain (st : Look F) : Prop where
  not_ident : ∀ w, st.tok ≠ .ident w
  not_dot : st.tok ≠ .dot

theorem optionalGrouping_reads (hkeys : ∀ k ∈ q.groupBy, TagName k) (hnodup : q.groupBy.Nodup)
    (hst' : next N r = .ok st') (hplain : ∀ w, st'.tok ≠ .ident w) :
    ∃ st, next N (q.byString ++ r) = .ok st ∧ optionalGrouping N st = .ok (q.groupBy, st') := by
  unfold Query.byString
  cases hby : q.groupBy with
  | nil =>
    refine ⟨st', hst', ?_⟩
    unfold optionalGrouping
    split
    next w htok =>
      exact absurd htok (hplain w)
    · rfl
  | cons key rest =>
    rw [hby] at hkeys hnodup
    have htext : byWord ++ joined [comma] (key :: rest) ++ [rbrace] ++ r =
        space :: (ofChars ['b', 'y'] ++
          ([space, lbrace] ++ joined [comma] (key :: rest) ++ rbrace :: r)) := by
      simp [byWord, ofChars, space, lbrace]
    have hword : next N (space :: (ofChars ['b', 'y'] ++
        ([space, lbrace] ++ joined [comma] (key :: rest) ++ rbrace :: r))) = _ :=
      (next_space _).trans (next_word rfl (stops_cons (by decide) _))
    have hby : (ofChars ['b', 'y']).map lowerByte = ofChars ['b', 'y'] := by decide
    rw [if_neg (List.cons_ne_nil _ _), htext]
    refine ⟨_, hword, ?_⟩
    unfold optionalGrouping
    exact grouping_reads hkeys hnodup hst' rfl

theorem optionalSeconds_reads (h : seconds ≤ maxSeconds) (r : GoString) :
    ∃ st, next N (secondsString seconds ++ rparen :: r) = .ok st ∧
      optionalSeconds N st = .ok (seconds, ⟨.rparen, r.length + 1, r⟩) := by
  rcases Nat.eq_zero_or_pos seconds with rfl | hpos
  · exact ⟨⟨.rparen, r.length + 1, r⟩, rfl, rfl⟩
  · have hdigits := digits_decimal seconds
    have hnumeral : Numeral (decimal seconds) :=
      ⟨decimal seconds, [], [], by simp, hdigits, .inl rfl, .inl rfl⟩
    have hnext := next_number (r := rparen :: r) hnumeral (N.parse_decimal seconds h)
      (stops_cons (by decide) r)
    unfold secondsString
    rw [if_pos hpos]
    refine ⟨⟨.comma, (space :: (decimal seconds ++ rparen :: r)).length + 1,
      space :: (decimal seconds ++ rparen :: r)⟩, rfl, ?_⟩
    unfold optionalSeconds advance
    rw [if_pos rfl, next_space, hnext, ok_bind]
    have hint := N.toInt_ofInt seconds h
    unfold MetricParse.seconds
    dsimp only
    rw [hint, if_neg (by simp only [ne_eq, not_true, false_or]; omega)]
    exact finish_reads rfl

theorem methodArgs_reads {words : List α} {text : α → GoString} {kind : ModKind}
    (build : α → ℕ → Modifier) (hfind : words.find? (fun w => text w = text a) = some a)
    (hword : isWord (text a) = true) (h : seconds ≤ maxSeconds) (r : GoString) :
    ∃ st, next N (text a ++ secondsString seconds ++ rparen :: r) = .ok st ∧
      methodArgs N words text kind build st = .ok
        (build a seconds, ⟨.rparen, r.length + 1, r⟩) := by
  have hstops : Stops (secondsString seconds ++ rparen :: r) := by
    unfold secondsString
    split
    · exact stops_cons (by decide) _
    · exact stops_cons (by decide) _
  obtain ⟨st, hst, hparse⟩ := optionalSeconds_reads (N := N) h r
  rw [List.append_assoc]
  refine ⟨_, next_word hword hstops, ?_⟩
  unfold methodArgs advance
  dsimp only
  rw [hfind]
  simp only [hst, ok_bind, hparse]

theorem modifierArgs_reads {m : Modifier} (hm : ModifierOk m) (r : GoString) :
    ∃ st, next N (m.args ++ rparen :: r) = .ok st ∧
      modifierArgs N m.kind st = .ok (m, ⟨.rparen, r.length + 1, r⟩) := by
  cases m with
  | rollup method seconds =>
    refine methodArgs_reads Modifier.rollup ?_ ?_ hm r
    · cases method <;> rfl
    · cases method <;> rfl
  | fill mode seconds =>
    refine methodArgs_reads Modifier.fill ?_ ?_ hm r
    · cases mode <;> rfl
    · cases mode <;> rfl
  | asRate | asCount => exact ⟨⟨.rparen, r.length + 1, r⟩, rfl, rfl⟩

theorem modKind_word (kind : ModKind) : isWord kind.text = true := by cases kind <;> rfl

theorem modKind_find (kind : ModKind) :
    modKinds.find? (fun k => k.text = kind.text) = some kind := by
  cases kind <;> rfl

theorem nextModifier_reads {m : Modifier} (hm : ModifierOk m) {done : List Modifier}
    (hnew : m.kind ∉ done.map Modifier.kind) (hst' : next N r = .ok st')
    (hst : st.rest = m.string ++ r) :
    nextModifier N done st = .ok (done ++ [m], st') := by
  obtain ⟨st₂, hst₂, hargs⟩ := modifierArgs_reads (N := N) hm r
  have htext : m.string ++ r = m.kind.text ++ (lparen :: (m.args ++ rparen :: r)) := by
    simp [Modifier.string]
  have hopen : next N (lparen :: (m.args ++ rparen :: r)) =
      .ok ⟨.lparen, (m.args ++ rparen :: r).length + 1, m.args ++ rparen :: r⟩ := rfl
  have hmodifier : ∀ left, modifier N m.kind.text
      ⟨.ident m.kind.text, left, lparen :: (m.args ++ rparen :: r)⟩ = .ok (m, st') := by
    intro left
    unfold modifier advance
    simp only [hopen, ok_bind, hst₂, modKind_find, hargs]
    exact finish_reads hst'
  unfold nextModifier advance
  rw [hst, htext, next_word (modKind_word m.kind) (stops_cons (by decide) _), ok_bind]
  dsimp only
  rw [hmodifier]
  exact if_neg hnew

theorem modifiers_reads {ms : List Modifier} (hms : ∀ m ∈ ms, ModifierOk m)
    (hnodup : (ms.map Modifier.kind).Nodup) (hlast : next N r = .ok last) (hdot : last.tok ≠ .dot)
    (hst : next N (separated period Modifier.string ms ++ r) = .ok st) :
    modifiers N st = .ok (ms, last) := by
  refine repeatWhile_reads period_mem Modifier.string hlast hdot ?_ ?_ (List.nil_append ms) hst
  · intro m _
    cases m <;> simp [Modifier.string]
  · intro done m rest st₁ st₂ hitems hrest hnext
    refine nextModifier_reads (hms m ?_) ?_ hnext hrest
    · rw [← hitems]
      exact List.mem_append_right _ List.mem_cons_self
    · rw [← hitems, List.map_append] at hnodup
      intro hmem
      exact (List.nodup_append.mp hnodup).2.2 _ hmem _ List.mem_cons_self rfl

def queryTail (q : Query) : GoString :=
  q.metric ++ [lbrace] ++ q.filterString ++ [rbrace] ++ q.byString ++
    separated period Modifier.string q.modifiers

theorem query_reads (hq : QueryOk q) (hst' : next N r = .ok st') (hplain : Plain st')
    (hst : st.rest = queryTail q ++ r) :
    query N q.agg st = .ok (.query q, st') := by
  obtain ⟨agg, metric, filter, groupBy, ms⟩ := q
  obtain ⟨st₃, hst₃, hcase⟩ := next_separated period_mem Modifier.string hst' ms
  have hident : ∀ w, st₃.tok ≠ .ident w := by
    rcases hcase with ⟨-, rfl⟩ | ⟨m, rest, -, htok, -⟩
    · exact hplain.not_ident
    · rw [htok]
      intro w hw
      cases hw
  obtain ⟨st₂, hst₂, hby⟩ := optionalGrouping_reads hq.groupBy hq.keys_nodup hst₃ hident
  have hmods := modifiers_reads hq.modifiers hq.kinds_nodup hst' hplain.not_dot hst₃
  set q : Query := ⟨agg, metric, filter, groupBy, ms⟩ with hqdef
  set tail := q.byString ++ (separated period Modifier.string ms ++ r) with htail
  set body := q.filterString ++ rbrace :: tail with hbody
  have htext : queryTail q ++ r = metric ++ (lbrace :: body) := by
    simp [queryTail, hbody, htail, hqdef]
  have hopen : next N (lbrace :: body) = .ok ⟨.lbrace, body.length + 1, body⟩ := rfl
  have hfilter : MetricParse.filter N ⟨.lbrace, body.length + 1, body⟩ = _ :=
    filter_reads hq.filter rfl
  have hword := next_word (N := N) (validMetricName_word hq.metric)
    (stops_cons (by decide) body : Stops (lbrace :: _))
  unfold query advance
  rw [hst, htext, hword, ok_bind]
  dsimp only
  rw [if_pos hq.metric]
  simp only [hopen, ok_bind, expect_self, hfilter, hst₂, hby, hmods]

end Ozymandias.MetricReading
