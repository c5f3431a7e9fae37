import Ozymandias.LogParse
import Mathlib.Data.List.TakeWhile

/-!
Printed terms read back: quoted and bare values, labels, attributes with their
comparisons and ranges. A printed word is followed by the end, by space or by a
parenthesis, and so is read to its end and no further; it is printed bare only
where it is neither a keyword nor a key nor the beginning of another term.
-/
namespace Ozymandias.LogTerms

open BitLists Ascii SeriesModel Substrings Utf8 LogQuery LogParse

variable {c : Byte} {r v : GoString}

theorem isBare_of_wordEnd (h : wordEnd r = true) : ∀ c, r.head? = some c → isBare c = false := by
  intro c hc
  cases r with
  | nil => cases hc
  | cons d r =>
    obtain rfl := Option.some.inj hc
    have h : (isSpace d || decide (d = lparen) || decide (d = rparen)) = true := h
    unfold isBare
    cases hspace : isSpace d with
    | true => rfl
    | false =>
      rw [hspace, Bool.false_or, Bool.or_eq_true, decide_eq_true_eq, decide_eq_true_eq] at h
      rcases h with rfl | rfl <;> rfl

theorem bare_append (hv : ∀ c ∈ v, isBare c = true) (hr : wordEnd r = true) :
    bare (v ++ r) = (v, r) := by
  unfold bare
  rw [takeWhile_append_stop hv (isBare_of_wordEnd hr),
    dropWhile_append_stop hv (isBare_of_wordEnd hr)]

/-- At a bare word only the word itself is a keyword. -/
theorem eq_of_keywordAt {kw : GoString} (hkw : ∀ c ∈ kw, isBare c = true)
    (hv : ∀ c ∈ v, isBare c = true) (hr : wordEnd r = true) (h : keywordAt kw (v ++ r) = true) :
    v = kw := by
  unfold keywordAt at h
  rw [Bool.and_eq_true, List.isPrefixOf_iff_prefix] at h
  obtain ⟨⟨t, ht⟩, hend⟩ := h
  rw [← ht, List.drop_left] at hend
  have htake := takeWhile_append_stop hv (isBare_of_wordEnd hr)
  rwa [← ht, takeWhile_append_stop hkw (isBare_of_wordEnd hend), eq_comm] at htake

theorem bareSafe_spec (h : bareSafe v = true) :
    v ≠ [] ∧ (∀ c ∈ v, isBare c = true) ∧ dquote ∉ v ∧ ∀ c ∈ v, isSpace c = false := by
  unfold bareSafe at h
  rw [Bool.and_eq_true, decide_eq_true_eq, List.all_eq_true] at h
  obtain ⟨hne, hall⟩ := h
  simp only [Bool.and_eq_true, decide_eq_true_eq] at hall
  have hspace : ∀ c ∈ v, isSpace c = false := by
    intro c hc
    obtain ⟨⟨⟨⟨⟨hlt, -⟩, -⟩, -⟩, -⟩, -⟩ := hall c hc
    by_contra hno
    simp only [Bool.not_eq_false, isSpace, Bool.or_eq_true, decide_eq_true_eq] at hno
    rcases hno with ((rfl | rfl) | rfl) | rfl <;> simp [space] at hlt
  refine ⟨hne, fun c hc => ?_, fun hc => ?_, hspace⟩
  · obtain ⟨⟨⟨⟨-, hl⟩, hr⟩, -⟩, -⟩ := hall c hc
    simp [isBare, hspace c hc, hl, hr]
  · obtain ⟨⟨-, hq⟩, -⟩ := hall _ hc
    exact hq rfl

theorem quotedBody_escape (opened : ℕ) (v r : GoString) :
    quotedBody opened (v.flatMap escape ++ dquote :: r) = .ok (v, r) := by
  induction v with
  | nil =>
    rw [quotedBody.eq_def]
    rfl
  | cons c v ih =>
    have hpair : ∀ e, unescape e = some c →
        quotedBody opened (backslash :: e :: (v.flatMap escape ++ dquote :: r)) =
          .ok (c :: v, r) := by
      intro e he
      rw [quotedBody.eq_def]
      simp only [he, ih]
      rfl
    rw [List.flatMap_cons]
    unfold escape
    split_ifs with hc hn ht hr
    · refine hpair c ?_
      rw [Bool.or_eq_true, decide_eq_true_eq, decide_eq_true_eq] at hc
      rcases hc with rfl | rfl <;> rfl
    · subst hn
      exact hpair 0x6e rfl
    · subst ht
      exact hpair 0x74 rfl
    · subst hr
      exact hpair 0x72 rfl
    · rw [Bool.or_eq_true, decide_eq_true_eq, decide_eq_true_eq, not_or] at hc
      change quotedBody opened (c :: (v.flatMap escape ++ dquote :: r)) = _
      rw [quotedBody.eq_def]
      simp only [if_neg hc.1, if_neg hc.2, ih]
      rfl

theorem quoted_quote (v r : GoString) : quoted (quote v ++ r) = .ok (v, r) := by
  have hcut : (quote v ++ r).drop 1 = v.flatMap escape ++ dquote :: r := by
    simp [quote]
  unfold quoted
  rw [hcut, quotedBody_escape]

theorem quote_head (v r : GoString) : (quote v ++ r).head? = some dquote := rfl

theorem value_quote (what v r : GoString) : value what (quote v ++ r) = .ok (v, r) := by
  have hblank : blank (quote v ++ r) = false := rfl
  unfold value
  rw [if_neg (by rw [hblank]; simp), if_pos (quote_head v r), quoted_quote]

/-- A printed value reads back. -/
theorem value_valueText (what v : GoString) (hr : wordEnd r = true) :
    value what (valueText v ++ r) = .ok (v, r) := by
  unfold valueText
  split
  next hsafe =>
    obtain ⟨hne, hbare, hquote, hspace⟩ := bareSafe_spec hsafe
    obtain ⟨c, v, rfl⟩ := List.exists_cons_of_ne_nil hne
    have hc := hbare c List.mem_cons_self
    have hblank : blank (c :: v ++ r) = false := by
      have hclose : c ≠ rparen := by
        rintro rfl
        cases hc
      simp [blank, hspace c List.mem_cons_self, hclose]
    have hhead : (c :: v ++ r).head? ≠ some dquote := by
      intro hd
      obtain rfl := Option.some.inj hd
      exact hquote List.mem_cons_self
    unfold value
    rw [if_neg (by rw [hblank]; simp), if_neg hhead, bare_append hbare hr]
  next => exact value_quote what v r

theorem keyNamed_keyText (k : Key) : keyNamed (keyText k) = some k := by
  cases k <;> decide

theorem keyAt_keyText (k : Key) (s : GoString) :
    keyAt (keyText k ++ colon :: s) = some (keyText k) := by
  have hword : ∀ c ∈ keyText k, isWord c = true := by
    cases k <;> decide
  have hstop : ∀ c, (colon :: s).head? = some c → isWord c = false := stop_cons rfl s
  have hdigit : (keyText k ++ colon :: s).head?.any isDigit = false := by
    cases k <;> rfl
  have hne : keyText k ≠ [] := by
    cases k <;> decide
  unfold keyAt
  rw [if_neg (by rw [hdigit]; simp), takeWhile_append_stop hword hstop,
    dropWhile_append_stop hword hstop, if_pos ⟨hne, rfl⟩]

/-- A key at the front is followed by a colon. -/
theorem keyAt_spec {s name : GoString} (h : keyAt s = some name) :
    name ≠ [] ∧ (∀ c ∈ name, isWord c = true) ∧ ∃ t, s = name ++ colon :: t := by
  unfold keyAt at h
  split at h
  next => cases h
  next =>
    obtain ⟨hname, rfl⟩ := Option.ite_some_none_eq_some.mp h
    obtain ⟨hne, hcolon⟩ := hname
    refine ⟨hne, fun c hc => List.mem_takeWhile_imp hc, (s.dropWhile isWord).tail, ?_⟩
    have hcons : s.dropWhile isWord = colon :: (s.dropWhile isWord).tail :=
      (List.cons_head?_tail hcolon).symm
    rw [← hcons, List.takeWhile_append_dropWhile]

theorem isBare_of_isWord (h : isWord c = true) : isBare c = true := by
  revert c
  decide

section Attributes

variable {F : Type} {N : Numbers F}

/-- An attribute term as the parser builds it: the fields its operator does not use are zero. -/
def AttrOk (N : Numbers F) (a : Attr F) : Prop :=
  (a.path ≠ [] ∧ ∀ c ∈ a.path, isPath c = true) ∧
    match a.op with
    | .eq => a.num = N.zero ∧ a.hi = N.zero
    | .range => a.value = [] ∧ N.finite a.num = true ∧ N.finite a.hi = true ∧
        N.lt a.hi a.num = false
    | _ => a.value = [] ∧ a.hi = N.zero ∧ N.finite a.num = true

/-- The bytes of printed numbers. -/
theorem numeral_byte (h : isDigit c = true ∨ c = 0x2b ∨ c = minus ∨ c = dot ∨ c = 0x65) :
    isBare c = true ∧ c ≠ equals ∧ c ≠ rbracket ∧ c.toNat < 0x80 ∧
      isUnicodeSpace c.toNat = false := by
  rcases h with h | rfl | rfl | rfl | rfl
  · unfold isDigit at h
    simp only [Bool.and_eq_true, decide_eq_true_eq] at h
    have hne : ∀ d : Byte, d.toNat < 0x30 ∨ 0x39 < d.toNat → c ≠ d := by
      rintro d hd rfl
      omega
    refine ⟨?_, hne _ (by decide), hne _ (by decide), by omega, ?_⟩
    · simp only [isBare, isSpace, Bool.and_eq_true, Bool.not_eq_true', Bool.or_eq_false_iff,
        decide_eq_false_iff_not, decide_eq_true_eq]
      exact ⟨⟨⟨⟨⟨hne _ (by decide), hne _ (by decide)⟩, hne _ (by decide)⟩, hne _ (by decide)⟩,
        hne _ (by decide)⟩, hne _ (by decide)⟩
    · simp only [isUnicodeSpace, List.mem_cons, List.not_mem_nil, or_false, Bool.or_eq_false_iff,
        decide_eq_false_iff_not, Bool.and_eq_false_iff]
      omega
  all_goals decide

variable {f : F} {cur : GoString} {a : Attr F}

theorem format_byte (hf : N.finite f = true) (hc : c ∈ N.format f) :
    isBare c = true ∧ c ≠ equals ∧ c ≠ rbracket ∧ c.toNat < 0x80 ∧ isUnicodeSpace c.toNat = false :=
  numeral_byte (N.format_text f hf c hc)

theorem number_format (hf : N.finite f = true) (hr : wordEnd r = true) :
    number N (N.format f ++ r) = .ok (f, r) := by
  unfold number
  rw [bare_append (fun c hc => (format_byte hf hc).1) hr]
  simp [N.parse_format f hf, N.format_ne_nil f, hf]

/-- A comparison is strict unless an equals sign follows. -/
theorem comparison_format (path : GoString) (strict loose : Op) (hf : N.finite f = true)
    (hr : wordEnd r = true) :
    comparison N path strict loose (N.format f ++ r) = .ok
      (.attr ⟨path, strict, [], f, N.zero⟩, r) ∧
      comparison N path strict loose (equals :: N.format f ++ r) =
        .ok (.attr ⟨path, loose, [], f, N.zero⟩, r) := by
  have hhead : (N.format f ++ r).head? ≠ some equals := by
    obtain ⟨c, rest, hcons⟩ := List.exists_cons_of_ne_nil (N.format_ne_nil f)
    have hc : c ∈ N.format f := by
      rw [hcons]
      exact List.mem_cons_self
    intro hhead
    rw [hcons] at hhead
    exact (format_byte hf hc).2.1 (Option.some.inj hhead)
  unfold comparison
  constructor
  · rw [if_neg hhead, number_format hf hr]
    rfl
  · have hdrop : (equals :: N.format f ++ r).drop 1 = N.format f ++ r := rfl
    rw [hdrop, number_format hf hr]
    rfl

/-- A word of ASCII goes into the field at hand. -/
theorem fieldsFrom_word {w : GoString}
    (hw : ∀ c ∈ w, c.toNat < 0x80 ∧ isUnicodeSpace c.toNat = false) (fuel : ℕ) (cur s : GoString) :
    fieldsFrom (w.length + fuel) cur (w ++ s) = fieldsFrom fuel (cur ++ w) s := by
  induction w generalizing cur with
  | nil => rw [List.append_nil, List.length_nil, Nat.zero_add, List.nil_append]
  | cons c w ih =>
    obtain ⟨hascii, hspace⟩ := hw c List.mem_cons_self
    have hdecode : decodeRune c (w ++ s) = (c.toNat, w ++ s) := by
      unfold decodeRune
      rw [if_pos hascii]
    have hlen : (c :: w).length + fuel = (w.length + fuel) + 1 := by
      rw [List.length_cons]
      omega
    rw [hlen, List.cons_append, fieldsFrom]
    simp only [hdecode, hspace, Bool.false_eq_true, if_false, Nat.add_sub_cancel_left,
      List.take_succ_cons, List.take_zero]
    rw [ih (List.forall_mem_cons.mp hw).2, List.append_assoc, List.singleton_append]

theorem fieldsFrom_space (hcur : cur ≠ []) (fuel : ℕ) (s : GoString) :
    fieldsFrom (fuel + 1) cur (space :: s) = cur :: fieldsFrom fuel [] s := by
  have hdecode : decodeRune space s = (0x20, s) := rfl
  have hspace : isUnicodeSpace 0x20 = true := rfl
  rw [fieldsFrom]
  simp only [hdecode, hspace, if_true, if_neg hcur, List.singleton_append]

theorem fieldsFrom_nil (hcur : cur ≠ []) (fuel : ℕ) : fieldsFrom fuel cur [] = [cur] := by
  cases fuel <;> simp [fieldsFrom, hcur]

/-- The three words of a range. -/
theorem fields_range {a b c : GoString} (ha : a ≠ []) (hb : b ≠ []) (hc : c ≠ [])
    (hasc : ∀ x ∈ a ++ b ++ c, x.toNat < 0x80 ∧ isUnicodeSpace x.toNat = false) :
    fields (a ++ space :: b ++ space :: c) = [a, b, c] := by
  have hin : ∀ w, w <:+: a ++ b ++ c → ∀ x ∈ w, x.toNat < 0x80 ∧ isUnicodeSpace x.toNat = false :=
    fun w hw x hx => hasc x (hw.subset hx)
  have hlen : (a ++ space :: b ++ space :: c).length =
      a.length + ((b.length + ((c.length + 0) + 1)) + 1) := by
    simp only [List.length_append, List.length_cons]
    omega
  unfold fields
  rw [hlen, List.append_assoc, fieldsFrom_word (hin a ⟨[], b ++ c, by simp⟩), List.nil_append,
    List.cons_append, fieldsFrom_space ha, fieldsFrom_word (hin b ⟨a, c, by simp⟩), List.nil_append,
    fieldsFrom_space hb]
  have hlast := fieldsFrom_word (hin c ⟨a ++ b, [], by simp⟩) 0 [] []
  rw [List.append_nil, List.nil_append, Nat.add_zero] at hlast
  rw [hlast, fieldsFrom_nil hc]

theorem rangeTerm_format (path : GoString) {lo hi : F} (hlo : N.finite lo = true)
    (hhi : N.finite hi = true) (hle : N.lt hi lo = false) (r : GoString) :
    rangeTerm N path (lbracket :: N.format lo ++ space :: toWord ++ space :: N.format hi ++
      [rbracket] ++ r) = .ok (.attr ⟨path, .range, [], lo, hi⟩, r) := by
  set inner := N.format lo ++ space :: toWord ++ space :: N.format hi with hdef
  have hinner : ∀ c ∈ lbracket :: inner, decide (c ≠ rbracket) = true := by
    intro c hc
    simp only [hdef, List.mem_cons, List.mem_append, toWord, List.not_mem_nil, or_false] at hc
    rw [decide_eq_true_eq]
    rcases hc with rfl | (hc | rfl | rfl | rfl) | rfl | hc
    any_goals decide
    · exact (format_byte hlo hc).2.2.1
    · exact (format_byte hhi hc).2.2.1
  have hstop : ∀ c, (rbracket :: r).head? = some c → decide (c ≠ rbracket) = false :=
    stop_cons rfl r
  have htext : lbracket :: N.format lo ++ space :: toWord ++ space :: N.format hi ++
    [rbracket] ++ r =
      (lbracket :: inner) ++ rbracket :: r := by
    simp [hdef]
  have hfields : fields inner = [N.format lo, toWord, N.format hi] := by
    refine fields_range (N.format_ne_nil lo) (by decide) (N.format_ne_nil hi) ?_
    refine List.forall_mem_append.mpr ⟨?_, fun x hx => (format_byte hhi hx).2.2.2⟩
    exact List.forall_mem_append.mpr ⟨fun x hx => (format_byte hlo hx).2.2.2, by decide⟩
  unfold rangeTerm
  rw [htext, takeWhile_append_stop hinner hstop, dropWhile_append_stop hinner hstop,
    List.drop_succ_cons, List.drop_zero, hfields]
  simp [N.parse_format lo hlo, N.parse_format hi hhi, hlo, hhi, hle]

/-- The operand of an attribute term reads back. -/
theorem operand_string (ha : AttrOk N a) (hr : wordEnd r = true) :
    operand N a.path (operandString N a ++ r) = .ok (.attr a, r) := by
  obtain ⟨path, op, v, lo, hi⟩ := a
  obtain ⟨-, hop⟩ := ha
  cases op with
  | gt =>
    obtain ⟨rfl, rfl, hf⟩ := hop
    exact (comparison_format path .gt .ge hf hr).1
  | ge =>
    obtain ⟨rfl, rfl, hf⟩ := hop
    exact (comparison_format path .gt .ge hf hr).2
  | lt =>
    obtain ⟨rfl, rfl, hf⟩ := hop
    exact (comparison_format path .lt .le hf hr).1
  | le =>
    obtain ⟨rfl, rfl, hf⟩ := hop
    exact (comparison_format path .lt .le hf hr).2
  | range =>
    obtain ⟨rfl, hlo, hhi, hle⟩ := hop
    exact rangeTerm_format path hlo hhi hle r
  | eq =>
    obtain ⟨rfl, rfl⟩ := hop
    have hplain : ∀ s : GoString, blank s = false → s.head? ≠ some greater →
        s.head? ≠ some less → s.head? ≠ some lbracket →
        operand N path s = (value (atSign :: path) s).map
          (fun x => (.attr ⟨path, .eq, x.1, N.zero, N.zero⟩, x.2)) := by
      intro s hblank hgt hlt hbr
      unfold operand
      rw [if_neg (by rw [hblank]; simp), if_neg hgt, if_neg hlt, if_neg hbr]
    change operand N path ((if v ≠ [] ∧ v.head? ≠ some greater ∧ v.head? ≠ some less ∧
      v.head? ≠ some lbracket then valueText v else quote v) ++ r) = _
    split
    next hv =>
      obtain ⟨hne, hgt, hlt, hbr⟩ := hv
      have hread := value_valueText (atSign :: path) v hr
      have hhead : (valueText v ++ r).head? = v.head? ∨ (valueText v ++ r).head? = some dquote := by
        unfold valueText
        split
        · obtain ⟨c, v, rfl⟩ := List.exists_cons_of_ne_nil hne
          exact Or.inl rfl
        · exact Or.inr rfl
      have hblank : blank (valueText v ++ r) = false := by
        by_contra hno
        rw [Bool.not_eq_false] at hno
        unfold value at hread
        rw [if_pos hno] at hread
        cases hread
      rw [hplain _ hblank, hread]
      · rfl
      all_goals
        rcases hhead with hhead | hhead
        · rw [hhead]
          assumption
        · rw [hhead]
          decide
    next =>
      rw [hplain (quote v ++ r) rfl (by rw [quote_head]; decide) (by rw [quote_head]; decide)
        (by rw [quote_head]; decide), value_quote]
      rfl

/-- A printed attribute term reads back. -/
theorem attr_string (ha : AttrOk N a) (hr : wordEnd r = true) :
    attr N (Attr.string N a ++ r) = .ok (.attr a, r) := by
  obtain ⟨hne, hpath⟩ := ha.1
  have hstop : ∀ t : GoString, ∀ c, (colon :: t).head? = some c → isPath c = false := stop_cons rfl
  unfold attr Attr.string
  simp only [List.cons_append, List.append_assoc, List.drop_succ_cons, List.drop_zero,
    takeWhile_append_stop hpath (hstop _), dropWhile_append_stop hpath (hstop _), if_neg hne,
    List.head?_cons, ne_eq, not_true_eq_false]
  exact operand_string ha hr

end Attributes

end Ozymandias.LogTerms
