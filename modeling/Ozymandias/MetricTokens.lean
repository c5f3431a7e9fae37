import Ozymandias.MetricParse

/-!
Tokens of metric queries: what the lexer can return for any text, and what it
returns for a printed piece in front of text that does not continue it.
-/
namespace Ozymandias.MetricTokens

open BitLists Ascii Utf8 Substrings Loops MetricLex
open SeriesModel (GoString colon)

variable {F : Type} {N : Strconv F} {c : Byte} {r : GoString} (s : GoString) {w : GoString}

theorem isSpace_of_lt (h : 0x20 < c.toNat) : isSpace c = false := by
  have hne : ∀ b : Byte, b.toNat ≤ 0x20 → c ≠ b := by
    rintro b hb rfl
    omega
  unfold isSpace
  rw [decide_eq_false (hne space (by decide)), decide_eq_false (hne 0x09 (by decide)),
    decide_eq_false (hne 0x0a (by decide)), decide_eq_false (hne 0x0d (by decide))]
  rfl

theorem isLetter_toNat (h : isLetter c = true) :
    0x61 ≤ c.toNat ∧ c.toNat ≤ 0x7a ∨ 0x41 ≤ c.toNat ∧ c.toNat ≤ 0x5a := by
  simpa [isLetter] using h

theorem isDigit_toNat (h : isDigit c = true) : 0x30 ≤ c.toNat ∧ c.toNat ≤ 0x39 := by
  simpa [isDigit] using h

variable {b : Byte} {e t stop name key : GoString}

theorem ne_of_toNat (h : c.toNat ≠ b.toNat) : c ≠ b := fun heq => h (heq ▸ rfl)

theorem isLower_letter (h : isLower c = true) : isLetter c = true := by
  have h : 0x61 ≤ c.toNat ∧ c.toNat ≤ 0x7a := by simpa [isLower] using h
  simp [isLetter, h]

theorem isTagKeyChar_key (h : isTagKeyChar c = true) : isKey c = true := by
  have hl := @isLower_letter c
  revert h
  simp only [isTagKeyChar, isKey, isName, Bool.or_eq_true]
  tauto

/-- The letters of lower case stay. -/
theorem lowerByte_tagKeyChar (h : isTagKeyChar c = true) : lowerByte c = c := by
  refine if_neg ?_
  intro hupper
  simp only [isTagKeyChar, isLower, isDigit, Bool.or_eq_true, Bool.and_eq_true,
    decide_eq_true_eq] at h
  rcases h with ((((h | h) | h) | h) | h) | h
  · omega
  · omega
  all_goals
    rw [h] at hupper
    revert hupper
    decide

theorem lowerByte_cases (c : Byte) :
    lowerByte c = c ∨ isLetter c = true ∧ isLower (lowerByte c) = true := by
  by_cases h : 65 ≤ c.toNat ∧ c.toNat ≤ 90
  · refine .inr ⟨?_, ?_⟩
    · simp [isLetter, h]
    · have hnat : (c + 32).toNat = c.toNat + 32 := by
        exact Nat.mod_eq_of_lt (by change c.toNat + 32 < 256; omega)
      have hlow : lowerByte c = c + 32 := if_pos h
      rw [hlow, isLower, Bool.and_eq_true, decide_eq_true_eq, decide_eq_true_eq]
      omega
  · exact .inl (if_neg h)

theorem lowerByte_idem (c : Byte) : lowerByte (lowerByte c) = lowerByte c := by
  rcases lowerByte_cases c with heq | ⟨-, hlow⟩
  · rw [heq, heq]
  · exact lowerByte_tagKeyChar (by simp [isTagKeyChar, hlow])

theorem isName_lowerByte (h : isName c = true) : isName (lowerByte c) = true := by
  rcases lowerByte_cases c with heq | ⟨-, hlow⟩
  · rw [heq]
    exact h
  · simp [isName, isLower_letter hlow]

theorem colon_lowerByte (h : isKey c = true) : lowerByte c ≠ colon := by
  rcases lowerByte_cases c with heq | ⟨-, hlow⟩
  · rw [heq]
    rintro rfl
    revert h
    decide
  · rintro heq
    rw [heq] at hlow
    revert hlow
    decide

def Stops (r : GoString) : Prop := ∀ c, r.head? = some c → isName c = false

theorem isDigit_name (h : isName c = false) : isDigit c = false := by
  revert h
  unfold isName
  cases isDigit c <;> simp

theorem digits_append {ds : GoString} (h : Digits ds)
    (hr : ∀ c, r.head? = some c → isDigit c = false) :
    (ds ++ r).takeWhile isDigit = ds ∧ (ds ++ r).dropWhile isDigit = r :=
  ⟨takeWhile_append_stop h.2 hr, dropWhile_append_stop h.2 hr⟩

theorem digits_takeWhile {s : GoString} (h : s.head?.any isDigit = true) :
    Digits (s.takeWhile isDigit) := by
  cases s with
  | nil => cases h
  | cons c rest =>
    have hc : isDigit c = true := h
    refine ⟨?_, fun x hx => List.mem_takeWhile_imp hx⟩
    rw [List.takeWhile_cons_of_pos hc]
    exact List.cons_ne_nil _ _

theorem fraction_eq : (fraction s).1 ++ (fraction s).2 = s := by
  unfold fraction
  split
  · split
    · rw [List.cons_append, List.takeWhile_append_dropWhile]
    · rfl
  · rfl

theorem fraction_ok : Fraction (fraction s).1 := by
  unfold fraction
  split
  next p d rest =>
    split
    next h =>
      obtain ⟨hp, hd⟩ := Bool.and_eq_true_iff.mp h
      have hp : p = period := by simpa using hp
      rw [hp]
      exact .inr ⟨_, rfl, digits_takeWhile hd⟩
    · exact .inl rfl
  · exact .inl rfl

theorem exponent_ok : Exponent (exponent s).1 := by
  unfold exponent
  split
  next e rest =>
    dsimp only
    split
    next h =>
      obtain ⟨he, hne⟩ := Bool.and_eq_true_iff.mp h
      refine .inr ⟨e, signOf rest, _, rfl, by simpa using he, ?_, by simpa using hne,
        fun x hx => List.mem_takeWhile_imp hx⟩
      unfold signOf
      split
      next c _ =>
        split
        next hc =>
          have hc : c = plus ∨ c = minus := by simpa using hc
          rcases hc with rfl | rfl
          · exact .inr (.inl rfl)
          · exact .inr (.inr rfl)
        · exact .inl rfl
      · exact .inl rfl
    · exact .inl rfl
  · exact .inl rfl

theorem exponent_length : (exponent s).2.length ≤ s.length := by
  unfold exponent
  split
  next e rest =>
    dsimp only
    split
    · have h₁ := (List.dropWhile_suffix (l := rest.drop (signOf rest).length) isDigit).length_le
      have h₂ := List.length_drop (i := (signOf rest).length) (l := rest)
      change (List.dropWhile isDigit (rest.drop (signOf rest).length)).length ≤ rest.length + 1
      omega
    · exact le_rfl
  · exact le_rfl

theorem scanNumber_ok {s : GoString} (h : s.head?.any isDigit = true) : Numeral (scanNumber s).1 :=
  ⟨_, _, _, rfl, digits_takeWhile h, fraction_ok _, exponent_ok _⟩

theorem scanNumber_length {s : GoString} (h : s.head?.any isDigit = true) :
    (scanNumber s).2.length < s.length := by
  have hdigits := digits_takeWhile h
  have hsplit := congrArg List.length (List.takeWhile_append_dropWhile (p := isDigit) (l := s))
  have hfraction := congrArg List.length (fraction_eq (s.dropWhile isDigit))
  have hexp := exponent_length (fraction (s.dropWhile isDigit)).2
  have hpos := List.length_pos_iff.mpr hdigits.1
  rw [List.length_append] at hsplit hfraction
  change (exponent (fraction (s.dropWhile isDigit)).2).2.length < s.length
  omega

theorem Stops.not_exponent (hr : Stops r) : exponent r = ([], r) := by
  cases r with
  | nil => rfl
  | cons c rest =>
    have hc := hr c rfl
    refine if_neg ?_
    rw [Bool.and_eq_true, not_and]
    intro he
    have he : c = 0x65 ∨ c = 0x45 := by simpa using he
    have hname : isName c = true := by rcases he with rfl | rfl <;> decide
    rw [hname] at hc
    cases hc

theorem exponent_append (he : Exponent e) (hr : Stops r) : exponent (e ++ r) = (e, r) := by
  rcases he with rfl | ⟨x, sign, ds, rfl, hx, hsign, hds⟩
  · exact hr.not_exponent
  · have hspan := digits_append hds (fun c hc => isDigit_name (hr c hc))
    have hd : signOf (sign ++ ds ++ r) = sign := by
      rcases hsign with rfl | rfl | rfl
      · cases ds with
        | nil => exact absurd rfl hds.1
        | cons d ds =>
          have hdigit := isDigit_toNat (hds.2 d List.mem_cons_self)
          refine if_neg ?_
          have h₁ : d ≠ plus := ne_of_toNat (by change d.toNat ≠ 0x2b; omega)
          have h₂ : d ≠ minus := ne_of_toNat (by change d.toNat ≠ 0x2d; omega)
          simp [h₁, h₂]
      · rfl
      · rfl
    have hdrop : (sign ++ ds ++ r).drop sign.length = ds ++ r := by
      rw [List.append_assoc, List.drop_left]
    change exponent (x :: (sign ++ ds ++ r)) = _
    have hcond : ((decide (x = 0x65) || decide (x = 0x45)) && decide (ds ≠ [])) = true := by
      rw [Bool.and_eq_true]
      exact ⟨by simpa using hx, by simpa using hds.1⟩
    unfold exponent
    dsimp only
    rw [hd, hdrop, hspan.1, hspan.2]
    exact if_pos hcond

theorem fraction_append {f : GoString} (hf : Fraction f)
    (hr : ∀ c, r.head? = some c → c ≠ period ∧ isDigit c = false) : fraction (f ++ r) = (f, r) := by
  rcases hf with rfl | ⟨ds, rfl, hds⟩
  · cases r with
    | nil => rfl
    | cons c rest =>
      cases rest with
      | nil => rfl
      | cons d rest =>
        refine if_neg ?_
        simp [(hr c rfl).1]
  · obtain ⟨hne, hall⟩ := hds
    cases ds with
    | nil => exact absurd rfl hne
    | cons d ds =>
      have hspan := digits_append ⟨hne, hall⟩ (fun c hc => (hr c hc).2)
      have hcond : (decide (period = period) && isDigit d) = true := by
        simp [hall d List.mem_cons_self]
      have hone : fraction (period :: d :: (ds ++ r)) =
          (period :: ((d :: ds) ++ r).takeWhile isDigit, ((d :: ds) ++ r).dropWhile isDigit) :=
        if_pos hcond
      rw [hspan.1, hspan.2] at hone
      exact hone

theorem Stops.head (hr : Stops r) (hc : r.head? = some c) :
    c ≠ period ∧ isDigit c = false := by
  refine ⟨?_, isDigit_name (hr c hc)⟩
  rintro rfl
  exact absurd (hr _ hc) (by decide)

/-- What follows the fraction of a numeral does not continue it. -/
theorem exponent_head (he : Exponent e) (hr : Stops r) (hc : (e ++ r).head? = some c) :
    c ≠ period ∧ isDigit c = false := by
  rcases he with rfl | ⟨x, sign, ds, rfl, hx, -, -⟩
  · exact hr.head hc
  · have hcx : x = c := by simpa using hc
    rw [← hcx]
    rcases hx with rfl | rfl <;> decide

/-- A numeral is read whole. -/
theorem scanNumber_append (ht : Numeral t) (hr : Stops r) : scanNumber (t ++ r) = (t, r) := by
  obtain ⟨whole, f, e, rfl, hwhole, hf, he⟩ := ht
  have hfr : ∀ c, (e ++ r).head? = some c → c ≠ period ∧ isDigit c = false :=
    fun c hc => exponent_head he hr hc
  have hhead : ∀ c, (f ++ (e ++ r)).head? = some c → isDigit c = false := by
    intro c hc
    rcases hf with rfl | ⟨ds, rfl, -⟩
    · exact (hfr c hc).2
    · have hcp : period = c := by simpa using hc
      rw [← hcp]
      decide
  have hspan := digits_append hwhole hhead
  have hassoc : whole ++ f ++ e ++ r = whole ++ (f ++ (e ++ r)) := by simp only [List.append_assoc]
  unfold scanNumber
  rw [hassoc, hspan.1, hspan.2, fraction_append hf hfr]
  dsimp only
  rw [exponent_append he hr]

def NumberOk (N : Strconv F) (v : F) : Prop := ∃ t, Numeral t ∧ N.parseFloat t = some v

structure VarOk (name : GoString) : Prop where
  ne_nil : name ≠ []
  names : ∀ c ∈ name, isName c = true
  lowered : name.map lowerByte = name

/-- A value between bytes that end it, without space around it. -/
structure ValueOk (stop v : GoString) : Prop where
  ne_nil : v ≠ []
  free : ∀ c ∈ v, c ∉ stop
  first : ∀ c, v.head? = some c → isSpace c = false
  last : ∀ c, v.getLast? = some c → isSpace c = false

def Token.Ok (N : Strconv F) : Token F → Prop
  | .number _ v => NumberOk N v
  | .var name => VarOk name
  | .key key => colon ∉ key
  | _ => True

structure Lexed (N : Strconv F) (s : GoString) (st : Look F) : Prop where
  ok : Token.Ok N st.tok
  rest_le : st.rest.length ≤ s.length
  rest_lt : st.tok ≠ .eof → st.rest.length < s.length

theorem dropWhile_lt {p : Byte → Bool} {s : GoString} (h : p c = true) :
    ((c :: s).dropWhile p).length < (c :: s).length := by
  rw [List.dropWhile_cons_of_pos h]
  exact Nat.lt_succ_of_le (List.dropWhile_suffix p).length_le

/-- An error of the parser's own, not of a loop that makes no progress. -/
def Known (e : Fail F) : Prop := e.msg ≠ .stuck

theorem Outcome.map_length {x : Except (Fail F) (GoString × GoString)} {n m : ℕ}
    (h : Outcome (fun v => v.2.length ≤ n) Known x) (hle : n ≤ m) :
    Outcome (fun v => v.2.length ≤ m) Known (x.map (fun v => (b :: v.1, v.2))) := by
  cases x with
  | error e => exact h
  | ok v => exact Nat.le_trans h hle

theorem quotedBody_outcome (opened : ℕ) (s : GoString) :
    Outcome (fun v => v.2.length ≤ s.length) (Known (F := F)) (quotedBody opened s) := by
  fun_induction quotedBody opened s with
  | case1 | case3 | case4 | case6 => exact nofun
  | case2 => exact Nat.le_succ _
  | case5 e rest' hescape hquote ih =>
    exact Outcome.map_length ih (by simp only [List.length_cons]; omega)
  | case7 c rest hquote hback hline ih => exact Outcome.map_length ih (Nat.le_succ _)

theorem punctuation_ok {t : Token F} (h : punctuation c = some t) : Token.Ok N t := by
  obtain ⟨x, hx, rfl⟩ := Option.map_eq_some_iff.mp h
  have hall : ∀ x ∈ (punctuationTable : List (Byte × Token F)), Token.Ok N x.2 := by
    simp [punctuationTable, Token.Ok]
  exact hall x (List.mem_of_find?_eq_some hx)

theorem token_outcome : Outcome (Lexed N s) Known (token N s) := by
  cases s with
  | nil => exact ⟨trivial, le_rfl, fun h => absurd rfl h⟩
  | cons c rest =>
    unfold token
    dsimp only
    split
    next hletter =>
      have hlt := dropWhile_lt (s := rest) (show isName c = true by simp [isName, hletter])
      exact ⟨trivial, hlt.le, fun _ => hlt⟩
    · split
      next hdigit =>
        split
        next v hv =>
          have hlt := scanNumber_length (s := c :: rest) hdigit
          exact ⟨⟨_, scanNumber_ok (s := c :: rest) hdigit, hv⟩, hlt.le, fun _ => hlt⟩
        · exact nofun
      · split
        · split
          · exact nofun
          next hne =>
            have hlt := Nat.lt_succ_of_le (List.dropWhile_suffix (l := rest) isName).length_le
            refine ⟨⟨?_, ?_, ?_⟩, hlt.le, fun _ => hlt⟩
            · simpa using hne
            · intro x hx
              obtain ⟨y, hy, rfl⟩ := List.mem_map.mp hx
              exact isName_lowerByte (List.mem_takeWhile_imp hy)
            · rw [List.map_map]
              exact List.map_congr_left (fun x _ => lowerByte_idem x)
        · split
          · have hbody := quotedBody_outcome (F := F) (c :: rest).length rest
            cases hq : quotedBody (c :: rest).length rest with
            | error e =>
              rw [hq] at hbody
              exact hbody
            | ok v =>
              rw [hq] at hbody
              have hlt := Nat.lt_succ_of_le hbody
              exact ⟨trivial, hlt.le, fun _ => hlt⟩
          · split
            next t ht =>
              exact ⟨punctuation_ok ht, Nat.le_succ _, fun _ => Nat.lt_succ_self _⟩
            · exact nofun

theorem skipSpace_length : (skipSpace s).length ≤ s.length :=
  (List.dropWhile_suffix isSpace).length_le

theorem Lexed.skip {s : GoString} {st : Look F} (h : Lexed N (skipSpace s) st) : Lexed N s st := by
  have hle := skipSpace_length s
  exact ⟨h.ok, h.rest_le.trans hle, fun hne => (h.rest_lt hne).trans_le hle⟩

theorem next_outcome : Outcome (Lexed N s) Known (next N s) :=
  (token_outcome (skipSpace s)).mono (fun _ h => h.skip)

theorem nextKey_outcome : Outcome (Lexed N s) Known (nextKey N s) := by
  unfold nextKey
  dsimp only
  refine Outcome.mono ?_ (fun _ => Lexed.skip)
  generalize skipSpace s = s
  split
  next hletter =>
    cases s with
    | nil => cases hletter
    | cons c rest =>
      have hletter : isLetter c = true := hletter
      have hlt := dropWhile_lt (s := rest) (show isKey c = true by simp [isKey, isName, hletter])
      refine ⟨?_, hlt.le, fun _ => hlt⟩
      intro hmem
      obtain ⟨y, hy, heq⟩ := List.mem_map.mp hmem
      exact colon_lowerByte (List.mem_takeWhile_imp hy) heq
  · exact next_outcome s

theorem nextValue_ok {s : GoString} (h : (nextValue stop s).text ≠ []) :
    ValueOk stop (nextValue stop s).text ∧ (nextValue stop s).rest.length < s.length := by
  unfold nextValue at h ⊢
  dsimp only at h ⊢
  set body := (skipSpace s).takeWhile (fun c => decide (c ∉ stop)) with hbody
  have hpre : body.rdropWhile isSpace <+: body := List.rdropWhile_prefix _ _
  have hbodyne : body ≠ [] := by
    intro hnil
    rw [hnil] at h
    exact h rfl
  refine ⟨⟨h, ?_, ?_, ?_⟩, ?_⟩
  · intro c hc
    have hc : c ∈ body := hpre.mem hc
    simpa using List.mem_takeWhile_imp hc
  · intro c hc
    obtain ⟨t, ht⟩ := hpre
    have hhead : body.head? = some c := by rw [← ht, List.head?_append, hc]; rfl
    have hskip : (skipSpace s).head? = some c := by
      rw [List.head?_takeWhile] at hhead
      exact (Option.filter_eq_some_iff.mp hhead).1
    have hfirst := List.head?_dropWhile_not isSpace s
    unfold skipSpace at hskip
    rw [hskip] at hfirst
    simpa using hfirst
  · intro c hc
    have hlast := List.rdropWhile_last_not isSpace body h
    rw [List.getLast?_eq_some_getLast h] at hc
    rw [Option.some.inj hc] at hlast
    simpa using hlast
  · have hsplit := congrArg List.length
      (List.takeWhile_append_dropWhile (p := fun c => decide (c ∉ stop)) (l := skipSpace s))
    rw [List.length_append] at hsplit
    have hpos := List.length_pos_iff.mpr hbodyne
    have hle := skipSpace_length s
    rw [← hbody] at hsplit
    omega

theorem next_space : next N (space :: s) = next N s := rfl

theorem skipSpace_cons {s : GoString} (h : isSpace c = false) : skipSpace (c :: s) = c :: s :=
  List.dropWhile_cons_of_neg (by rw [h]; exact Bool.false_ne_true)

theorem next_punctuation {t : Token F} (h : (c, t) ∈ punctuationTable) (r : GoString) :
    next N (c :: r) = .ok ⟨t, r.length + 1, r⟩ := by
  simp only [punctuationTable, List.mem_cons, List.not_mem_nil, or_false] at h
  rcases h with ⟨rfl, rfl⟩ | ⟨rfl, rfl⟩ | ⟨rfl, rfl⟩ | ⟨rfl, rfl⟩ | ⟨rfl, rfl⟩ | ⟨rfl,
    rfl⟩ | ⟨rfl, rfl⟩ |
    ⟨rfl, rfl⟩ | ⟨rfl, rfl⟩ | ⟨rfl, rfl⟩ | ⟨rfl, rfl⟩ | ⟨rfl, rfl⟩ <;> rfl

def isWord (w : GoString) : Bool := w.head?.any isLetter && w.all isName

theorem isSpace_letter (h : isLetter c = true) : isSpace c = false :=
  isSpace_of_lt (by have := isLetter_toNat h; omega)

theorem next_word (hw : isWord w = true) (hr : Stops r) :
    next N (w ++ r) = .ok ⟨.ident w, (w ++ r).length, r⟩ := by
  obtain ⟨hhead, hall⟩ := Bool.and_eq_true_iff.mp hw
  have hall := List.all_eq_true.mp hall
  cases w with
  | nil => cases hhead
  | cons c w =>
    have hc : isLetter c = true := hhead
    have htake : (c :: (w ++ r)).takeWhile isName = c :: w := takeWhile_append_stop hall hr
    have hdrop : (c :: (w ++ r)).dropWhile isName = r := dropWhile_append_stop hall hr
    unfold next
    rw [List.cons_append, skipSpace_cons (isSpace_letter hc)]
    unfold token
    dsimp only
    rw [if_pos hc, htake, hdrop]

theorem validMetricName_word {m : GoString} (h : validMetricName m = true) : isWord m = true := by
  cases m with
  | nil => cases h
  | cons c rest =>
    have h : (decide (rest.length + 1 ≤ maxMetricNameLen) && isLetter c &&
      rest.all isName) = true := h
    rw [Bool.and_eq_true, Bool.and_eq_true] at h
    have hc : isName c = true := by simp [isName, h.1.2]
    rw [isWord, Bool.and_eq_true, List.all_cons, Bool.and_eq_true]
    exact ⟨h.1.2, hc, h.2⟩

theorem next_number {v : F} (ht : Numeral t) (hv : N.parseFloat t = some v) (hr : Stops r) :
    next N (t ++ r) = .ok ⟨.number t v, (t ++ r).length, r⟩ := by
  have hscan := scanNumber_append ht hr
  obtain ⟨whole, f, e, rfl, ⟨hne, hdigits⟩, -, -⟩ := ht
  cases whole with
  | nil => exact absurd rfl hne
  | cons c whole =>
    have hc : isDigit c = true := hdigits c List.mem_cons_self
    have hnat := isDigit_toNat hc
    have hletter : isLetter c = false := by
      by_contra hletter
      have := isLetter_toNat (Bool.eq_true_of_not_eq_false hletter)
      omega
    unfold next
    rw [List.cons_append, List.cons_append, List.cons_append] at hscan ⊢
    rw [skipSpace_cons (isSpace_of_lt (by omega))]
    unfold token
    dsimp only
    rw [hletter, if_neg Bool.false_ne_true, if_pos hc, hscan]
    rw [List.cons_append, List.cons_append] at hv
    rw [hv]

theorem next_var (hname : VarOk name) (hr : Stops r) :
    next N (dollar :: name ++ r) = .ok ⟨.var name, (dollar :: name ++ r).length, r⟩ := by
  have htake : (name ++ r).takeWhile isName = name := takeWhile_append_stop hname.names hr
  have hdrop : (name ++ r).dropWhile isName = r := dropWhile_append_stop hname.names hr
  have hone : next N (dollar :: (name ++ r)) =
      if (name ++ r).takeWhile isName = [] then
        .error ⟨.wantedVariable, (dollar :: (name ++ r)).length⟩
      else .ok ⟨.var (((name ++ r).takeWhile isName).map lowerByte), (dollar :: (name ++ r)).length,
        (name ++ r).dropWhile isName⟩ := rfl
  rw [htake, if_neg hname.ne_nil, hdrop, hname.lowered] at hone
  exact hone

theorem nextKey_var (hname : VarOk name) (hr : Stops r) :
    nextKey N (dollar :: name ++ r) = .ok ⟨.var name, (dollar :: name ++ r).length, r⟩ :=
  (show nextKey N (dollar :: name ++ r) = next N (dollar :: name ++ r) from rfl).trans
    (next_var hname hr)

structure TagName (key : GoString) : Prop where
  valid : validTag key = true
  no_colon : colon ∉ key

theorem TagName.shape (h : TagName key) :
    ∃ c rest, key = c :: rest ∧ isLower c = true ∧ ∀ x ∈ key, isTagKeyChar x = true := by
  have hkey : tagKey key = key := by
    have hall : ∀ c ∈ key, decide (c ≠ colon) = true := by
      intro c hc
      refine decide_eq_true ?_
      rintro rfl
      exact h.no_colon hc
    have htake := takeWhile_append_stop (r := []) hall nofun
    rwa [List.append_nil] at htake
  have hvalid : validTagKey key = true := by
    have h := h.valid
    unfold validTag at h
    rw [hkey, Bool.and_eq_true] at h
    exact h.2
  cases key with
  | nil => cases hvalid
  | cons c rest =>
    have hvalid : (decide (rest.length + 1 ≤ maxTagKeyLen) && isLower c &&
      rest.all isTagKeyChar) = true :=
      hvalid
    rw [Bool.and_eq_true, Bool.and_eq_true] at hvalid
    refine ⟨c, rest, rfl, hvalid.1.2, ?_⟩
    intro x hx
    rcases List.mem_cons.mp hx with rfl | hx
    · simp [isTagKeyChar, hvalid.1.2]
    · exact List.all_eq_true.mp hvalid.2 x hx

theorem nextKey_key (hkey : TagName key) (hr : ∀ c, r.head? = some c → isKey c = false) :
    nextKey N (key ++ r) = .ok ⟨.key key, (key ++ r).length, r⟩ := by
  obtain ⟨c, rest, rfl, hc, hall⟩ := hkey.shape
  have hkeys : ∀ x ∈ c :: rest, isKey x = true := fun x hx => isTagKeyChar_key (hall x hx)
  have htake : (c :: (rest ++ r)).takeWhile isKey = c :: rest := takeWhile_append_stop hkeys hr
  have hdrop : (c :: (rest ++ r)).dropWhile isKey = r := dropWhile_append_stop hkeys hr
  have hlower : (c :: rest).map lowerByte = c :: rest := by
    conv_rhs => rw [← List.map_id (c :: rest)]
    exact List.map_congr_left (fun x hx => lowerByte_tagKeyChar (hall x hx))
  have hletter := isLower_letter hc
  have hhead : (c :: (rest ++ r)).head?.any isLetter = true := hletter
  unfold nextKey
  rw [List.cons_append, skipSpace_cons (isSpace_letter hletter)]
  rw [if_pos hhead, htake, hdrop, hlower]

theorem quotedBody_word (opened : ℕ) (hw : ∀ c ∈ w, isLetter c = true) (r : GoString) :
    quotedBody (F := F) opened (w ++ dquote :: r) = .ok (w, r) := by
  induction w with
  | nil =>
    unfold quotedBody
    exact if_pos rfl
  | cons c w ih =>
    have hletter := isLetter_toNat (hw c List.mem_cons_self)
    have h₁ : c ≠ dquote := ne_of_toNat (by change c.toNat ≠ 0x22; omega)
    have h₂ : c ≠ backslash := ne_of_toNat (by change c.toNat ≠ 0x5c; omega)
    have h₃ : c ≠ newline := ne_of_toNat (by change c.toNat ≠ 0x0a; omega)
    unfold quotedBody
    rw [List.cons_append]
    dsimp only
    rw [if_neg h₁, if_neg h₂, if_neg h₃, ih (List.forall_mem_cons.mp hw).2]
    rfl

theorem next_str (hw : ∀ c ∈ w, isLetter c = true) (r : GoString) :
    next N (dquote :: w ++ dquote :: r) =
      .ok ⟨.str w, (dquote :: w ++ dquote :: r).length, r⟩ := by
  have hone : next N (dquote :: (w ++ dquote :: r)) =
      (quotedBody (dquote :: (w ++ dquote :: r)).length (w ++ dquote :: r)).map
        (fun x => ⟨.str x.1, (dquote :: (w ++ dquote :: r)).length, x.2⟩) := rfl
  rw [quotedBody_word _ hw] at hone
  exact hone

theorem nextValue_append {v : GoString} (hv : ValueOk stop v) (hc : c ∈ stop) (t : GoString) :
    nextValue stop (v ++ c :: t) = ⟨v, (v ++ c :: t).length, c :: t⟩ := by
  have hfree : ∀ x ∈ v, decide (x ∉ stop) = true := fun x hx => decide_eq_true (hv.free x hx)
  have hstop : ∀ x, (c :: t).head? = some x → decide (x ∉ stop) = false :=
    stop_cons (by exact decide_eq_false (not_not.mpr hc)) t
  have hskip : skipSpace (v ++ c :: t) = v ++ c :: t := by
    obtain ⟨hne, -, hfirst, -⟩ := hv
    cases v with
    | nil => exact absurd rfl hne
    | cons d v => exact skipSpace_cons (hfirst d rfl)
  have htrim : v.rdropWhile isSpace = v := by
    rw [List.rdropWhile_eq_self_iff]
    intro hne hlast
    have hfalse := hv.last _ (List.getLast?_eq_some_getLast hne)
    rw [hfalse] at hlast
    cases hlast
  unfold nextValue
  dsimp only
  rw [hskip, takeWhile_append_stop hfree hstop, dropWhile_append_stop hfree hstop, htrim]

end Ozymandias.MetricTokens
