import Ozymandias.MetricQuery
import Ozymandias.Utf8
import Mathlib.Data.List.DropRight

/-!
The lexer of metric queries. The parser names the mode in which the next token
is read: names, numbers and operators outside of a filter, tag keys inside it,
and free text for a tag's value. A token is what the lookahead holds, with the
number of bytes left at its start and the text behind it.
-/
namespace Ozymandias.MetricLex

open BitLists Ascii Utf8 Substrings MetricQuery
open SeriesModel (GoString colon)

def isLower (c : Byte) : Bool := 0x61 ≤ c.toNat && c.toNat ≤ 0x7a
def isName (c : Byte) : Bool := isLetter c || isDigit c || c = underscore || c = period
def isKey (c : Byte) : Bool := isName c || c = minus || c = slash
def isTagKeyChar (c : Byte) : Bool :=
  isLower c || isDigit c || c = underscore || c = period || c = minus || c = slash

def maxMetricNameLen : ℕ := 200
def maxTagKeyLen : ℕ := 100
def maxTagLen : ℕ := 200

def validMetricName : GoString → Bool
  | [] => false
  | c :: rest => rest.length + 1 ≤ maxMetricNameLen && isLetter c && rest.all isName

def validTagKey : GoString → Bool
  | [] => false
  | c :: rest => rest.length + 1 ≤ maxTagKeyLen && isLower c && rest.all isTagKeyChar

def newline : Byte := 0x0a

def tagKey (tag : GoString) : GoString := tag.takeWhile (· ≠ colon)

def validTag (tag : GoString) : Bool :=
  tag ≠ [] && tag.length ≤ maxTagLen && encode (runes tag) = tag && comma ∉ tag && newline ∉ tag &&
    validTagKey (tagKey tag)

def fraction : GoString → GoString × GoString
  | p :: d :: rest =>
    if p = period && isDigit d then
      (p :: (d :: rest).takeWhile isDigit, (d :: rest).dropWhile isDigit)
    else ([], p :: d :: rest)
  | s => ([], s)

def signOf : GoString → GoString
  | c :: _ => if c = plus || c = minus then [c] else []
  | [] => []

def exponent : GoString → GoString × GoString
  | e :: rest =>
    let digits := rest.drop (signOf rest).length
    if (e = 0x65 || e = 0x45) && digits.takeWhile isDigit ≠ [] then
      (e :: signOf rest ++ digits.takeWhile isDigit, digits.dropWhile isDigit)
    else ([], e :: rest)
  | [] => ([], [])

def scanNumber (s : GoString) : GoString × GoString :=
  let f := fraction (s.dropWhile isDigit)
  let e := exponent f.2
  (s.takeWhile isDigit ++ f.1 ++ e.1, e.2)

def Digits (s : GoString) : Prop := s ≠ [] ∧ ∀ c ∈ s, isDigit c = true

def digitsValue (t : GoString) : ℕ := Nat.ofDigits 10 (t.reverse.map (fun c => c.toNat - 0x30))

theorem digits_decimal (n : ℕ) : Digits (decimal n) := by
  unfold decimal
  split
  · exact ⟨by decide, by decide⟩
  next h =>
    refine ⟨?_, ?_⟩
    · simpa [Nat.digits_eq_nil_iff_eq_zero] using h
    · intro c hc
      obtain ⟨d, hd, rfl⟩ := List.mem_map.mp hc
      have hlt := Nat.digits_lt_base (by decide : 1 < 10) (List.mem_reverse.mp hd)
      have hnat : (BitVec.ofNat 8 (0x30 + d)).toNat = 0x30 + d := by
        exact Nat.mod_eq_of_lt (by omega)
      simp only [isDigit, Bool.and_eq_true, decide_eq_true_eq]
      omega

theorem digitsValue_decimal (n : ℕ) : digitsValue (decimal n) = n := by
  unfold digitsValue decimal
  split
  next hzero =>
    rw [hzero]
    rfl
  · rw [← List.map_reverse, List.reverse_reverse, List.map_map]
    conv_rhs => rw [← Nat.ofDigits_digits 10 n]
    congr 1
    conv_rhs => rw [← List.map_id (Nat.digits 10 n)]
    refine List.map_congr_left (fun d hd => ?_)
    have hlt := Nat.digits_lt_base (by decide : 1 < 10) hd
    change (BitVec.ofNat 8 (0x30 + d)).toNat - 0x30 = d
    rw [BitVec.toNat_ofNat]
    omega

def Fraction (s : GoString) : Prop := s = [] ∨ ∃ ds, s = period :: ds ∧ Digits ds

def Exponent (s : GoString) : Prop :=
  s = [] ∨ ∃ e sign ds, s = e :: sign ++ ds ∧ (e = 0x65 ∨ e = 0x45) ∧
    (sign = [] ∨ sign = [plus] ∨ sign = [minus]) ∧ Digits ds

/-- An unsigned decimal, with an optional fraction and exponent. -/
def Numeral (s : GoString) : Prop :=
  ∃ whole f e, s = whole ++ f ++ e ∧ Digits whole ∧ Fraction f ∧ Exponent e

def maxSeconds : ℕ := 31 * 24 * 60 * 60

/-- What the language takes from the standard library. A number that was read prints as a numeral
that reads back, whole seconds are read exactly, and a word is quoted as it is. -/
structure Strconv (F : Type) where
  parseFloat : GoString → Option F
  formatFloat : F → GoString
  quote : GoString → GoString
  ofInt : ℤ → F
  toInt : F → ℤ
  format_numeral : ∀ t f, Numeral t → parseFloat t = some f → Numeral (formatFloat f)
  parse_format : ∀ t f, Numeral t → parseFloat t = some f → parseFloat (formatFloat f) = some f
  parse_decimal : ∀ n : ℕ, n ≤ maxSeconds → parseFloat (decimal n) = some (ofInt n)
  toInt_ofInt : ∀ n : ℕ, n ≤ maxSeconds → toInt (ofInt n) = n
  quote_word : ∀ w, (∀ c ∈ w, isLetter c = true) → quote w = dquote :: w ++ [dquote]

inductive Token (F : Type) where
  | eof
  | ident (name : GoString)
  | number (text : GoString) (value : F)
  | str (text : GoString)
  | var (name : GoString)
  | key (name : GoString)
  | lparen | rparen | lbrace | rbrace | comma | colon | dot | bang | plus | minus | star | slash
  deriving DecidableEq

inductive Msg (F : Type) where
  | tooLong (len : ℕ)
  | trailing (found : Token F)
  | unexpected (c : Byte)
  | tooLarge (numeral : GoString)
  | wantedVariable
  | endsInEscape
  | unknownEscape (c : Byte)
  | spansLines
  | unterminated
  | expected (want found : Token F)
  | tooDeep
  | strayString
  | wantedFactor (found : Token F)
  | strayName (name : GoString)
  | unknownAgg (name : GoString)
  | wantedMetric (found : Token F)
  | badMetric (name : GoString)
  | emptyFilter
  | wantedClose (found : Token F)
  | negatedVar (name : GoString)
  | wantedKey (found : Token F)
  | badKey (key : GoString)
  | wantedValue (key : GoString)
  | wantedListValue (key : GoString)
  | badTag (value : GoString)
  | wantedMatch (key : GoString) (found : Token F)
  | tooManyValues
  | wantedGroupKey (found : Token F)
  | badGroupKey (key : GoString)
  | repeatedKey (key : GoString)
  | wantedModifier (found : Token F)
  | repeatedModifier (kind : ModKind)
  | takesNone (kind : ModKind)
  | wantedMethod (kind : ModKind) (found : Token F)
  | unknownModifier (name : GoString)
  | wantedSeconds (found : Token F)
  | badSeconds (numeral : GoString)
  | unknownFunction (name : GoString)
  | tooManyArgs (f : Fn)
  | tooFewArgs (f : Fn) (given : ℕ)
  | wantedWord (f : Fn) (index : ℕ) (kind : ArgKind)
  | wantedNumber (f : Fn) (index : ℕ)
  | stuck

structure Fail (F : Type) where
  msg : Msg F
  left : ℕ

/-- The lookahead: a token, the bytes left at its start, and what follows it. -/
structure Look (F : Type) where
  tok : Token F
  left : ℕ
  rest : GoString

section Lexer

variable {F : Type}

def punctuationTable : List (Byte × Token F) :=
  [(Ascii.lparen, .lparen), (Ascii.rparen, .rparen), (Ascii.lbrace, .lbrace),
    (Ascii.rbrace, .rbrace),
    (Ascii.comma, .comma), (SeriesModel.colon, .colon), (period, .dot), (Ascii.bang, .bang),
    (Ascii.plus, .plus), (Ascii.minus, .minus), (asterisk, .star), (Ascii.slash, .slash)]

def punctuation (c : Byte) : Option (Token F) :=
  (punctuationTable.find? (fun x => x.1 = c)).map (fun x => x.2)

def skipSpace (s : GoString) : GoString := s.dropWhile isSpace

def quotedBody (opened : ℕ) : GoString → Except (Fail F) (GoString × GoString)
  | [] => .error ⟨.unterminated, opened⟩
  | c :: rest =>
    if c = dquote then .ok ([], rest)
    else if c = backslash then
      match rest with
      | [] => .error ⟨.endsInEscape, 1⟩
      | e :: rest' =>
        if e ≠ dquote ∧ e ≠ backslash then .error ⟨.unknownEscape e, rest'.length + 2⟩
        else (quotedBody opened rest').map (fun x => (e :: x.1, x.2))
    else if c = newline then .error ⟨.spansLines, opened⟩
    else (quotedBody opened rest).map (fun x => (c :: x.1, x.2))

variable (N : Strconv F)

def token : GoString → Except (Fail F) (Look F)
  | [] => .ok ⟨.eof, 0, []⟩
  | c :: rest =>
    let s := c :: rest
    if isLetter c then .ok ⟨.ident (s.takeWhile isName), s.length, s.dropWhile isName⟩
    else if isDigit c then
      match N.parseFloat (scanNumber s).1 with
      | some v => .ok ⟨.number (scanNumber s).1 v, s.length, (scanNumber s).2⟩
      | none => .error ⟨.tooLarge (scanNumber s).1, s.length⟩
    else if c = dollar then
      if rest.takeWhile isName = [] then .error ⟨.wantedVariable, s.length⟩
      else .ok ⟨.var ((rest.takeWhile isName).map lowerByte), s.length, rest.dropWhile isName⟩
    else if c = dquote then
      (quotedBody s.length rest).map (fun x => ⟨.str x.1, s.length, x.2⟩)
    else
      match punctuation c with
      | some t => .ok ⟨t, s.length, rest⟩
      | none => .error ⟨.unexpected c, s.length⟩

def next (s : GoString) : Except (Fail F) (Look F) := token N (skipSpace s)

def nextKey (s : GoString) : Except (Fail F) (Look F) :=
  let s := skipSpace s
  if s.head?.any isLetter then
    .ok ⟨.key ((s.takeWhile isKey).map lowerByte), s.length, s.dropWhile isKey⟩
  else next N s

/-- A tag's value: the text up to a byte that ends it, the space around it trimmed. -/
structure ValueText where
  text : GoString
  left : ℕ
  rest : GoString

def nextValue (stop : GoString) (s : GoString) : ValueText :=
  let s := skipSpace s
  ⟨(s.takeWhile (· ∉ stop)).rdropWhile isSpace, s.length, s.dropWhile (· ∉ stop)⟩

end Lexer

end Ozymandias.MetricLex
