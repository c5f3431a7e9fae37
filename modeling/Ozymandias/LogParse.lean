import Ozymandias.Ascii
import Ozymandias.LogQuery

/-!
The text of log queries: the recursive-descent parser and the printer. The
parser works on what is left of the text, so a failure is placed by the number
of bytes left; it nests at most `maxDepth` deep, counted down here. The loops
over terms end because every term takes at least a byte.
-/
namespace Ozymandias.LogParse

open BitLists Ascii SeriesModel Utf8 LogQuery

def orWord : GoString := [0x4f, 0x52]
def andWord : GoString := [0x41, 0x4e, 0x44]
def notWord : GoString := [0x4e, 0x4f, 0x54]
def toWord : GoString := [0x54, 0x4f]

def isBare (c : Byte) : Bool := !isSpace c && c ≠ lparen && c ≠ rparen
def isWord (c : Byte) : Bool := c = underscore || isLetter c || isDigit c
def isPath (c : Byte) : Bool := c = underscore || c = dot || c = minus || isLetter c || isDigit c

/-- What parsing and printing take from the standard library beyond matching: the zero value, which
numbers are finite, and the shortest text of a number, which reads back. -/
structure Numbers (F : Type) extends Lib F where
  zero : F
  finite : F → Bool
  format : F → GoString
  parse_format : ∀ f, finite f = true → parseFloat (format f) = some f
  format_ne_nil : ∀ f, format f ≠ []
  format_text : ∀ f, finite f = true → ∀ c ∈ format f,
    isDigit c = true ∨ c = 0x2b ∨ c = minus ∨ c = dot ∨ c = 0x65

def keyText : Key → GoString
  | .service => [0x73, 0x65, 0x72, 0x76, 0x69, 0x63, 0x65]
  | .source => [0x73, 0x6f, 0x75, 0x72, 0x63, 0x65]
  | .host => [0x68, 0x6f, 0x73, 0x74]
  | .status => [0x73, 0x74, 0x61, 0x74, 0x75, 0x73]
  | .env => [0x65, 0x6e, 0x76]
  | .traceID => [0x74, 0x72, 0x61, 0x63, 0x65, 0x5f, 0x69, 0x64]

def reservedKeys : List Key := [.service, .source, .host, .status, .env, .traceID]

def keyNamed (name : GoString) : Option Key := reservedKeys.find? (fun k => keyText k = name)

inductive Msg where
  | unexpected (c : Byte)
  | expectedTerm
  | tooDeep
  | expectedAfter (word : GoString)
  | neededBefore (word : GoString)
  | danglingMinus
  | neverClosed
  | emptyParens
  | unexpectedClose
  | unterminated
  | unknownEscape (c : Byte)
  | unknownKey (key : GoString)
  | needsValue (what : GoString)
  | needsName
  | needsColon (path : GoString)
  | notNumber (word : GoString)
  | rangeOpen
  | rangeShape
  | rangeEnds (lo hi : GoString)
  | rangeEmpty (lo hi : GoString)
  | stuck
  deriving DecidableEq

structure Fail where
  msg : Msg
  left : ℕ
  deriving DecidableEq

structure ParseError where
  msg : Msg
  col : ℕ
  deriving DecidableEq

abbrev Parser (α : Type) := GoString → Except Fail (α × GoString)

def skipSpace (s : GoString) : GoString := s.dropWhile isSpace

def closed : GoString → Bool
  | [] => true
  | c :: _ => c = rparen

def blank : GoString → Bool
  | [] => true
  | c :: _ => isSpace c || c = rparen

def wordEnd : GoString → Bool
  | [] => true
  | c :: _ => isSpace c || c = lparen || c = rparen

def keywordAt (kw s : GoString) : Bool := kw.isPrefixOf s && wordEnd (s.drop kw.length)

def bare (s : GoString) : GoString × GoString := (s.takeWhile isBare, s.dropWhile isBare)

def unescape (e : Byte) : Option Byte :=
  if e = 0x6e then some 0x0a
  else if e = 0x74 then some 0x09
  else if e = 0x72 then some 0x0d
  else if e = dquote || e = backslash then some e
  else none

def quotedBody (opened : ℕ) : Parser GoString
  | [] => .error ⟨.unterminated, opened⟩
  | c :: rest =>
    if c = dquote then .ok ([], rest)
    else if c = backslash then
      match rest with
      | [] => .error ⟨.unterminated, opened⟩
      | e :: rest' =>
        match unescape e with
        | none => .error ⟨.unknownEscape e, rest'.length + 1⟩
        | some b => (quotedBody opened rest').map (fun x => (b :: x.1, x.2))
    else (quotedBody opened rest).map (fun x => (c :: x.1, x.2))

def quoted (s : GoString) : Except Fail (GoString × GoString) := quotedBody s.length (s.drop 1)

def value (what : GoString) : Parser GoString := fun s =>
  if blank s then .error ⟨.needsValue what, s.length⟩
  else if s.head? = some dquote then quoted s
  else .ok (bare s)

def keyAt (s : GoString) : Option GoString :=
  if s.head?.any isDigit then none
  else if s.takeWhile isWord ≠ [] ∧ (s.dropWhile isWord).head? = some colon then
    some (s.takeWhile isWord)
  else none

section Terms

variable {F : Type} (N : Numbers F)

def label (key : GoString) : Parser (Node F) := fun s =>
  match keyNamed key with
  | none => .error ⟨.unknownKey key, s.length⟩
  | some k => (value key (s.drop (key.length + 1))).map (fun x => (.label k x.1, x.2))

def number : Parser F := fun s =>
  let word := (bare s).1
  match N.parseFloat word with
  | none => .error ⟨.notNumber word, s.length⟩
  | some f =>
    if word = [] ∨ N.finite f = false then .error ⟨.notNumber word, s.length⟩
    else .ok (f, (bare s).2)

def isUnicodeSpace (r : ℕ) : Bool :=
  r ∈ [0x09, 0x0a, 0x0b, 0x0c, 0x0d, 0x20, 0x85, 0xa0, 0x1680, 0x2028, 0x2029, 0x202f,
    0x205f, 0x3000] ||
    0x2000 ≤ r && r ≤ 0x200a

def fieldsFrom : ℕ → GoString → GoString → List GoString
  | 0, cur, _ => if cur = [] then [] else [cur]
  | _, cur, [] => if cur = [] then [] else [cur]
  | fuel + 1, cur, b :: rest =>
    let rest' := (decodeRune b rest).2
    if isUnicodeSpace (decodeRune b rest).1 then
      (if cur = [] then [] else [cur]) ++ fieldsFrom fuel [] rest'
    else fieldsFrom fuel (cur ++ (b :: rest).take (rest.length + 1 - rest'.length)) rest'

def fields (s : GoString) : List GoString := fieldsFrom s.length [] s

def rangeTerm (path : GoString) : Parser (Node F) := fun s =>
  if rbracket ∉ s then .error ⟨.rangeOpen, s.length⟩
  else
    match fields ((s.takeWhile (· ≠ rbracket)).drop 1) with
    | [lo, mid, hi] =>
      if mid ≠ toWord then .error ⟨.rangeShape, s.length⟩
      else
        match N.parseFloat lo, N.parseFloat hi with
        | some l, some h =>
          if N.finite l = false ∨ N.finite h = false then .error ⟨.rangeEnds lo hi, s.length⟩
          else if N.lt h l then .error ⟨.rangeEmpty lo hi, s.length⟩
          else .ok (.attr ⟨path, .range, [], l, h⟩, (s.dropWhile (· ≠ rbracket)).drop 1)
        | _, _ => .error ⟨.rangeEnds lo hi, s.length⟩
    | _ => .error ⟨.rangeShape, s.length⟩

def comparison (path : GoString) (strict loose : Op) : Parser (Node F) := fun s =>
  if s.head? = some equals then
    (number N (s.drop 1)).map (fun x => (.attr ⟨path, loose, [], x.1, N.zero⟩, x.2))
  else (number N s).map (fun x => (.attr ⟨path, strict, [], x.1, N.zero⟩, x.2))

def operand (path : GoString) : Parser (Node F) := fun s =>
  if blank s then .error ⟨.needsValue (atSign :: path), s.length⟩
  else if s.head? = some greater then comparison N path .gt .ge (s.drop 1)
  else if s.head? = some less then comparison N path .lt .le (s.drop 1)
  else if s.head? = some lbracket then rangeTerm N path s
  else (value (atSign :: path) s).map (fun x => (.attr ⟨path, .eq, x.1, N.zero, N.zero⟩, x.2))

def attr : Parser (Node F) := fun s =>
  let path := (s.drop 1).takeWhile isPath
  let rest := (s.drop 1).dropWhile isPath
  if path = [] then .error ⟨.needsName, s.length⟩
  else if rest.head? ≠ some colon then .error ⟨.needsColon path, rest.length⟩
  else operand N path (rest.drop 1)

def joined (group : List (Node F) → Node F) : List (Node F) → Node F
  | [n] => n
  | args => group args

def afterAnd (s : GoString) : GoString := if keywordAt andWord s then skipSpace (s.drop 3) else s

def andLoop (unary : Parser (Node F)) : ℕ → List (Node F) → Parser (Node F)
  | 0, _, s => .error ⟨.stuck, s.length⟩
  | fuel + 1, args, s =>
    let s := skipSpace s
    if closed s || keywordAt orWord s then .ok (joined .and args, s)
    else if keywordAt andWord s && (closed (afterAnd s) || keywordAt orWord (afterAnd s)) then
      .error ⟨.expectedAfter andWord, s.length⟩
    else
      match unary (afterAnd s) with
      | .error e => .error e
      | .ok (next, s') => andLoop unary fuel (args ++ [next]) s'

def andTerm (unary : Parser (Node F)) : Parser (Node F) := fun s =>
  match unary s with
  | .error e => .error e
  | .ok (first, s') => andLoop unary (s'.length + 1) [first] s'

def orLoop (unary : Parser (Node F)) : ℕ → List (Node F) → Parser (Node F)
  | 0, _, s => .error ⟨.stuck, s.length⟩
  | fuel + 1, args, s =>
    let s := skipSpace s
    if keywordAt orWord s then
      let s' := skipSpace (s.drop 2)
      if closed s' then .error ⟨.expectedAfter orWord, s.length⟩
      else
        match andTerm unary s' with
        | .error e => .error e
        | .ok (next, s'') => orLoop unary fuel (args ++ [next]) s''
    else .ok (joined .or args, s)

def orTerm (unary : Parser (Node F)) : Parser (Node F) := fun s =>
  match andTerm unary s with
  | .error e => .error e
  | .ok (first, s') => orLoop unary (s'.length + 1) [first] s'

def group (unary : Parser (Node F)) (opened : ℕ) : Parser (Node F) := fun s =>
  match skipSpace s with
  | [] => .error ⟨.neverClosed, opened⟩
  | c :: rest =>
    if c = rparen then .error ⟨.emptyParens, opened⟩
    else
      match orTerm unary (c :: rest) with
      | .error e => .error e
      | .ok (n, s') =>
        match skipSpace s' with
        | [] => .error ⟨.neverClosed, opened⟩
        | _ :: after => .ok (n, after)

def atom (unary : Parser (Node F)) : Parser (Node F)
  | [] => .error ⟨.expectedTerm, 0⟩
  | c :: rest =>
    if c = lparen then group unary (rest.length + 1) rest
    else if c = rparen then .error ⟨.unexpectedClose, rest.length + 1⟩
    else if c = dquote then (quoted (c :: rest)).map (fun x => (.text x.1, x.2))
    else if c = atSign then attr N (c :: rest)
    else
      match keyAt (c :: rest) with
      | some key => label key (c :: rest)
      | none => .ok (.text (bare (c :: rest)).1, (bare (c :: rest)).2)

/-- One term, given the parser of the next level; the text is not empty and begins with no space. -/
def term (next : Parser (Node F)) : Parser (Node F) := fun s =>
  if keywordAt orWord s || keywordAt andWord s then
    .error ⟨.neededBefore (if keywordAt andWord s then andWord else orWord), s.length⟩
  else if keywordAt notWord s then
    let s' := skipSpace (s.drop 3)
    if closed s' then .error ⟨.expectedAfter notWord, s.length⟩
    else (next s').map (fun x => (.not x.1, x.2))
  else if s.head? = some minus then
    if blank (s.drop 1) then .error ⟨.danglingMinus, s.length⟩
    else (next (s.drop 1)).map (fun x => (.not x.1, x.2))
  else atom N next s

def unary : ℕ → Parser (Node F)
  | 0, s => if skipSpace s = [] then
    .error ⟨.expectedTerm, 0⟩ else .error ⟨.tooDeep, (skipSpace s).length⟩
  | k + 1, s =>
    if skipSpace s = [] then .error ⟨.expectedTerm, 0⟩ else term N (unary k) (skipSpace s)

def maxDepth : ℕ := 64

def parse (q : GoString) : Except ParseError (Option (Node F)) :=
  let s := skipSpace q
  if s = [] then .ok none
  else
    match orTerm (unary N maxDepth) s with
    | .error e => .error ⟨e.msg, q.length - e.left + 1⟩
    | .ok (n, s') =>
      match skipSpace s' with
      | [] => .ok (some n)
      | c :: rest => .error ⟨.unexpected c, q.length - (rest.length + 1) + 1⟩

def bareSafe (s : GoString) : Bool :=
  s ≠ [] && s.all (fun c => 0x20 < c.toNat && c ≠ 0x7f && c ≠ lparen && c ≠ rparen && c ≠ dquote &&
    c ≠ backslash)

def escape (c : Byte) : GoString :=
  if c = dquote || c = backslash then [backslash, c]
  else if c = 0x0a then [backslash, 0x6e]
  else if c = 0x09 then [backslash, 0x74]
  else if c = 0x0d then [backslash, 0x72]
  else [c]

def quote (s : GoString) : GoString := dquote :: s.flatMap escape ++ [dquote]

def isKeyword (s : GoString) : Bool := s = andWord || s = orWord || s = notWord

def textString (v : GoString) : GoString :=
  if bareSafe v && v.head? ≠ some minus && v.head? ≠ some atSign && colon ∉ v && !isKeyword v then v
  else quote v

def valueText (v : GoString) : GoString := if bareSafe v then v else quote v

def operandString (a : Attr F) : GoString :=
  match a.op with
  | .gt => greater :: N.format a.num
  | .ge => greater :: equals :: N.format a.num
  | .lt => less :: N.format a.num
  | .le => less :: equals :: N.format a.num
  | .range => lbracket :: N.format a.num ++ space :: toWord ++ space :: N.format a.hi ++ [rbracket]
  | .eq =>
    if a.value ≠ [] ∧ a.value.head? ≠ some greater ∧ a.value.head? ≠ some less ∧
        a.value.head? ≠ some lbracket then valueText a.value
    else quote a.value

def Attr.string (a : Attr F) : GoString := atSign :: a.path ++ colon :: operandString N a

def isOr : Node F → Bool
  | .or _ => true
  | _ => false

def isAnd : Node F → Bool
  | .and _ => true
  | _ => false

def parens (s : GoString) : GoString := lparen :: s ++ [rparen]

mutual
def Node.string : Node F → GoString
  | .or args => (space :: orWord ++ [space]).intercalate (armStrings args)
  | .and args => [space].intercalate (termStrings args)
  | .not x => minus :: if isOr x || isAnd x then parens (Node.string x) else Node.string x
  | .text v => textString v
  | .label k v => keyText k ++ colon :: valueText v
  | .attr a => Attr.string N a

def armStrings : List (Node F) → List GoString
  | [] => []
  | a :: rest => (if isOr a then parens (Node.string a) else Node.string a) :: armStrings rest

def termStrings : List (Node F) → List GoString
  | [] => []
  | a :: rest =>
    (if isOr a || isAnd a then parens (Node.string a) else Node.string a) :: termStrings rest
end

end Terms

end Ozymandias.LogParse
