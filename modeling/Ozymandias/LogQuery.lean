import Ozymandias.SeriesModel
import Ozymandias.Utf8

/-!
The log query language: what a parsed query is, and when a log satisfies it.
Labels are matched whole, text is searched in lower case in the message and in
every string of the attributes, and attributes are looked up by a dotted path
through nested objects and arrays.
-/

namespace Ozymandias.LogQuery

open BitLists SeriesModel Substrings Utf8

/-- A value of the attributes as it is decoded: a number keeps the digits it was logged with. -/
inductive Json where
  | str (s : GoString)
  | num (digits : GoString)
  | bool (b : Bool)
  | null
  | arr (elems : List Json)
  | obj (members : List (GoString × Json))

structure Log where
  ts : ℤ
  message : GoString
  status : GoString
  service : GoString
  source : GoString
  host : GoString
  tags : List GoString
  attrs : List (GoString × Json)
  traceID : GoString

inductive Key where
  | service
  | source
  | host
  | status
  | env
  | traceID
  deriving DecidableEq

def splitTag (tag : GoString) : GoString × GoString :=
  (tag.takeWhile (· ≠ colon), (tag.dropWhile (· ≠ colon)).drop 1)

def envKey : GoString := [0x65, 0x6e, 0x76]

def labelValue (l : Log) : Key → GoString
  | .service => l.service
  | .source => l.source
  | .host => l.host
  | .status => l.status
  | .traceID => l.traceID
  | .env => ((l.tags.map splitTag).lookup envKey).getD []

inductive Op where
  | eq
  | gt
  | ge
  | lt
  | le
  | range
  deriving DecidableEq

structure Attr (F : Type) where
  path : GoString
  op : Op
  value : GoString
  num : F
  hi : F
  deriving DecidableEq

inductive Node (F : Type) where
  | or (args : List (Node F))
  | and (args : List (Node F))
  | not (x : Node F)
  | text (value : GoString)
  | label (key : Key) (value : GoString)
  | attr (a : Attr F)

/-- What the language takes from the standard library: numbers and lower case. -/
structure Lib (F : Type) where
  parseFloat : GoString → Option F
  lt : F → F → Bool
  le : F → F → Bool
  eq : F → F → Bool
  case : CaseMap

variable {F : Type} (lib : Lib F)

def star : Byte := 0x2a
def dot : Byte := 0x2e

def globRest : List GoString → GoString → Bool
  | [], _ => true
  | [last], s => last.isSuffixOf s
  | seg :: segs, s =>
    match index seg s with
    | none => false
    | some i => globRest segs (s.drop (i + seg.length))

def globMatch (pat s : GoString) : Bool :=
  if star ∉ pat then pat = s
  else
    match pat.splitOn star with
    | [] => false
    | first :: segs => first.isPrefixOf s && globRest segs (s.drop first.length)

def splitWild (pat : GoString) : List GoString := (pat.splitOn star).filter (· ≠ [])

def inOrder : List GoString → GoString → Bool
  | [], _ => true
  | seg :: segs, s =>
    match index seg s with
    | none => false
    | some i => inOrder segs (s.drop (i + seg.length))

/-- A string of ASCII is searched as it is, with each byte lowered; any other is lowered first. -/
def containsWild (s : GoString) (segs : List GoString) : Bool :=
  if isAscii s then inOrder segs (s.map lowerByte) else inOrder segs (toLower lib.case s)

def matchLabel (pattern value : GoString) : Bool :=
  if pattern = [star] then value ≠ [] else globMatch pattern value

mutual
def anyString (fn : GoString → Bool) : Json → Bool
  | .str s => fn s
  | .arr elems => anyElem fn elems
  | .obj members => anyMember fn members
  | _ => false

def anyElem (fn : GoString → Bool) : List Json → Bool
  | [] => false
  | v :: rest => anyString fn v || anyElem fn rest

def anyMember (fn : GoString → Bool) : List (GoString × Json) → Bool
  | [] => false
  | (_, v) :: rest => anyString fn v || anyMember fn rest
end

mutual
def flat : Json → List Json
  | .arr elems => flatAll elems
  | v => [v]

def flatAll : List Json → List Json
  | [] => []
  | v :: rest => flat v ++ flatAll rest
end

def cuts : GoString → List (GoString × GoString)
  | [] => []
  | c :: path =>
    let later := (cuts path).map (fun p => (c :: p.1, p.2))
    if c = dot then ([], path) :: later else later

mutual
/-- Every value at a path: a key may hold the whole path or a part of it up to a dot, and an array
contributes each element. -/
def walk : Json → GoString → List Json
  | .obj members, path =>
    ((members.lookup path).map flat).getD [] ++
      (cuts path).flatMap (fun cut => walkMember members cut.1 cut.2)
  | .arr elems, path => walkAll elems path
  | _, _ => []

def walkAll : List Json → GoString → List Json
  | [], _ => []
  | v :: rest, path => walk v path ++ walkAll rest path

def walkMember : List (GoString × Json) → GoString → GoString → List Json
  | [], _, _ => []
  | (k, v) :: rest, key, path => if key = k then walk v path else walkMember rest key path
end

def lookup (attrs : List (GoString × Json)) (path : GoString) : List Json := walk (.obj attrs) path

def trueText : GoString := [0x74, 0x72, 0x75, 0x65]
def falseText : GoString := [0x66, 0x61, 0x6c, 0x73, 0x65]
def nullText : GoString := [0x6e, 0x75, 0x6c, 0x6c]

def boolText (b : Bool) : GoString := if b then trueText else falseText

def numberOf : Json → Option F
  | .num digits => lib.parseFloat digits
  | _ => none

def textMatches (pat : GoString) : Json → Bool
  | .str s => globMatch pat s
  | .num digits => globMatch pat digits
  | .bool b => globMatch pat (boolText b)
  | .null => globMatch pat nullText
  | _ => false

def eqMatches (pat : GoString) (v : Json) : Bool :=
  match lib.parseFloat pat, numberOf lib v with
  | some p, some f => lib.eq f p
  | _, _ => textMatches pat v

def attrMatches (a : Attr F) (v : Json) : Bool :=
  if a.op = .eq then eqMatches lib a.value v
  else
    match numberOf lib v with
    | none => false
    | some f =>
      match a.op with
      | .gt => lib.lt a.num f
      | .ge => lib.le a.num f
      | .lt => lib.lt f a.num
      | .le => lib.le f a.num
      | .range => lib.le a.num f && lib.le f a.hi
      | .eq => false

def compileText (value : GoString) (l : Log) : Bool :=
  let segs := splitWild (toLower lib.case value)
  containsWild lib l.message segs || anyString (fun s => containsWild lib s segs) (.obj l.attrs)

def compileLabel (key : Key) (pat : GoString) (l : Log) : Bool := matchLabel pat (labelValue l key)

def compileAttr (a : Attr F) (l : Log) : Bool :=
  (lookup l.attrs a.path).any (attrMatches lib a)

mutual
def compile : Node F → Log → Bool
  | .or args, l => compileAny args l
  | .and args, l => compileAll args l
  | .not x, l => !compile x l
  | .text value, l => compileText lib value l
  | .label key value, l => compileLabel key value l
  | .attr a, l => compileAttr lib a l

def compileAny : List (Node F) → Log → Bool
  | [], _ => false
  | n :: rest, l => compile n l || compileAny rest l

def compileAll : List (Node F) → Log → Bool
  | [], _ => true
  | n :: rest, l => compile n l && compileAll rest l
end

def compileQuery (q : Option (Node F)) (l : Log) : Bool :=
  match q with
  | none => true
  | some n => compile lib n l

@[simp] theorem compile_or (args : List (Node F)) (l : Log) :
    compile lib (.or args) l = args.any (fun n => compile lib n l) := by
  rw [compile]
  induction args with
  | nil => rfl
  | cons n rest ih => rw [compileAny, ih, List.any_cons]

@[simp] theorem compile_and (args : List (Node F)) (l : Log) :
    compile lib (.and args) l = args.all (fun n => compile lib n l) := by
  rw [compile]
  induction args with
  | nil => rfl
  | cons n rest ih => rw [compileAll, ih, List.all_cons]

/-- A search in lower case, whatever the string is. -/
theorem containsWild_eq (s : GoString) (segs : List GoString) :
    containsWild lib s segs = inOrder segs (toLower lib.case s) := by
  unfold containsWild toLower
  split <;> rfl

end Ozymandias.LogQuery
