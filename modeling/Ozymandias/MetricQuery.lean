import Ozymandias.Ascii
import Ozymandias.SeriesModel
import Mathlib.Data.Nat.Digits.Defs

/-!
The trees of metric queries and their canonical text. A query is an aggregator,
a metric, a filter, an optional grouping and a chain of modifiers; expressions
combine queries and numbers. The text has parentheses exactly where dropping
them would give another tree.
-/
namespace Ozymandias.MetricQuery

open BitLists Ascii
open SeriesModel (GoString colon)

inductive Agg where
  | avg | sum | min | max | count | p50 | p75 | p90 | p95 | p99 | dist
  deriving DecidableEq

def Agg.text : Agg → GoString
  | .avg => ofChars ['a', 'v', 'g']
  | .sum => ofChars ['s', 'u', 'm']
  | .min => ofChars ['m', 'i', 'n']
  | .max => ofChars ['m', 'a', 'x']
  | .count => ofChars ['c', 'o', 'u', 'n', 't']
  | .p50 => ofChars ['p', '5', '0']
  | .p75 => ofChars ['p', '7', '5']
  | .p90 => ofChars ['p', '9', '0']
  | .p95 => ofChars ['p', '9', '5']
  | .p99 => ofChars ['p', '9', '9']
  | .dist => ofChars ['d', 'i', 's', 't']

def aggs : List Agg := [.avg, .sum, .min, .max, .count, .dist, .p50, .p75, .p90, .p95, .p99]

inductive Rollup where
  | avg | sum | min | max | count | last
  deriving DecidableEq

def Rollup.text : Rollup → GoString
  | .avg => ofChars ['a', 'v', 'g']
  | .sum => ofChars ['s', 'u', 'm']
  | .min => ofChars ['m', 'i', 'n']
  | .max => ofChars ['m', 'a', 'x']
  | .count => ofChars ['c', 'o', 'u', 'n', 't']
  | .last => ofChars ['l', 'a', 's', 't']

def rollupMethods : List Rollup := [.avg, .sum, .min, .max, .count, .last]

inductive Fill where
  | null | zero | last | linear
  deriving DecidableEq

def Fill.text : Fill → GoString
  | .null => ofChars ['n', 'u', 'l', 'l']
  | .zero => ofChars ['z', 'e', 'r', 'o']
  | .last => ofChars ['l', 'a', 's', 't']
  | .linear => ofChars ['l', 'i', 'n', 'e', 'a', 'r']

def fillModes : List Fill := [.null, .zero, .last, .linear]

inductive ModKind where
  | rollup | asRate | asCount | fill
  deriving DecidableEq

def ModKind.text : ModKind → GoString
  | .rollup => ofChars ['r', 'o', 'l', 'l', 'u', 'p']
  | .asRate => ofChars ['a', 's', '_', 'r', 'a', 't', 'e']
  | .asCount => ofChars ['a', 's', '_', 'c', 'o', 'u', 'n', 't']
  | .fill => ofChars ['f', 'i', 'l', 'l']

def modKinds : List ModKind := [.rollup, .asRate, .asCount, .fill]

inductive Fn where
  | abs | log2 | log10 | clampMin | clampMax | movingAvg | diff | timeshift | top
  | histogramQuantile
  deriving DecidableEq

def Fn.text : Fn → GoString
  | .abs => ofChars ['a', 'b', 's']
  | .log2 => ofChars ['l', 'o', 'g', '2']
  | .log10 => ofChars ['l', 'o', 'g', '1', '0']
  | .clampMin => ofChars ['c', 'l', 'a', 'm', 'p', '_', 'm', 'i', 'n']
  | .clampMax => ofChars ['c', 'l', 'a', 'm', 'p', '_', 'm', 'a', 'x']
  | .movingAvg => ofChars ['m', 'o', 'v', 'i', 'n', 'g', '_', 'a', 'v', 'g']
  | .diff => ofChars ['d', 'i', 'f', 'f']
  | .timeshift => ofChars ['t', 'i', 'm', 'e', 's', 'h', 'i', 'f', 't']
  | .top => ofChars ['t', 'o', 'p']
  | .histogramQuantile =>
    ofChars ['h', 'i', 's', 't', 'o', 'g', 'r', 'a', 'm', '_', 'q', 'u', 'a', 'n',
      't', 'i', 'l', 'e']

def functions : List Fn :=
    [.abs, .log2, .log10, .clampMin, .clampMax, .movingAvg, .diff, .timeshift,
  .top, .histogramQuantile]

inductive ArgKind where
  | expr | number | reducer | order
  deriving DecidableEq

structure Signature where
  args : List ArgKind
  required : ℕ

def Fn.signature : Fn → Signature
  | .abs | .log2 | .log10 | .diff => ⟨[.expr], 1⟩
  | .clampMin | .clampMax | .movingAvg | .timeshift => ⟨[.expr, .number], 2⟩
  | .top => ⟨[.expr, .number, .reducer, .order], 2⟩
  | .histogramQuantile => ⟨[.number, .expr], 2⟩

def reducers : List GoString :=
  [ofChars ['m', 'e', 'a', 'n'], ofChars ['s', 'u', 'm'], ofChars ['m', 'i', 'n'],
    ofChars ['m', 'a', 'x'], ofChars ['l', 'a', 's', 't']]

def orders : List GoString := [ofChars ['a', 's', 'c'], ofChars ['d', 'e', 's', 'c']]

def ArgKind.values : ArgKind → Option (List GoString)
  | .reducer => some reducers
  | .order => some orders
  | _ => none

/-- One term of a filter: a template variable, a tag, or a tag with a list of values. -/
inductive Matcher where
  | var (name : GoString)
  | tag (neg : Bool) (key value : GoString)
  | list (neg : Bool) (key : GoString) (values : List GoString)
  deriving DecidableEq

/-- One modifier of a query. Zero seconds stand for an argument that is not written. -/
inductive Modifier where
  | rollup (method : Rollup) (seconds : ℕ)
  | asRate
  | asCount
  | fill (mode : Fill) (seconds : ℕ)
  deriving DecidableEq

def Modifier.kind : Modifier → ModKind
  | .rollup _ _ => .rollup
  | .asRate => .asRate
  | .asCount => .asCount
  | .fill _ _ => .fill

structure Query where
  agg : Agg
  metric : GoString
  filter : List Matcher
  groupBy : List GoString
  modifiers : List Modifier
  deriving DecidableEq

inductive Op where
  | add | sub | mul | div
  deriving DecidableEq

inductive Node (F : Type) where
  | number (value : F)
  | str (value : GoString)
  | query (q : Query)
  | call (f : Fn) (args : List (Node F))
  | neg (x : Node F)
  | binary (op : Op) (left right : Node F)

def Op.byte : Op → Byte
  | .add => plus
  | .sub => minus
  | .mul => asterisk
  | .div => slash

def Op.precedence : Op → ℕ
  | .add | .sub => 1
  | .mul | .div => 2

def precUnary : ℕ := 3

def Node.precedence {F : Type} : Node F → ℕ
  | .binary op _ _ => op.precedence
  | _ => precUnary

def decimal (n : ℕ) : GoString :=
  if n = 0 then [0x30] else (Nat.digits 10 n).reverse.map (fun d => BitVec.ofNat 8 (0x30 + d))

def joined (sep : GoString) : List GoString → GoString
  | [] => []
  | [t] => t
  | t :: rest => t ++ sep ++ joined sep rest

def inWord : GoString := ofChars [' ', 'I', 'N', ' ', '(']

def Matcher.string : Matcher → GoString
  | .var name => dollar :: name
  | .tag neg key value => (if neg then [bang] else []) ++ key ++ [colon] ++ value
  | .list neg key values =>
    (if neg then [bang] else []) ++ key ++ inWord ++ joined [comma] values ++ [rparen]

def secondsString (seconds : ℕ) : GoString :=
  if 0 < seconds then [comma, space] ++ decimal seconds else []

def Modifier.args : Modifier → GoString
  | .rollup method seconds => method.text ++ secondsString seconds
  | .fill mode seconds => mode.text ++ secondsString seconds
  | _ => []

def Modifier.string (m : Modifier) : GoString := m.kind.text ++ [lparen] ++ m.args ++ [rparen]

def byWord : GoString := ofChars [' ', 'b', 'y', ' ', '\x7b']

def Query.filterString (q : Query) : GoString :=
  if q.filter = [] then [asterisk] else joined [comma] (q.filter.map Matcher.string)

def Query.byString (q : Query) : GoString :=
  if q.groupBy = [] then [] else byWord ++ joined [comma] q.groupBy ++ [rbrace]

def Query.string (q : Query) : GoString :=
  q.agg.text ++ [colon] ++ q.metric ++ [lbrace] ++ q.filterString ++ [rbrace] ++ q.byString ++
    q.modifiers.flatMap (fun m => period :: m.string)

def wrap (c : Prop) [Decidable c] (s : GoString) : GoString :=
  if c then [lparen] ++ s ++ [rparen] else s

section Text

variable {F : Type} (format : F → GoString) (quote : GoString → GoString)

mutual

def Node.string : Node F → GoString
  | .number v => format v
  | .str s => quote s
  | .query q => q.string
  | .call f args => f.text ++ [lparen] ++ joined [comma, space] (Node.strings args) ++ [rparen]
  | .neg x => minus :: wrap (x.precedence < precUnary) x.string
  | .binary op l r =>
    wrap (l.precedence < op.precedence) l.string ++ [space, op.byte, space] ++
      wrap (r.precedence ≤ op.precedence) r.string

def Node.strings : List (Node F) → List GoString
  | [] => []
  | n :: rest => n.string :: Node.strings rest

end

end Text

end Ozymandias.MetricQuery
