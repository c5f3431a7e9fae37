import Ozymandias.Loops
import Ozymandias.MetricLex

/-!
The parser of metric queries, a recursive descent with one token of lookahead.
Expressions and factors each count one level of nesting, counted down here from
`maxDepth`. The loops run while their token is the lookahead.
-/
namespace Ozymandias.MetricParse

open Ascii Utf8 Loops MetricQuery MetricLex
open SeriesModel (GoString)

variable {F : Type} [DecidableEq F] (N : Strconv F)

def maxLen : ℕ := 8192
def maxDepth : ℕ := 32
def maxValues : ℕ := 128

abbrev Parser (F α : Type) := Look F → Except (Fail F) (α × Look F)

def advance (st : Look F) : Except (Fail F) (Look F) := next N st.rest

def advanceKey (st : Look F) : Except (Fail F) (Look F) := nextKey N st.rest

def expect (want : Token F) (st : Look F) : Except (Fail F) Unit :=
  if st.tok = want then .ok () else .error ⟨.expected want st.tok, st.left⟩

def finish {α : Type} (a : α) (st : Look F) : Except (Fail F) (α × Look F) := do
  let st' ← advance N st
  .ok (a, st')

def repeatWhile {α : Type} (again : Token F → Bool)
    (step : α → Look F → Except (Fail F) (α × Look F)) (a : α) (st : Look F) :
    Except (Fail F) (α × Look F) :=
  whileLoop (fun st => st.rest.length) (fun st => ⟨.stuck, st.left⟩)
    (fun st => again st.tok) step a st

def tagStop : GoString := [comma, rbrace, lbrace]
def listStop : GoString := [comma, rparen, lbrace, rbrace]

def checkTag (key : GoString) (value : ValueText) : Except (Fail F) Unit :=
  if validTag (key ++ [SeriesModel.colon] ++ value.text) then .ok ()
  else .error ⟨.badTag value.text, value.left⟩

def tagValue (neg : Bool) (key : GoString) : Parser F Matcher := fun st => do
  let value := nextValue tagStop st.rest
  if value.text = [] then .error ⟨.wantedValue key, value.left⟩
  else
    let _ ← checkTag key value
    let st' ← next N value.rest
    .ok (.tag neg key value.text, st')

/-- One value of a list; the lookahead is the parenthesis or the comma before it. -/
def listValue (key : GoString) (values : List GoString) (st : Look F) :
    Except (Fail F) (List GoString × Look F) := do
  let value := nextValue listStop st.rest
  if value.text = [] then .error ⟨.wantedListValue key, value.left⟩
  else
    let _ ← checkTag key value
    if values.length = maxValues then .error ⟨.tooManyValues, value.left⟩
    else
      let st' ← next N value.rest
      .ok (values ++ [value.text], st')

def valueList (neg : Bool) (key : GoString) : Parser F Matcher := fun st => do
  let st ← advance N st
  let _ ← expect .lparen st
  let (first, st) ← listValue N key [] st
  let (values, st) ← repeatWhile (· = .comma) (listValue N key) first st
  let _ ← expect .rparen st
  finish N (.list neg key values) st

def afterKey (neg : Bool) (key : GoString) : Parser F Matcher := fun st =>
  match st.tok with
  | .colon => tagValue N neg key st
  | .ident word =>
    if word.map lowerByte = ofChars ['i', 'n'] then valueList N neg key st
    else .error ⟨.wantedMatch key st.tok, st.left⟩
  | _ => .error ⟨.wantedMatch key st.tok, st.left⟩

def keyed (neg : Bool) : Parser F Matcher := fun st =>
  match st.tok with
  | .key key =>
    if validTag key then do
      let st' ← advance N st
      afterKey N neg key st'
    else .error ⟨.badKey key, st.left⟩
  | _ => .error ⟨.wantedKey st.tok, st.left⟩

def matcher : Parser F Matcher := fun st =>
  match st.tok with
  | .bang => do
    let st' ← advanceKey N st
    match st'.tok with
    | .var name => .error ⟨.negatedVar name, st.left⟩
    | _ => keyed N true st'
  | .var name => finish N (.var name) st
  | _ => keyed N false st

def nextMatcher (ms : List Matcher) (st : Look F) : Except (Fail F) (List Matcher × Look F) := do
  let st ← advanceKey N st
  let (m, st) ← matcher N st
  .ok (ms ++ [m], st)

def matchers : Parser F (List Matcher) := fun st => do
  let (m, st) ← matcher N st
  let (ms, st) ← repeatWhile (· = .comma) (nextMatcher N) [m] st
  if st.tok = .rbrace then .ok (ms, st) else .error ⟨.wantedClose st.tok, st.left⟩

/-- A filter; the lookahead is the brace before it, and on return the one after it. -/
def filter : Parser F (List Matcher) := fun st => do
  let st ← advanceKey N st
  match st.tok with
  | .star => do
    let st ← advance N st
    let _ ← expect .rbrace st
    .ok ([], st)
  | .rbrace => .error ⟨.emptyFilter, st.left⟩
  | _ => matchers N st

/-- One key of a grouping; the lookahead is the brace or the comma before it. -/
def groupKey (keys : List GoString) (st : Look F) : Except (Fail F) (List GoString × Look F) := do
  let st ← advanceKey N st
  match st.tok with
  | .key key =>
    if validTag key then
      if key ∈ keys then .error ⟨.repeatedKey key, st.left⟩ else finish N (keys ++ [key]) st
    else .error ⟨.badGroupKey key, st.left⟩
  | _ => .error ⟨.wantedGroupKey st.tok, st.left⟩

def grouping : Parser F (List GoString) := fun st => do
  let st ← advance N st
  let _ ← expect .lbrace st
  let (first, st) ← groupKey N [] st
  let (keys, st) ← repeatWhile (· = .comma) (groupKey N) first st
  if st.tok = .rbrace then finish N keys st else .error ⟨.wantedClose st.tok, st.left⟩

def seconds : Parser F ℕ := fun st =>
  match st.tok with
  | .number text v =>
    let secs := N.toInt v
    if N.ofInt secs ≠ v ∨ secs < 1 ∨ secs > maxSeconds then .error ⟨.badSeconds text, st.left⟩
    else finish N secs.toNat st
  | _ => .error ⟨.wantedSeconds st.tok, st.left⟩

def optionalSeconds : Parser F ℕ := fun st =>
  if st.tok = .comma then do
    let st ← advance N st
    seconds N st
  else .ok (0, st)

def methodArgs {α : Type} (words : List α) (text : α → GoString) (kind : ModKind)
    (build : α → ℕ → Modifier) : Parser F Modifier := fun st =>
  match st.tok with
  | .ident name =>
    match words.find? (fun w => text w = name) with
    | some method => do
      let st ← advance N st
      let (secs, st) ← optionalSeconds N st
      .ok (build method secs, st)
    | none => .error ⟨.wantedMethod kind st.tok, st.left⟩
  | _ => .error ⟨.wantedMethod kind st.tok, st.left⟩

def noArgs (m : Modifier) : Parser F Modifier := fun st =>
  if st.tok = .rparen then .ok (m, st) else .error ⟨.takesNone m.kind, st.left⟩

def modifierArgs (kind : ModKind) : Parser F Modifier :=
  match kind with
  | .asRate => noArgs .asRate
  | .asCount => noArgs .asCount
  | .rollup => methodArgs N rollupMethods Rollup.text .rollup .rollup
  | .fill => methodArgs N fillModes Fill.text .fill .fill

def modifier (name : GoString) : Parser F Modifier := fun st => do
  let named := st.left
  let st ← advance N st
  let _ ← expect .lparen st
  let st ← advance N st
  match modKinds.find? (fun k => k.text = name) with
  | none => .error ⟨.unknownModifier name, named⟩
  | some kind => do
    let (m, st) ← modifierArgs N kind st
    let _ ← expect .rparen st
    finish N m st

def nextModifier (ms : List Modifier) (st : Look F) : Except (Fail F) (List Modifier × Look F) := do
  let st ← advance N st
  match st.tok with
  | .ident name => do
    let (m, st') ← modifier N name st
    if m.kind ∈ ms.map Modifier.kind then .error ⟨.repeatedModifier m.kind, st.left⟩
    else .ok (ms ++ [m], st')
  | _ => .error ⟨.wantedModifier st.tok, st.left⟩

def modifiers : Parser F (List Modifier) := repeatWhile (· = .dot) (nextModifier N) []

def optionalGrouping : Parser F (List GoString) := fun st =>
  match st.tok with
  | .ident word =>
    if word.map lowerByte = ofChars ['b', 'y'] then grouping N st else .ok ([], st)
  | _ => .ok ([], st)

def query (agg : Agg) : Parser F (Node F) := fun st => do
  let st ← advance N st
  match st.tok with
  | .ident metric =>
    if validMetricName metric then do
      let st ← advance N st
      let _ ← expect .lbrace st
      let (fs, st) ← filter N st
      let st ← advance N st
      let (keys, st) ← optionalGrouping N st
      let (ms, st) ← modifiers N st
      .ok (.query ⟨agg, metric, fs, keys, ms⟩, st)
    else .error ⟨.badMetric metric, st.left⟩
  | _ => .error ⟨.wantedMetric st.tok, st.left⟩

section Level

variable (expr factor : Parser F (Node F))

def literalNumber : Node F → Bool
  | .number _ => true
  | .neg (.number _) => true
  | _ => false

def argument (f : Fn) (index : ℕ) (kind : ArgKind) : Parser F (Node F) := fun st =>
  match kind.values with
  | some words =>
    match st.tok with
    | .str word =>
      if word ∈ words then finish N (.str word) st else .error ⟨.wantedWord f index kind, st.left⟩
    | _ => .error ⟨.wantedWord f index kind, st.left⟩
  | none => do
    let (n, st') ← expr st
    if kind = .number ∧ literalNumber n = false then .error ⟨.wantedNumber f index, st.left⟩
    else .ok (n, st')

def argumentAfter (f : Fn) (args : List (Node F)) (st : Look F) :
    Except (Fail F) (List (Node F) × Look F) :=
  match f.signature.args[args.length]? with
  | none => .error ⟨.tooManyArgs f, st.left⟩
  | some kind => do
    let (n, st) ← argument N expr f args.length kind st
    .ok (args ++ [n], st)

def nextArgument (f : Fn) (args : List (Node F)) (st : Look F) :
    Except (Fail F) (List (Node F) × Look F) := do
  let st ← advance N st
  argumentAfter N expr f args st

def arguments (f : Fn) : Parser F (List (Node F)) := fun st =>
  if st.tok = .rparen then .ok ([], st)
  else do
    let (first, st) ← argumentAfter N expr f [] st
    repeatWhile (· = .comma) (nextArgument N expr f) first st

/-- A call; the lookahead is its parenthesis, and `named` is what was left at its name. -/
def call (f : Fn) (named : ℕ) : Parser F (Node F) := fun st => do
  let st ← advance N st
  let (args, st) ← arguments N expr f st
  let _ ← expect .rparen st
  if args.length < f.signature.required then .error ⟨.tooFewArgs f args.length, named⟩
  else finish N (.call f args) st

/-- A query opens with its aggregator and a colon, a call with its name and a parenthesis. -/
def identifier (name : GoString) : Parser F (Node F) := fun st => do
  let named := st.left
  let st ← advance N st
  match st.tok with
  | .colon =>
    match aggs.find? (fun a => a.text = name.map lowerByte) with
    | some agg => query N agg st
    | none => .error ⟨.unknownAgg name, named⟩
  | .lparen =>
    match functions.find? (fun f => f.text = name) with
    | some f => call N expr f named st
    | none => .error ⟨.unknownFunction name, named⟩
  | _ => .error ⟨.strayName name, named⟩

def factorBody : Parser F (Node F) := fun st =>
  match st.tok with
  | .minus => do
    let st ← advance N st
    let (x, st) ← factor st
    .ok (.neg x, st)
  | .number _ v => finish N (.number v) st
  | .lparen => do
    let st ← advance N st
    let (inner, st) ← expr st
    let _ ← expect .rparen st
    finish N inner st
  | .str _ => .error ⟨.strayString, st.left⟩
  | .ident name => identifier N expr name st
  | _ => .error ⟨.wantedFactor st.tok, st.left⟩

def opOf (precedence : ℕ) (tok : Token F) : Option Op :=
  match tok with
  | .plus => if precedence = 1 then some .add else none
  | .minus => if precedence = 1 then some .sub else none
  | .star => if precedence = 2 then some .mul else none
  | .slash => if precedence = 2 then some .div else none
  | _ => none

def nextOperand (precedence : ℕ) (operand : Parser F (Node F)) (left : Node F) (st : Look F) :
    Except (Fail F) (Node F × Look F) := do
  let st' ← advance N st
  let (right, st') ← operand st'
  match opOf precedence st.tok with
  | some op => .ok (.binary op left right, st')
  | none => .ok (left, st')

def chain (precedence : ℕ) (operand : Parser F (Node F)) : Parser F (Node F) := fun st => do
  let (first, st) ← operand st
  repeatWhile (fun tok => (opOf precedence tok).isSome) (nextOperand N precedence operand) first st

def term : Parser F (Node F) := chain N 2 factor

def exprBody : Parser F (Node F) := chain N 1 (term N factor)

end Level

mutual

def expr : ℕ → Parser F (Node F)
  | 0, st => .error ⟨.tooDeep, st.left⟩
  | k + 1, st => exprBody N (factor k) st

def factor : ℕ → Parser F (Node F)
  | 0, st => .error ⟨.tooDeep, st.left⟩
  | k + 1, st => factorBody N (expr k) (factor k) st

end

structure ParseError (F : Type) where
  msg : Msg F
  col : ℕ

def parseFrom (q : GoString) : Except (Fail F) (Node F) := do
  let st ← next N q
  let (n, st) ← expr N maxDepth st
  if st.tok = .eof then .ok n else .error ⟨.trailing st.tok, st.left⟩

def parse (q : GoString) : Except (ParseError F) (Node F) :=
  if maxLen < q.length then .error ⟨.tooLong q.length, maxLen + 1⟩
  else
    match parseFrom N q with
    | .ok n => .ok n
    | .error e => .error ⟨e.msg, q.length - e.left + 1⟩

def print (n : Node F) : GoString := n.string N.formatFloat N.quote

end Ozymandias.MetricParse
