import Ozymandias.MetricReading

/-!
Printed metric queries parse back. A tree that the parser builds at a level fits
that level: chains of operators lean to the left, and what stands in parentheses
fits the level below. A tree that fits is printed with parentheses exactly where
the parser needs them, so it reads back at its level, and a whole query at the
top.
-/
namespace Ozymandias.MetricRoundTrip

open BitLists Ascii Utf8 Substrings Loops MetricQuery MetricLex MetricParse
  MetricTokens MetricPieces
  MetricReading
open SeriesModel (GoString colon)

variable {F : Type} {N : Strconv F}

/-- Operands that satisfy `Q`, with operators of one precedence between them. -/
inductive Chain (p : ℕ) (Q : Node F → Prop) : Node F → Prop
  | single {n : Node F} (h : Q n) (hn : n.precedence ≠ p) : Chain p Q n
  | more {op : Op} {l r : Node F} (hop : op.precedence = p) (hl : Chain p Q l) (hr : Q r) :
      Chain p Q (.binary op l r)

variable {Q : Node F → Prop} (f : Fn) {k : ℕ} {n : Node F} {op : Op} {operand : Parser F (Node F)}
  {p : ℕ} {r : GoString} {st' : Look F} {P : Node F → Prop}

theorem Chain.mono (h : ∀ n, P n → Q n) (hn : Chain p P n) : Chain p Q n := by
  induction hn with
  | single hP hprec => exact .single (h _ hP) hprec
  | more hop _ hr ih => exact .more hop ih (h _ hr)

theorem Chain.of_ne (h : Chain p Q n) (hne : n.precedence ≠ p) : Q n := by
  cases h with
  | single h => exact h
  | more hop _ _ => exact absurd hop hne

/-- An argument of a kind, if expressions are those that satisfy `E`. -/
def ArgOk (E : Node F → Prop) (kind : ArgKind) (n : Node F) : Prop :=
  match kind.values with
  | some words => ∃ w ∈ words, n = .str w
  | none => E n ∧ (kind = .number → literalNumber n = true)

structure ArgsOk (E : Node F → Prop) (f : Fn) (args : List (Node F)) : Prop where
  required : f.signature.required ≤ args.length
  ok : ∀ (i : ℕ) (n : Node F), args[i]? = some n → ∃ kind, f.signature.args[i]? = some kind ∧
    ArgOk E kind n

mutual

def FitsExpr (N : Strconv F) : ℕ → Node F → Prop
  | 0, _ => False
  | k + 1, n => Chain 1 (Chain 2 (Fits N k)) n

def Fits (N : Strconv F) : ℕ → Node F → Prop
  | 0, _ => False
  | _ + 1, .number v => NumberOk N v
  | _ + 1, .str _ => False
  | _ + 1, .query q => QueryOk q
  | k + 1, .call f args => ArgsOk (FitsExpr N k) f args
  | k + 1, .neg x => Fits N k x
  | k + 1, .binary op l r => FitsExpr N k (.binary op l r)

end

theorem ArgsOk.mono (h : ∀ n, P n → Q n) {f : Fn} {args : List (Node F)} (hargs : ArgsOk P f args) :
    ArgsOk Q f args := by
  refine ⟨hargs.required, fun i n hn => ?_⟩
  obtain ⟨kind, hkind, hok⟩ := hargs.ok i n hn
  refine ⟨kind, hkind, ?_⟩
  cases kind with
  | expr | number => exact ⟨h n hok.1, hok.2⟩
  | reducer => exact hok
  | order => exact hok

theorem fits_succ (k : ℕ) :
    (∀ n, Fits N k n → Fits N (k + 1) n) ∧ ∀ n, FitsExpr N k n → FitsExpr N (k + 1) n := by
  induction k with
  | zero => exact ⟨fun n h => by cases n <;> exact h.elim, fun n h => h.elim⟩
  | succ k ih =>
    refine ⟨fun n h => ?_, fun n h => ?_⟩
    · cases n with
      | number v | str s | query q => exact h
      | call f args => exact ArgsOk.mono ih.2 h
      | neg x => exact ih.1 x h
      | binary op l r => exact ih.2 _ h
    · exact Chain.mono (fun _ => Chain.mono ih.1) h

theorem Fits.succ (h : Fits N k n) : Fits N (k + 1) n := (fits_succ k).1 n h

/-- A binary tree is a factor in parentheses, and an expression of two levels below. -/
theorem Fits.paren {l r : Node F} (h : Fits N k (.binary op l r)) :
    Chain 1 (Chain 2 (Fits N k)) (.binary op l r) := by
  cases k with
  | zero => exact h.elim
  | succ k =>
    cases k with
    | zero => exact h.elim
    | succ k => exact Chain.mono (fun _ => Chain.mono (fun _ hn => hn.succ.succ)) h

theorem Fits.product (h : Fits N k n) (hprec : n.precedence = 2) :
    Chain 2 (Fits N k) n := by
  cases n with
  | binary op l r => exact h.paren.of_ne (by rw [hprec]; decide)
  | _ => exact absurd hprec (show precUnary ≠ 2 by decide)

theorem Fits.sum (h : Chain 2 (Fits N k) n) (hprec : n.precedence = 1) :
    Chain 1 (Chain 2 (Fits N k)) n := by
  cases n with
  | binary op l r => exact (h.of_ne (by rw [hprec]; decide)).paren
  | _ => exact absurd hprec (show precUnary ≠ 1 by decide)

/-- An expression of the level below stands as a factor. -/
theorem FitsExpr.factor (h : FitsExpr N k n) : Fits N (k + 1) n := by
  cases k with
  | zero => exact h.elim
  | succ k =>
    have hone : n.precedence = precUnary → Fits N (k + 2) n := by
      intro hprec
      have hterm := Chain.of_ne h (by rw [hprec]; decide)
      exact (hterm.of_ne (by rw [hprec]; decide)).succ.succ
    cases n with
    | binary op l r => exact h
    | _ => exact hone rfl

def Starts (tok : Token F) : Prop := tok ≠ .eof ∧ tok ≠ .rparen

def Builds (N : Strconv F) (parser : Parser F (Node F)) (Q : Node F → Prop) : Prop :=
  ∀ st, Token.Ok N st.tok →
    Outcome (fun x => Q x.1 ∧ Moved N st x.2 ∧ Starts st.tok) Known (parser st)

theorem opOf_precedence {tok : Token F} (h : opOf p tok = some op) :
    op.precedence = p := by
  unfold opOf at h
  split at h
  all_goals first
    | cases h
    | split at h
      next hp =>
        cases h
        exact hp.symm
      · cases h

/-- A chain of operands; one that is itself such a chain stood in parentheses. -/
theorem chain_builds (hoperand : Builds N operand Q)
    (hQ : ∀ n, Q n → n.precedence = p → Chain p Q n) :
    Builds N (chain N p operand) (Chain p Q) := by
  intro st hst
  refine (hoperand st hst).bind ?_
  rintro ⟨first, st₁⟩ ⟨hfirst, h₁, hstarts⟩
  have hchain : Chain p Q first := by
    by_cases hprec : first.precedence = p
    · exact hQ first hfirst hprec
    · exact .single hfirst hprec
  refine (repeatWhile_outcome ?_ hchain h₁.ok).mono ?_
  · intro left st₂ hleft _ hagain
    refine (advance_outcome st₂).bind (fun st₃ h₃ => ?_)
    refine (hoperand st₃ h₃.1.ok).bind ?_
    rintro ⟨right, st₄⟩ ⟨hright, h₄, hne⟩
    obtain ⟨op, hop⟩ := Option.isSome_iff_exists.mp hagain
    rw [hop]
    exact ⟨.more (opOf_precedence hop) hleft hright, h₃.1.trans h₄, h₄.le.trans_lt (h₃.2 hne.1)⟩
  · rintro ⟨n, st₂⟩ ⟨hn, h₂, -⟩
    exact ⟨hn, h₁.trans h₂, hstarts⟩

section Level

variable {expr factor : Parser F (Node F)} {E P : Node F → Prop}

theorem argument_builds (hexpr : Builds N expr E) (f : Fn) (index : ℕ) (kind : ArgKind) :
    Builds N (argument N expr f index kind) (ArgOk E kind) := by
  intro st hst
  unfold argument ArgOk
  cases kind.values with
  | some words =>
    dsimp only
    split
    next word htok =>
      split
      next hword =>
        refine (finish_outcome _ st).mono ?_
        rintro ⟨n, st₁⟩ ⟨rfl, h₁⟩
        refine ⟨⟨word, hword, rfl⟩, h₁, ?_⟩
        rw [htok]
        exact ⟨nofun, nofun⟩
      · exact nofun
    · exact nofun
  | none =>
    refine (hexpr st hst).bind ?_
    rintro ⟨n, st₁⟩ ⟨hn, h₁, hstarts⟩
    dsimp only
    split
    · exact nofun
    next hnumber =>
      refine ⟨⟨hn, fun hkind => ?_⟩, h₁, hstarts⟩
      by_contra hfalse
      exact hnumber ⟨hkind, by simpa using hfalse⟩

def ArgsSoFar (E : Node F → Prop) (f : Fn) (args : List (Node F)) : Prop :=
  ∀ (i : ℕ) (n : Node F), args[i]? = some n → ∃ kind, f.signature.args[i]? = some kind ∧
    ArgOk E kind n

variable {f : Fn} {st : Look F}

theorem argsSoFar_nil : ArgsSoFar E f [] := nofun

theorem argumentAfter_outcome (hexpr : Builds N expr E) {args : List (Node F)}
    (hargs : ArgsSoFar E f args) (hst : Token.Ok N st.tok) :
    Outcome (fun x => ArgsSoFar E f x.1 ∧ Moved N st x.2 ∧ Starts st.tok) Known
      (argumentAfter N expr f args st) := by
  unfold argumentAfter
  split
  · exact nofun
  next kind hkind =>
    refine (argument_builds hexpr f _ kind st hst).bind ?_
    rintro ⟨n, st₁⟩ ⟨hn, h₁, hstarts⟩
    refine ⟨?_, h₁, hstarts⟩
    intro i n' hn'
    by_cases hi : i < args.length
    · rw [List.getElem?_append_left hi] at hn'
      exact hargs i n' hn'
    · rw [List.getElem?_append_right (by omega)] at hn'
      have hlt := (List.getElem?_eq_some_iff.mp hn').1
      rw [List.length_singleton] at hlt
      obtain rfl : i = args.length := by omega
      rw [Nat.sub_self] at hn'
      obtain rfl : n = n' := Option.some.inj hn'
      exact ⟨kind, hkind, hn⟩

variable [DecidableEq F]

theorem arguments_outcome (hexpr : Builds N expr E) (hst : Token.Ok N st.tok) :
    Gives st N (ArgsSoFar E f) (arguments N expr f st) := by
  unfold arguments
  split
  · exact ⟨argsSoFar_nil, hst, le_rfl⟩
  · refine (argumentAfter_outcome hexpr argsSoFar_nil hst).bind ?_
    rintro ⟨first, st₁⟩ ⟨hfirst, h₁, -⟩
    refine (repeatWhile_outcome ?_ hfirst h₁.ok).mono ?_
    · intro args st₂ hargs _ _
      refine (advance_outcome st₂).bind (fun st₃ h₃ => ?_)
      refine (argumentAfter_outcome hexpr hargs h₃.1.ok).mono ?_
      rintro ⟨args', st₄⟩ ⟨hargs', h₄, hne⟩
      exact ⟨hargs', h₃.1.trans h₄, h₄.le.trans_lt (h₃.2 hne.1)⟩
    · rintro ⟨args, st₂⟩ ⟨hargs, h₂, -⟩
      exact ⟨hargs, h₁.trans h₂⟩

theorem call_outcome (hexpr : Builds N expr E) (f : Fn) (named : ℕ) (st : Look F) :
    Gives st N (fun n => ∃ args, n = .call f args ∧ ArgsOk E f args) (call N expr f named st) := by
  refine (advance_outcome st).bind (fun st₁ h₁ => ?_)
  refine (arguments_outcome hexpr h₁.1.ok).bind ?_
  rintro ⟨args, st₂⟩ ⟨hargs, h₂⟩
  refine (expect_outcome _ st₂).bind (fun _ _ => ?_)
  split
  · exact nofun
  next hrequired =>
    refine (finish_outcome _ st₂).mono ?_
    rintro ⟨n, st₃⟩ ⟨rfl, h₃⟩
    exact ⟨⟨args, rfl, not_lt.mp hrequired, hargs⟩, (h₁.1.trans h₂).trans h₃⟩

end Level

section Outcomes

variable [DecidableEq F] {expr : Parser F (Node F)}

theorem identifier_outcome (hexpr : Builds N expr (FitsExpr N k)) (name : GoString) (st : Look F) :
    Gives st N (Fits N (k + 1)) (identifier N expr name st) := by
  refine (advance_outcome st).bind (fun st₁ h₁ => ?_)
  split
  · split
    next agg _ =>
      refine (query_outcome agg st₁).mono ?_
      rintro ⟨n, st₂⟩ ⟨⟨q, hn, hq⟩, h₂⟩
      subst hn
      exact ⟨hq, h₁.1.trans h₂⟩
    · exact nofun
  · split
    next f _ =>
      refine (call_outcome hexpr f _ st₁).mono ?_
      rintro ⟨n, st₂⟩ ⟨⟨args, hn, hargs⟩, h₂⟩
      subst hn
      exact ⟨hargs, h₁.1.trans h₂⟩
    · exact nofun
  · exact nofun

theorem factorBody_builds {factor : Parser F (Node F)} (hexpr : Builds N expr (FitsExpr N k))
    (hfactor : Builds N factor (Fits N k)) :
    Builds N (factorBody N expr factor) (Fits N (k + 1)) := by
  intro st hst
  unfold factorBody
  split
  next htok =>
    refine (advance_outcome st).bind (fun st₁ h₁ => ?_)
    refine (hfactor st₁ h₁.1.ok).bind ?_
    rintro ⟨x, st₂⟩ ⟨hx, h₂, -⟩
    exact ⟨hx, h₁.1.trans h₂, by rw [htok]; exact ⟨nofun, nofun⟩⟩
  next htok =>
    rw [htok] at hst
    refine (finish_outcome _ st).mono ?_
    rintro ⟨n, st₁⟩ ⟨rfl, h₁⟩
    exact ⟨hst, h₁, by rw [htok]; exact ⟨nofun, nofun⟩⟩
  next htok =>
    refine (advance_outcome st).bind (fun st₁ h₁ => ?_)
    refine (hexpr st₁ h₁.1.ok).bind ?_
    rintro ⟨inner, st₂⟩ ⟨hinner, h₂, -⟩
    refine (expect_outcome _ st₂).bind (fun _ _ => ?_)
    refine (finish_outcome _ st₂).mono ?_
    rintro ⟨n, st₃⟩ ⟨rfl, h₃⟩
    exact ⟨hinner.factor, (h₁.1.trans h₂).trans h₃, by rw [htok]; exact ⟨nofun, nofun⟩⟩
  · exact nofun
  next name htok =>
    refine (identifier_outcome hexpr name st).mono (fun x hx => ⟨hx.1, hx.2, ?_⟩)
    rw [htok]
    exact ⟨nofun, nofun⟩
  · exact nofun

/-- The parsers of a level build trees that fit it. -/
theorem level_builds (k : ℕ) :
    Builds N (MetricParse.expr N k) (FitsExpr N k) ∧ Builds N (MetricParse.factor N k)
      (Fits N k) := by
  induction k with
  | zero => exact ⟨fun _ _ => nofun, fun _ _ => nofun⟩
  | succ k ih =>
    have hterm : Builds N (term N (MetricParse.factor N k)) (Chain 2 (Fits N k)) :=
      chain_builds ih.2 (fun _ h hprec => h.product hprec)
    have hexpr : Builds N (exprBody N (MetricParse.factor N k)) (Chain 1 (Chain 2 (Fits N k))) :=
      chain_builds hterm (fun _ h hprec => Fits.sum h hprec)
    exact ⟨hexpr, factorBody_builds ih.1 ih.2⟩

/-- A parsed query fits the top level. The loops of the parser always come to an end. -/
theorem parseFrom_outcome (q : GoString) :
    Outcome (FitsExpr N maxDepth) Known (parseFrom N q) := by
  refine (next_outcome q).bind (fun st h => ?_)
  refine ((level_builds maxDepth).1 st h.ok).bind ?_
  rintro ⟨n, st₁⟩ ⟨hn, -, -⟩
  dsimp only
  split
  · exact hn
  · exact nofun

end Outcomes

def wrapped (N : Strconv F) (p : ℕ) (n : Node F) : GoString := wrap (n.precedence < p) (print N n)

/-- What may follow a tree at a level: no name, no modifier, and no operator that binds as
tightly. -/
structure Follow (N : Strconv F) (p : ℕ) (r : GoString) (st : Look F) : Prop where
  read : next N r = .ok st
  stops : Stops r
  plain : Plain st
  ops : ∀ q, p ≤ q → opOf q st.tok = none

def ReadsBack (N : Strconv F) (parser : Parser F (Node F)) (p : ℕ) (n : Node F) : Prop :=
  ∀ r st', Follow N p r st' →
    ∃ st, next N (wrapped N p n ++ r) = .ok st ∧ parser st = .ok (n, st')

theorem follow_rparen (p : ℕ) (t : GoString) :
    Follow N p (rparen :: t) ⟨.rparen, t.length + 1, t⟩ :=
  ⟨rfl, stops_cons (by decide) t, ⟨fun _ => nofun, nofun⟩, fun _ _ => rfl⟩

theorem follow_comma (p : ℕ) (t : GoString) : Follow N p (comma :: t) ⟨.comma, t.length + 1, t⟩ :=
  ⟨rfl, stops_cons (by decide) t, ⟨fun _ => nofun, nofun⟩, fun _ _ => rfl⟩

theorem follow_nil (p : ℕ) : Follow N p [] ⟨.eof, 0, []⟩ :=
  ⟨rfl, nofun, ⟨fun _ => nofun, nofun⟩, fun _ _ => rfl⟩

def opToken : Op → Token F
  | .add => .plus
  | .sub => .minus
  | .mul => .star
  | .div => .slash

theorem opOf_opToken (op : Op) (p : ℕ) :
    opOf p (opToken op : Token F) = if op.precedence = p then some op else none := by
  cases op <;> simp [opOf, opToken, Op.precedence, eq_comm]

theorem follow_op (op : Op) (t : GoString) :
    Follow N (op.precedence + 1) ([space, op.byte, space] ++ t)
      ⟨opToken op, (space :: t).length + 1, space :: t⟩ := by
  refine ⟨?_, stops_cons (by decide) _, ⟨fun _ => ?_, ?_⟩, fun q hq => ?_⟩
  · cases op <;> rfl
  · cases op <;> exact nofun
  · cases op <;> exact nofun
  · rw [opOf_opToken, if_neg (by omega)]

theorem Node.precedence_pos (n : Node F) : 1 ≤ n.precedence := by
  cases n with
  | binary op l r => exact (by cases op <;> decide : 1 ≤ op.precedence)
  | _ => exact (by decide : 1 ≤ precUnary)

theorem wrapped_one (n : Node F) : wrapped N 1 n = print N n :=
  if_neg (not_lt.mpr (Node.precedence_pos n))

theorem wrapped_succ (h : n.precedence ≠ p) : wrapped N (p + 1) n = wrapped N p n := by
  have hiff : n.precedence < p + 1 ↔ n.precedence < p := by omega
  unfold wrapped wrap
  rw [if_congr hiff rfl rfl]

theorem wrapped_binary {l r : Node F} : wrapped N op.precedence (.binary op l r) =
      wrapped N op.precedence l ++
        ([space, op.byte, space] ++ wrapped N (op.precedence + 1) r) := by
  have hiff : r.precedence ≤ op.precedence ↔ r.precedence < op.precedence + 1 :=
    Nat.lt_succ_iff.symm
  have hself : wrapped N op.precedence (.binary op l r) = print N (.binary op l r) :=
    if_neg (lt_irrefl _)
  rw [hself]
  unfold print wrapped wrap
  rw [Node.string, ← if_congr hiff rfl rfl, List.append_assoc]
  rfl

/-- A chain reads back if its operands do: the loop comes to the whole chain at its end. -/
theorem chain_loop (hoperand : ∀ n, Q n → ReadsBack N operand (p + 1) n) (hn : Chain p Q n)
    (hr : Follow N (p + 1) r st') :
    ∃ st, next N (wrapped N p n ++ r) = .ok st ∧ chain N p operand st =
      repeatWhile (fun tok => (opOf p tok).isSome) (nextOperand N p operand) n st' := by
  induction hn generalizing r st' with
  | @single n hQ hprec =>
    obtain ⟨st, hst, hparse⟩ := hoperand n hQ r st' hr
    rw [wrapped_succ hprec] at hst
    refine ⟨st, hst, ?_⟩
    unfold chain
    simp only [hparse, ok_bind]
  | @more op left right hop _ hright ih =>
    subst hop
    obtain ⟨st₂, hst₂, hparse⟩ := hoperand right hright r st' hr
    obtain ⟨st, hst, hchain⟩ := ih (follow_op op (wrapped N (op.precedence + 1) right ++ r))
    refine ⟨st, ?_, hchain.trans (repeatWhile_step ?_ ?_ ?_)⟩
    · rw [wrapped_binary]
      simpa only [List.append_assoc] using hst
    · rw [opOf_opToken, if_pos rfl]
      rfl
    · unfold nextOperand advance
      rw [next_space, hst₂]
      simp only [ok_bind, hparse, opOf_opToken, if_true]
    · have hle := next_outcome (N := N) r
      rw [hr.read] at hle
      have hle := hle.rest_le
      simp only [List.length_cons, List.length_append]
      omega

theorem chain_reads (hoperand : ∀ n, Q n → ReadsBack N operand (p + 1) n) (hn : Chain p Q n) :
    ReadsBack N (chain N p operand) p n := by
  intro r st' hr
  have hr' : Follow N (p + 1) r st' :=
    ⟨hr.read, hr.stops, hr.plain, fun q hq => hr.ops q (by omega)⟩
  obtain ⟨st, hst, hloop⟩ := chain_loop hoperand hn hr'
  refine ⟨st, hst, hloop.trans (repeatWhile_done ?_)⟩
  rw [hr.ops p le_rfl]
  rfl

theorem reducer_letters {kind : ArgKind} {words : List GoString} (h : kind.values = some words) :
    ∀ w ∈ words, ∀ c ∈ w, isLetter c = true := by
  cases kind with
  | reducer | order =>
    cases h
    decide
  | _ => cases h

section Level

variable {expr : Parser F (Node F)} {E : Node F → Prop}

theorem argument_reads (hexpr : ∀ n, E n → ReadsBack N expr 1 n) (f : Fn) (index : ℕ)
    {kind : ArgKind} (hn : ArgOk E kind n) (hr : Follow N 1 r st') :
    ∃ st, next N (print N n ++ r) = .ok st ∧ argument N expr f index kind st = .ok (n, st') := by
  unfold ArgOk at hn
  unfold argument
  cases hvalues : kind.values with
  | some words =>
    rw [hvalues] at hn
    obtain ⟨w, hw, rfl⟩ := hn
    have hletters := reducer_letters hvalues w hw
    have htext : print N (.str w) ++ r = dquote :: w ++ dquote :: r := by
      unfold print
      rw [Node.string, N.quote_word w hletters]
      simp
    rw [htext]
    refine ⟨_, next_str hletters r, ?_⟩
    dsimp only
    rw [if_pos hw]
    exact finish_reads hr.read
  | none =>
    rw [hvalues] at hn
    obtain ⟨st, hst, hparse⟩ := hexpr n hn.1 r st' hr
    rw [wrapped_one] at hst
    refine ⟨st, hst, ?_⟩
    simp only [hparse]
    refine if_neg ?_
    rintro ⟨hkind, hfalse⟩
    rw [hn.2 hkind] at hfalse
    cases hfalse

variable {f : Fn} {rest : List (Node F)}

theorem argumentAfter_reads (hexpr : ∀ n, E n → ReadsBack N expr 1 n) {done : List (Node F)}
    (hargs : ArgsOk E f (done ++ n :: rest)) (hr : Follow N 1 r st') :
    ∃ st, next N (print N n ++ r) = .ok st ∧
      argumentAfter N expr f done st = .ok (done ++ [n], st') := by
  obtain ⟨kind, hkind, hok⟩ := hargs.ok done.length n (by simp)
  obtain ⟨st, hst, hparse⟩ := argument_reads hexpr f done.length hok hr
  refine ⟨st, hst, ?_⟩
  unfold argumentAfter
  rw [hkind]
  simp only [hparse, ok_bind]

variable [DecidableEq F]

theorem arguments_reads (hbuilds : Builds N expr E) (hexpr : ∀ n, E n → ReadsBack N expr 1 n)
    (hargs : ArgsOk E f (n :: rest)) (t : GoString) :
    ∃ st, next N (joined [comma, space] (Node.strings N.formatFloat N.quote (n :: rest)) ++
        rparen :: t) = .ok st ∧
      arguments N expr f st = .ok (n :: rest, ⟨.rparen, t.length + 1, t⟩) := by
  have hclose : next N (rparen :: t) = .ok ⟨.rparen, t.length + 1, t⟩ := rfl
  have hmap : ∀ ns, Node.strings N.formatFloat N.quote ns = ns.map (print N) := by
    intro ns
    induction ns with
    | nil => rfl
    | cons n ns ih => rw [Node.strings, ih]; rfl
  have htext : joined [comma, space]
    (Node.strings N.formatFloat N.quote (n :: rest)) ++ rparen :: t =
      print N n ++ (separated comma (fun x => space :: print N x) rest ++ rparen :: t) := by
    rw [hmap, List.map_cons, joined_cons]
    simp [separated, List.flatMap_map]
  have hfollow : ∀ (xs : List (Node F)) st,
      next N (separated comma (fun x => space :: print N x) xs ++ rparen :: t) = .ok st →
      Follow N 1 (separated comma (fun x => space :: print N x) xs ++ rparen :: t) st := by
    intro xs st hst
    obtain ⟨d, t', heq, hd⟩ :=
      separated_append comma (fun x : Node F => space :: print N x) xs rparen t
    rw [heq] at hst ⊢
    rcases hd with rfl | rfl
    · obtain rfl := Except.ok.inj (hst.symm.trans (follow_comma 1 t').read)
      exact follow_comma 1 t'
    · obtain rfl := Except.ok.inj (hst.symm.trans (follow_rparen 1 t').read)
      exact follow_rparen 1 t'
  obtain ⟨st₁, hst₁, -⟩ := next_separated comma_mem (fun x => space :: print N x) hclose rest
  have hargs' : ArgsOk E f ([] ++ n :: rest) := hargs
  obtain ⟨st, hst, hfirst⟩ := argumentAfter_reads hexpr hargs' (hfollow rest st₁ hst₁)
  have hstarts : st.tok ≠ .rparen := by
    have hok := next_outcome (N := N)
      (print N n ++ (separated comma (fun x => space :: print N x) rest ++ rparen :: t))
    rw [hst] at hok
    have hspec := argumentAfter_outcome hbuilds (argsSoFar_nil (f := f)) hok.ok
    rw [hfirst] at hspec
    exact hspec.2.2.2
  have hloop : repeatWhile (fun tok => decide (tok = .comma)) (nextArgument N expr f)
    ([] ++ [n]) st₁ =
      .ok (n :: rest, ⟨.rparen, t.length + 1, t⟩) := by
    refine repeatWhile_reads comma_mem (fun x => space :: print N x) hclose (fun h => by cases h)
      (fun _ _ => List.cons_ne_nil _ _) ?_ rfl hst₁
    intro done x xs st₂ st₃ hitems hrest hnext
    rw [← hitems] at hargs
    obtain ⟨st₄, hst₄, hparse⟩ := argumentAfter_reads hexpr hargs (hfollow xs st₃ hnext)
    unfold nextArgument advance
    rw [hrest, List.cons_append, next_space, hst₄]
    exact hparse
  rw [htext]
  refine ⟨st, hst, ?_⟩
  unfold arguments
  rw [if_neg hstarts, hfirst]
  exact hloop

end Level

theorem Fn.required_pos : 0 < f.signature.required := by cases f <;> decide

theorem agg_word (a : Agg) : isWord a.text = true := by cases a <;> rfl

theorem agg_find (a : Agg) : aggs.find? (fun b => b.text = a.text.map lowerByte) = some a := by
  cases a <;> rfl

theorem fn_word : isWord f.text = true := by cases f <;> rfl

theorem fn_find : functions.find? (fun g => g.text = f.text) = some f := by
  cases f <;> rfl

variable [DecidableEq F]

theorem factor_reads {expr factor : Parser F (Node F)} (hbuilds : Builds N expr (FitsExpr N k))
    (hexpr : ∀ n, FitsExpr N k n → ReadsBack N expr 1 n)
    (hfactor : ∀ n, Fits N k n → ReadsBack N factor 3 n) (hn : Fits N (k + 1) n) :
    ReadsBack N (factorBody N expr factor) 3 n := by
  intro r st' hr
  cases n with
  | number v =>
    obtain ⟨t, ht, hv⟩ := hn
    refine ⟨_, next_number (N.format_numeral t v ht hv) (N.parse_format t v ht hv) hr.stops, ?_⟩
    exact finish_reads hr.read
  | str s => exact hn.elim
  | query q =>
    have htext : wrapped N 3 (.query q : Node F) ++ r = q.agg.text ++
      (colon :: (queryTail q ++ r)) := by
      change q.string ++ r = _
      simp [Query.string, queryTail, separated]
    rw [htext]
    refine ⟨_, next_word (agg_word q.agg) (stops_cons (by decide) _), ?_⟩
    have hcolon : next N (colon :: (queryTail q ++ r)) =
        .ok ⟨.colon, (queryTail q ++ r).length + 1, queryTail q ++ r⟩ := rfl
    unfold factorBody identifier advance
    simp only [hcolon, agg_find]
    exact query_reads hn hr.read hr.plain rfl
  | call f args =>
    cases args with
    | nil => exact absurd hn.required (not_le.mpr (Fn.required_pos f))
    | cons first rest =>
      obtain ⟨st, hst, hparse⟩ := arguments_reads hbuilds hexpr hn r
      set body := joined [comma, space]
        (Node.strings N.formatFloat N.quote (first :: rest)) with hbody
      have htext : wrapped N 3 (.call f (first :: rest)) ++ r =
          f.text ++ (lparen :: (body ++ rparen :: r)) := by
        change Node.string N.formatFloat N.quote (.call f (first :: rest)) ++ r = _
        rw [Node.string]
        simp [hbody]
      rw [htext]
      refine ⟨_, next_word (fn_word f) (stops_cons (by decide) _), ?_⟩
      have hopen : next N (lparen :: (body ++ rparen :: r)) =
          .ok ⟨.lparen, (body ++ rparen :: r).length + 1, body ++ rparen :: r⟩ := rfl
      unfold factorBody identifier advance
      simp only [hopen, fn_find]
      unfold call advance
      simp only [hst, ok_bind, hparse]
      rw [if_neg (not_lt.mpr hn.required)]
      exact finish_reads hr.read
  | neg x =>
    obtain ⟨st, hst, hparse⟩ := hfactor x hn r st' hr
    refine ⟨⟨.minus, (wrapped N 3 x ++ r).length + 1, wrapped N 3 x ++ r⟩, rfl, ?_⟩
    unfold factorBody advance
    simp only [hst, ok_bind, hparse]
  | binary op l r₀ =>
    obtain ⟨st, hst, hparse⟩ := hexpr _ hn (rparen :: r) _ (follow_rparen 1 r)
    rw [wrapped_one] at hst
    have hlt : (Node.binary op l r₀).precedence < 3 := by
      change op.precedence < 3
      cases op <;> decide
    have htext : wrapped N 3 (.binary op l r₀) ++ r =
        lparen :: (print N (.binary op l r₀) ++ rparen :: r) := by
      unfold wrapped wrap
      rw [if_pos hlt]
      simp
    rw [htext]
    refine ⟨⟨.lparen, (print N (.binary op l r₀) ++ rparen :: r).length + 1,
      print N (.binary op l r₀) ++ rparen :: r⟩, rfl, ?_⟩
    unfold factorBody advance
    simp only [hst, ok_bind, hparse]
    exact finish_reads hr.read

theorem level_reads (k : ℕ) : (∀ n, FitsExpr N k n → ReadsBack N (MetricParse.expr N k) 1 n) ∧
      ∀ n, Fits N k n → ReadsBack N (MetricParse.factor N k) 3 n := by
  induction k with
  | zero => exact ⟨fun _ h => h.elim, fun n h => by cases n <;> exact h.elim⟩
  | succ k ih =>
    have hterm : ∀ n, Chain 2 (Fits N k) n → ReadsBack N (term N (MetricParse.factor N k)) 2 n :=
      fun _ hn => chain_reads ih.2 hn
    exact ⟨fun _ hn => chain_reads hterm hn,
      fun _ hn => factor_reads (level_builds k).1 ih.1 ih.2 hn⟩

/-- Every query that parses to a tree whose text is not too long is printed as a query that parses
to the same tree. -/
theorem parse_print_metric (N : Strconv F) (q : GoString) (n : Node F) (h : parse N q = .ok n)
    (hlen : (print N n).length ≤ maxLen) : parse N (print N n) = .ok n := by
  have hfits : FitsExpr N maxDepth n := by
    unfold parse at h
    split at h
    · cases h
    · have hspec := parseFrom_outcome (N := N) q
      split at h
      next m hm =>
        rw [hm] at hspec
        rw [← Except.ok.inj h]
        exact hspec
      · cases h
  obtain ⟨st, hst, hparse⟩ := (level_reads maxDepth).1 n hfits [] _ (follow_nil 1)
  rw [List.append_nil, wrapped_one] at hst
  have hfrom : parseFrom N (print N n) = .ok n := by
    unfold parseFrom
    simp only [hst, ok_bind, hparse]
    rfl
  unfold parse
  rw [if_neg (not_lt.mpr hlen), hfrom]

/-- Every query ends in a tree within the limits or in an error of the parser's own. -/
theorem parse_fits (N : Strconv F) (q : GoString) :
    Outcome (FitsExpr N maxDepth) (fun e => e.msg ≠ .stuck) (parse N q) := by
  have hspec := parseFrom_outcome (N := N) q
  unfold parse
  split
  · exact fun h => by cases h
  · split
    next n hn => rwa [hn] at hspec
    next e he => rwa [he] at hspec

def wholeNumbers : Strconv ℕ where
  parseFloat t := if t.all isDigit then some (digitsValue t) else none
  formatFloat := decimal
  quote w := dquote :: w ++ [dquote]
  ofInt z := z.toNat
  toInt n := n
  format_numeral _ n _ _ := ⟨decimal n, [], [], by simp, digits_decimal n, .inl rfl, .inl rfl⟩
  parse_format _ n _ _ := by
    rw [if_pos (List.all_eq_true.mpr (digits_decimal n).2), digitsValue_decimal]
  parse_decimal n _ := by
    rw [if_pos (List.all_eq_true.mpr (digits_decimal n).2), digitsValue_decimal]
    rfl
  toInt_ofInt _ _ := rfl
  quote_word _ _ := rfl

/-- A ratio of a filtered, grouped and rolled-up query and a negated sum in parentheses. -/
def ratioText : GoString :=
  ofChars ['S', 'U', 'M', ':', 'm', '\x7b', '!', 'h', ' ', 'i', 'n', ' ',
    '(', 'a', ',', ' ', 'b', ')', '\x7d',
    ' ', 'b', 'y', ' ', '\x7b', 'K', '\x7d', '.', 'r', 'o', 'l', 'l', 'u', 'p',
      '(', 'a', 'v', 'g', ',', '6',
    '0', ')', '/', '-', '(', '(', '1', '+', '2', ')', ')']

def ratioTree : Node ℕ :=
  .binary .div
    (.query ⟨.sum, ofChars ['m'], [.list true (ofChars ['h']) [ofChars ['a'], ofChars ['b']]],
      [ofChars ['k']], [.rollup .avg 60]⟩)
    (.neg (.binary .add (.number 1) (.number 2)))

/-- The query is printed with its words in lower case and one pair of parentheses. -/
theorem ratio_reads_back : (print wholeNumbers ratioTree).length ≤ maxLen ∧
    parse wholeNumbers (print wholeNumbers ratioTree) = .ok ratioTree :=
  ⟨by decide, parse_print_metric wholeNumbers ratioText ratioTree rfl (by decide)⟩

end Ozymandias.MetricRoundTrip
