import Ozymandias.LogPlan
import Ozymandias.LogTermination
import Mathlib.Data.List.DropRight

/-!
Printed log queries parse back. A tree that the parser builds at a level fits
that level: groups have at least two members, and what stands in parentheses
fits the level below. A tree that fits is printed with parentheses exactly where
the parser needs them, so that it reads back at its level, and the whole query
at the top.
-/
namespace Ozymandias.LogRoundTrip

open BitLists Ascii SeriesModel Substrings LogQuery LogParse LogTerms LogTermination

variable {F : Type} {N : Numbers F}

def Arm (P : Node F → Prop) : Node F → Prop
  | .and args => 2 ≤ args.length ∧ ∀ a ∈ args, P a
  | n => P n

def Expr (P : Node F → Prop) : Node F → Prop
  | .or args => 2 ≤ args.length ∧ ∀ a ∈ args, Arm P a
  | n => Arm P n

def Fits (N : Numbers F) : ℕ → Node F → Prop
  | 0, _ => False
  | k + 1, .or args => Expr (Fits N k) (.or args)
  | k + 1, .and args => Expr (Fits N k) (.and args)
  | k + 1, .not x => Fits N k x
  | _ + 1, .text _ => True
  | _ + 1, .label _ _ => True
  | _ + 1, .attr a => AttrOk N a

variable {args : List (Node F)} (as : List (Node F)) {fuel k : ℕ} {n : Node F} {s r : GoString}
  (v : GoString) {P Q : Node F → Prop} {u : Parser (Node F)}

theorem Arm.mono (h : ∀ n, P n → Q n) (hn : Arm P n) : Arm Q n := by
  cases n with
  | and args => exact ⟨hn.1, fun a ha => h a (hn.2 a ha)⟩
  | _ => exact h _ hn

theorem Expr.mono (h : ∀ n, P n → Q n) (hn : Expr P n) :
    Expr Q n := by
  cases n with
  | or args => exact ⟨hn.1, fun a ha => (hn.2 a ha).mono h⟩
  | and args => exact Arm.mono h (n := .and args) hn
  | _ => exact h _ hn

theorem Fits.succ (h : Fits N k n) : Fits N (k + 1) n := by
  induction k generalizing n with
  | zero => exact h.elim
  | succ k ih =>
    cases n with
    | or args | and args => exact Expr.mono (fun _ => ih) h
    | not x => exact ih h
    | text v => trivial
    | label key v => trivial
    | attr a => exact h

/-- A term is a conjunction of itself. -/
theorem Fits.arm (h : Fits N k n) : Arm (Fits N k) n := by
  cases k with
  | zero => exact h.elim
  | succ k =>
    cases n with
    | and args => exact ⟨h.1, fun a ha => (h.2 a ha).succ⟩
    | _ => exact h

theorem arm_expr (h : Arm (Fits N k) n) : Expr (Fits N k) n := by
  cases n with
  | or args =>
    cases k with
    | zero => exact h.elim
    | succ k => exact Expr.mono (fun _ => Fits.succ) h
  | _ => exact h

/-- An expression in parentheses is a term of the level above. -/
theorem Expr.fits (h : Expr (Fits N k) n) : Fits N (k + 1) n := by
  cases n with
  | or args => exact h
  | and args => exact h
  | _ => exact Fits.succ h

/-- One argument is passed on, several are a group. -/
theorem joined_sound {grp : List (Node F) → Node F} (h : args ≠ []) (hargs : ∀ a ∈ args, P a)
    (hone : ∀ a, P a → Q a) (hgrp : 2 ≤ args.length → Q (grp args)) :
    Q (joined grp args) := by
  match args with
  | [] => exact absurd rfl h
  | [a] => exact hone a (hargs a (List.mem_singleton.mpr rfl))
  | a :: b :: rest => exact hgrp (by simp)

theorem expr_of_joined {b : Node F} (h : Joined .or (Joined .and fun a _ => Fits N k a) n b) :
    Expr (Fits N k) n := by
  obtain ⟨arms, hne, harms, rfl⟩ := h.all (fun a b hab => by
    obtain ⟨all, hne, hall, rfl⟩ := hab.all (fun _ _ h => h)
    exact joined_sound hne hall (fun _ => Fits.arm) (fun hlen => ⟨hlen, hall⟩))
  exact joined_sound hne harms (fun _ => arm_expr) (fun hlen => ⟨hlen, harms⟩)

theorem fits_passes : Passes N (fun k n _ => Fits N k n) where
  leaf k s n h := by
    cases n with
    | text v => trivial
    | label key v => trivial
    | attr a => exact h.1
    | _ => exact h.elim
  not _ _ _ h := h
  group _ _ _ h := (expr_of_joined h).fits

def unit (N : Numbers F) (n : Node F) : GoString :=
  if isOr n || isAnd n then parens (Node.string N n) else Node.string N n

def arm (N : Numbers F) (n : Node F) : GoString :=
  if isOr n then parens (Node.string N n) else Node.string N n

theorem termStrings_eq (args : List (Node F)) : termStrings N args = args.map (unit N) := by
  induction args with
  | nil => rfl
  | cons a args ih =>
    rw [termStrings, ih]
    rfl

theorem armStrings_eq (args : List (Node F)) : armStrings N args = args.map (arm N) := by
  induction args with
  | nil => rfl
  | cons a args ih =>
    rw [armStrings, ih]
    rfl

theorem intercalate_cons (sep x : GoString) (xs : List GoString) :
    sep.intercalate (x :: xs) = x ++ xs.flatMap (fun y => sep ++ y) := by
  induction xs generalizing x with
  | nil => simp
  | cons y ys ih => simp only [List.intercalate_cons_cons, ih, List.flatMap_cons, List.append_assoc]

/-- Where a term begins: no space, no closing parenthesis, no operator. -/
structure Opens (s : GoString) : Prop where
  trimmed : skipSpace s = s
  filled : blank s = false
  notOr : keywordAt orWord s = false
  notAnd : keywordAt andWord s = false

theorem Opens.not_closed (h : Opens s) : closed s = false := by
  have hfilled := h.filled
  cases s with
  | nil => cases hfilled
  | cons c s => exact (Bool.or_eq_false_iff.mp hfilled).2

theorem Opens.ne_nil (h : Opens s) : s ≠ [] := by
  rintro rfl
  cases h.filled

theorem Opens.skipped (h : Opens s) : skipSpace (space :: s) = s := by
  have hskip : skipSpace (space :: s) = skipSpace s := List.dropWhile_cons_of_pos (by decide)
  rw [hskip, h.trimmed]

theorem keywordAt_cons {kw c : Byte} {rest : GoString} (h : c ≠ kw) :
    keywordAt (kw :: rest) (c :: s) = false := by
  unfold keywordAt
  rw [List.isPrefixOf_cons_cons, beq_false_of_ne (Ne.symm h), Bool.false_and, Bool.false_and]

theorem opens_cons {c : Byte} (hspace : isSpace c = false) (hclose : c ≠ rparen) (hor : c ≠ 0x4f)
    (hand : c ≠ 0x41) : Opens (c :: s) := by
  refine ⟨?_, ?_, keywordAt_cons hor, keywordAt_cons hand⟩
  · exact List.dropWhile_cons_of_neg (by rw [hspace]; simp)
  · simp [blank, hspace, hclose]

theorem textString_cases : textString v = quote v ∨
    textString v = v ∧ bareSafe v = true ∧ v.head? ≠ some minus ∧ v.head? ≠ some atSign ∧
      colon ∉ v ∧ isKeyword v = false := by
  unfold textString
  split
  next h =>
    simp only [Bool.and_eq_true, decide_eq_true_eq, Bool.not_eq_true'] at h
    exact Or.inr ⟨rfl, h.1.1.1.1, h.1.1.1.2, h.1.1.2, h.1.2, h.2⟩
  next => exact Or.inl rfl

theorem opens_bare {v : GoString} (hsafe : bareSafe v = true) (hword : isKeyword v = false)
    (hr : wordEnd r = true) : Opens (v ++ r) ∧ keywordAt notWord (v ++ r) = false := by
  obtain ⟨hne, hbare, -, hspace⟩ := bareSafe_spec hsafe
  simp only [isKeyword, Bool.or_eq_false_iff, decide_eq_false_iff_not] at hword
  have hno : ∀ kw, (∀ c ∈ kw, isBare c = true) → v ≠ kw → keywordAt kw (v ++ r) = false := by
    intro kw hkw hv
    by_contra h
    exact hv (eq_of_keywordAt hkw hbare hr (by simpa using h))
  obtain ⟨c, w, rfl⟩ := List.exists_cons_of_ne_nil hne
  have hc := hspace c List.mem_cons_self
  have hclose : c ≠ rparen := by
    rintro rfl
    cases hbare rparen List.mem_cons_self
  refine ⟨⟨?_, ?_, hno _ (by decide) hword.1.2, hno _ (by decide) hword.1.1⟩,
    hno _ (by decide) hword.2⟩
  · exact List.dropWhile_cons_of_neg (by rw [hc]; simp)
  · simp [blank, hc, hclose]

theorem opens_quote (r : GoString) : Opens (quote v ++ r) :=
  opens_cons (by decide) (by decide) (by decide) (by decide)

theorem opens_parens (s r : GoString) : Opens (parens s ++ r) :=
  opens_cons (by decide) (by decide) (by decide) (by decide)

theorem opens_unit (n : Node F) (hr : wordEnd r = true) : Opens (unit N n ++ r) := by
  cases n with
  | or args | and args => exact opens_parens _ _
  | not x =>
    exact opens_cons (by decide) (by decide) (by decide) (by decide)
  | text v =>
    change Opens (textString v ++ r)
    rcases textString_cases v with htext | ⟨htext, hsafe, -, -, -, hword⟩
    · rw [htext]
      exact opens_quote v r
    · rw [htext]
      exact (opens_bare hsafe hword hr).1
  | label key v =>
    cases key <;> exact opens_cons (by decide) (by decide) (by decide) (by decide)
  | attr a =>
    exact opens_cons (by decide) (by decide) (by decide) (by decide)

def Reads (N : Numbers F) (u : Parser (Node F)) (P : Node F → Prop) : Prop :=
  ∀ n, P n → ∀ r, wordEnd r = true → u (unit N n ++ r) = .ok (n, r)

def Ends (r : GoString) : Prop :=
  wordEnd r = true ∧ (closed (skipSpace r) || keywordAt orWord (skipSpace r)) = true

theorem wordEnd_terms (hr : wordEnd r = true) :
    wordEnd (as.flatMap (fun a => space :: unit N a) ++ r) = true := by
  cases as with
  | nil => exact hr
  | cons a as => rfl

section Lists

theorem andLoop_reads (hu : Reads N u P) {as : List (Node F)} (has : ∀ a ∈ as, P a)
    (hfuel : as.length < fuel) (args : List (Node F)) (hr : Ends r) :
    andLoop u fuel args (as.flatMap (fun a => space :: unit N a) ++ r) =
      .ok (joined .and (args ++ as), skipSpace r) := by
  induction as generalizing fuel args with
  | nil =>
    obtain ⟨fuel, rfl⟩ := Nat.exists_eq_add_one_of_ne_zero hfuel.ne'
    rw [List.flatMap_nil, List.nil_append, List.append_nil, andLoop, if_pos hr.2]
  | cons a as ih =>
    obtain ⟨fuel, rfl⟩ := Nat.exists_eq_add_one_of_ne_zero (Nat.ne_zero_of_lt hfuel)
    have hend := wordEnd_terms (N := N) as hr.1
    have hopen := opens_unit (N := N) a hend
    rw [List.flatMap_cons, List.append_assoc, List.cons_append, andLoop, hopen.skipped,
      hopen.not_closed, hopen.notOr, hopen.notAnd, if_neg (by simp)]
    rw [afterAnd, hopen.notAnd, if_neg Bool.false_ne_true, hu a (has a List.mem_cons_self) _ hend]
    change andLoop u fuel (args ++ [a]) _ = _
    rw [ih (List.forall_mem_cons.mp has).2 (Nat.lt_of_succ_lt_succ hfuel) (args ++ [a]),
      List.append_assoc, List.singleton_append]

theorem length_terms (r : GoString) :
    as.length ≤ (as.flatMap (fun a => space :: unit N a) ++ r).length := by
  have := length_le_flatMap (f := fun a => space :: unit N a) (by simp) as
  rw [List.length_append]
  omega

/-- Terms with spaces between them are read as one conjunction. -/
theorem andTerm_reads (hu : Reads N u P) {a : Node F} {as : List (Node F)}
    (has : ∀ b ∈ a :: as, P b) (hr : Ends r) :
    andTerm u (unit N a ++ (as.flatMap (fun a => space :: unit N a) ++ r)) =
      .ok (joined .and (a :: as), skipSpace r) := by
  unfold andTerm
  rw [hu a (has a List.mem_cons_self) _ (wordEnd_terms as hr.1)]
  exact andLoop_reads hu (List.forall_mem_cons.mp has).2
    (Nat.lt_succ_of_le (length_terms as r)) [a] hr

/-- An arm is read, up to the space after it. -/
theorem arm_reads (hu : Reads N u P) (hn : Arm P n) (hr : Ends r) :
    andTerm u (arm N n ++ r) = .ok (n, skipSpace r) := by
  have hsingle : P n → arm N n = unit N n → andTerm u (arm N n ++ r) = .ok (n, skipSpace r) := by
    intro hP harm
    have hall : ∀ b ∈ [n], P b := by simpa using hP
    have hread := andTerm_reads hu hall hr
    rwa [List.flatMap_nil, ← harm] at hread
  cases n with
  | and args =>
    obtain ⟨hlen, hargs⟩ := hn
    match args, hlen, hargs with
    | a :: b :: rest, _, hargs =>
      have hread := andTerm_reads hu hargs hr
      have htext : arm N (.and (a :: b :: rest)) ++ r =
          unit N a ++ ((b :: rest).flatMap (fun a => space :: unit N a) ++ r) := by
        change Node.string N (.and (a :: b :: rest)) ++ r = _
        rw [Node.string, termStrings_eq, List.map_cons, intercalate_cons, List.append_assoc,
          List.flatMap_map]
        rfl
      rw [htext]
      exact hread
  | _ => exact hsingle hn rfl

theorem opens_arm (hn : Arm P n) (hr : wordEnd r = true) :
    Opens (arm N n ++ r) := by
  have hunit := opens_unit (N := N) n hr
  cases n with
  | and args =>
    obtain ⟨hlen, -⟩ := hn
    match args, hlen with
    | a :: b :: rest, _ =>
      change Opens (Node.string N (.and (a :: b :: rest)) ++ r)
      rw [Node.string, termStrings_eq, List.map_cons, intercalate_cons, List.append_assoc]
      exact opens_unit a rfl
  | _ => exact hunit

end Lists

def orSep : GoString := space :: orWord ++ [space]

theorem skipSpace_idem (s : GoString) : skipSpace (skipSpace s) = skipSpace s :=
  List.dropWhile_idempotent _ _

theorem orLoop_skip (u : Parser (Node F)) (fuel : ℕ) (args : List (Node F)) (s : GoString)
    (hfuel : 0 < fuel) : orLoop u fuel args (skipSpace s) = orLoop u fuel args s := by
  obtain ⟨fuel, rfl⟩ := Nat.exists_eq_add_one_of_ne_zero hfuel.ne'
  rw [orLoop, orLoop, skipSpace_idem]

theorem ends_of_closed (hr : closed r = true) : Ends r ∧ skipSpace r = r := by
  cases r with
  | nil => exact ⟨⟨rfl, rfl⟩, rfl⟩
  | cons c r =>
    obtain rfl : c = rparen := of_decide_eq_true hr
    exact ⟨⟨rfl, rfl⟩, rfl⟩

theorem not_or_of_closed (hr : closed r = true) : keywordAt orWord r = false := by
  cases r with
  | nil => rfl
  | cons c r =>
    obtain rfl : c = rparen := of_decide_eq_true hr
    rfl

theorem ends_arms (hr : closed r = true) :
    Ends (as.flatMap (fun a => orSep ++ arm N a) ++ r) := by
  cases as with
  | nil => exact (ends_of_closed hr).1
  | cons a as => exact ⟨rfl, rfl⟩

section Groups

theorem orLoop_reads (hu : Reads N u P) {as : List (Node F)} (has : ∀ a ∈ as, Arm P a)
    (hfuel : as.length < fuel) (args : List (Node F)) (hr : closed r = true) :
    orLoop u fuel args (as.flatMap (fun a => orSep ++ arm N a) ++ r) =
      .ok (joined .or (args ++ as), r) := by
  induction as generalizing fuel args with
  | nil =>
    obtain ⟨fuel, rfl⟩ := Nat.exists_eq_add_one_of_ne_zero hfuel.ne'
    rw [List.flatMap_nil, List.nil_append, List.append_nil, orLoop, (ends_of_closed hr).2,
      not_or_of_closed hr, if_neg (by simp)]
  | cons a as ih =>
    obtain ⟨fuel, rfl⟩ := Nat.exists_eq_add_one_of_ne_zero (Nat.ne_zero_of_lt hfuel)
    have hpos : 0 < fuel := Nat.zero_lt_of_lt (Nat.lt_of_succ_lt_succ hfuel)
    have hend := ends_arms (N := N) as hr
    have harm := has a List.mem_cons_self
    have hopen := opens_arm (N := N) harm hend.1
    have htext : (a :: as).flatMap (fun a => orSep ++ arm N a) ++ r =
        space :: (orWord ++ space ::
          (arm N a ++ (as.flatMap (fun a => orSep ++ arm N a) ++ r))) := by
      simp [orSep]
    generalize as.flatMap (fun a => orSep ++ arm N a) ++ r = rest at hend hopen htext ih
    have hskip : skipSpace (space :: (orWord ++ space :: (arm N a ++ rest))) =
        orWord ++ space :: (arm N a ++ rest) := rfl
    have hword : keywordAt orWord (orWord ++ space :: (arm N a ++ rest)) = true := rfl
    have hdrop : (orWord ++ space :: (arm N a ++ rest)).drop 2 = space :: (arm N a ++ rest) := rfl
    rw [htext, orLoop, hskip, if_pos hword, hdrop, hopen.skipped]
    dsimp only
    rw [hopen.not_closed, arm_reads hu harm hend]
    change orLoop u fuel (args ++ [a]) (skipSpace rest) = _
    rw [orLoop_skip _ _ _ _ hpos,
      ih (List.forall_mem_cons.mp has).2 (Nat.lt_of_succ_lt_succ hfuel) (args ++ [a]),
      List.append_assoc, List.singleton_append]

theorem length_arms (r : GoString) :
    as.length ≤ (skipSpace (as.flatMap (fun a => orSep ++ arm N a) ++ r)).length := by
  cases as with
  | nil => exact Nat.zero_le _
  | cons a as =>
    have hlen := length_le_flatMap (f := fun a => orSep ++ arm N a) (by simp [orSep]) as
    have htext : skipSpace ((a :: as).flatMap (fun a => orSep ++ arm N a) ++ r) =
        orWord ++ space :: (arm N a ++ (as.flatMap (fun a => orSep ++ arm N a) ++ r)) := by
      simp only [List.flatMap_cons, List.append_assoc]
      rfl
    rw [htext]
    simp only [List.length_append, List.length_cons]
    omega

/-- A printed expression is read up to where it is closed. -/
theorem orTerm_reads (hu : Reads N u P) (hn : Expr P n) (hr : closed r = true) :
    orTerm u (Node.string N n ++ r) = .ok (n, r) := by
  have hsingle : Arm P n → Node.string N n = arm N n →
      orTerm u (Node.string N n ++ r) = .ok (n, r) := by
    intro harm htext
    unfold orTerm
    rw [htext, arm_reads hu harm (ends_of_closed hr).1, (ends_of_closed hr).2]
    have hnone : ∀ a ∈ ([] : List (Node F)), Arm P a := by simp
    exact orLoop_reads hu hnone (Nat.zero_lt_succ _) [n] hr
  cases n with
  | or args =>
    obtain ⟨hlen, hargs⟩ := hn
    match args, hlen, hargs with
    | a :: b :: rest, _, hargs =>
      have htext : Node.string N (.or (a :: b :: rest)) ++ r =
          arm N a ++ ((b :: rest).flatMap (fun a => orSep ++ arm N a) ++ r) := by
        rw [Node.string, armStrings_eq, List.map_cons, intercalate_cons, List.append_assoc,
          List.flatMap_map]
        rfl
      unfold orTerm
      rw [htext, arm_reads hu (hargs a List.mem_cons_self) (ends_arms (b :: rest) hr)]
      change orLoop u _ [a] (skipSpace _) = _
      exact orLoop_reads hu (List.forall_mem_cons.mp hargs).2
        (Nat.lt_succ_of_le (length_arms (b :: rest) r)) [a] hr
  | _ => exact hsingle hn rfl

theorem opens_string (hn : Expr P n) (hr : wordEnd r = true) :
    Opens (Node.string N n ++ r) := by
  have hunit := opens_unit (N := N) n hr
  cases n with
  | or args =>
    obtain ⟨hlen, hargs⟩ := hn
    match args, hlen, hargs with
    | a :: b :: rest, _, hargs =>
      rw [Node.string, armStrings_eq, List.map_cons, intercalate_cons, List.append_assoc]
      exact opens_arm (hargs a List.mem_cons_self) rfl
  | and args => exact opens_arm (n := .and args) hn hr
  | _ => exact hunit

theorem group_reads (hu : Reads N u P) (hn : Expr P n) (opened : ℕ) (r : GoString) :
    group u opened (Node.string N n ++ rparen :: r) = .ok (n, r) := by
  have hopen := opens_string (N := N) hn (r := rparen :: r) rfl
  have hread := orTerm_reads hu hn (r := rparen :: r) rfl
  unfold group
  rw [hopen.trimmed]
  obtain ⟨c, s, hs⟩ := List.exists_cons_of_ne_nil hopen.ne_nil
  have hclose : c ≠ rparen := by
    have hnot := hopen.not_closed
    rw [hs] at hnot
    exact of_decide_eq_false hnot
  rw [hs] at hread ⊢
  dsimp only
  rw [if_neg hclose, hread]
  rfl

end Groups

theorem keyAt_bare {v : GoString} (hbare : ∀ c ∈ v, isBare c = true) (hr : wordEnd r = true)
    (hcolon : colon ∉ v) : keyAt (v ++ r) = none := by
  cases hkey : keyAt (v ++ r) with
  | none => rfl
  | some name =>
    exfalso
    obtain ⟨-, hword, t, ht⟩ := keyAt_spec hkey
    have htake := takeWhile_append_stop hbare (isBare_of_wordEnd hr)
    rw [ht, List.takeWhile_append_of_pos (fun c hc => isBare_of_isWord (hword c hc)),
      List.takeWhile_cons_of_pos (by decide)] at htake
    exact hcolon (htake ▸ by simp)

section Atoms

theorem atom_text {v : GoString} (hsafe : bareSafe v = true) (hat : v.head? ≠ some atSign)
    (hcolon : colon ∉ v) (hr : wordEnd r = true) : atom N u (v ++ r) = .ok (.text v, r) := by
  obtain ⟨hne, hbare, hquote, -⟩ := bareSafe_spec hsafe
  have hkey := keyAt_bare hbare hr hcolon
  have hread := bare_append hbare hr
  obtain ⟨c, w, rfl⟩ := List.exists_cons_of_ne_nil hne
  have hc := hbare c List.mem_cons_self
  have hopen : c ≠ lparen := by
    rintro rfl
    cases hc
  have hclose : c ≠ rparen := by
    rintro rfl
    cases hc
  have hdquote : c ≠ dquote := fun heq => hquote (heq ▸ List.mem_cons_self)
  have hatSign : c ≠ atSign := fun heq => hat (congrArg some heq)
  rw [List.cons_append] at hkey hread ⊢
  rw [atom, if_neg hopen, if_neg hclose, if_neg hdquote, if_neg hatSign, hkey, hread]

theorem atom_quote : atom N u (quote v ++ r) = .ok (.text v, r) := by
  have hread := quoted_quote v r
  have hcons : quote v ++ r = dquote :: (v.flatMap escape ++ [dquote] ++ r) := rfl
  rw [hcons] at hread ⊢
  rw [atom, hread]
  rfl

theorem atom_parens (hu : Reads N u P) (hn : Expr P n) :
    atom N u (parens (Node.string N n) ++ r) = .ok (n, r) := by
  have htext : parens (Node.string N n) ++ r = lparen :: (Node.string N n ++ rparen :: r) := by
    simp [parens]
  rw [htext, atom]
  exact group_reads hu hn _ r

theorem atom_attr {a : Attr F} (ha : AttrOk N a) (hr : wordEnd r = true) :
    atom N u (Attr.string N a ++ r) = .ok (.attr a, r) := by
  have hread := attr_string ha hr
  have hcons : Attr.string N a ++ r = atSign :: (a.path ++ colon :: operandString N a ++ r) := rfl
  rw [hcons] at hread ⊢
  rw [atom, if_neg (by decide), if_neg (by decide), if_neg (by decide), if_pos rfl, hread]

/-- The first letters of keys. -/
theorem keyText_cons (k : Key) : ∃ c w, keyText k = c :: w ∧
    c ∉ [0x4e, minus, lparen, rparen, dquote, atSign] := by
  cases k <;> exact ⟨_, _, rfl, by decide⟩

theorem atom_label (key : Key) (v : GoString) (hr : wordEnd r = true) :
    atom N u (keyText key ++ colon :: valueText v ++ r) = .ok (.label key v, r) := by
  rw [List.append_assoc, List.cons_append]
  have hkey := keyAt_keyText key (valueText v ++ r)
  have hlabel : label (F := F) (keyText key) (keyText key ++ colon :: (valueText v ++ r)) =
      .ok (.label key v, r) := by
    have hdrop : (keyText key ++ colon :: (valueText v ++ r)).drop ((keyText key).length + 1) =
        valueText v ++ r := by
      simp
    unfold label
    rw [keyNamed_keyText]
    rw [hdrop, value_valueText _ v hr]
    rfl
  obtain ⟨c, w, hcw, hc⟩ := keyText_cons key
  simp only [List.mem_cons, List.not_mem_nil, or_false, not_or] at hc
  rw [hcw] at hkey hlabel ⊢
  rw [List.cons_append] at hkey hlabel ⊢
  rw [atom, if_neg hc.2.2.1, if_neg hc.2.2.2.1, if_neg hc.2.2.2.2.1, if_neg hc.2.2.2.2.2, hkey]
  exact hlabel

end Atoms

theorem unary_atom (hopen : Opens s) (hnot : keywordAt notWord s = false)
    (hminus : s.head? ≠ some minus) (k : ℕ) : unary N (k + 1) s = atom N (unary N k) s := by
  rw [unary, hopen.trimmed, if_neg hopen.ne_nil, term, hopen.notOr, hopen.notAnd, if_neg (by simp),
    hnot, if_neg (by simp), if_neg hminus]

theorem unary_minus (hopen : Opens s) (k : ℕ) :
    unary N (k + 1) (minus :: s) = (unary N k s).map (fun x => (.not x.1, x.2)) := by
  have hself : Opens (minus :: s) := opens_cons (by decide) (by decide) (by decide) (by decide)
  have hnot : keywordAt notWord (minus :: s) = false := keywordAt_cons (by decide)
  rw [unary, hself.trimmed, if_neg hself.ne_nil, term, hself.notOr, hself.notAnd, if_neg (by simp),
    hnot, if_neg (by simp), List.head?_cons, if_pos rfl, List.drop_succ_cons, List.drop_zero,
    hopen.filled, if_neg (by simp)]

theorem unary_parens (hu : Reads N (unary N k) (Fits N k)) (hn : Expr (Fits N k) n) :
    unary N (k + 1) (parens (Node.string N n) ++ r) = .ok (n, r) := by
  have hhead : (parens (Node.string N n) ++ r).head? ≠ some minus :=
    fun h => absurd (Option.some.inj h) (by decide)
  rw [unary_atom (opens_parens _ _) (keywordAt_cons (by decide)) hhead, atom_parens hu hn]

/-- Every tree that fits a level is read there. -/
theorem unary_reads (k : ℕ) : Reads N (unary N k) (Fits N k) := by
  induction k with
  | zero => exact fun n hn => hn.elim
  | succ k ih =>
    intro n hn r hr
    have hopen := opens_unit (N := N) n hr
    cases n with
    | or args | and args => exact unary_parens ih hn
    | not x =>
      have hunit : unit N (.not x) ++ r = minus :: (unit N x ++ r) := rfl
      rw [hunit, unary_minus (opens_unit x hr), ih x hn r hr]
      rfl
    | text v =>
      have hunit : unit N (.text v) = textString v := rfl
      rw [hunit] at hopen ⊢
      rcases textString_cases v with htext | ⟨htext, hsafe, hminus, hat, hcolon, hword⟩
      · rw [htext] at hopen ⊢
        rw [unary_atom hopen (keywordAt_cons (by decide)) (by rw [quote_head]; decide), atom_quote]
      · rw [htext] at hopen ⊢
        have hhead : (v ++ r).head? ≠ some minus := by
          obtain ⟨c, w, rfl⟩ := List.exists_cons_of_ne_nil (bareSafe_spec hsafe).1
          exact hminus
        rw [unary_atom hopen (opens_bare hsafe hword hr).2 hhead, atom_text hsafe hat hcolon hr]
    | label key v =>
      have hunit : unit N (.label key v) = keyText key ++ colon :: valueText v := rfl
      have hread := atom_label (N := N) (u := unary N k) key v hr
      obtain ⟨c, w, hcw, hc⟩ := keyText_cons key
      simp only [List.mem_cons, not_or] at hc
      rw [hunit, hcw] at hopen ⊢
      rw [hcw] at hread
      rw [unary_atom hopen (keywordAt_cons hc.1) (fun h => hc.2.1 (Option.some.inj h)), hread]
    | attr a =>
      have hunit : unit N (.attr a) = Attr.string N a := rfl
      rw [hunit] at hopen ⊢
      rw [unary_atom hopen (keywordAt_cons (by decide)) (by
        rw [Attr.string, List.cons_append, List.cons_append, List.head?_cons]
        decide), atom_attr hn hr]

/-- A query that parses to a tree is printed so that it parses to the tree again. -/
theorem parse_print (N : Numbers F) (q : GoString) (n : Node F)
    (h : parse N q = .ok (some n)) : parse N (Node.string N n) = .ok (some n) := by
  have hfits : Expr (Fits N maxDepth) n := by
    obtain ⟨b, r, -, hjoined⟩ := parse_alike fits_passes h
    exact expr_of_joined hjoined
  have hread := orTerm_reads (unary_reads maxDepth) hfits (r := []) rfl
  have hopen := opens_string (N := N) hfits (r := []) rfl
  rw [List.append_nil] at hread hopen
  unfold parse
  rw [hopen.trimmed, if_neg hopen.ne_nil, hread]
  rfl

def oneNumber : Numbers Unit where
  toLib := { LogPlan.plainLib with parseFloat := fun s => if s = [0x30] then some () else none }
  zero := ()
  finite _ := true
  format _ := [0x30]
  parse_format _ _ := rfl
  format_ne_nil _ := by simp
  format_text := by
    intro f _ c hc
    rw [List.mem_singleton.mp hc]
    exact Or.inl rfl

def mixedText : GoString :=
  [0x4e, 0x4f, 0x54, 0x20, 0x28, 0x68, 0x6f, 0x73, 0x74, 0x3a, 0x61, 0x20, 0x22, 0x4f,
    0x52, 0x22, 0x29,
    0x20, 0x4f, 0x52, 0x20, 0x40, 0x78, 0x3a, 0x3e, 0x3d, 0x30]

theorem mixed_query : ∃ n, parse oneNumber mixedText = .ok (some n) ∧
    parse oneNumber (Node.string oneNumber n) = .ok (some n) := by
  have hparse : parse oneNumber mixedText = .ok (some (.or
      [.not (.and [.label .host [0x61], .text orWord]), .attr ⟨[0x78], .ge, [], (), ()⟩])) := rfl
  exact ⟨_, hparse, parse_print oneNumber _ _ hparse⟩

end Ozymandias.LogRoundTrip
