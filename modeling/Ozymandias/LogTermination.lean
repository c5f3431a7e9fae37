import Ozymandias.LogTerms
import Mathlib.Data.List.Forall2

/-!
The parser once over. Beside it runs a parser that keeps, in place of each term,
the text the term was read from; both fail alike or leave the same text, and what
they build is related as their terms are. The loops come to an end by themselves:
every term takes a byte at least, so that the counter they carry never runs out.
-/
namespace Ozymandias.LogTermination

open BitLists Ascii SeriesModel Substrings LogQuery LogParse LogTerms

variable {F α β : Type} {N : Numbers F} {Q : α → Prop} {R S : Node F → Node F → Prop} {n m : ℕ}
  {s : GoString}

/-- A result of the kind that leaves at most so many bytes, or a failure other than a loop that was
cut off. -/
def Reads (Q : α → Prop) (n : ℕ) (x : Except Fail (α × GoString)) : Prop :=
  match x with
  | .ok (a, r) => Q a ∧ r.length ≤ n
  | .error e => e.msg ≠ .stuck

theorem Reads.mono {x : Except Fail (α × GoString)} (h : Reads Q n x) (hnm : n ≤ m) :
    Reads Q m x := by
  cases x with
  | error e => exact h
  | ok z => exact ⟨h.1, Nat.le_trans h.2 hnm⟩

theorem Reads.map {x : Except Fail (α × GoString)} (h : Reads Q n x) {P : β → Prop} (f : α → β)
    (hf : ∀ a, Q a → P (f a)) : Reads P n (x.map (fun z => (f z.1, z.2))) := by
  cases x with
  | error e => exact h
  | ok z => exact ⟨hf z.1 h.1, h.2⟩

variable {left : ℕ} {msg : Msg} {P : Node F → Prop} {path : GoString}
  {x y : Except Fail (Node F × GoString)}

theorem reads_error (h : msg ≠ .stuck) :
    Reads Q n (.error ⟨msg, left⟩ : Except Fail (α × GoString)) := h

theorem length_drop_le (k : ℕ) (s : GoString) : (s.drop k).length ≤ s.length := by
  rw [List.length_drop]
  exact Nat.sub_le _ _

theorem length_dropWhile (p : Byte → Bool) (s : GoString) : (s.dropWhile p).length ≤ s.length :=
  (List.dropWhile_sublist p).length_le

/-- A value is empty where two quotes stand, and where a parenthesis opens. -/
def Value (s v : GoString) : Prop := v = [] ↔ [dquote, dquote] <+: s ∨ s.head? = some lparen

theorem quotedBody_reads (opened : ℕ) (s : GoString) :
    Reads (fun v => v = [] ↔ s.head? = some dquote) (s.length - 1) (quotedBody opened s) := by
  induction s using quotedBody.induct with
  | case1 => exact reads_error (by simp)
  | case2 rest =>
    rw [quotedBody.eq_def]
    exact ⟨by simp, Nat.le_refl _⟩
  | case3 =>
    exact reads_error (by simp)
  | case4 e rest hnone _ =>
    rw [quotedBody.eq_def]
    simp only [hnone]
    exact reads_error (by simp)
  | case5 e rest b hsome _ ih =>
    rw [quotedBody.eq_def]
    simp only [hsome]
    refine (ih.map (b :: ·) (fun v _ => by simp; decide)).mono ?_
    simp only [List.length_cons]
    omega
  | case6 c rest hquote hslash ih =>
    rw [quotedBody.eq_def]
    simp only [if_neg hquote, if_neg hslash]
    exact (ih.map (c :: ·) (fun v _ => by simp [hquote])).mono (by simp)

theorem quoted_reads (s : GoString) :
    Reads (fun v => v = [] ↔ (s.drop 1).head? = some dquote) (s.length - 1) (quoted s) := by
  refine (quotedBody_reads s.length (s.drop 1)).mono ?_
  rw [List.length_drop]
  omega

theorem value_reads (what s : GoString) : Reads (Value s) s.length (value what s) := by
  unfold value
  split
  next => exact reads_error (by simp)
  next hblank =>
    obtain _ | ⟨c, rest⟩ := s
    · exact absurd rfl hblank
    split
    next hquote =>
      obtain rfl := Option.some.inj hquote
      have hiff : (rest.head? = some dquote) =
          ([dquote, dquote] <+: dquote :: rest ∨ (dquote :: rest).head? = some lparen) := by
        cases rest <;> simp [lparen, dquote, eq_comm]
      have hread := (quoted_reads (dquote :: rest)).mono (Nat.sub_le _ _)
      rw [List.drop_succ_cons, List.drop_zero, hiff] at hread
      exact hread
    next hquote =>
      refine ⟨?_, length_dropWhile _ _⟩
      have hc : c ≠ dquote := fun h => hquote (congrArg some h)
      change List.takeWhile isBare (c :: rest) = [] ↔ _
      have hpre : ¬ [dquote, dquote] <+: c :: rest :=
        fun h => hc (List.cons_prefix_cons.mp h).1.symm
      simp_all [blank, isBare]

theorem number_reads (s : GoString) : Reads (fun f => N.finite f = true) s.length (number N s) := by
  unfold number
  dsimp only
  split
  · exact reads_error (by simp)
  split
  · exact reads_error (by simp)
  next hok => exact ⟨by simpa using (not_or.mp hok).2, length_dropWhile _ _⟩

theorem comparison_reads {strict loose : Op}
    (hstrict : ∀ f, N.finite f = true → P (.attr ⟨path, strict, [], f, N.zero⟩))
    (hloose : ∀ f, N.finite f = true → P (.attr ⟨path, loose, [], f, N.zero⟩)) (s : GoString) :
    Reads P s.length (comparison N path strict loose s) := by
  unfold comparison
  split
  · exact ((number_reads (s.drop 1)).map
      (fun f => Node.attr ⟨path, loose, [], f, N.zero⟩) hloose).mono (length_drop_le 1 s)
  · exact (number_reads s).map (fun f => Node.attr ⟨path, strict, [], f, N.zero⟩) hstrict

theorem rangeTerm_reads
    (hrange : ∀ lo hi, N.finite lo = true → N.finite hi = true → N.lt hi lo = false →
      P (.attr ⟨path, .range, [], lo, hi⟩)) (s :
      GoString) : Reads P s.length (rangeTerm N path s) := by
  unfold rangeTerm
  split
  · exact reads_error (by simp)
  split
  · split
    · exact reads_error (by simp)
    split
    · split
      · exact reads_error (by simp)
      next hfin =>
        split
        · exact reads_error (by simp)
        next hlt =>
          obtain ⟨hlo, hhi⟩ := not_or.mp hfin
          exact ⟨hrange _ _ (by simpa using hlo) (by simpa using hhi) (by simpa using hlt),
            Nat.le_trans (length_drop_le 1 _) (length_dropWhile _ s)⟩
    · exact reads_error (by simp)
  · exact reads_error (by simp)

def operandText (s : GoString) : GoString := (s.dropWhile (· ≠ colon)).drop 1

theorem operandText_append {a : GoString} (ha : colon ∉ a) (t : GoString) :
    operandText (a ++ colon :: t) = t := by
  unfold operandText
  rw [dropWhile_append_stop (fun c hc => ?_) (stop_cons rfl t)]
  · rfl
  · exact decide_eq_true (fun h => ha (h ▸ hc))

def Leaf (N : Numbers F) (s : GoString) : Node F → Prop
  | .text _ => True
  | .label _ v => Value (operandText s) v
  | .attr a => AttrOk N a ∧ (a.op = .eq → Value (operandText s) a.value)
  | _ => False

theorem attr_reads (rest : GoString) :
    Reads (Leaf N (atSign :: rest)) rest.length (attr N (atSign :: rest)) := by
  have hsplit := List.takeWhile_append_dropWhile (p := isPath) (l := rest)
  unfold attr
  simp only [List.drop_succ_cons, List.drop_zero]
  split
  next => exact reads_error (by simp)
  next hne =>
    split
    next => exact reads_error (by simp)
    next hcolon =>
      have hpath : rest.takeWhile isPath ≠ [] ∧ ∀ c ∈ rest.takeWhile isPath, isPath c = true :=
        ⟨hne, fun c hc => List.mem_takeWhile_imp hc⟩
      have hrest := length_dropWhile isPath rest
      obtain ⟨t, ht⟩ := List.head?_eq_some_iff.mp (not_not.mp hcolon)
      rw [ht] at hsplit hrest ⊢
      generalize rest.takeWhile isPath = path at hsplit hpath ⊢
      have htext : operandText (atSign :: rest) = t := by
        rw [← hsplit, ← List.cons_append]
        refine operandText_append (fun hmem => ?_) t
        rcases List.mem_cons.mp hmem with h | h
        · exact absurd h (by decide)
        · exact absurd (hpath.2 _ h) (by decide)
      have hdrop := length_drop_le 1 t
      rw [List.length_cons] at hrest
      refine Reads.mono (n := t.length) ?_ (by omega)
      unfold operand
      split
      · exact reads_error (by simp)
      split
      · exact (comparison_reads (fun f hf => ⟨⟨hpath, rfl, rfl, hf⟩, nofun⟩)
          (fun f hf => ⟨⟨hpath, rfl, rfl, hf⟩, nofun⟩) _).mono hdrop
      split
      · exact (comparison_reads (fun f hf => ⟨⟨hpath, rfl, rfl, hf⟩, nofun⟩)
          (fun f hf => ⟨⟨hpath, rfl, rfl, hf⟩, nofun⟩) _).mono hdrop
      split
      · exact rangeTerm_reads (fun lo hi hlo hhi hlt => ⟨⟨hpath, rfl, hlo, hhi, hlt⟩, nofun⟩) t
      · exact (value_reads _ t).map (fun v => Node.attr ⟨path, .eq, v, N.zero, N.zero⟩)
          (fun v hv => ⟨⟨hpath, rfl, rfl⟩, fun _ => htext ▸ hv⟩)

theorem label_reads {key : GoString} (hkey : keyAt s = some key) :
    Reads (Leaf N s) (s.length - 1) (label key s) := by
  obtain ⟨-, hword, t, rfl⟩ := keyAt_spec hkey
  have htext := operandText_append (fun hmem => absurd (hword _ hmem) (by decide)) t
  have hdrop : (key ++ colon :: t).drop (key.length + 1) = t := by simp
  unfold label
  split
  · exact reads_error (by simp)
  · rw [hdrop]
    exact ((value_reads key t).map (Node.label _) (fun v hv => by rwa [Leaf, htext])).mono (by simp)

/-- Two parses fail alike, in no loop that was cut off, or leave the same text, at most so many
bytes of it, with related results. -/
def Alike (R : Node F → Node F → Prop) (n : ℕ) (x y : Except Fail (Node F × GoString)) : Prop :=
  (∃ e, e.msg ≠ .stuck ∧ x = .error e ∧ y = .error e) ∨
    ∃ a b r, R a b ∧ r.length ≤ n ∧ x = .ok (a, r) ∧ y = .ok (b, r)

theorem Alike.mono (h : Alike R n x y) (hnm : n ≤ m) : Alike R m x y := by
  rcases h with h | ⟨a, b, r, hab, hr, h⟩
  · exact Or.inl h
  · exact Or.inr ⟨a, b, r, hab, Nat.le_trans hr hnm, h⟩

theorem Alike.not (h : Alike R n x y) (hnot : ∀ a b, R a b → S (.not a) (.not b)) :
    Alike S n (x.map (fun z => (.not z.1, z.2))) (y.map (fun z => (.not z.1, z.2))) := by
  rcases h with ⟨e, he, rfl, rfl⟩ | ⟨a, b, r, hab, hr, rfl, rfl⟩
  · exact Or.inl ⟨e, he, rfl, rfl⟩
  · exact Or.inr ⟨_, _, r, hnot a b hab, hr, rfl, rfl⟩

/-- Related results are handed on. -/
theorem Alike.bind {f g : Node F → Parser (Node F)} :
    Alike R n x y → (∀ a b r, R a b → r.length ≤ n → Alike S m (f a r) (g b r)) →
    Alike S m (match x with | .error e => .error e | .ok (a, r) => f a r)
      (match y with | .error e => .error e | .ok (b, r) => g b r) := by
  rintro (⟨e, he, rfl, rfl⟩ | ⟨a, b, r, hab, hr, rfl, rfl⟩) h
  · exact Or.inl ⟨e, he, rfl, rfl⟩
  · exact h a b r hab hr

theorem alike_error (h : msg ≠ .stuck) :
    Alike R n (.error ⟨msg, left⟩) (.error ⟨msg, left⟩) := Or.inl ⟨_, h, rfl, rfl⟩

theorem Alike.imp (h : Alike R n x y) (hrs : ∀ a b, R a b → S a b) : Alike S n x y := by
  rcases h with h | ⟨a, b, r, hab, h⟩
  · exact Or.inl h
  · exact Or.inr ⟨a, b, r, hrs a b hab, h⟩

/-- A parse and the place it is at. -/
theorem Reads.alike (h : Reads P n x) (hp : ∀ a, P a → R a (.text s)) :
    Alike R n x (x.map (fun z => (.text s, z.2))) := by
  cases x with
  | error e => exact Or.inl ⟨e, h, rfl, rfl⟩
  | ok z => exact Or.inr ⟨z.1, _, z.2, hp z.1 h.1, h.2, rfl, rfl⟩

def Joined (grp : List (Node F) → Node F) (R : Node F → Node F → Prop) (a b : Node F) : Prop :=
  ∃ as bs, as ≠ [] ∧ List.Forall₂ R as bs ∧ a = joined grp as ∧ b = joined grp bs

theorem Joined.all {grp : List (Node F) → Node F} {a b : Node F} (h : Joined grp R a b)
    (hp : ∀ a b, R a b → P a) : ∃ as, as ≠ [] ∧ (∀ a ∈ as, P a) ∧ a = joined grp as := by
  obtain ⟨as, bs, hne, hargs, ha, -⟩ := h
  have hall := hargs.imp (S := fun a b => P a ∧ R a b) (fun a b hab => ⟨hp a b hab, hab⟩)
  exact ⟨as, hne, ((List.forall₂_and_left _ _).mp hall).1, ha⟩

theorem length_skipSpace (s : GoString) : (skipSpace s).length ≤ s.length := length_dropWhile _ _

theorem length_afterAnd (s : GoString) : (afterAnd s).length ≤ s.length := by
  unfold afterAnd
  split
  · exact Nat.le_trans (length_skipSpace _) (length_drop_le 3 s)
  · exact Nat.le_refl _

theorem pos_of_not_closed (h : ¬ closed (skipSpace s) = true) : 0 < s.length := by
  cases s with
  | nil => exact absurd rfl h
  | cons c s => exact Nat.zero_lt_succ _

section Loops

variable {u v : Parser (Node F)} (hu : ∀ s, Alike R (s.length - 1) (u s) (v s))
include hu

variable {as bs : List (Node F)} {fuel : ℕ}

theorem andLoop_alike (hfuel : s.length < fuel) (hne : as ≠ []) (hargs : List.Forall₂ R as bs) :
    Alike (Joined .and R) s.length (andLoop u fuel as s) (andLoop v fuel bs s) := by
  induction fuel generalizing s as bs with
  | zero => exact absurd hfuel (Nat.not_lt_zero _)
  | succ fuel ih =>
    have hskip := length_skipSpace s
    have hafter := length_afterAnd (skipSpace s)
    rw [andLoop, andLoop]
    split
    next => exact Or.inr ⟨_, _, _, ⟨as, bs, hne, hargs, rfl, rfl⟩, hskip, rfl, rfl⟩
    next hopen =>
      have hpos := pos_of_not_closed (fun h => hopen (by rw [h]; rfl))
      split
      next => exact alike_error (by simp)
      next =>
        refine (hu _).bind (fun a b r hab hr => ?_)
        exact (ih (by omega) (by simp) (List.rel_append hargs (.cons hab .nil))).mono (by omega)

theorem andTerm_alike (s : GoString) :
    Alike (Joined .and R) (s.length - 1) (andTerm u s) (andTerm v s) := by
  refine (hu s).bind (fun a b r hab hr => ?_)
  exact (andLoop_alike hu (Nat.lt_succ_self _) (by simp) (.cons hab .nil)).mono hr

theorem orLoop_alike (hfuel : s.length < fuel) (hne : as ≠ [])
    (hargs : List.Forall₂ (Joined .and R) as bs) :
    Alike (Joined .or (Joined .and R)) s.length (orLoop u fuel as s) (orLoop v fuel bs s) := by
  induction fuel generalizing s as bs with
  | zero => exact absurd hfuel (Nat.not_lt_zero _)
  | succ fuel ih =>
    have hskip := length_skipSpace s
    have hrest := length_skipSpace ((skipSpace s).drop 2)
    rw [orLoop, orLoop]
    split
    next =>
      dsimp only
      split
      next => exact alike_error (by simp)
      next hopen =>
        have hpos := pos_of_not_closed hopen
        rw [List.length_drop] at hpos hrest
        refine (andTerm_alike hu _).bind (fun a b r hab hr => ?_)
        exact (ih (by omega) (by simp) (List.rel_append hargs (.cons hab .nil))).mono (by omega)
    next => exact Or.inr ⟨_, _, _, ⟨as, bs, hne, hargs, rfl, rfl⟩, hskip, rfl, rfl⟩

theorem orTerm_alike (s : GoString) :
    Alike (Joined .or (Joined .and R)) (s.length - 1) (orTerm u s) (orTerm v s) := by
  refine (andTerm_alike hu s).bind (fun a b r hab hr => ?_)
  exact (orLoop_alike hu (Nat.lt_succ_self _) (by simp) (.cons hab .nil)).mono hr

theorem group_alike (opened : ℕ) (s : GoString) :
    Alike (Joined .or (Joined .and R)) s.length (group u opened s) (group v opened s) := by
  have hskip := length_skipSpace s
  unfold group
  cases hs : skipSpace s with
  | nil => exact alike_error (by simp)
  | cons c rest =>
    rw [hs] at hskip
    dsimp only
    split
    next => exact alike_error (by simp)
    next =>
      refine (orTerm_alike hu _).bind (fun a b r hab hr => ?_)
      have hskip' := length_skipSpace r
      cases hafter : skipSpace r with
      | nil => exact alike_error (by simp)
      | cons d after =>
        rw [hafter] at hskip'
        simp only [List.length_cons] at hr hskip hskip'
        exact Or.inr ⟨a, b, after, hab, by omega, rfl, rfl⟩

end Loops

def leafAt (s : GoString) : Bool :=
  !keywordAt orWord s && !keywordAt andWord s && !keywordAt notWord s && s.head? ≠ some minus &&
    s.head? ≠ some lparen

/-- The parser that keeps the text each term was read from, in place of the term. -/
def places (N : Numbers F) : ℕ → Parser (Node F)
  | 0, s => unary N 0 s
  | k + 1, s =>
    if skipSpace s = [] then .error ⟨.expectedTerm, 0⟩
    else if leafAt (skipSpace s) then
      (term N (unary N k) (skipSpace s)).map (fun x => (.text (skipSpace s), x.2))
    else term N (places N k) (skipSpace s)

theorem term_reads (hleaf : leafAt s = true) (hspace : ∀ c, s.head? = some c → isSpace c = false)
    (u : Parser (Node F)) : Reads (Leaf N s) (s.length - 1) (term N u s) := by
  simp only [leafAt, Bool.and_eq_true, Bool.not_eq_true', decide_eq_true_eq] at hleaf
  obtain ⟨⟨⟨⟨hor, hand⟩, hnot⟩, hminus⟩, hparen⟩ := hleaf
  unfold term
  rw [if_neg (by simp [hor, hand]), if_neg (by simp [hnot]), if_neg hminus]
  unfold atom
  split
  next => exact reads_error (by simp)
  next c rest =>
    have hopen : c ≠ lparen := fun h => hparen (congrArg some h)
    rw [if_neg hopen]
    split
    · exact reads_error (by simp)
    next hclose =>
      split
      · exact (quoted_reads _).map Node.text (fun _ _ => trivial)
      split
      next hsign =>
        subst hsign
        exact attr_reads rest
      split
      next key hkey => exact label_reads hkey
      next =>
        have hbare : isBare c = true := by
          simp [isBare, hspace c rfl, hopen, hclose]
        refine ⟨trivial, ?_⟩
        change ((c :: rest).dropWhile isBare).length ≤ rest.length
        rw [List.dropWhile_cons_of_pos hbare]
        exact length_dropWhile _ _

theorem term_alike {u v : Parser (Node F)} (hu : ∀ s, Alike R (s.length - 1) (u s) (v s))
    (hnot : ∀ a b, R a b → S (.not a) (.not b))
    (hgroup : ∀ a b, Joined .or (Joined .and R) a b → S a b) (hleaf : leafAt s = false) :
    Alike S (s.length - 1) (term N u s) (term N v s) := by
  unfold term
  split
  next => exact alike_error (by simp)
  next hword =>
    split
    next =>
      dsimp only
      split
      next => exact alike_error (by simp)
      next =>
        have hlen := Nat.le_trans (length_skipSpace (s.drop 3)) (length_drop_le 3 s)
        exact ((hu _).not hnot).mono (by omega)
    next hnotWord =>
      split
      next =>
        split
        next => exact alike_error (by simp)
        next =>
          have hlen := length_drop_le 1 s
          exact ((hu _).not hnot).mono (by omega)
      next hminus =>
        have hparen : s.head? = some lparen := by
          simpa [leafAt, not_or.mp (fun h => hword (by simpa using h)), hnotWord,
            hminus] using hleaf
        obtain ⟨rest, rfl⟩ := List.head?_eq_some_iff.mp hparen
        exact (group_alike hu _ rest).imp hgroup

theorem head_skipSpace (s : GoString) : ∀ c, (skipSpace s).head? = some c → isSpace c = false := by
  intro c hc
  have hnot := List.head?_dropWhile_not isSpace s
  unfold skipSpace at hc
  rw [hc] at hnot
  simpa using hnot

/-- What holds of terms and their places, level by level, and passes through negations and groups.
-/
structure Passes (N : Numbers F) (R : ℕ → Node F → Node F → Prop) : Prop where
  leaf : ∀ k s n, Leaf N s n → R (k + 1) n (.text s)
  not : ∀ k a b, R k a b → R (k + 1) (.not a) (.not b)
  group : ∀ k a b, Joined .or (Joined .and (R k)) a b → R (k + 1) a b

theorem unary_alike {R : ℕ → Node F → Node F → Prop} (h : Passes N R) (k : ℕ) (s : GoString) :
    Alike (R k) (s.length - 1) (unary N k s) (places N k s) := by
  induction k generalizing s with
  | zero =>
    unfold places unary
    split <;> exact alike_error (by simp)
  | succ k ih =>
    have hskip := length_skipSpace s
    have hhead := head_skipSpace s
    unfold places unary
    generalize skipSpace s = t at hskip hhead ⊢
    split
    next => exact alike_error (by simp)
    next =>
      split
      next hat => exact ((term_reads hat hhead _).alike (h.leaf k t)).mono (by omega)
      next hat =>
        exact (term_alike ih (h.not k) (h.group k) (Bool.not_eq_true _ ▸ hat)).mono (by omega)

/-- A parsed tree and its places. -/
theorem parse_alike {R : ℕ → Node F → Node F → Prop} (hpasses : Passes N R)
    {q : GoString} {n : Node F} (h : parse N q = .ok (some n)) :
    ∃ b r, orTerm (places N maxDepth) (skipSpace q) = .ok (b, r) ∧
      Joined .or (Joined .and (R maxDepth)) n b := by
  unfold parse at h
  dsimp only at h
  split at h
  next => cases h
  next =>
    rcases orTerm_alike (unary_alike hpasses maxDepth) (skipSpace q) with
      ⟨e, -, hx, -⟩ | ⟨a, b, r, hab, -, hx, hy⟩
    · rw [hx] at h
      cases h
    · rw [hx] at h
      dsimp only at h
      split at h
      next =>
        obtain rfl := Option.some.inj (Except.ok.inj h)
        exact ⟨b, r, hy, hab⟩
      next => cases h

/-- No parse is cut off. -/
theorem parse_ne_stuck (N : Numbers F) (q : GoString) (col : ℕ) :
    parse N q ≠ .error ⟨.stuck, col⟩ := by
  have hpasses : Passes N (fun _ _ _ => True) := by constructor <;> intros <;> trivial
  have halike := orTerm_alike (unary_alike hpasses maxDepth) (skipSpace q)
  unfold parse
  dsimp only
  split
  next => simp
  next =>
    rcases halike with ⟨e, he, hx, -⟩ | ⟨a, b, r, -, -, hx, -⟩
    · rw [hx]
      intro h
      exact he (congrArg ParseError.msg (Except.error.inj h))
    · rw [hx]
      dsimp only
      split <;> simp

end Ozymandias.LogTermination
