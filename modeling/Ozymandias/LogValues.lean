import Ozymandias.LogRoundTrip

/-!
Empty values in log queries. A label or an attribute is empty where the query has
two quotes for it, and where its colon stands before a parenthesis: there the
parser takes a value of no bytes and reads the group as the next term.
-/
namespace Ozymandias.LogValues

open Ascii SeriesModel LogQuery LogParse LogTermination LogRoundTrip

variable {F : Type} {N : Numbers F}

mutual
def leaves : Node F → List (Node F)
  | .or args => leavesAll args
  | .and args => leavesAll args
  | .not x => leaves x
  | n => [n]

def leavesAll : List (Node F) → List (Node F)
  | [] => []
  | a :: rest => leaves a ++ leavesAll rest
end

def placeOf : Node F → GoString
  | .text s => s
  | _ => []

def terms (N : Numbers F) (q : GoString) (n : Node F) : List (Node F × GoString) :=
  match orTerm (places N maxDepth) (skipSpace q) with
  | .ok (b, _) => (leaves n).zip ((leaves b).map placeOf)
  | .error _ => []

def valueOf : Node F → Option GoString
  | .label _ v => some v
  | .attr a => if a.op = .eq then some a.value else none
  | _ => none

def Placed (N : Numbers F) (a b : Node F) : Prop :=
  List.Forall₂ (fun n p => Leaf N (placeOf p) n) (leaves a) (leaves b)

theorem placed_all {as bs : List (Node F)} (h : List.Forall₂ (Placed N) as bs) :
    List.Forall₂ (fun n p => Leaf N (placeOf p) n) (leavesAll as) (leavesAll bs) := by
  induction h with
  | nil => exact .nil
  | cons hab _ ih => exact List.rel_append hab ih

variable {grp : List (Node F) → Node F} {a b : Node F}

theorem leaves_joined (hgrp : ∀ args, leaves (grp args) = leavesAll args) {args : List (Node F)}
    (hne : args ≠ []) : leaves (joined grp args) = leavesAll args := by
  match args with
  | [] => exact absurd rfl hne
  | [a] => exact (List.append_nil _).symm
  | a :: b :: rest => exact hgrp _

theorem placed_joined (hgrp : ∀ args, leaves (grp args) = leavesAll args)
    (h : Joined grp (Placed N) a b) : Placed N a b := by
  obtain ⟨as, bs, hne, hargs, rfl, rfl⟩ := h
  have hne' : bs ≠ [] := fun hnil => hne (List.forall₂_nil_right_iff.mp (hnil ▸ hargs))
  unfold Placed
  rw [leaves_joined hgrp hne, leaves_joined hgrp hne']
  exact placed_all hargs

theorem placed_group (h : Joined .or (Joined .and (Placed N)) a b) : Placed N a b := by
  obtain ⟨as, bs, hne, hargs, hjoined⟩ := h
  refine placed_joined (fun _ => rfl) ⟨as, bs, hne, hargs.imp (fun a b hab => ?_), hjoined⟩
  exact placed_joined (fun _ => rfl) hab

theorem placed_passes : Passes N (fun _ => Placed N) where
  leaf k s n h := by
    cases n with
    | or args | and args | not x => exact h.elim
    | _ => exact .cons h .nil
  not _ _ _ h := h
  group _ _ _ h := placed_group h

theorem value_of_leaf {s v : GoString} {n : Node F} (h : Leaf N s n) (hv : valueOf n = some v) :
    Value (operandText s) v := by
  cases n with
  | label key w =>
    obtain rfl := Option.some.inj hv
    exact h
  | attr a =>
    obtain ⟨heq, hvalue⟩ := Option.ite_none_right_eq_some.mp hv
    obtain rfl := Option.some.inj hvalue
    exact h.2 heq
  | _ => cases hv

/-- Every term has its place. Values are empty only at two quotes exactly when no label or
attribute has its colon before a parenthesis. -/
theorem silent_iff (N : Numbers F) (q : GoString) (n : Node F) (h : parse N q = .ok (some n)) :
    (terms N q n).map Prod.fst = leaves n ∧
      ((∀ t ∈ terms N q n, valueOf t.1 = some [] → [dquote, dquote] <+: operandText t.2) ↔
        ∀ t ∈ terms N q n, valueOf t.1 ≠ none → (operandText t.2).head? ≠ some lparen) := by
  obtain ⟨b, r, hb, hjoined⟩ := parse_alike placed_passes h
  have hplaced : List.Forall₂ (fun n s => Leaf N s n) (leaves n) ((leaves b).map placeOf) :=
    List.forall₂_map_right_iff.mpr (placed_group hjoined)
  obtain ⟨hlen, hzip⟩ := List.forall₂_iff_zip.mp hplaced
  have hterms : terms N q n = (leaves n).zip ((leaves b).map placeOf) := by
    unfold terms
    rw [hb]
  rw [hterms]
  refine ⟨List.map_fst_zip (Nat.le_of_eq hlen), fun hquoted t ht hvalue hparen => ?_,
    fun hopen t ht hempty => ?_⟩
  · obtain ⟨v, hv⟩ := Option.ne_none_iff_exists'.mp hvalue
    obtain rfl := (value_of_leaf (hzip ht) hv).mpr (Or.inr hparen)
    obtain ⟨rest, hrest⟩ := hquoted t ht hv
    rw [← hrest] at hparen
    exact absurd (Option.some.inj hparen) (by decide)
  · rcases (value_of_leaf (hzip ht) hempty).mp rfl with hquotes | hparen
    · exact hquotes
    · exact absurd hparen (hopen t ht (by rw [hempty]; simp))

def quotedText : GoString := keyText .host ++ [colon, dquote, dquote, space, lparen, 0x61, rparen]

theorem quotes_not_silent :
    parse oneNumber quotedText = .ok (some (.and [.label .host [], .text [0x61]])) ∧
    ∀ t ∈ terms oneNumber quotedText (.and [.label .host [], .text [0x61]]),
      valueOf t.1 = some [] → [dquote, dquote] <+: operandText t.2 := by
  refine ⟨rfl, (silent_iff oneNumber quotedText _ rfl).2.mpr (fun t ht hvalue => ?_)⟩
  have ht : t ∈ [(Node.label .host [], quotedText), (.text [0x61], [0x61, rparen])] := ht
  rcases List.mem_cons.mp ht with rfl | ht
  · decide
  · obtain rfl := List.mem_singleton.mp ht
    exact absurd rfl hvalue

def groupText : GoString := keyText .service ++ [colon, lparen, 0x61, rparen]

/-- A group behind a colon leaves the term before it with no value, and without quotes. -/
theorem group_silent :
    parse oneNumber groupText = .ok (some (.and [.label .service [], .text [0x61]])) ∧
    ¬ ∀ t ∈ terms oneNumber groupText (.and [.label .service [], .text [0x61]]),
      valueOf t.1 = some [] → [dquote, dquote] <+: operandText t.2 := by
  refine ⟨rfl, fun hall => ?_⟩
  have hquotes := hall (.label .service [], groupText) List.mem_cons_self rfl
  exact absurd hquotes (by decide)

end Ozymandias.LogValues
