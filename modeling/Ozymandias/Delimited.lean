import Ozymandias.Substrings

/-!
Texts that can be told from what follows them. A way of writing values splits if,
whatever acceptable text follows, the value and the rest can be recovered. Such
ways compose: a fixed text in front, one after the other, and lists of items that
each start with a mark.
-/
namespace Ozymandias.Delimited

open Substrings

variable {α β γ : Type}

/-- The value and what follows it are determined by the text, if what follows is as required. -/
def Splits (ok : List γ → Prop) (p : α → List γ) : Prop :=
  ∀ a b x y, ok x → ok y → p a ++ x = p b ++ y → a = b ∧ x = y

variable {ok : List γ → Prop} {p : α → List γ}

theorem Splits.after (h : Splits ok p) (t : List γ) :
    Splits ok (fun a => t ++ p a) := by
  intro a b x y hx hy heq
  rw [List.append_assoc, List.append_assoc] at heq
  exact h a b x y hx hy (List.append_cancel_left heq)

variable {okp : List γ → Prop}

theorem Splits.pair {q : β → List γ} (hp : Splits okp p) (hq : Splits ok q)
    (hbetween : ∀ b x, ok x → okp (q b ++ x)) : Splits ok (fun ab : α × β => p ab.1 ++ q ab.2) := by
  rintro ⟨a, b⟩ ⟨a', b'⟩ x y hx hy heq
  simp only [List.append_assoc] at heq
  obtain ⟨rfl, hrest⟩ := hp a a' _ _ (hbetween b x hx) (hbetween b' y hy) heq
  obtain ⟨rfl, rfl⟩ := hq b b' x y hx hy hrest
  exact ⟨rfl, rfl⟩

theorem Splits.comap (h : Splits ok p) {f : β → α} (hf : Function.Injective f) :
    Splits ok (fun b => p (f b)) := by
  intro a b x y hx hy heq
  obtain ⟨hab, rfl⟩ := h _ _ x y hx hy heq
  exact ⟨hf hab, rfl⟩

/-- A list of items, each with the mark in front, followed by something without the mark. -/
theorem Splits.flatMap {mark : List γ} (hp : Splits okp p) (hmark : ∀ x, okp (mark ++ x))
    (hok : ∀ x, ok x → okp x ∧ ¬ mark <+: x) :
    Splits ok (fun as : List α => as.flatMap (fun a => mark ++ p a)) := by
  have hmarked : ∀ (a : α) (as : List α) (x : List γ),
    (a :: as).flatMap (fun a => mark ++ p a) ++ x =
        mark ++ (p a ++ (as.flatMap (fun a => mark ++ p a) ++ x)) := by
    intro a as x
    simp only [List.flatMap_cons, List.append_assoc]
  have hbetween : ∀ (as : List α) (x : List γ), ok x →
      okp (as.flatMap (fun a => mark ++ p a) ++ x) := by
    intro as x hx
    cases as with
    | nil => exact (hok x hx).1
    | cons a as => rw [hmarked]; exact hmark _
  intro as
  induction as with
  | nil =>
    intro bs x y hx _ heq
    cases bs with
    | nil => exact ⟨rfl, heq⟩
    | cons b bs =>
      rw [hmarked] at heq
      exact absurd ⟨_, heq.symm⟩ (hok x hx).2
  | cons a as ih =>
    intro bs x y hx hy heq
    cases bs with
    | nil =>
      rw [hmarked] at heq
      exact absurd ⟨_, heq⟩ (hok y hy).2
    | cons b bs =>
      rw [hmarked, hmarked] at heq
      obtain ⟨rfl, hrest⟩ := hp a b _ _ (hbetween as x hx) (hbetween bs y hy)
        (List.append_cancel_left heq)
      obtain ⟨rfl, rfl⟩ := ih bs x y hx hy hrest
      exact ⟨rfl, rfl⟩

/-- Texts of one class of characters end where the next character is of another class. -/
theorem splits_of_class {inClass : γ → Bool} (hinj : Function.Injective p)
    (hall : ∀ a, ∀ c ∈ p a, inClass c = true) :
    Splits (fun x => ∀ c, x.head? = some c → inClass c = false) p := by
  intro a b x y hx hy heq
  have hab : p a = p b := by
    rw [← takeWhile_append_stop (hall a) hx, heq, takeWhile_append_stop (hall b) hy]
  rw [hab] at heq
  exact ⟨hinj hab, List.append_cancel_left heq⟩

end Ozymandias.Delimited
