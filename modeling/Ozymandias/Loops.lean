import Mathlib.Order.Basic

/-!
Loops over a state that shrinks. A loop runs its step while a condition on the
state holds, and ends with an error of its own if a step does not shrink the
state, so that it needs no fuel from its caller. What its step preserves holds at its
end, and a loop whose steps shrink the state fails only as its steps do; both
are rules of pre- and postconditions for computations that may fail.
-/
namespace Ozymandias.Loops

variable {α β ε : Type} {E : ε → Prop} {P : α → Prop} {x : Except ε α}

theorem ok_bind (a : α) (f : α → Except ε β) : (Except.ok a >>= f) = f a := rfl

/-- A sequence succeeds if its steps do. -/
theorem bind_eq_ok {m : Except ε α} {k : α → Except ε β} {b : β} :
    (m >>= k) = .ok b ↔ ∃ a, m = .ok a ∧ k a = .ok b := by
  cases m with
  | error e =>
    constructor
    · exact nofun
    · rintro ⟨a, ha, -⟩
      cases ha
  | ok a =>
    constructor
    · intro h
      exact ⟨a, rfl, h⟩
    · rintro ⟨a', ha, hk⟩
      rw [Except.ok.inj ha]
      exact hk

def Outcome {ε α : Type} (Q : α → Prop) (E : ε → Prop) : Except ε α → Prop
  | .ok a => Q a
  | .error e => E e

theorem Outcome.bind {Q : β → Prop} {f : α → Except ε β} (hx : Outcome P E x)
    (hf : ∀ a, P a → Outcome Q E (f a)) : Outcome Q E (x >>= f) := by
  cases x with
  | error e => exact hx
  | ok a => exact hf a hx

theorem Outcome.mono {Q : α → Prop} (hx : Outcome P E x) (h : ∀ a, P a → Q a) : Outcome Q E x := by
  cases x with
  | error e => exact hx
  | ok a => exact h a hx

section While

variable {ε α σ : Type} (size : σ → ℕ) (stuck : σ → ε) (again : σ → Bool)
  (step : α → σ → Except ε (α × σ))

def whileFrom : ℕ → α → σ → Except ε (α × σ)
  | 0, _, s => .error (stuck s)
  | fuel + 1, a, s =>
    if again s then
      match step a s with
      | .error e => .error e
      | .ok (a', s') => if size s' < size s then whileFrom fuel a' s' else .error (stuck s)
    else .ok (a, s)

def whileLoop (a : α) (s : σ) : Except ε (α × σ) := whileFrom size stuck again step (size s + 1) a s

variable {size stuck again step} {a : α} {s : σ}

theorem whileFrom_of_lt {fuel : ℕ} (h : size s < fuel) :
    whileFrom size stuck again step fuel a s = whileLoop size stuck again step a s := by
  suffices hall : ∀ f f' a s, size s < f → size s < f' →
      whileFrom size stuck again step f a s = whileFrom size stuck again step f' a s from
    hall _ _ _ _ h (Nat.lt_succ_self _)
  intro f
  induction f with
  | zero => exact fun _ _ _ h => absurd h (Nat.not_lt_zero _)
  | succ f ih =>
    intro f' a s hf hf'
    cases f' with
    | zero => exact absurd hf' (Nat.not_lt_zero _)
    | succ f' =>
      unfold whileFrom
      cases again s with
      | false => rfl
      | true =>
        cases step a s with
        | error e => rfl
        | ok x =>
          obtain ⟨a', s'⟩ := x
          dsimp only
          by_cases hlt : size s' < size s
          · rw [if_pos hlt, if_pos hlt, ih f' a' s' (by omega) (by omega)]
          · rw [if_neg hlt, if_neg hlt]

theorem whileLoop_done (h : again s = false) :
    whileLoop size stuck again step a s = .ok (a, s) := by
  unfold whileLoop whileFrom
  rw [h]
  rfl

theorem whileLoop_step {a' : α} {s' : σ} (h : again s = true) (hstep : step a s = .ok (a', s'))
    (hlt : size s' < size s) :
    whileLoop size stuck again step a s = whileLoop size stuck again step a' s' := by
  have hone : whileLoop size stuck again step a s = whileFrom size stuck again step
    (size s) a' s' := by
    rw [whileLoop, whileFrom, h, hstep]
    exact if_pos hlt
  exact hone.trans (whileFrom_of_lt hlt)

/-- If every step keeps the invariant and shrinks the state, the invariant holds at the end, where
the condition fails, and an error is an error of a step. -/
theorem whileLoop_outcome {P : α → σ → Prop} {E : ε → Prop}
    (hstep : ∀ a s, P a s → again s = true →
      Outcome (fun x => P x.1 x.2 ∧ size x.2 < size s) E (step a s))
    (hinit : P a s) :
    Outcome (fun x => P x.1 x.2 ∧ again x.2 = false) E (whileLoop size stuck again step a s) := by
  suffices hall : ∀ f a s, size s < f → P a s → Outcome (fun x => P x.1 x.2 ∧ again x.2 = false) E
      (whileFrom size stuck again step f a s) from hall _ _ _ (Nat.lt_succ_self _) hinit
  intro f
  induction f with
  | zero => exact fun _ _ h => absurd h (Nat.not_lt_zero _)
  | succ f ih =>
    intro a s hf hP
    unfold whileFrom
    cases hagain : again s with
    | false => exact ⟨hP, hagain⟩
    | true =>
      have hone := hstep a s hP hagain
      cases hs : step a s with
      | error e =>
        rw [hs] at hone
        exact hone
      | ok x =>
        rw [hs] at hone
        obtain ⟨a', s'⟩ := x
        have hlt : size s' < size s := hone.2
        dsimp only
        rw [if_pos hlt]
        exact ih a' s' (by omega) hone.1

end While

end Ozymandias.Loops
