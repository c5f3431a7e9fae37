import Mathlib.Data.Finsupp.Basic
import Mathlib.Tactic.Abel

/-!
Weights on the integers that are stored as a run of consecutive slots. The run
stands for a finitely supported function. Raising the floor of such a function
moves everything below the floor onto it; raising it twice is raising it once
to the higher floor, and raising it distributes over sums. Both facts together
are what makes early collapses invisible.
-/
namespace Ozymandias.WeightRuns

variable {M : Type} [AddCommMonoid M]

noncomputable def weights (offset : ℤ) : List M → ℤ →₀ M
  | [] => 0
  | c :: cs => Finsupp.single offset c + weights (offset + 1) cs

noncomputable def raise (floor : ℤ) (f : ℤ →₀ M) : ℤ →₀ M :=
  f.mapDomain (fun k => max k floor)

variable (offset : ℤ) (xs : List M)

theorem weights_append (ys : List M) :
    weights offset (xs ++ ys) = weights offset xs + weights (offset + xs.length) ys := by
  induction xs generalizing offset with
  | nil => simp [weights]
  | cons x xs ih =>
    have hlen : offset + 1 + (xs.length : ℤ) = offset + ((x :: xs).length : ℤ) := by
      rw [List.length_cons]
      push_cast
      abel
    rw [List.cons_append, weights, ih, hlen, weights, add_assoc]

theorem weights_replicate (n : ℕ) :
    weights offset (List.replicate n (0 : M)) = 0 := by
  induction n generalizing offset with
  | zero => rfl
  | succ n ih => rw [List.replicate_succ, weights, ih, Finsupp.single_zero, add_zero]

/-- Adding to one slot adds there and nowhere else. -/
theorem weights_modify (w : M) {i : ℕ} (hi : i < xs.length) :
    weights offset (xs.modify i (· + w)) = weights offset xs + Finsupp.single (offset + i) w := by
  induction xs generalizing offset i with
  | nil => cases hi
  | cons x xs ih =>
    cases i with
    | zero =>
      rw [List.modify_zero_cons, weights, weights, Finsupp.single_add, Nat.cast_zero, add_zero]
      abel
    | succ i =>
      have hi' : i < xs.length := Nat.lt_of_succ_lt_succ hi
      have hpos : offset + 1 + (i : ℤ) = offset + ((i + 1 : ℕ) : ℤ) := by
        push_cast
        abel
      rw [List.modify_succ_cons, weights, ih _ hi', weights, hpos, add_assoc]

variable {k floor : ℤ} {xs : List M}

theorem weights_eq_zero {offset : ℤ} (h : k < offset ∨ offset + xs.length ≤ k) :
    weights offset xs k = 0 := by
  induction xs generalizing offset with
  | nil => rfl
  | cons x xs ih =>
    have hlen : ((x :: xs).length : ℤ) = xs.length + 1 := by
      rfl
    rw [weights, Finsupp.add_apply, Finsupp.single_apply, if_neg (by omega), zero_add,
      ih (by omega)]

theorem le_of_mem_support {offset : ℤ} (h : k ∈ (weights offset xs).support) : offset ≤ k := by
  by_contra hlt
  exact Finsupp.mem_support_iff.mp h (weights_eq_zero (.inl (lt_of_not_ge hlt)))

theorem raise_zero (floor : ℤ) : raise floor (0 : ℤ →₀ M) = 0 :=
  Finsupp.mapDomain_zero

theorem raise_add (floor : ℤ) (f g : ℤ →₀ M) :
    raise floor (f + g) = raise floor f + raise floor g :=
  Finsupp.mapDomain_add

theorem raise_single (floor k : ℤ) (w : M) :
    raise floor (Finsupp.single k w) = Finsupp.single (max k floor) w :=
  Finsupp.mapDomain_single

/-- Only the highest floor counts. -/
theorem raise_raise {low high : ℤ} (h : low ≤ high) (f : ℤ →₀ M) :
    raise high (raise low f) = raise high f := by
  unfold raise
  rw [← Finsupp.mapDomain_comp]
  congr 1
  funext k
  show max (max k low) high = max k high
  rw [max_assoc, max_eq_right h]

/-- A floor below everything moves nothing. -/
theorem raise_of_le {f : ℤ →₀ M} (h : ∀ k ∈ f.support, floor ≤ k) : raise floor f = f := by
  have hid : f.mapDomain (fun k => max k floor) = f.mapDomain id :=
    Finsupp.mapDomain_congr (fun k hk => max_eq_left (h k hk))
  unfold raise
  rw [hid, Finsupp.mapDomain_id]

/-- A floor above a whole run puts its sum there. -/
theorem raise_weights_of_ge (h : offset + xs.length ≤ floor + 1) :
    raise floor (weights offset xs) = Finsupp.single floor xs.sum := by
  induction xs generalizing offset with
  | nil => rw [weights, raise_zero, List.sum_nil, Finsupp.single_zero]
  | cons x xs ih =>
    rw [List.length_cons] at h
    rw [weights, raise_add, raise_single, ih (offset + 1) (by omega), List.sum_cons,
      max_eq_right (by omega), Finsupp.single_add]

def mass (f : ℤ →₀ M) : M := f.sum (fun _ w => w)

theorem mass_add (f g : ℤ →₀ M) : mass (f + g) = mass f + mass g :=
  Finsupp.sum_add_index' (fun _ => rfl) (fun _ _ _ => rfl)

theorem mass_single (k : ℤ) (w : M) : mass (Finsupp.single k w) = w :=
  Finsupp.sum_single_index rfl

theorem mass_weights : mass (weights offset xs) = xs.sum := by
  induction xs generalizing offset with
  | nil => rfl
  | cons x xs ih => rw [weights, mass_add, mass_single, ih, List.sum_cons]

/-- Raising the floor moves weight and loses none. -/
theorem mass_raise (floor : ℤ) (f : ℤ →₀ M) : mass (raise floor f) = mass f :=
  Finsupp.sum_mapDomain_index (fun _ => rfl) (fun _ _ _ => rfl)

end Ozymandias.WeightRuns
