import Ozymandias.MetricBatch

/-!
What the fill modifier does to a line of buckets. A bucket with a value stays. An empty one is
judged by the nearest value before it and, for straight lines, by the nearest one after it; both
are looked up in the line as it was, so that no filled bucket counts as a value or extends the
limit. The loop writes to the line while it walks it, and never reads what it has written.
-/
namespace Ozymandias.FillGaps

open MetricQuery MetricFrames

variable {F : Type} (N : Floats F)

def nearest (vs : List F) : Option (ℕ × F) :=
  (vs.dropWhile N.isNaN).head?.map (fun v => ((vs.takeWhile N.isNaN).length + 1, v))

/-- The straight line from `b` to `a`, `d` buckets behind `b` and `e` buckets before `a`. -/
def between (b a : F) (d e : ℕ) : F :=
  N.add b (N.mul (N.div (N.sub a b) (N.ofInt (d + e))) (N.ofInt d))

def filled (mode : Fill) (limit : ℕ) (g : Grid) (before : List F) (v : F) (after : List F) : F :=
  if N.isNaN v then
    match nearest N before.reverse with
    | none => if mode = .zero ∧ limit = 0 then N.zero else v
    | some (d, b) =>
      if limit = 0 ∨ d * g.interval ≤ limit then
        match mode, nearest N after with
        | .zero, _ => N.zero
        | .last, _ => b
        | .linear, some (e, a) => between N b a d e
        | _, _ => v
      else v
  else v

/-- Arithmetic without rounding on the numbers `val` stands for. -/
structure Exact (val : ℚ → F) : Prop where
  add : ∀ x y, N.add (val x) (val y) = val (x + y)
  sub : ∀ x y, N.sub (val x) (val y) = val (x - y)
  mul : ∀ x y, N.mul (val x) (val y) = val (x * y)
  div : ∀ x y, y ≠ 0 → N.div (val x) (val y) = val (x / y)
  ofInt : ∀ z : ℤ, N.ofInt z = val z

variable {N}

theorem Exact.between {val : ℚ → F} (h : Exact N val) (b a : ℚ) {d e : ℕ} (hd : 0 < d) :
    between N (val b) (val a) d e = val (b + (a - b) * d / (d + e)) := by
  have hne : ((d + e : ℤ) : ℚ) ≠ 0 := by
    have hpos : (0 : ℤ) < d + e := by omega
    exact_mod_cast hpos.ne'
  unfold FillGaps.between
  rw [h.sub, h.ofInt, h.ofInt, h.div _ _ hne, h.mul, h.add]
  congr 1
  push_cast
  ring

variable {mode : Fill} {limit : ℕ} {reach : ℤ} {g : Grid} {v v₀ : List F} {i j x : ℕ}

/-- A bucket is within reach if its distance in seconds is within the limit. -/
theorem lt_reach_iff {k : ℕ} (hpos : 0 < g.interval) (hk : k < g.n) :
    (k : ℤ) < (if 0 < limit then (limit : ℤ).tdiv g.interval else g.n) ↔
      limit = 0 ∨ ((k + 1 : ℕ) : ℤ) * g.interval ≤ limit := by
  rcases Nat.eq_zero_or_pos limit with hzero | hlimit
  · omega
  · rw [if_pos hlimit, Int.tdiv_eq_ediv_of_nonneg (Int.natCast_nonneg _), ← Int.add_one_le_iff,
      Int.le_ediv_iff_mul_le hpos, Nat.cast_succ, or_iff_right hlimit.ne']

theorem nearest_of_empty {vs : List F} (h : ∀ u ∈ vs, N.isNaN u = true) : nearest N vs = none := by
  rw [nearest, List.dropWhile_eq_nil_iff.mpr h]
  rfl

theorem nearest_append {us rest : List F} {b : F} (h : ∀ u ∈ us, N.isNaN u = true)
    (hb : N.isNaN b = false) : nearest N (us ++ b :: rest) = some (us.length + 1, b) := by
  have hstop : ¬N.isNaN b = true := by simp [hb]
  rw [nearest, List.dropWhile_append_of_pos h, List.takeWhile_append_of_pos h,
    List.dropWhile_cons_of_neg hstop, List.takeWhile_cons_of_neg hstop, List.append_nil]
  rfl

/-- The empty buckets from `i` to `j`, between values or the ends of the line. -/
structure Gap (N : Floats F) (v : List F) (i j : ℕ) : Prop where
  le : j ≤ v.length
  empty : ∀ x, i ≤ x → x < j → ∃ u, v[x]? = some u ∧ N.isNaN u = true
  behind : i = 0 ∨ ∃ b, v[i - 1]? = some b ∧ N.isNaN b = false
  ahead : j = v.length ∨ ∃ a, v[j]? = some a ∧ N.isNaN a = false

theorem Gap.isNaN_of_mem (h : Gap N v i j) {k n : ℕ} (hk : i ≤ k) (hn : k + n ≤ j) :
    ∀ u ∈ (v.drop k).take n, N.isNaN u = true := by
  intro u hu
  obtain ⟨m, hm⟩ := List.mem_iff_getElem?.mp hu
  rw [List.getElem?_take] at hm
  split at hm
  next hlt =>
    obtain ⟨w, hw, hnan⟩ := h.empty (k + m) (by omega) (by omega)
    rw [List.getElem?_drop, hw] at hm
    rwa [← Option.some.inj hm]
  · cases hm

/-- The nearest value behind a bucket of a gap is the one the gap starts after. -/
theorem Gap.nearest_behind (h : Gap N v i j) (hx : i ≤ x) (hxj : x < j) :
    nearest N (v.take x).reverse =
      if i = 0 then none else v[i - 1]?.map (fun b => (x - i + 1, b)) := by
  have hsplit : v.take x = v.take i ++ (v.drop i).take (x - i) := by
    rw [← List.take_add, Nat.add_sub_cancel' hx]
  have hempty : ∀ u ∈ ((v.drop i).take (x - i)).reverse, N.isNaN u = true :=
    fun u hu => h.isNaN_of_mem le_rfl (by omega) u (List.mem_reverse.mp hu)
  rw [hsplit, List.reverse_append]
  rcases Nat.eq_zero_or_pos i with rfl | hi
  · rw [if_pos rfl, List.take_zero, List.reverse_nil, List.append_nil]
    exact nearest_of_empty hempty
  · obtain ⟨b, hb, hreal⟩ := h.behind.resolve_left hi.ne'
    have htake : v.take i = v.take (i - 1) ++ [b] := by
      conv_lhs => rw [← Nat.sub_add_cancel hi]
      rw [List.take_add_one, hb]
      rfl
    have hle := h.le
    rw [if_neg hi.ne', hb, htake, List.reverse_append, List.reverse_singleton,
      List.singleton_append, nearest_append hempty hreal]
    simp only [Option.map_some, List.length_reverse, List.length_take, List.length_drop]
    rw [Nat.min_eq_left (by omega)]

/-- The nearest value ahead is the one the gap ends at, if it ends at one. -/
theorem Gap.nearest_ahead (h : Gap N v i j) (hx : i ≤ x) (hxj : x < j) :
    nearest N (v.drop (x + 1)) = v[j]?.map (fun a => (j - x, a)) := by
  have hle := h.le
  have hsplit : v.drop (x + 1) = (v.drop (x + 1)).take (j - (x + 1)) ++ v.drop j := by
    have hend : v.drop j = (v.drop (x + 1)).drop (j - (x + 1)) := by
      rw [List.drop_drop, Nat.add_sub_cancel' hxj]
    rw [hend, List.take_append_drop]
  have hempty := h.isNaN_of_mem (k := x + 1) (n := j - (x + 1)) (by omega) (by omega)
  rw [hsplit]
  rcases h.ahead with rfl | ⟨a, ha, hreal⟩
  · rw [List.drop_length, List.append_nil, List.getElem?_eq_none le_rfl]
    exact nearest_of_empty hempty
  · obtain ⟨hlt, hget⟩ := List.getElem?_eq_some_iff.mp ha
    rw [List.drop_eq_getElem_cons hlt, hget, nearest_append hempty hreal, ha]
    simp only [Option.map_some, List.length_take, List.length_drop]
    congr 2
    omega

/-- What is written depends on the buckets before the gap only, so the order of writing does not
matter. -/
theorem getElem?_writeGap {value : List F → ℕ → F}
    (hvalue : ∀ u k, (∀ y < i, u[y]? = v[y]?) → value u k = value v k) (x : ℕ) :
    (writeGap reach i j value v)[x]? =
      if i ≤ x ∧ x < j ∧ ((x - i : ℕ) : ℤ) < reach ∧ x < v.length then some (value v (x - i))
      else v[x]? := by
  have hfold : ∀ n, ((List.range n).foldl (fun v k => v.set (i + k) (value v k)) v)[x]? =
      if i ≤ x ∧ x < i + n ∧ x < v.length then some (value v (x - i)) else v[x]? := by
    intro n
    induction n generalizing x with
    | zero => rw [if_neg (by omega), List.range_zero, List.foldl_nil]
    | succ n ih =>
      have hsame := hvalue _ n (fun y hy => (ih y).trans (if_neg (by omega)))
      rw [List.range_succ, List.foldl_concat, List.getElem?_set', hsame, ih x]
      by_cases hx : i + n = x
      · subst hx
        rw [if_pos rfl, if_neg (by omega), Nat.add_sub_cancel_left]
        by_cases hend : i + n < v.length
        · rw [if_pos (by omega), List.getElem?_eq_getElem hend]
          rfl
        · rw [if_neg (by omega), List.getElem?_eq_none (Nat.not_lt.mp hend)]
          rfl
      · rw [if_neg hx]
        refine if_congr ?_ rfl rfl
        omega
  rw [writeGap, hfold]
  refine if_congr ?_ rfl rfl
  omega

def filledAt (N : Floats F) (mode : Fill) (limit : ℕ) (g : Grid) (v : List F) (x : ℕ) : Option F :=
  v[x]?.map (fun u => filled N mode limit g (v.take x) u (v.drop (x + 1)))

theorem filledAt_real {u : F} (hu : v[x]? = some u) (hreal : N.isNaN u = false) :
    filledAt N mode limit g v x = some u := by
  rw [filledAt, hu, Option.map_some, filled, if_neg (by simp [hreal])]

def reachOf (limit : ℕ) (g : Grid) : ℤ := if 0 < limit then (limit : ℤ).tdiv g.interval else g.n

theorem getD_behind (hi : i ≠ 0) {w : List F} (h : ∀ y < i, w[y]? = v[y]?) :
    w.getD (i - 1) N.nan = v.getD (i - 1) N.nan := by
  rw [List.getD_eq_getElem?_getD, List.getD_eq_getElem?_getD, h (i - 1) (by omega)]

theorem fillGap_outside (hx : ¬(i ≤ x ∧ x < j)) :
    (fillGap N mode limit reach i j v)[x]? = v[x]? := by
  have hwrite : ∀ {reach : ℤ} {value : List F → ℕ → F},
      (∀ u k, (∀ y < i, u[y]? = v[y]?) → value u k = value v k) →
      (writeGap reach i j value v)[x]? = v[x]? :=
    fun hvalue => (getElem?_writeGap hvalue x).trans (if_neg (by tauto))
  unfold fillGap
  split
  · split
    · exact hwrite (fun _ _ _ => rfl)
    · rfl
  next hi =>
    split
    · rfl
    · exact hwrite (fun _ _ _ => rfl)
    · exact hwrite (fun w _ => getD_behind hi)
    · split
      · exact hwrite (fun _ _ _ => rfl)
      · rfl

theorem gapEnd_le (hj : j ≤ v.length) : gapEnd N v j ≤ v.length := by
  fun_induction gapEnd N v j with
  | case1 j hlt hv ih => exact ih hlt
  | case2 | case3 => exact hj

theorem isNaN_below_gapEnd (hjx : j ≤ x) (hx : x < gapEnd N v j) :
    ∃ u, v[x]? = some u ∧ N.isNaN u = true := by
  fun_induction gapEnd N v j with
  | case1 j hlt hv ih =>
    rcases hjx.eq_or_lt with rfl | hjx
    · exact ⟨v[j], List.getElem?_eq_getElem hlt, hv⟩
    · exact ih hjx hx
  | case2 | case3 => omega

theorem isNaN_at_gapEnd (N : Floats F) (v : List F) (j : ℕ) :
    v.length ≤ gapEnd N v j ∨ ∃ a, v[gapEnd N v j]? = some a ∧ N.isNaN a = false := by
  fun_induction gapEnd N v j with
  | case1 j hlt hv ih => exact ih
  | case2 j hlt hv =>
    exact .inr ⟨v[j], List.getElem?_eq_getElem hlt, Bool.eq_false_of_not_eq_true hv⟩
  | case3 j hlt => exact .inl (Nat.not_lt.mp hlt)

/-- The loop at `i`: the line is filled before `i` and as it was from there on, and a gap at `i`
starts there. -/
structure Midway (N : Floats F) (mode : Fill) (limit : ℕ) (g : Grid) (v₀ : List F) (i : ℕ)
    (v : List F) : Prop where
  length : v.length = v₀.length
  done : ∀ x < i, v[x]? = filledAt N mode limit g v₀ x
  todo : ∀ x, i ≤ x → v[x]? = v₀[x]?
  behind : i = 0 ∨ (∃ b, v₀[i - 1]? = some b ∧ N.isNaN b = false) ∨
    ∀ u, v₀[i]? = some u → N.isNaN u = false

theorem Midway.step (h : Midway N mode limit g v₀ i v) (hi : i < v.length)
    (hreal : N.isNaN v[i] = false) : Midway N mode limit g v₀ (i + 1) v := by
  have hget : v₀[i]? = some v[i] := (h.todo i le_rfl).symm.trans (List.getElem?_eq_getElem hi)
  refine ⟨h.length, fun x hx => ?_, fun x hx => h.todo x (by omega), .inr (.inl ⟨_, hget, hreal⟩)⟩
  rcases Nat.lt_succ_iff_lt_or_eq.mp hx with hlt | rfl
  · exact h.done x hlt
  · rw [filledAt_real hget hreal, List.getElem?_eq_getElem hi]

/-- The gap that the loop has met in the line it has written to is one of the line as it was. -/
theorem Midway.gap (h : Midway N mode limit g v₀ i v) (hi : i < v.length)
    (hnan : N.isNaN v[i] = true) : Gap N v₀ i (gapEnd N v i) := by
  have hget : v₀[i]? = some v[i] := (h.todo i le_rfl).symm.trans (List.getElem?_eq_getElem hi)
  have hle := le_gapEnd (N := N) v i
  refine ⟨h.length ▸ gapEnd_le hi.le, fun x hx hxj => ?_, ?_, ?_⟩
  · rw [← h.todo x hx]
    exact isNaN_below_gapEnd hx hxj
  · rcases h.behind with hzero | hreal | hreal
    · exact .inl hzero
    · exact .inr hreal
    · rw [hreal _ hget] at hnan
      cases hnan
  · rcases isNaN_at_gapEnd N v i with hend | ⟨a, ha, hreal⟩
    · exact .inl (le_antisymm (h.length ▸ gapEnd_le hi.le) (h.length ▸ hend))
    · exact .inr ⟨a, (h.todo _ hle).symm.trans ha, hreal⟩

/-- A gap is filled as it should be. The loop reads the line only where it is as it was. -/
theorem Midway.fillGap_inside (h : Midway N mode limit g v₀ i v) (hgap : Gap N v₀ i j)
    (hmode : mode ≠ .null) (hpos : 0 < g.interval) (hlen : v₀.length = g.n) (hx : i ≤ x)
    (hxj : x < j) :
    (fillGap N mode limit (reachOf limit g) i j v)[x]? = filledAt N mode limit g v₀ x := by
  have hle := hgap.le
  have hlength := h.length
  obtain ⟨u, hu₀, hnan⟩ := hgap.empty x hx hxj
  have hu : v[x]? = some u := (h.todo x hx).trans hu₀
  rw [filledAt, hu₀, Option.map_some, filled, if_pos hnan, hgap.nearest_behind hx hxj,
    hgap.nearest_ahead hx hxj]
  unfold fillGap
  split
  · split
    · rw [getElem?_writeGap (fun _ _ _ => rfl), if_pos (by omega)]
    · exact hu
  next hi =>
    obtain ⟨b, hb, hreal⟩ := hgap.behind.resolve_left hi
    have hlast : v.getD (i - 1) N.nan = b := by
      rw [List.getD_eq_getElem?_getD, h.done (i - 1) (by omega), filledAt_real hb hreal,
        Option.getD_some]
    have hwithin : (i ≤ x ∧ x < j ∧ ((x - i : ℕ) : ℤ) < reachOf limit g ∧ x < v.length) ↔
        (limit = 0 ∨ ((x - i + 1 : ℕ) : ℤ) * g.interval ≤ limit) := by
      rw [← lt_reach_iff hpos (by omega), reachOf]
      exact ⟨fun hand => hand.2.2.1, fun hlt => ⟨hx, hxj, hlt, by omega⟩⟩
    rw [hb, Option.map_some]
    dsimp only
    cases mode with
    | null => exact absurd rfl hmode
    | zero =>
      dsimp only
      rw [getElem?_writeGap (fun _ _ _ => rfl), if_congr hwithin rfl rfl, hu, apply_ite some]
    | last =>
      dsimp only
      rw [getElem?_writeGap (fun w _ => getD_behind hi), if_congr hwithin rfl rfl, hu, hlast,
        apply_ite some]
    | linear =>
      dsimp only
      rw [hlength]
      split
      next hj =>
        have hahead : v₀[j]? = some (v.getD j N.nan) := by
          rw [List.getD_eq_getElem?_getD, h.todo j (by omega), List.getElem?_eq_getElem hj,
            Option.getD_some]
        have hwidth : ((x - i + 1 : ℕ) : ℤ) + (j - x : ℕ) = (j : ℤ) - i + 1 := by omega
        rw [getElem?_writeGap (fun _ _ _ => rfl), if_congr hwithin rfl rfl, hu, hlast, hahead,
          Option.map_some, apply_ite some]
        dsimp only [between]
        rw [hwidth, Nat.cast_succ]
      next hj =>
        have hend : v₀[j]? = none := List.getElem?_eq_none (Nat.not_lt.mp hj)
        rw [hend, hu, Option.map_none, ite_self]

theorem Midway.jump (h : Midway N mode limit g v₀ i v) (hgap : Gap N v₀ i j) (hij : i ≤ j)
    (hmode : mode ≠ .null) (hpos : 0 < g.interval) (hlen : v₀.length = g.n) :
    Midway N mode limit g v₀ j (fillGap N mode limit (reachOf limit g) i j v) := by
  refine ⟨(length_fillGap ..).trans h.length, fun x hxj => ?_, fun x hxj => ?_, .inr (.inr ?_)⟩
  · rcases Nat.lt_or_ge x i with hx | hx
    · rw [fillGap_outside (by omega), h.done x hx]
    · exact h.fillGap_inside hgap hmode hpos hlen hx hxj
  · rw [fillGap_outside (by omega), h.todo x (hij.trans hxj)]
  · intro u hu
    rcases hgap.ahead with rfl | ⟨a, ha, hreal⟩
    · rw [List.getElem?_eq_none le_rfl] at hu
      cases hu
    · rwa [← Option.some.inj (ha.symm.trans hu)]

theorem Midway.fillLoop (h : Midway N mode limit g v₀ i v) (hmode : mode ≠ .null)
    (hpos : 0 < g.interval) (hlen : v₀.length = g.n) (x : ℕ) :
    (fillLoop N mode limit (reachOf limit g) i v)[x]? = filledAt N mode limit g v₀ x := by
  fun_induction MetricFrames.fillLoop N mode limit (reachOf limit g) i v with
  | case1 i v hi hnan ih => exact ih (h.jump (h.gap hi hnan) (le_gapEnd v i) hmode hpos hlen)
  | case2 i v hi hreal ih => exact ih (h.step hi (Bool.eq_false_of_not_eq_true hreal))
  | case3 i v hi =>
    rcases Nat.lt_or_ge x i with hx | hx
    · exact h.done x hx
    · have hend : v₀.length ≤ x := by
        have hlength := h.length
        omega
      rw [h.todo x hx, filledAt, List.getElem?_eq_none hend, Option.map_none]

theorem length_fillLoop (v : List F) :
    (MetricFrames.fillLoop N mode limit reach i v).length = v.length := by
  fun_induction MetricFrames.fillLoop N mode limit reach i v with
  | case1 i v hi hnan ih => exact ih.trans (length_fillGap ..)
  | case2 i v hi hreal ih => exact ih
  | case3 => rfl

theorem filled_null (g : Grid) (before : List F) (v : F) (after : List F) :
    filled N .null limit g before v after = v := by
  unfold filled
  split
  · split
    · rfl
    · split <;> rfl
  · rfl

theorem fill_at (mode : Fill) (limit : ℕ) (hpos : 0 < g.interval) (hlen : v.length = g.n) (x : ℕ) :
    (fill N mode limit g v)[x]? = filledAt N mode limit g v x := by
  unfold fill
  split
  next hnull =>
    subst hnull
    rw [filledAt]
    simp only [filled_null, Option.map_id']
  next hmode =>
    have hstart : Midway N mode limit g v 0 v :=
      ⟨rfl, fun x hx => absurd hx (Nat.not_lt_zero x), fun x _ => rfl, .inl rfl⟩
    exact hstart.fillLoop hmode hpos hlen x

/-- Every bucket of a filled line. -/
theorem fill_exact (N : Floats F) (mode : Fill) (limit : ℕ) (g : Grid) (v : List F)
    (hpos : 0 < g.interval) (hlen : v.length = g.n) :
    (fill N mode limit g v).length = v.length ∧
      (∀ before x after, v = before ++ x :: after →
        (fill N mode limit g v)[before.length]? = some (filled N mode limit g before x after)) ∧
      ∀ val, Exact N val → ∀ (b a : ℚ) (d e : ℕ), 0 < d →
        between N (val b) (val a) d e = val (b + (a - b) * d / (d + e)) := by
  refine ⟨?_, ?_, fun val hval b a d e hd => hval.between b a hd⟩
  · unfold fill
    split
    · rfl
    · exact length_fillLoop v
  · intro before x after hv
    rw [fill_at mode limit hpos hlen, filledAt, hv]
    simp

theorem exact_fractions : Exact MetricBatch.fractions some :=
  ⟨fun _ _ => rfl, fun _ _ => rfl, fun _ _ => rfl, fun _ _ _ => rfl, fun _ => rfl⟩

def gaps : List (Option ℚ) := [none, some 2, none, none, none, some 9, none]

theorem fill_exact_gaps :
    0 < (⟨0, 60, 7⟩ : Grid).interval ∧ gaps.length = (⟨0, 60, 7⟩ : Grid).n ∧
      Exact MetricBatch.fractions some ∧
      (fill MetricBatch.fractions .linear 120 ⟨0, 60, 7⟩ gaps)[3]? = some (some (11 / 2)) ∧
      (fill MetricBatch.fractions .linear 120 ⟨0, 60, 7⟩ gaps)[4]? = some none ∧
      between MetricBatch.fractions (some 2) (some 9) 2 2 = some (2 + (9 - 2) * 2 / (2 + 2)) := by
  obtain ⟨-, hfill, hline⟩ :=
    fill_exact MetricBatch.fractions .linear 120 ⟨0, 60, 7⟩ gaps (by decide) rfl
  refine ⟨by decide, rfl, exact_fractions, ?_, ?_, hline some exact_fractions 2 9 2 2 (by decide)⟩
  · exact (hfill [none, some 2, none] none [none, some 9, none] rfl).trans (by decide +kernel)
  · exact (hfill [none, some 2, none, none] none [some 9, none] rfl).trans (by decide +kernel)

end Ozymandias.FillGaps
