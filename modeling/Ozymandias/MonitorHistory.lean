import Ozymandias.MonitorStep
import Mathlib.Data.List.Induction
import Mathlib.Algebra.Ring.Int.Defs

/-!
Whole histories of one group. The status after a history says what the history
was: a group alerts since a value breached the critical level, until a value is
past the recovery level or its data stops. The counter of consecutive breaches is
at least the length of the run of breaching evaluations that the history ends
with, and it is larger if an evaluation without a value came while breaches were
being counted.
-/
namespace Ozymandias.MonitorHistory

open MonitorStep

variable {m : ℕ}

/-- Where a list that ends in an element is split: at that element or before it. -/
theorem concat_eq_split {α : Type} {xs ys zs : List α} {o p : α} (h : xs ++ [o] = ys ++ p :: zs) :
    (zs = [] ∧ ys = xs ∧ p = o) ∨ ∃ ws, zs = ws ++ [o] ∧ xs = ys ++ p :: ws := by
  rcases List.eq_nil_or_concat zs with rfl | ⟨ws, q, rfl⟩
  · obtain ⟨hys, hp⟩ := List.append_inj' h rfl
    exact .inl ⟨rfl, hys.symm, (List.singleton_inj.mp hp).symm⟩
  · have hassoc : ys ++ p :: (ws ++ [q]) = (ys ++ p :: ws) ++ [q] := by simp
    rw [List.concat_eq_append] at h ⊢
    rw [hassoc] at h
    obtain ⟨hxs, hq⟩ := List.append_inj' h rfl
    rw [List.singleton_inj.mp hq]
    exact .inr ⟨ws, rfl, hxs⟩

section Histories

variable {F : Type} [LinearOrder F]

def run (cfg : Config F) (now : Time) (xs : List (Observation F)) : GroupState F :=
  xs.foldl (fun g o => (step g o cfg).1) (.new now)

def Breaches (cfg : Config F) (level : Number F) (o : Observation F) : Prop :=
  o.present = true ∧ cfg.levels.breach o.value level = true

instance (cfg : Config F) (level : Number F) (o : Observation F) :
    Decidable (Breaches cfg level o) :=
  inferInstanceAs (Decidable (_ ∧ _))

def Enters (cfg : Config F) (now : Time) (status : Status) (xs : List (Observation F))
    (o : Observation F) : Prop :=
  (run cfg now xs).status ≠ status ∧ (run cfg now (xs ++ [o])).status = status

def Unbroken (cfg : Config F) (now : Time) (xs zs : List (Observation F)) : Prop :=
  ∀ us o vs, zs = us ++ o :: vs → ¬ Enters cfg now .noData (xs ++ us) o

/-- Some observation of a history starts something, every later value keeps it up, and the data
does not stop. -/
def Since (cfg : Config F) (now : Time) (starts : List (Observation F) → Observation F → Prop)
    (level : Number F) (xs : List (Observation F)) : Prop :=
  ∃ ys o zs, xs = ys ++ o :: zs ∧ starts ys o ∧
    (∀ p ∈ zs, p.present = true → Breaches cfg level p) ∧ Unbroken cfg now (ys ++ [o]) zs

/-- A value breached critical, and every later one the recovery level. -/
def Alerting (cfg : Config F) (now : Time) (xs : List (Observation F)) : Prop :=
  Since cfg now (fun _ o => Breaches cfg cfg.levels.critical o) cfg.levels.criticalRecovery xs

/-- An observation without a value came a timeframe after the newest data before it, and no value
since. The zero time is no data. -/
def Silent (cfg : Config F) (xs : List (Observation F)) : Prop :=
  0 < cfg.noDataTimeframe.ns ∧
    ∃ ys o zs, xs = ys ++ o :: zs ∧ o.present = false ∧
      (∃ d ∈ ys, d.present = true ∧ 0 < d.dataTs ∧
        (∀ e ∈ ys, e.present = true → e.dataTs ≤ d.dataTs) ∧
        cfg.noDataTimeframe.ns ≤ o.windowEnd - d.dataTs) ∧
      ∀ p ∈ zs, p.present = false

/-- A value breached the warning level or the group alerted, and every later value breached the
recovery level of the warning. -/
def Warning (cfg : Config F) (now : Time) (xs : List (Observation F)) : Prop :=
  cfg.levels.hasWarning = true ∧ ¬ Alerting cfg now xs ∧ ¬ Silent cfg xs ∧
    Since cfg now
      (fun ys o => Breaches cfg cfg.levels.warning o ∨ (run cfg now (ys ++ [o])).status = .alert)
      cfg.levels.warningRecovery xs

variable {cfg : Config F} {now : Time} {xs : List (Observation F)} {o : Observation F}

theorem run_concat :
    run cfg now (xs ++ [o]) = (step (run cfg now xs) o cfg).1 := by
  unfold run
  rw [List.foldl_append]
  rfl

theorem status_of_value (h : o.present = true) :
    (run cfg now (xs ++ [o])).status = (evaluate (run cfg now xs) o.value cfg).1 := by
  rw [run_concat, status_step, if_pos h]

theorem status_of_missing (h : o.present = false) :
    (run cfg now (xs ++ [o])).status = noData (run cfg now xs) o cfg := by
  rw [run_concat, status_step, if_neg (by rw [h]; exact Bool.false_ne_true)]

variable (cfg now xs) in
/-- A missing value leaves the status or makes it NO_DATA. -/
theorem missing_cases (h : o.present = false) : (run cfg now (xs ++ [o])).status = .noData ∨
      (run cfg now (xs ++ [o])).status = (run cfg now xs).status := by
  rw [status_of_missing h]
  unfold noData
  split_ifs
  · exact .inr rfl
  · exact .inl rfl
  · exact .inr rfl

variable (cfg now xs) in
theorem lastData_spec : 0 ≤ (run cfg now xs).lastData ∧
      (∀ e ∈ xs, e.present = true → e.dataTs ≤ (run cfg now xs).lastData) ∧
      ((run cfg now xs).lastData ≠ 0 →
        ∃ d ∈ xs, d.present = true ∧ d.dataTs = (run cfg now xs).lastData) := by
  induction xs using List.reverseRecOn with
  | nil => exact ⟨le_refl _, nofun, fun h => absurd rfl h⟩
  | append_singleton xs o ih =>
    obtain ⟨hnonneg, hmax, hdata⟩ := ih
    rw [run_concat, lastData_step]
    cases hpresent : o.present with
    | false =>
      refine ⟨hnonneg, fun e he hval => ?_, fun hne => ?_⟩
      · rcases List.mem_append.mp he with he | he
        · exact hmax e he hval
        · rw [List.mem_singleton.mp he, hpresent] at hval
          cases hval
      · obtain ⟨d, hd, hval⟩ := hdata hne
        exact ⟨d, List.mem_append_left _ hd, hval⟩
    | true =>
      refine ⟨le_trans hnonneg (le_max_left _ _), fun e he hval => ?_, fun hne => ?_⟩
      · rcases List.mem_append.mp he with he | he
        · exact le_trans (hmax e he hval) (le_max_left _ _)
        · rw [List.mem_singleton.mp he]
          exact le_max_right _ _
      · rcases le_total o.dataTs (run cfg now xs).lastData with hle | hle
        · rw [max_eq_left hle] at hne ⊢
          obtain ⟨d, hd, hval⟩ := hdata hne
          exact ⟨d, List.mem_append_left _ hd, hval⟩
        · rw [max_eq_right hle]
          exact ⟨o, List.mem_append_right _ List.mem_cons_self, hpresent, rfl⟩

/-- The no-data timeframe has passed since the newest data. -/
theorem noData_iff (h : o.present = false) : (run cfg now (xs ++ [o])).status = .noData ↔
      (run cfg now xs).status = .noData ∨ (0 < cfg.noDataTimeframe.ns ∧
        ∃ d ∈ xs, d.present = true ∧ 0 < d.dataTs ∧
          (∀ e ∈ xs, e.present = true → e.dataTs ≤ d.dataTs) ∧
          cfg.noDataTimeframe.ns ≤ o.windowEnd - d.dataTs) := by
  obtain ⟨hnonneg, hmax, hdata⟩ := lastData_spec cfg now xs
  rw [status_of_missing h]
  unfold noData
  split_ifs with hoff hlate
  · refine ⟨.inl, fun hor => hor.resolve_right ?_⟩
    rintro ⟨htime, d, hd, hval, hpos, -⟩
    have hle := hmax d hd hval
    rcases hoff with hoff | hoff
    · exact absurd hoff (not_le.mpr htime)
    · rw [hoff] at hle
      exact absurd hpos (not_lt.mpr hle)
  · rw [not_or, not_le] at hoff
    obtain ⟨d, hd, hval, heq⟩ := hdata hoff.2
    refine ⟨fun _ => .inr ⟨hoff.1, d, hd, hval, ?_, ?_, ?_⟩, fun _ => rfl⟩
    · rw [heq]
      exact lt_of_le_of_ne hnonneg (Ne.symm hoff.2)
    · rw [heq]
      exact hmax
    · rw [heq]
      exact (le_sub hoff.1 _ _).mp hlate
  · rw [not_or, not_le] at hoff
    refine ⟨.inl, fun hor => hor.resolve_right ?_⟩
    rintro ⟨-, d, hd, hval, -, hnewest, hpast⟩
    obtain ⟨d', hd', hval', heq⟩ := hdata hoff.2
    have hsame : d.dataTs = (run cfg now xs).lastData :=
      le_antisymm (hmax d hd hval) (heq ▸ hnewest d' hd' hval')
    rw [hsame] at hpast
    exact hlate ((le_sub hoff.1 _ _).mpr hpast)

theorem unbroken_concat {zs : List (Observation F)} :
    Unbroken cfg now xs (zs ++ [o]) ↔ Unbroken cfg now xs zs ∧ ¬ Enters cfg now .noData
      (xs ++ zs) o := by
  constructor
  · intro h
    refine ⟨fun us p vs hzs => h us p (vs ++ [o]) ?_, h zs o [] rfl⟩
    rw [hzs, List.append_assoc]
    rfl
  · rintro ⟨h, hlast⟩ us p vs hzs
    rcases concat_eq_split hzs with ⟨-, rfl, rfl⟩ | ⟨ws, -, rfl⟩
    · exact hlast
    · exact h us p ws rfl

variable {level : Number F} {starts : List (Observation F) → Observation F → Prop}

/-- Something holds since some observation if the last one starts it, or if it held before and the
last one keeps it up. -/
theorem since_concat :
    Since cfg now starts level (xs ++ [o]) ↔ starts xs o ∨ (Since cfg now starts level xs ∧
      (o.present = true → Breaches cfg level o) ∧ ¬ Enters cfg now .noData xs o) := by
  constructor
  · rintro ⟨ys, p, zs, heq, hstart, hkeep, hunbroken⟩
    rcases concat_eq_split heq with ⟨-, rfl, rfl⟩ | ⟨ws, rfl, rfl⟩
    · exact .inl hstart
    · obtain ⟨hrest, hlast⟩ := unbroken_concat.mp hunbroken
      rw [List.append_assoc] at hlast
      refine .inr ⟨⟨ys, p, ws, rfl, hstart, fun q hq => hkeep q (List.mem_append_left _ hq), hrest⟩,
        ?_, hlast⟩
      exact hkeep o (List.mem_append_right _ List.mem_cons_self)
  · rintro (hstart | ⟨⟨ys, p, zs, rfl, hstart, hkeep, hunbroken⟩, hlast, hdata⟩)
    · refine ⟨xs, o, [], rfl, hstart, nofun, fun us p vs h => ?_⟩
      exact absurd h (by simp)
    · refine ⟨ys, p, zs ++ [o], by simp, hstart,
        List.forall_mem_append.mpr ⟨hkeep, List.forall_mem_singleton.mpr hlast⟩,
        unbroken_concat.mpr ⟨hunbroken, ?_⟩⟩
      rw [List.append_assoc]
      exact hdata

theorem not_since_nil : ¬ Since cfg now starts level [] := by
  rintro ⟨ys, p, zs, h, -⟩
  cases ys <;> cases h

theorem not_enters_of_value (h : o.present = true) : ¬ Enters cfg now .noData xs o := by
  rintro ⟨-, hstatus⟩
  rw [status_of_value h] at hstatus
  exact evaluate_ne_noData _ _ _ hstatus

/-- Without a value, a status other than NO_DATA is kept exactly if NO_DATA is not entered. -/
theorem status_of_missing_iff (h : o.present = false) {status : Status} (hne : status ≠ .noData) :
    (run cfg now (xs ++ [o])).status = status ↔
      (run cfg now xs).status = status ∧ ¬ Enters cfg now .noData xs o := by
  rcases missing_cases cfg now xs h with hstop | hkept
  · refine ⟨fun heq => absurd (heq.symm.trans hstop) hne, fun hand => absurd ⟨?_, hstop⟩ hand.2⟩
    rw [hand.1]
    exact hne
  · rw [hkept]
    refine ⟨fun heq => ⟨heq, fun henter => ?_⟩, And.left⟩
    exact henter.1 (hkept.symm.trans henter.2)

variable (cfg now xs) in
theorem breaches_nonneg :
    0 ≤ (run cfg now xs).breaches := by
  induction xs using List.reverseRecOn with
  | nil => exact le_refl _
  | append_singleton xs o ih =>
    rw [run_concat, breaches_step, evaluate_breaches]
    unfold counted
    split_ifs <;> omega

theorem breaches_of_breach (now : Time) (xs : List (Observation F))
    (h : Breaches cfg cfg.levels.critical o) :
    (run cfg now (xs ++ [o])).breaches = (run cfg now xs).breaches + 1 := by
  rw [run_concat, breaches_step, if_pos h.1, evaluate_breaches, counted, if_pos h.2]

/-- A value alerts if enough breaches are counted with it, or if it keeps an alert up. -/
theorem alert_of_value (h : o.present = true) : (run cfg now (xs ++ [o])).status = .alert ↔
      (Breaches cfg cfg.levels.critical o ∧ max cfg.minFailures 1 ≤ (run cfg now xs).breaches + 1) ∨
        ((run cfg now xs).status = .alert ∧ Breaches cfg cfg.levels.criticalRecovery o) := by
  rw [status_of_value h, evaluate_alert]
  unfold Breaches counted
  constructor
  · rintro (⟨hcrit, hcount⟩ | ⟨halert, hband⟩)
    · rw [if_pos hcrit] at hcount
      exact .inl ⟨⟨h, hcrit⟩, hcount⟩
    · exact .inr ⟨halert, h, hband⟩
  · rintro (⟨⟨-, hcrit⟩, hcount⟩ | ⟨halert, -, hband⟩)
    · rw [if_pos hcrit]
      exact .inl ⟨hcrit, hcount⟩
    · exact .inr ⟨halert, hband⟩

/-- An alert starts with enough breaches. -/
theorem breach_of_enters_alert (h : Enters cfg now .alert xs o) :
    Breaches cfg cfg.levels.critical o ∧ max cfg.minFailures 1 ≤ (run cfg now xs).breaches + 1 := by
  obtain ⟨hbefore, hafter⟩ := h
  cases hpresent : o.present with
  | false => exact absurd ((status_of_missing_iff hpresent (by decide)).mp hafter).1 hbefore
  | true => exact ((alert_of_value hpresent).mp hafter).resolve_right (fun hband => hbefore hband.1)

theorem alert_iff (now : Time) (hmin : cfg.minFailures = 1) (xs : List (Observation F)) :
    (run cfg now xs).status = .alert ↔ Alerting cfg now xs := by
  induction xs using List.reverseRecOn with
  | nil => exact ⟨fun h => (by cases h), fun h => absurd h not_since_nil⟩
  | append_singleton xs o ih =>
    have hone : max cfg.minFailures 1 ≤ (run cfg now xs).breaches + 1 := by
      have := breaches_nonneg cfg now xs
      omega
    unfold Alerting at ih ⊢
    rw [since_concat, ← ih]
    cases hpresent : o.present with
    | true =>
      rw [alert_of_value hpresent]
      constructor
      · rintro (⟨hcrit, -⟩ | ⟨halert, hband⟩)
        · exact .inl hcrit
        · exact .inr ⟨halert, fun _ => hband, not_enters_of_value hpresent⟩
      · rintro (hcrit | ⟨halert, hband, -⟩)
        · exact .inl ⟨hcrit, hone⟩
        · exact .inr ⟨halert, hband rfl⟩
    | false =>
      have hnot : ¬ Breaches cfg cfg.levels.critical o := fun hb => by
        rw [Breaches, hpresent] at hb
        cases hb.1
      rw [status_of_missing_iff hpresent (by decide)]
      constructor
      · rintro ⟨halert, hdata⟩
        exact .inr ⟨halert, fun hval => (by cases hval), hdata⟩
      · rintro (hcrit | ⟨halert, -, hdata⟩)
        · exact absurd hcrit hnot
        · exact ⟨halert, hdata⟩

variable (cfg now xs) in
theorem noData_status_iff : (run cfg now xs).status = .noData ↔ Silent cfg xs := by
  induction xs using List.reverseRecOn with
  | nil =>
    refine ⟨fun h => (by cases h), ?_⟩
    rintro ⟨-, ys, o, zs, h, -⟩
    cases ys <;> cases h
  | append_singleton xs o ih =>
    cases hpresent : o.present with
    | true =>
      rw [status_of_value hpresent]
      refine ⟨fun h => absurd h (evaluate_ne_noData _ _ _), ?_⟩
      rintro ⟨-, ys, p, zs, heq, hp, -, hzs⟩
      rcases concat_eq_split heq with ⟨-, -, rfl⟩ | ⟨ws, rfl, -⟩
      · rw [hpresent] at hp
        cases hp
      · have hlast := hzs o (List.mem_append_right _ List.mem_cons_self)
        rw [hpresent] at hlast
        cases hlast
    | false =>
      rw [noData_iff hpresent, ih]
      constructor
      · rintro (⟨htime, ys, p, zs, rfl, hp, hdata, hzs⟩ | ⟨htime, hdata⟩)
        · exact ⟨htime, ys, p, zs ++ [o], by simp, hp, hdata,
            List.forall_mem_append.mpr ⟨hzs, List.forall_mem_singleton.mpr hpresent⟩⟩
        · exact ⟨htime, xs, o, [], rfl, hpresent, hdata, nofun⟩
      · rintro ⟨htime, ys, p, zs, heq, hp, hdata, hzs⟩
        rcases concat_eq_split heq with ⟨-, rfl, rfl⟩ | ⟨ws, rfl, rfl⟩
        · exact .inr ⟨htime, hdata⟩
        · exact .inl ⟨htime, ys, p, ws, rfl, hp, hdata,
            fun q hq => hzs q (List.mem_append_left _ hq)⟩

theorem hasWarning_of_warn {xs : List (Observation F)} (h : (run cfg now xs).status = .warn) :
    cfg.levels.hasWarning = true := by
  induction xs using List.reverseRecOn with
  | nil => cases h
  | append_singleton xs o ih =>
    cases hpresent : o.present with
    | true =>
      rw [status_of_value hpresent] at h
      exact ((evaluate_warn (by rw [h]; decide)).mp h).1
    | false => exact ih ((status_of_missing_iff hpresent (by decide)).mp h).1

theorem warned_iff (hhas : cfg.levels.hasWarning = true) (xs : List (Observation F)) :
    ((run cfg now xs).status = .warn ∨ (run cfg now xs).status = .alert) ↔ Since cfg now
        (fun ys o => Breaches cfg cfg.levels.warning o ∨ (run cfg now (ys ++ [o])).status = .alert)
        cfg.levels.warningRecovery xs := by
  induction xs using List.reverseRecOn with
  | nil =>
    refine ⟨fun h => ?_, fun h => absurd h not_since_nil⟩
    rcases h with h | h <;> cases h
  | append_singleton xs o ih =>
    rw [since_concat, ← ih]
    by_cases halert : (run cfg now (xs ++ [o])).status = .alert
    · exact ⟨fun _ => .inl (.inr halert), fun _ => .inr halert⟩
    cases hpresent : o.present with
    | true =>
      have hne : (evaluate (run cfg now xs) o.value cfg).1 ≠ .alert := by
        rw [← status_of_value hpresent]
        exact halert
      have hwarn := evaluate_warn hne
      rw [← status_of_value hpresent] at hwarn
      constructor
      · intro h
        rcases (hwarn.mp (h.resolve_right halert)).2 with hvalue | ⟨hold, hkept⟩
        · exact .inl (.inl ⟨hpresent, hvalue⟩)
        · exact .inr ⟨hold, fun _ => ⟨hpresent, hkept⟩, not_enters_of_value hpresent⟩
      · rintro ((hvalue | h) | ⟨hold, hkept, -⟩)
        · exact .inl (hwarn.mpr ⟨hhas, .inl hvalue.2⟩)
        · exact .inr h
        · exact .inl (hwarn.mpr ⟨hhas, .inr ⟨hold, (hkept rfl).2⟩⟩)
    | false =>
      rw [status_of_missing_iff hpresent (show Status.warn ≠ .noData by decide),
        status_of_missing_iff hpresent (show Status.alert ≠ .noData by decide)]
      constructor
      · rintro (⟨hold, hdata⟩ | ⟨hold, hdata⟩)
        · exact .inr ⟨.inl hold, fun hval => (by cases hval), hdata⟩
        · exact .inr ⟨.inr hold, fun hval => (by cases hval), hdata⟩
      · rintro ((hvalue | h) | ⟨hold | hold, -, hdata⟩)
        · rw [Breaches, hpresent] at hvalue
          cases hvalue.1
        · exact .inr h
        · exact .inl ⟨hold, hdata⟩
        · exact .inr ⟨hold, hdata⟩

/-- The status after a history that steps a new group says what the history was, and between two
alerts a value was past the recovery level or the data stopped. -/
theorem status_of_history [Zero F] (isInf : F → Bool) (op : Op) (threshold : Number F)
    (t : Thresholds F)
    (hop : (op.above || op.below) = true) (hok : (levels isInf op threshold t).2 = [])
    (cfg : Config F) (hcfg : cfg.levels = (levels isInf op threshold t).1)
    (hmin : cfg.minFailures = 1) (now : Time) (xs : List (Observation F)) :
    ((run cfg now xs).status = .alert ↔ Alerting cfg now xs) ∧
      ((run cfg now xs).status = .noData ↔ Silent cfg xs) ∧
      ((run cfg now xs).status = .warn ↔ Warning cfg now xs) ∧
      ((run cfg now xs).status = .ok ↔
        ¬ Alerting cfg now xs ∧ ¬ Silent cfg xs ∧ ¬ Warning cfg now xs) ∧
      ∀ ys o zs p, Enters cfg now .alert ys o → Enters cfg now .alert (ys ++ o :: zs) p →
        ∃ us q vs, zs = us ++ q :: vs ∧
          ((q.present = true ∧ cfg.levels.breach q.value cfg.levels.criticalRecovery = false ∧
            cfg.levels.breach q.value cfg.levels.critical = false) ∨
            Enters cfg now .noData (ys ++ o :: us) q) := by
  have halert := alert_iff now hmin
  have hsilent := noData_status_iff cfg now xs
  have hwarn : (run cfg now xs).status = .warn ↔ Warning cfg now xs := by
    constructor
    · intro h
      have hhas := hasWarning_of_warn h
      refine ⟨hhas, ?_, ?_, (warned_iff hhas xs).mp (.inl h)⟩
      · rw [← halert, h]
        decide
      · rw [← hsilent, h]
        decide
    · rintro ⟨hhas, hnot, -, hwarned⟩
      rw [← halert] at hnot
      exact ((warned_iff hhas xs).mpr hwarned).resolve_right hnot
  refine ⟨halert xs, hsilent, hwarn, ?_, ?_⟩
  · rw [← halert, ← hsilent, ← hwarn]
    cases (run cfg now xs).status <;> decide
  · intro ys o zs p hfirst hsecond
    by_contra hnone
    refine hsecond.1 ((halert _).mpr ⟨ys, o, zs, rfl, (breach_of_enters_alert hfirst).1, ?_, ?_⟩)
    · intro q hq hval
      refine ⟨hval, ?_⟩
      by_contra hpast
      obtain ⟨us, vs, hzs⟩ := List.append_of_mem hq
      refine hnone ⟨us, q, vs, hzs, .inl ⟨hval, Bool.eq_false_of_not_eq_true hpast, ?_⟩⟩
      refine Bool.eq_false_of_not_eq_true (fun hcrit => hpast ?_)
      rw [hcfg] at hcrit ⊢
      exact breach_criticalRecovery hop hok hcrit
    · intro us q vs hzs henters
      rw [List.append_assoc] at henters
      exact hnone ⟨us, q, vs, hzs, .inr henters⟩

/-- The last observations of a history all breached the critical level. -/
def LastBreached (cfg : Config F) (m : ℕ) (xs : List (Observation F)) : Prop :=
  ∃ ys zs, xs = ys ++ zs ∧ zs.length = m ∧ ∀ o ∈ zs, Breaches cfg cfg.levels.critical o

/-- A value is there, or no breach is being counted, or enough of them are already, or the no-data
timeframe has passed since the newest data. -/
def Counts (cfg : Config F) (prev : GroupState F) (o : Observation F) : Prop :=
  o.present = true ∨ prev.breaches = 0 ∨ cfg.minFailures ≤ prev.breaches ∨
    (0 < cfg.noDataTimeframe.ns ∧ prev.lastData ≠ 0 ∧
      cfg.noDataTimeframe.ns ≤ o.windowEnd - prev.lastData)

theorem LastBreached.breaches (h : LastBreached cfg m xs) :
    ∀ o ∈ xs.drop (xs.length - m), Breaches cfg cfg.levels.critical o := by
  obtain ⟨ys, zs, rfl, rfl, hall⟩ := h
  rw [List.length_append, Nat.add_sub_cancel, List.drop_left]
  exact hall

theorem LastBreached.concat (h : LastBreached cfg m xs) (ho : Breaches cfg cfg.levels.critical o) :
    LastBreached cfg (m + 1) (xs ++ [o]) := by
  obtain ⟨ys, zs, rfl, hlen, hall⟩ := h
  refine ⟨ys, zs ++ [o], List.append_assoc _ _ _, ?_,
    List.forall_mem_append.mpr ⟨hall, List.forall_mem_singleton.mpr ho⟩⟩
  rw [List.length_append, hlen]
  rfl

theorem LastBreached.mono {n : ℕ} (h : LastBreached cfg n xs) (hmn : m ≤ n) :
    LastBreached cfg m xs := by
  obtain ⟨ys, zs, rfl, hlen, hall⟩ := h
  refine ⟨ys ++ zs.take (n - m), zs.drop (n - m), ?_, ?_,
    fun o ho => hall o (List.mem_of_mem_drop ho)⟩
  · rw [List.append_assoc, List.take_append_drop]
  · rw [List.length_drop]
    omega

/-- At least as many breaches are counted as there were in a row. -/
theorem le_breaches (now : Time) (h : LastBreached cfg m xs) :
    (m : ℤ) ≤ (run cfg now xs).breaches := by
  obtain ⟨ys, zs, rfl, rfl, hall⟩ := h
  induction zs using List.reverseRecOn with
  | nil => exact breaches_nonneg cfg now _
  | append_singleton zs o ih =>
    have hrest := ih (fun p hp => hall p (List.mem_append_left _ hp))
    rw [← List.append_assoc,
      breaches_of_breach _ _ (hall o (List.mem_append_right _ List.mem_cons_self)),
      List.length_append, List.length_singleton]
    omega

theorem alert_of_lastBreached (hm : 1 ≤ m) (hmin : cfg.minFailures ≤ m)
    (h : LastBreached cfg m xs) :
    (run cfg now xs).status = .alert := by
  obtain ⟨ys, zs, rfl, hlen, hall⟩ := h
  rcases List.eq_nil_or_concat zs with rfl | ⟨ws, o, rfl⟩
  · rw [← hlen] at hm
    exact absurd hm (Nat.not_succ_le_zero _)
  · rw [List.concat_eq_append] at hlen hall ⊢
    have ho := hall o (List.mem_append_right _ List.mem_cons_self)
    have hcount : (ws.length : ℤ) ≤ (run cfg now (ys ++ ws)).breaches :=
      le_breaches now ⟨ys, ws, rfl, rfl, fun p hp => hall p (List.mem_append_left _ hp)⟩
    rw [List.length_append, List.length_singleton] at hlen
    rw [← List.append_assoc]
    refine (alert_of_value ho.1).mpr (.inl ⟨ho, ?_⟩)
    omega

/-- The breaches counted are those in a row, unless the group alerts and has enough of them. -/
def Tracked (cfg : Config F) (now : Time) (xs : List (Observation F)) : Prop :=
  (∃ k : ℕ, (run cfg now xs).breaches = k ∧ LastBreached cfg k xs) ∨
    ((run cfg now xs).status = .alert ∧ cfg.minFailures ≤ (run cfg now xs).breaches)

theorem tracked_of_zero (h : (run cfg now xs).breaches = 0) : Tracked cfg now xs :=
  .inl ⟨0, h, xs, [], (List.append_nil xs).symm, rfl, nofun⟩

variable (cfg now xs) in
theorem breaches_of_missing (h : o.present = false) : (run cfg now (xs ++ [o])).breaches =
    if (run cfg now (xs ++ [o])).status = .noData then 0 else (run cfg now xs).breaches := by
  rw [status_of_missing h, run_concat, breaches_step, if_neg (by rw [h]; exact Bool.false_ne_true)]

theorem tracked_concat (hm : 1 ≤ m) (hmin : cfg.minFailures = m) (h : Tracked cfg now xs)
    (hcounts : Counts cfg (run cfg now xs) o) : Tracked cfg now (xs ++ [o]) := by
  cases hpresent : o.present with
  | true =>
    by_cases hcrit : Breaches cfg cfg.levels.critical o
    · have hmore := breaches_of_breach now xs hcrit
      rcases h with ⟨k, hk, hlast⟩ | ⟨-, henough⟩
      · refine .inl ⟨k + 1, ?_, hlast.concat hcrit⟩
        rw [hmore, hk]
        rfl
      · refine .inr ⟨(alert_of_value hpresent).mpr (.inl ⟨hcrit, ?_⟩), ?_⟩ <;> omega
    · refine tracked_of_zero ?_
      rw [run_concat, breaches_step, if_pos hpresent, evaluate_breaches, counted,
        if_neg (fun hb => hcrit ⟨hpresent, hb⟩)]
  | false =>
    have hsame := breaches_of_missing cfg now xs hpresent
    by_cases hstop : (run cfg now (xs ++ [o])).status = .noData
    · rw [if_pos hstop] at hsame
      exact tracked_of_zero hsame
    · rw [if_neg hstop] at hsame
      have hkept := (missing_cases cfg now xs hpresent).resolve_left hstop
      have henough : (run cfg now xs).breaches ≠ 0 → (run cfg now xs).status = .alert ∧
          cfg.minFailures ≤ (run cfg now xs).breaches := by
        intro hne
        rcases h with ⟨k, hk, hlast⟩ | halert
        · rcases hcounts with hval | hzero | hcount | ⟨htime, hdata, hpast⟩
          · rw [hpresent] at hval
            cases hval
          · exact absurd hzero hne
          · refine ⟨alert_of_lastBreached ?_ ?_ hlast, hcount⟩ <;> omega
          · refine absurd ?_ hstop
            rw [status_of_missing hpresent, noData, if_neg (not_or.mpr ⟨not_le.mpr htime, hdata⟩),
              if_pos ((le_sub htime _ _).mpr hpast)]
        · exact halert
      by_cases hzero : (run cfg now xs).breaches = 0
      · exact tracked_of_zero (hsame.trans hzero)
      · refine .inr ?_
        rw [hkept, hsame]
        exact henough hzero

theorem tracked_run (hm : 1 ≤ m) (hmin : cfg.minFailures = m) (xs : List (Observation F))
    (hcounts : ∀ ys o zs, xs = ys ++ o :: zs → Counts cfg (run cfg now ys) o) :
    Tracked cfg now xs := by
  induction xs using List.reverseRecOn with
  | nil => exact tracked_of_zero rfl
  | append_singleton xs o ih =>
    refine tracked_concat hm hmin (ih (fun ys p zs hxs => hcounts ys p (zs ++ [o]) ?_))
      (hcounts xs o [] rfl)
    rw [hxs]
    simp

/-- In a history in which every evaluation without a value comes when no breach is being counted,
when enough of them are, or when the data has stopped, an alert is entered only after breaches in
a row; and breaches in a row always alert. -/
theorem alert_after_breaches_in_a_row (cfg : Config F) (m : ℕ) (hm : 1 ≤ m)
    (hmin : cfg.minFailures = m) (now : Time) (xs : List (Observation F)) :
    (∀ o, (∀ ys p zs, xs = ys ++ p :: zs → Counts cfg (run cfg now ys) p) →
      Enters cfg now .alert xs o → LastBreached cfg m (xs ++ [o])) ∧
      (LastBreached cfg m xs → (run cfg now xs).status = .alert) := by
  refine ⟨fun o hcounts henters => ?_, alert_of_lastBreached hm hmin.le⟩
  obtain ⟨hcrit, hcount⟩ := breach_of_enters_alert henters
  rcases tracked_run hm hmin xs hcounts with ⟨k, hk, hlast⟩ | ⟨halert, -⟩
  · refine (hlast.concat hcrit).mono ?_
    omega
  · exact absurd halert henters.1

end Histories

/-- A monitor that alerts above 10, warns above 5 and recovers below 8 and 3. -/
def banded : Thresholds ℤ := ⟨none, some (some 5), some (some 8), some (some 3)⟩

def aboveTen (minFailures : ℤ) : Config ℤ where
  levels := (levels (fun _ => false) .gt (some 10) banded).1
  minFailures := minFailures
  noDataTimeframe := ⟨100, by decide, by decide⟩
  renotify := .zero
  muted := false

def valueAt (t v : ℤ) : Observation ℤ := ⟨t, t, true, some v, t⟩

def nothingAt (t : ℤ) : Observation ℤ := ⟨t, t, false, none, 0⟩

theorem hovering_stays_alerted :
    ((run (aboveTen 1) 1 [valueAt 1 11, valueAt 2 9]).status = .alert ↔
        Alerting (aboveTen 1) 1 [valueAt 1 11, valueAt 2 9]) ∧
      (run (aboveTen 1) 1 [valueAt 1 11, valueAt 2 9]).status = .alert :=
  ⟨(status_of_history (fun _ => false) .gt (some 10) banded (by decide) (by decide)
    (aboveTen 1) rfl rfl 1
    [valueAt 1 11, valueAt 2 9]).1, by decide⟩

theorem second_breach_alerts : LastBreached (aboveTen 2) 2 [valueAt 1 11, valueAt 2 12] := by
  have hcounts : ∀ ys p zs, [valueAt 1 11] = ys ++ p :: zs →
      Counts (aboveTen 2) (run (aboveTen 2) 1 ys) p := by
    intro ys p zs h
    rcases concat_eq_split (show [] ++ [valueAt 1 11] = ys ++ p :: zs from h) with ⟨-, -,
      rfl⟩ | ⟨ws, -, h⟩
    · exact .inl rfl
    · cases ys <;> cases h
  exact (alert_after_breaches_in_a_row (aboveTen 2) 2 (by decide) rfl 1 [valueAt 1 11]).1
    (valueAt 2 12)
    hcounts ⟨by decide, by decide⟩

/-- An evaluation without a value between two breaches does not start the count again. -/
theorem missing_value_keeps_count :
    Enters (aboveTen 2) 1 .alert [valueAt 1 11, nothingAt 2] (valueAt 3 11) ∧
      ¬ LastBreached (aboveTen 2) 2 ([valueAt 1 11, nothingAt 2] ++ [valueAt 3 11]) := by
  refine ⟨⟨by decide, by decide⟩, fun h => ?_⟩
  have hmissing := h.breaches (nothingAt 2) (by decide)
  exact absurd hmissing.1 (by decide)

end Ozymandias.MonitorHistory
