import Mathlib.Algebra.Order.Group.Int

/-!
A monitor's levels and the step of one group. The levels are filled in from the
query's threshold and the definition's thresholds, and checked against each
other. A step takes the state of a group and one observation of it to the next
state, and says whether someone has to be told. Times are nanoseconds from the
zero time, and the numbers of a monitor are the values of a linear order, the
infinities among them, or not a number.
-/
namespace Ozymandias.MonitorStep

abbrev Time := ℤ

structure Duration where
  ns : ℤ
  low : -2 ^ 63 ≤ ns
  high : ns < 2 ^ 63
  deriving DecidableEq

def Duration.saturate (ns : ℤ) : Duration where
  ns := max (-2 ^ 63) (min ns (2 ^ 63 - 1))
  low := le_max_left _ _
  high := by omega

def Duration.zero : Duration := ⟨0, by decide, by decide⟩

def Time.sub (t u : Time) : Duration := .saturate (t - u)

/-- A positive duration is reached by a difference that was cut off exactly if the difference
reaches it. -/
theorem le_sub {d : Duration} (hd : 0 < d.ns) (t u : Time) :
    d.ns ≤ (Time.sub t u).ns ↔ d.ns ≤ t - u := by
  have hhigh := d.high
  show d.ns ≤ max (-2 ^ 63) (min (t - u) (2 ^ 63 - 1)) ↔ _
  omega

section Numbers

variable {F : Type}

/-- A float64; `none` is not a number. -/
abbrev Number (F : Type) := Option F

def related (r : F → F → Bool) : Number F → Number F → Bool
  | some x, some y => r x y
  | _, _ => false

variable {a b v : Number F}

theorem related_eq_true {r : F → F → Bool} :
    related r a b = true ↔ ∃ x y, a = some x ∧ b = some y ∧ r x y = true := by
  cases a <;> cases b <;> simp [related]

theorem related_trans {r s t : F → F → Prop} [DecidableRel r] [DecidableRel s] [DecidableRel t]
    {c : Number F} (hab : related (fun x y => decide (r x y)) a b = true)
    (hbc : related (fun x y => decide (s x y)) b c = true)
    (htrans : ∀ {x y z}, r x y → s y z → t x z) :
    related (fun x y => decide (t x y)) a c = true := by
  obtain ⟨x, y, rfl, rfl, hxy⟩ := related_eq_true.mp hab
  obtain ⟨_, z, hy, rfl, hyz⟩ := related_eq_true.mp hbc
  cases hy
  exact decide_eq_true (htrans (of_decide_eq_true hxy) (of_decide_eq_true hyz))

variable [LinearOrder F]

def less : Number F → Number F → Bool := related (fun x y => decide (x < y))

def atMost : Number F → Number F → Bool := related (fun x y => decide (x ≤ y))

def same : Number F → Number F → Bool := related (fun x y => decide (x = y))

inductive Op where
  | gt
  | ge
  | lt
  | le
  | eq
  | ne
  deriving DecidableEq

def Op.compare (o : Op) (v t : Number F) : Bool :=
  match o with
  | .gt => less t v
  | .ge => atMost t v
  | .lt => less v t
  | .le => atMost v t
  | .eq => same v t
  | .ne => !same v t

def Op.above (o : Op) : Bool := o = .gt || o = .ge

def Op.below (o : Op) : Bool := o = .lt || o = .le

structure Thresholds (F : Type) where
  critical : Option (Number F)
  warning : Option (Number F)
  criticalRecovery : Option (Number F)
  warningRecovery : Option (Number F)
  deriving DecidableEq

structure Levels (F : Type) where
  op : Op
  critical : Number F
  criticalRecovery : Number F
  hasWarning : Bool
  warning : Number F
  warningRecovery : Number F
  deriving DecidableEq

inductive Threshold where
  | critical
  | warning
  | criticalRecovery
  | warningRecovery
  deriving DecidableEq

inductive Side where
  | below
  | above
  deriving DecidableEq

inductive LevelErr (F : Type) where
  | notFinite (name : Threshold)
  | criticalDiffers (critical threshold : Number F)
  | recoveryWithoutWarning
  | noDirection (op : Op)
  | warningSide (warning : Number F) (side : Side) (critical : Number F)
  | criticalRecoveryPast (recovery : Number F) (past : Side) (critical : Number F)
  | warningRecoveryPast (recovery : Number F) (past : Side) (warning : Number F)
  deriving DecidableEq

def bad {F : Type} (c : Bool) (e : LevelErr F) : List (LevelErr F) := if c then [e] else []

theorem bad_eq_nil {F : Type} {c : Bool} {e : LevelErr F} : bad c e = [] ↔ c = false := by
  cases c <;> simp [bad]

def finite (isInf : F → Bool) (name : Threshold) : Option (Number F) → List (LevelErr F)
  | none => []
  | some none => [.notFinite name]
  | some (some x) => if isInf x then [.notFinite name] else []

def before (op : Op) (a b : Number F) : Bool := if op.below then atMost b a else atMost a b

/-- Fill in the defaults and check that each level is on the side of the others that the direction
of the comparison requires. The levels are accepted if there is no error. -/
def levels [Zero F] (isInf : F → Bool) (op : Op) (threshold : Number F) (t : Thresholds F) :
    Levels F × List (LevelErr F) :=
  let lv : Levels F :=
    { op := op
      critical := threshold
      criticalRecovery := t.criticalRecovery.getD threshold
      hasWarning := t.warning.isSome
      warning := t.warning.getD (some 0)
      warningRecovery := t.warningRecovery.getD (t.warning.getD (some 0)) }
  let errs := finite isInf .critical t.critical ++ finite isInf .warning t.warning ++
    finite isInf .criticalRecovery t.criticalRecovery ++
      finite isInf .warningRecovery t.warningRecovery ++
    t.critical.elim [] (fun c => bad (!same c threshold) (.criticalDiffers c threshold)) ++
    bad (t.warningRecovery.isSome && t.warning.isNone) .recoveryWithoutWarning
  if !op.above && !op.below then
    (lv, errs ++
      bad (t.warning.isSome || t.criticalRecovery.isSome || t.warningRecovery.isSome)
        (.noDirection op))
  else
    let side := if op.below then Side.above else .below
    let past := if op.below then Side.below else .above
    (lv, errs ++
      bad (lv.hasWarning && (same lv.warning lv.critical || !before op lv.warning lv.critical))
        (.warningSide lv.warning side lv.critical) ++
      bad (!before op lv.criticalRecovery lv.critical)
        (.criticalRecoveryPast lv.criticalRecovery past lv.critical) ++
      bad (lv.hasWarning && !before op lv.warningRecovery lv.warning)
        (.warningRecoveryPast lv.warningRecovery past lv.warning))

def Levels.breach (l : Levels F) (v level : Number F) : Bool := l.op.compare v level

/-- A comparison with a direction is passed on to a level on the healthy side. -/
theorem compare_of_before {op : Op} (hop : (op.above || op.below) = true)
    (hbefore : before op a b = true) (h : op.compare v b = true) : op.compare v a = true := by
  cases op with
  | gt => exact related_trans hbefore h lt_of_le_of_lt
  | ge => exact related_trans hbefore h le_trans
  | lt => exact related_trans h hbefore lt_of_lt_of_le
  | le => exact related_trans h hbefore le_trans
  | eq | ne => cases hop

/-- Among accepted levels, a value that breaches the critical level breaches its recovery level. -/
theorem breach_criticalRecovery [Zero F] {isInf : F → Bool} {threshold : Number F}
    {t : Thresholds F}
    {op : Op} (hop : (op.above || op.below) = true) (hok : (levels isInf op threshold t).2 = [])
    (h : (levels isInf op threshold t).1.breach v (levels isInf op threshold t).1.critical = true) :
    (levels isInf op threshold t).1.breach v
      (levels isInf op threshold t).1.criticalRecovery = true := by
  have hdir : (!op.above && !op.below) = false := by
    cases op <;> first | rfl | cases hop
  unfold levels at hok h ⊢
  simp only [hdir, Bool.false_eq_true, if_false] at hok h ⊢
  simp only [List.append_eq_nil_iff, bad_eq_nil, Bool.not_eq_false'] at hok
  exact compare_of_before hop hok.1.2 h

inductive Status where
  | ok
  | warn
  | alert
  | noData
  deriving DecidableEq

structure GroupState (F : Type) where
  status : Status
  since : Time
  breaches : ℤ
  lastValue : Number F
  lastEval : Time
  lastData : Time
  lastNotified : Time
  deriving DecidableEq

def GroupState.new (now : Time) : GroupState F := ⟨.ok, now, 0, none, 0, 0, 0⟩

structure Observation (F : Type) where
  now : Time
  windowEnd : Time
  present : Bool
  value : Number F
  dataTs : Time
  deriving DecidableEq

structure Config (F : Type) where
  levels : Levels F
  minFailures : ℤ
  noDataTimeframe : Duration
  renotify : Duration
  muted : Bool
  deriving DecidableEq

inductive Notify where
  | none
  | transition
  | renotify
  deriving DecidableEq

structure Result where
  fromStatus : Status
  toStatus : Status
  notify : Notify
  deriving DecidableEq

def Result.changed (r : Result) : Bool := r.fromStatus ≠ r.toStatus

def noData (prev : GroupState F) (obs : Observation F) (cfg : Config F) : Status :=
  if cfg.noDataTimeframe.ns ≤ 0 ∨ prev.lastData = 0 then prev.status
  else if cfg.noDataTimeframe.ns ≤ (Time.sub obs.windowEnd prev.lastData).ns then .noData
  else prev.status

def resumed (status : Status) : Status := if status = .noData then .ok else status

def counted (prev : GroupState F) (v : Number F) (cfg : Config F) : ℤ :=
  if cfg.levels.breach v cfg.levels.critical then prev.breaches + 1 else 0

def evaluate (prev : GroupState F) (v : Number F) (cfg : Config F) : Status × ℤ :=
  let lv := cfg.levels
  let start := resumed prev.status
  let crit := lv.breach v lv.critical
  let breaches := counted prev v cfg
  let minFail := max cfg.minFailures 1
  if crit ∧ minFail ≤ breaches then (.alert, breaches)
  else if start = .alert ∧ lv.breach v lv.criticalRecovery then (.alert, breaches)
  else if lv.hasWarning ∧ lv.breach v lv.warning then (.warn, breaches)
  else if lv.hasWarning ∧ (start = .warn ∨ start = .alert) ∧ lv.breach v lv.warningRecovery then
    (.warn, breaches)
  else (.ok, breaches)

def advanced (prev : GroupState F) (obs : Observation F) (cfg : Config F) : GroupState F :=
  if obs.present then
    let (status, breaches) := evaluate prev obs.value cfg
    { prev with
      lastEval := obs.now
      lastValue := obs.value
      lastData := if prev.lastData < obs.dataTs then obs.dataTs else prev.lastData
      status := status
      breaches := breaches }
  else
    let status := noData prev obs cfg
    { prev with
      lastEval := obs.now
      status := status
      breaches := if status = .noData then 0 else prev.breaches }

def notifyOf (prev next : GroupState F) (obs : Observation F) (cfg : Config F) : Notify :=
  if cfg.muted then .none
  else if prev.status ≠ next.status then .transition
  else if 0 < cfg.renotify.ns ∧ (next.status = .alert ∨ next.status = .noData) ∧
      cfg.renotify.ns ≤ (Time.sub obs.now prev.lastNotified).ns then .renotify
  else .none

def step (prev : GroupState F) (obs : Observation F) (cfg : Config F) : GroupState F × Result :=
  let next := advanced prev obs cfg
  let res : Result := ⟨prev.status, next.status, notifyOf prev next obs cfg⟩
  ({ next with
      since := if res.changed then obs.now else next.since
      lastNotified := if res.notify ≠ .none then obs.now else next.lastNotified }, res)

theorem resumed_alert {status : Status} : resumed status = .alert ↔ status = .alert := by
  cases status <;> decide

theorem resumed_warn {status : Status} : resumed status = .warn ↔ status = .warn := by
  cases status <;> decide

theorem evaluate_breaches (prev : GroupState F) (v : Number F) (cfg : Config F) :
    (evaluate prev v cfg).2 = counted prev v cfg := by
  unfold evaluate
  dsimp only
  split_ifs <;> rfl

theorem evaluate_alert {prev : GroupState F} {cfg : Config F} : (evaluate prev v cfg).1 = .alert ↔
      (cfg.levels.breach v cfg.levels.critical = true ∧
        max cfg.minFailures 1 ≤ counted prev v cfg) ∨
        (prev.status = .alert ∧ cfg.levels.breach v cfg.levels.criticalRecovery = true) := by
  unfold evaluate
  simp only [resumed_alert]
  split_ifs with hcrit hband hwarn hkept
  · exact ⟨fun _ => .inl hcrit, fun _ => rfl⟩
  · exact ⟨fun _ => .inr hband, fun _ => rfl⟩
  all_goals exact ⟨nofun, fun h => absurd h (not_or.mpr ⟨hcrit, hband⟩)⟩

theorem evaluate_ne_noData (prev : GroupState F) (v : Number F) (cfg : Config F) :
    (evaluate prev v cfg).1 ≠ .noData := by
  unfold evaluate
  dsimp only
  split_ifs <;> exact nofun

theorem evaluate_warn {prev : GroupState F} {cfg : Config F}
    (hne : (evaluate prev v cfg).1 ≠ .alert) :
    (evaluate prev v cfg).1 = .warn ↔ cfg.levels.hasWarning = true ∧
      (cfg.levels.breach v cfg.levels.warning = true ∨
        (prev.status = .warn ∨ prev.status = .alert) ∧
          cfg.levels.breach v cfg.levels.warningRecovery = true) := by
  unfold evaluate at hne ⊢
  simp only [resumed_alert, resumed_warn] at hne ⊢
  split_ifs at hne ⊢ with hcrit hband hwarn hkept
  · exact absurd rfl hne
  · exact absurd rfl hne
  · exact ⟨fun _ => ⟨hwarn.1, .inl hwarn.2⟩, fun _ => rfl⟩
  · exact ⟨fun _ => ⟨hkept.1, .inr hkept.2⟩, fun _ => rfl⟩
  · refine ⟨fun h => (by cases h), fun h => ?_⟩
    rcases h with ⟨hhas, hvalue | hold⟩
    · exact absurd ⟨hhas, hvalue⟩ hwarn
    · exact absurd ⟨hhas, hold⟩ hkept

variable (prev : GroupState F) (obs : Observation F) (cfg : Config F)

theorem status_step : (step prev obs cfg).1.status =
    if obs.present then (evaluate prev obs.value cfg).1 else noData prev obs cfg := by
  show (advanced prev obs cfg).status = _
  unfold advanced
  cases obs.present <;> rfl

theorem breaches_step : (step prev obs cfg).1.breaches =
    if obs.present then (evaluate prev obs.value cfg).2
    else if noData prev obs cfg = .noData then 0 else prev.breaches := by
  show (advanced prev obs cfg).breaches = _
  unfold advanced
  cases obs.present <;> rfl

theorem lastData_step : (step prev obs cfg).1.lastData =
    if obs.present then max prev.lastData obs.dataTs else prev.lastData := by
  show (advanced prev obs cfg).lastData = _
  unfold advanced
  cases obs.present with
  | false => rfl
  | true => exact (max_def_lt _ _).symm

end Numbers

end Ozymandias.MonitorStep
