import Mathlib.Data.List.Nodup
import DelayInjection.Config.Validate
import DelayInjection.Proofs.Decimal.Value

-- Which configurations are admissible, and which constraint the others are refused for: of those
-- that they violate, the first in a fixed order.

namespace DelayInjection

def IsProbability (x : Float) : Prop :=
  ∃ value, Decimal.valueOf? x = some value ∧ 0 ≤ value ∧ value ≤ 1

def IsFactor (x : Float) : Prop := ∃ value, Decimal.valueOf? x = some value ∧ 0 ≤ value

-- What a configuration has to meet, and the error of one that does not.
structure Constraint where
  holds : Prop
  error : ConfigError

namespace Constraint

def probability (field : String) (value : Float) : Constraint :=
  ⟨IsProbability value, .invalidProbability field value⟩

def factor (field : String) (value : Float) : Constraint :=
  ⟨IsFactor value, .invalidFactor field value⟩

def window (field : String) (admissible : Prop) : Constraint :=
  ⟨admissible, .invalidWindow field⟩

def present {α : Type} (name : String) (parameters? : Option α) : Constraint :=
  ⟨parameters?.isSome = true, .missingParameters name⟩

-- The constraints of a plan, of learned parameters, of the selected algorithm, and of the names of
-- groups, in the order in which they are reported.
def forPlan (plan : TrapPlan) : List Constraint :=
  [probability "learned.plan.delay_probability" plan.delayProbability,
    probability "learned.plan.decay_factor" plan.decayFactor]

def forLearned (params : LearnedParams) : List Constraint :=
  [probability "learned.delay_probability" params.delayProbability,
    probability "learned.dangerous_delay_probability" params.dangerousDelayProbability,
    probability "learned.decay_factor" params.decayFactor,
    factor "learned.infer_limit" params.inferLimit,
    window "learned.history_window" (params.historyWindow ≠ 0),
    window "learned.last_access_window" (params.lastAccessWindow ≠ 0),
    window "learned.local_hitcount_window" (0 ≤ params.localHitcountWindow.toInt),
    window "learned.global_hitcount_window" (0 ≤ params.globalHitcountWindow.toInt)] ++
  params.plans.flatMap forPlan

def forAlgorithm (config : RuntimeConfig) : List Constraint :=
  match config.algorithm with
  | .none => []
  | .randomized =>
      present "randomized" config.randomized :: config.randomized.toList.map fun params =>
        probability "randomized.delay_probability" params.delayProbability
  | .learned => present "learned" config.learned :: config.learned.toList.flatMap forLearned

-- No group has the name of an earlier one.
def forNames (earlier : List String) : List String → List Constraint
  | [] => []
  | name :: rest => ⟨name ∉ earlier, .duplicateGroup name⟩ :: forNames (name :: earlier) rest

-- The error of the first constraint that is violated, when those before it hold.
def FirstViolated (constraints : List Constraint) (error : ConfigError) : Prop :=
  ∃ before violated after, constraints = before ++ violated :: after ∧
    (∀ c ∈ before, c.holds) ∧ ¬ violated.holds ∧ violated.error = error

-- A check goes through constraints in their order, up to the first that is violated.
inductive Checks : List Constraint → Except ConfigError Unit → Prop
  | passed : Checks [] (.ok ())
  | kept {c : Constraint} {rest : List Constraint} {result : Except ConfigError Unit}
      (holds : c.holds) (later : Checks rest result) : Checks (c :: rest) result
  | violated {c : Constraint} {rest : List Constraint} (violated : ¬ c.holds) :
      Checks (c :: rest) (.error c.error)

namespace Checks

variable {c : Constraint} {first second : List Constraint} {a b : Except ConfigError Unit}

-- One check after another goes through the constraints of both.
theorem bind (hfirst : Checks first a) (hsecond : Checks second b) :
    Checks (first ++ second) (a >>= fun _ => b) := by
  induction hfirst with
  | passed => exact hsecond
  | kept holds later ih => exact .kept holds ih
  | violated violated => exact .violated violated

theorem cons (hfirst : Checks [c] a) (hsecond : Checks second b) :
    Checks (c :: second) (a >>= fun _ => b) := hfirst.bind hsecond

theorem eq_ok_iff (h : Checks first a) : a = .ok () ↔ ∀ c ∈ first, c.holds := by
  induction h with
  | passed => simp
  | kept holds later ih => rw [ih, List.forall_mem_cons, and_iff_right holds]
  | violated violated => simp [violated]

theorem eq_error_iff (h : Checks first a) (error : ConfigError) :
    a = .error error ↔ FirstViolated first error := by
  induction h with
  | passed =>
      refine ⟨fun he => (by cases he), ?_⟩
      rintro ⟨before, violated, after, he, -⟩
      exact absurd he (by simp)
  | @kept c rest result holds later ih =>
      rw [ih]
      constructor
      · rintro ⟨before, violated, after, rfl, hbefore, hviolated⟩
        exact ⟨c :: before, violated, after, rfl, List.forall_mem_cons.mpr ⟨holds, hbefore⟩,
          hviolated⟩
      · rintro ⟨before, violated, after, he, hbefore, hviolated⟩
        -- the constraint that holds is not the violated one, so it stands before it
        rcases List.cons_eq_append_iff.mp he with ⟨rfl, he⟩ | ⟨before', rfl, rfl⟩
        · obtain ⟨rfl, rfl⟩ := List.cons.inj he
          exact absurd holds hviolated.1
        · exact ⟨before', violated, after, rfl, (List.forall_mem_cons.mp hbefore).2, hviolated⟩
  | @violated c rest violated =>
      constructor
      · intro he
        exact ⟨[], c, rest, rfl, by simp, violated, Except.error.inj he⟩
      · rintro ⟨before, other, after, he, hbefore, -, herror⟩
        rcases List.cons_eq_append_iff.mp he with ⟨rfl, he⟩ | ⟨before', rfl, rfl⟩
        · obtain ⟨rfl, rfl⟩ := List.cons.inj he
          rw [herror]
        · exact absurd (hbefore c List.mem_cons_self) violated

-- What is checked decides the result.
theorem unique (h : Checks first a) (h' : Checks first b) : a = b := by
  induction h with
  | passed => cases h'; rfl
  | kept holds later ih =>
      cases h' with
      | kept _ later' => exact ih later'
      | violated violated => exact absurd holds violated
  | violated violated =>
      cases h' with
      | kept holds _ => exact absurd holds violated
      | violated _ => rfl

end Checks

end Constraint

namespace RuntimeConfig

open Constraint

theorem checks_if {p : Prop} [Decidable p] {c : Constraint} (h : p ↔ c.holds) :
    Checks [c] (if p then .ok () else .error c.error) := by
  split
  · rename_i hp
    exact .kept (h.mp hp) .passed
  · rename_i hp
    exact .violated (fun hc => hp (h.mpr hc))

theorem checks_probability (field : String) (value : Float) :
    Checks [probability field value] (checkProbability field value) :=
  checks_if (c := probability field value) (Decimal.unit_iff value)

theorem checks_factor (field : String) (value : Float) :
    Checks [factor field value] (checkFactor field value) :=
  checks_if (c := factor field value) (Decimal.finite_nonneg_iff value)

theorem checks_window (field : String) {admissible : Bool} {holds : Prop}
    (h : admissible = true ↔ holds) : Checks [window field holds] (checkWindow field admissible) :=
  checks_if (c := window field holds) h

theorem checks_plans (plans : List TrapPlan) :
    Checks (plans.flatMap forPlan) (checkPlans plans) := by
  induction plans with
  | nil => exact .passed
  | cons plan rest ih => exact .cons (checks_probability _ _) (.cons (checks_probability _ _) ih)

theorem checks_learned (params : LearnedParams) :
    Checks (forLearned params) (checkLearned params) := by
  refine .cons (checks_probability _ _) <| .cons (checks_probability _ _) <|
    .cons (checks_probability _ _) <| .cons (checks_factor _ _) <|
    .cons (checks_window _ ?_) <| .cons (checks_window _ ?_) <| .cons (checks_window _ ?_) <|
    .cons (checks_window _ ?_) <| checks_plans _
  · exact bne_iff_ne
  · exact bne_iff_ne
  · exact decide_eq_true_iff
  · exact decide_eq_true_iff

theorem checks_algorithm (config : RuntimeConfig) :
    Checks (forAlgorithm config) config.checkAlgorithm := by
  rw [forAlgorithm, checkAlgorithm]
  cases config.algorithm with
  | none => exact .passed
  | randomized =>
      cases config.randomized with
      | none => exact .violated Bool.false_ne_true
      | some params => exact .kept rfl (checks_probability _ _)
  | learned =>
      cases config.learned with
      | none => exact .violated Bool.false_ne_true
      | some params =>
          have h := checks_learned params
          exact .kept rfl (by simpa using h)

theorem checks_names (earlier : List String) (groups : List Group) :
    Checks (forNames earlier (groups.map (·.name))) (checkNames earlier groups) := by
  induction groups generalizing earlier with
  | nil => exact .passed
  | cons group rest ih =>
      rw [checkNames]
      split
      · rename_i hm
        exact .violated (fun hnew => hnew hm)
      · rename_i hnew
        exact .kept hnew (ih _)

-- Everything that a configuration has to meet, in the order in which it is reported.
def constraints (config : RuntimeConfig) : List Constraint :=
  forAlgorithm config ++ forNames [] (config.groups.map (·.name))

theorem checks_validate (config : RuntimeConfig) : Checks config.constraints config.validate :=
  (checks_algorithm config).bind (checks_names [] config.groups)

end RuntimeConfig

-- Parameters that the learned controller can be built with.
structure LearnedParams.Admissible (params : LearnedParams) : Prop where
  delayProbability : IsProbability params.delayProbability
  dangerousDelayProbability : IsProbability params.dangerousDelayProbability
  decayFactor : IsProbability params.decayFactor
  inferLimit : IsFactor params.inferLimit
  historyWindow : params.historyWindow ≠ 0
  lastAccessWindow : params.lastAccessWindow ≠ 0
  localHitcountWindow : 0 ≤ params.localHitcountWindow.toInt
  globalHitcountWindow : 0 ≤ params.globalHitcountWindow.toInt
  plans : ∀ plan ∈ params.plans,
    IsProbability plan.delayProbability ∧ IsProbability plan.decayFactor

theorem Constraint.forPlan_hold_iff (plan : TrapPlan) :
    (∀ c ∈ forPlan plan, c.holds) ↔
      IsProbability plan.delayProbability ∧ IsProbability plan.decayFactor := by
  simp [forPlan, probability]

theorem LearnedParams.admissible_iff (params : LearnedParams) :
    params.Admissible ↔ ∀ c ∈ Constraint.forLearned params, c.holds := by
  rw [Constraint.forLearned, List.forall_mem_append, List.forall_mem_flatMap]
  simp only [Constraint.forPlan_hold_iff, List.forall_mem_cons, Constraint.probability,
    Constraint.factor, Constraint.window]
  constructor
  · rintro ⟨hdelay, hdangerous, hdecay, hlimit, hhistory, hlast, hlocal, hglobal, hplans⟩
    exact ⟨⟨hdelay, hdangerous, hdecay, hlimit, hhistory, hlast, hlocal, hglobal, by simp⟩, hplans⟩
  · rintro ⟨⟨hdelay, hdangerous, hdecay, hlimit, hhistory, hlast, hlocal, hglobal, -⟩, hplans⟩
    exact ⟨hdelay, hdangerous, hdecay, hlimit, hhistory, hlast, hlocal, hglobal, hplans⟩

namespace RuntimeConfig

open Constraint

-- The selected algorithm has its section, which is admissible.
def AlgorithmAdmissible (config : RuntimeConfig) : Prop :=
  match config.algorithm with
  | .none => True
  | .randomized =>
      ∃ params, config.randomized = some params ∧ IsProbability params.delayProbability
  | .learned => ∃ params, config.learned = some params ∧ params.Admissible

theorem algorithmAdmissible_iff (config : RuntimeConfig) :
    config.AlgorithmAdmissible ↔ ∀ c ∈ forAlgorithm config, c.holds := by
  rw [AlgorithmAdmissible, forAlgorithm]
  cases config.algorithm with
  | none => simp
  | randomized =>
      cases config.randomized with
      | none => simp [present]
      | some params => simp [present, probability]
  | learned =>
      cases config.learned with
      | none => simp [present]
      | some params => simp [present, params.admissible_iff]

theorem forNames_hold_iff (earlier names : List String) :
    (∀ c ∈ forNames earlier names, c.holds) ↔ names.Nodup ∧ ∀ name ∈ names, name ∉ earlier := by
  induction names generalizing earlier with
  | nil => simp [forNames]
  | cons name rest ih =>
      have hlater : (∀ other ∈ rest, other ∉ name :: earlier) ↔
          name ∉ rest ∧ ∀ other ∈ rest, other ∉ earlier := by
        simp only [List.mem_cons, not_or, forall_and, imp_not_comm (b := _ = name), forall_eq]
      rw [forNames, List.forall_mem_cons, ih, List.nodup_cons, List.forall_mem_cons, hlater]
      tauto

def Admissible (config : RuntimeConfig) : Prop :=
  config.AlgorithmAdmissible ∧ (config.groups.map (·.name)).Nodup

theorem admissible_iff (config : RuntimeConfig) :
    config.Admissible ↔ ∀ c ∈ config.constraints, c.holds := by
  rw [Admissible, constraints, List.forall_mem_append, algorithmAdmissible_iff, forNames_hold_iff]
  simp

-- Two configurations that select one algorithm with one section for it, and whose groups have the
-- same names.
structure SelectsAlike (config other : RuntimeConfig) : Prop where
  algorithm : other.algorithm = config.algorithm
  randomized : config.algorithm = .randomized → other.randomized = config.randomized
  learned : config.algorithm = .learned → other.learned = config.learned
  names : other.groups.map (·.name) = config.groups.map (·.name)

theorem SelectsAlike.constraints_eq {config other : RuntimeConfig}
    (h : config.SelectsAlike other) : other.constraints = config.constraints := by
  have halgorithm : forAlgorithm other = forAlgorithm config := by
    rw [forAlgorithm, forAlgorithm, h.algorithm]
    cases hselected : config.algorithm with
    | none => rfl
    | randomized => rw [h.randomized hselected]
    | learned => rw [h.learned hselected]
  rw [constraints, constraints, halgorithm, h.names]

-- A configuration is accepted exactly if it is admissible, and refused with the error of the first
-- constraint that it violates. Doubles that stand for no number are neither probabilities nor
-- factors, and what is not selected makes no difference.
theorem validates_admissible (config : RuntimeConfig) :
    (config.validate = .ok () ↔ config.Admissible) ∧
      (∀ error, config.validate = .error error ↔ FirstViolated config.constraints error) ∧
      (∀ x : Float, x.isFinite = false → ¬ IsProbability x ∧ ¬ IsFactor x) ∧
      ∀ other, config.SelectsAlike other → other.validate = config.validate := by
  have hchecks := config.checks_validate
  refine ⟨?_, hchecks.eq_error_iff, ?_, ?_⟩
  · rw [admissible_iff, hchecks.eq_ok_iff]
  · intro x hx
    have hnone : ¬ ∃ value, Decimal.valueOf? x = some value := fun h => by
      rw [(Decimal.isFinite_iff x).mpr h] at hx
      cases hx
    exact ⟨fun ⟨value, h, _⟩ => hnone ⟨value, h⟩, fun ⟨value, h, _⟩ => hnone ⟨value, h⟩⟩
  · intro other halike
    have hother := other.checks_validate
    rw [halike.constraints_eq] at hother
    exact hother.unique hchecks

-- A configuration with a limit that is no number, a window of zero, a plan that is too likely, and
-- two groups of one name, and one that is as bad but has another section for the randomized
-- algorithm.
namespace Sample

def flawed : RuntimeConfig :=
  { algorithm := .learned
    learned := some
      { inferLimit := 0 / 0, historyWindow := 0
        plans := [{ callee := "List.Add", delayProbability := 2 }] }
    groups := [{ name := "List" }, { name := "List" }] }

def flawedTwice : RuntimeConfig := { flawed with randomized := some { delayProbability := -1 } }

end Sample

-- The first flaw in the order of the checks is reported, and an unused section is not looked at.
theorem validates_admissible_flawed :
    Sample.flawed.validate = .error (.invalidFactor "learned.infer_limit" (0 / 0)) ∧
      FirstViolated Sample.flawed.constraints (.invalidFactor "learned.infer_limit" (0 / 0)) ∧
      ¬ Sample.flawed.Admissible ∧ ¬ IsFactor (0 / 0) ∧
      Sample.flawedTwice.validate = Sample.flawed.validate := by
  obtain ⟨haccepted, hrefused, hfinite, hunselected⟩ := validates_admissible Sample.flawed
  have herror : Sample.flawed.validate =
      .error (.invalidFactor "learned.infer_limit" (0 / 0)) := by rfl
  refine ⟨herror, (hrefused _).mp herror, fun h => ?_, (hfinite _ (by decide +kernel)).2,
    hunselected _ ⟨rfl, fun h => (by cases h), fun _ => rfl, rfl⟩⟩
  rw [haccepted.mpr h] at herror
  cases herror

end RuntimeConfig

end DelayInjection
