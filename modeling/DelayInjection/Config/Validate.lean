import DelayInjection.Config.Basic

namespace DelayInjection

inductive ConfigError
  | io (path : String) (error : FileError)
  | parse (reason : String)
  | missingParameters (algorithm : String)
  | invalidProbability (field : String) (value : Float)
  | invalidWindow (field : String)
  | invalidFactor (field : String) (value : Float)
  | duplicateGroup (name : String)
  | invalidPattern (pattern : String)

namespace ConfigError

-- What is wrong with a pattern that is refused.
def patternReason : String := "Compiled regex exceeds size limit of 10485760 bytes."

def message : ConfigError → String
  | .io path error => "Failed to read configuration " ++ path ++ ": " ++ error.message
  | .parse reason => "Failed to parse configuration: " ++ reason
  | .missingParameters algorithm =>
      "Algorithm '" ++ algorithm ++ "' selected but its [" ++ algorithm ++
        "] parameters are missing"
  | .invalidProbability field value =>
      "Invalid probability for " ++ field ++ ": " ++ Decimal.message value ++
        " (expected 0.0-1.0)"
  | .invalidWindow field => "Invalid window for " ++ field ++ ": must be greater than zero"
  | .invalidFactor field value =>
      "Invalid value for " ++ field ++ ": " ++ Decimal.message value ++
        " (expected a finite non-negative number)"
  | .duplicateGroup name => "Duplicate thread-safety group '" ++ name ++ "'"
  | .invalidPattern pattern => "Invalid API pattern '" ++ pattern ++ "': " ++ patternReason

-- The text of the error below this one, for errors that only pass it on.
def cause? : ConfigError → Option String
  | .io _ error => some error.message
  | .parse reason => some reason
  | .invalidPattern _ => some patternReason
  | _ => none

end ConfigError

namespace RuntimeConfig

def checkProbability (field : String) (value : Float) : Except ConfigError Unit :=
  if 0 ≤ value ∧ value ≤ 1 then .ok () else .error (.invalidProbability field value)

def checkFactor (field : String) (value : Float) : Except ConfigError Unit :=
  if value.isFinite ∧ 0 ≤ value then .ok () else .error (.invalidFactor field value)

def checkWindow (field : String) (admissible : Bool) : Except ConfigError Unit :=
  if admissible then .ok () else .error (.invalidWindow field)

def checkPlans : List TrapPlan → Except ConfigError Unit
  | [] => .ok ()
  | plan :: rest => do
      checkProbability "learned.plan.delay_probability" plan.delayProbability
      checkProbability "learned.plan.decay_factor" plan.decayFactor
      checkPlans rest

def checkLearned (params : LearnedParams) : Except ConfigError Unit := do
  checkProbability "learned.delay_probability" params.delayProbability
  checkProbability "learned.dangerous_delay_probability" params.dangerousDelayProbability
  checkProbability "learned.decay_factor" params.decayFactor
  checkFactor "learned.infer_limit" params.inferLimit
  checkWindow "learned.history_window" (params.historyWindow != 0)
  checkWindow "learned.last_access_window" (params.lastAccessWindow != 0)
  checkWindow "learned.local_hitcount_window" (0 ≤ params.localHitcountWindow.toInt)
  checkWindow "learned.global_hitcount_window" (0 ≤ params.globalHitcountWindow.toInt)
  checkPlans params.plans

def checkAlgorithm (config : RuntimeConfig) : Except ConfigError Unit :=
  match config.algorithm with
  | .none => .ok ()
  | .randomized =>
      match config.randomized with
      | none => .error (.missingParameters "randomized")
      | some params => checkProbability "randomized.delay_probability" params.delayProbability
  | .learned =>
      match config.learned with
      | none => .error (.missingParameters "learned")
      | some params => checkLearned params

def checkNames (seen : List String) : List Group → Except ConfigError Unit
  | [] => .ok ()
  | group :: rest =>
      if group.name ∈ seen then .error (.duplicateGroup group.name)
      else checkNames (group.name :: seen) rest

-- The parameters of the selected algorithm are checked before the names of the groups.
def validate (config : RuntimeConfig) : Except ConfigError Unit := do
  config.checkAlgorithm
  checkNames [] config.groups

end RuntimeConfig

end DelayInjection
