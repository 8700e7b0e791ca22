import DelayInjection.Classifier
import DelayInjection.Plan.Basic
import DelayInjection.Report.Sink

namespace DelayInjection

inductive Algorithm
  | none
  | randomized
  | learned
deriving DecidableEq

def Algorithm.name : Algorithm → String
  | .none => "none"
  | .randomized => "randomized"
  | .learned => "learned_history"

-- Parameters of the randomized controller. Without a seed, or with seed zero, draws come from
-- the system's entropy.
structure RandomizedParams where
  delayProbability : Float := 1
  maxDelayMs : UInt64 := 100
  randomSeed : Option UInt64 := none

structure LearnedParams where
  delayProbability : Float := 1
  maxDelayMs : UInt64 := 100
  randomSeed : Option UInt64 := none
  decayFactor : Float := 0.1
  dangerousDelayMs : UInt64 := 100
  dangerousDelayProbability : Float := 0.99
  historyWindow : UInt64 := 32
  lastAccessWindow : UInt64 := 5
  localHitcountWindow : Int64 := 5
  globalHitcountWindow : Int64 := 20
  inferSize : Int64 := 5
  inferLimit : Float := 0.5
  nearMissWindowMs : UInt64 := 10000000
  pairDecayThreshold : UInt64 := 10
  detectDangerousPairs : Bool := true
  trapUnknownPoints : Bool := true
  lockApis : List String :=
    ["System.Threading.Monitor.Enter*", "System.Threading.Monitor.Exit*"]
  lastRunPlanFile : Option String := some "racetrap-preplans.log"
  lastRunBugFile : Option String := some "racetrap-allbugs.log"
  plans : List TrapPlan := []

-- Parameters that leave the disk alone.
def LearnedParams.inMemory : LearnedParams := { lastRunPlanFile := none, lastRunBugFile := none }

structure RuntimeConfig where
  algorithm : Algorithm := .none
  raiseOnRace : Bool := false
  logDirectory : Option String := none
  reportFile : Option String := none
  reportFormat : ReportFormat := .text
  logTraps : Bool := false
  randomized : Option RandomizedParams := none
  learned : Option LearnedParams := none
  groups : List Group := []

namespace RuntimeConfig

def ofRandomized (params : RandomizedParams) : RuntimeConfig :=
  { algorithm := .randomized, randomized := some params }

def ofLearned (params : LearnedParams) : RuntimeConfig :=
  { algorithm := .learned, learned := some params }

-- Relative log paths lie below the log directory.
def resolveLogPath (config : RuntimeConfig) (path : String) : String :=
  match config.logDirectory with
  | none => path
  | some directory => Path.joinText directory path

end RuntimeConfig

end DelayInjection
