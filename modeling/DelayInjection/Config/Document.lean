import DelayInjection.Datum
import DelayInjection.Config.Validate

-- Configurations and plans as documents. Absent fields have their defaults, and optional fields
-- are written only when they hold something.

namespace DelayInjection

def natDatum (n : UInt64) : Datum := .integer n.toNat

def intDatum (n : Int64) : Datum := .integer n.toInt

namespace Decode

def word : Decoder UInt64 := integerIn "a natural number below 2^64" Text.word64?

def integer : Decoder Int64 := integerIn "a 64-bit integer" Text.int64?

end Decode

namespace HitCount

def toDatum (record : HitCount) : Datum :=
  .table [("local", intDatum record.localHits), ("global", intDatum record.globalHits)]

def decode (dialect : Dialect) (datum : Datum) : Except DecodeError HitCount := do
  let fields ← Decode.fields dialect 2 datum
  let localHits ← fields.get 0 "local" Decode.integer (-1)
  let globalHits ← fields.get 1 "global" Decode.integer (-1)
  return { localHits, globalHits }

end HitCount

namespace Group

def toDatum (group : Group) : Datum :=
  .table
    [("name", .text group.name), ("is_static", .bool group.isStatic),
      ("write_apis", .ofTexts group.writeApis), ("read_apis", .ofTexts group.readApis)]

def decode (dialect : Dialect) (datum : Datum) : Except DecodeError Group := do
  let fields ← Decode.fields dialect 4 datum
  let name ← fields.required 0 "name" Decode.text
  let isStatic ← fields.get 1 "is_static" Decode.boolean false
  let writeApis ← fields.get 2 "write_apis" (Decode.listOf Decode.text) []
  let readApis ← fields.get 3 "read_apis" (Decode.listOf Decode.text) []
  return { name, isStatic, writeApis, readApis }

end Group

namespace TrapPlan

def toDatum (plan : TrapPlan) : Datum :=
  .table <|
    [("callee", .text plan.callee)] ++ Datum.optional "caller" .text plan.caller ++
      [("offset", .integer plan.offset.toInt)] ++
      Datum.optional "thread_id" natDatum plan.thread ++
      (if plan.hitCounts.isEmpty then []
        else [("hit_counts", .list (plan.hitCounts.map HitCount.toDatum))]) ++
      [("delay_probability", .float plan.delayProbability),
        ("decay_factor", .float plan.decayFactor)] ++
      Datum.optional "fixed_delay_ms" natDatum plan.fixedDelayMs ++
      Datum.optional "random_delay_ms" natDatum plan.randomDelayMs ++
      [("repeat", .bool plan.repeats)]

def decode (dialect : Dialect) (datum : Datum) : Except DecodeError TrapPlan := do
  let fields ← Decode.fields dialect 10 datum
  let callee ← fields.required 0 "callee" Decode.text
  let caller ← fields.get 1 "caller" (Decode.optional Decode.text) none
  let offset ← fields.get 2 "offset" (Decode.integerIn "a 32-bit integer" Text.int32?) (-1)
  let thread ← fields.get 3 "thread_id" (Decode.optional Decode.word) none
  let hitCounts ← fields.get 4 "hit_counts" (Decode.listOf (HitCount.decode dialect)) []
  let delayProbability ← fields.get 5 "delay_probability" Decode.float 1
  let decayFactor ← fields.get 6 "decay_factor" Decode.float 0
  let fixedDelayMs ← fields.get 7 "fixed_delay_ms" (Decode.optional Decode.word) none
  let randomDelayMs ← fields.get 8 "random_delay_ms" (Decode.optional Decode.word) none
  let repeats ← fields.get 9 "repeat" Decode.boolean false
  return { callee, caller, offset, thread, hitCounts, delayProbability, decayFactor,
           fixedDelayMs, randomDelayMs, repeats }

end TrapPlan

namespace RandomizedParams

def toDatum (params : RandomizedParams) : Datum :=
  .table <|
    [("delay_probability", .float params.delayProbability),
      ("max_delay_ms", natDatum params.maxDelayMs)] ++
      Datum.optional "random_seed" natDatum params.randomSeed

def decode (dialect : Dialect) (datum : Datum) : Except DecodeError RandomizedParams := do
  let standard : RandomizedParams := {}
  let fields ← Decode.fields dialect 3 datum
  let delayProbability ← fields.get 0 "delay_probability" Decode.float standard.delayProbability
  let maxDelayMs ← fields.get 1 "max_delay_ms" Decode.word standard.maxDelayMs
  let randomSeed ← fields.get 2 "random_seed" (Decode.optional Decode.word) standard.randomSeed
  return { delayProbability, maxDelayMs, randomSeed }

end RandomizedParams

namespace LearnedParams

def toDatum (params : LearnedParams) : Datum :=
  .table <|
    [("delay_probability", .float params.delayProbability),
      ("max_delay_ms", natDatum params.maxDelayMs)] ++
      Datum.optional "random_seed" natDatum params.randomSeed ++
      [("decay_factor", .float params.decayFactor),
        ("dangerous_delay_ms", natDatum params.dangerousDelayMs),
        ("dangerous_delay_probability", .float params.dangerousDelayProbability),
        ("history_window", natDatum params.historyWindow),
        ("last_access_window", natDatum params.lastAccessWindow),
        ("local_hitcount_window", intDatum params.localHitcountWindow),
        ("global_hitcount_window", intDatum params.globalHitcountWindow),
        ("infer_size", intDatum params.inferSize),
        ("infer_limit", .float params.inferLimit),
        ("near_miss_window_ms", natDatum params.nearMissWindowMs),
        ("pair_decay_threshold", natDatum params.pairDecayThreshold),
        ("detect_dangerous_pairs", .bool params.detectDangerousPairs),
        ("trap_unknown_points", .bool params.trapUnknownPoints),
        ("lock_apis", .ofTexts params.lockApis)] ++
      Datum.optional "last_run_plan_file" .text params.lastRunPlanFile ++
      Datum.optional "last_run_bug_file" .text params.lastRunBugFile ++
      if params.plans.isEmpty then [] else [("plan", .list (params.plans.map TrapPlan.toDatum))]

def decode (dialect : Dialect) (datum : Datum) : Except DecodeError LearnedParams := do
  let standard : LearnedParams := {}
  let fields ← Decode.fields dialect 20 datum
  let delayProbability ← fields.get 0 "delay_probability" Decode.float standard.delayProbability
  let maxDelayMs ← fields.get 1 "max_delay_ms" Decode.word standard.maxDelayMs
  let randomSeed ← fields.get 2 "random_seed" (Decode.optional Decode.word) standard.randomSeed
  let decayFactor ← fields.get 3 "decay_factor" Decode.float standard.decayFactor
  let dangerousDelayMs ← fields.get 4 "dangerous_delay_ms" Decode.word standard.dangerousDelayMs
  let dangerousDelayProbability ←
    fields.get 5 "dangerous_delay_probability" Decode.float standard.dangerousDelayProbability
  let historyWindow ← fields.get 6 "history_window" Decode.word standard.historyWindow
  let lastAccessWindow ← fields.get 7 "last_access_window" Decode.word standard.lastAccessWindow
  let localHitcountWindow ←
    fields.get 8 "local_hitcount_window" Decode.integer standard.localHitcountWindow
  let globalHitcountWindow ←
    fields.get 9 "global_hitcount_window" Decode.integer standard.globalHitcountWindow
  let inferSize ← fields.get 10 "infer_size" Decode.integer standard.inferSize
  let inferLimit ← fields.get 11 "infer_limit" Decode.float standard.inferLimit
  let nearMissWindowMs ←
    fields.get 12 "near_miss_window_ms" Decode.word standard.nearMissWindowMs
  let pairDecayThreshold ←
    fields.get 13 "pair_decay_threshold" Decode.word standard.pairDecayThreshold
  let detectDangerousPairs ←
    fields.get 14 "detect_dangerous_pairs" Decode.boolean standard.detectDangerousPairs
  let trapUnknownPoints ←
    fields.get 15 "trap_unknown_points" Decode.boolean standard.trapUnknownPoints
  let lockApis ← fields.get 16 "lock_apis" (Decode.listOf Decode.text) standard.lockApis
  let lastRunPlanFile ←
    fields.get 17 "last_run_plan_file" (Decode.optional Decode.text) standard.lastRunPlanFile
  let lastRunBugFile ←
    fields.get 18 "last_run_bug_file" (Decode.optional Decode.text) standard.lastRunBugFile
  let plans ← fields.get 19 "plan" (Decode.listOf (TrapPlan.decode dialect)) standard.plans
  return { delayProbability, maxDelayMs, randomSeed, decayFactor, dangerousDelayMs,
           dangerousDelayProbability, historyWindow, lastAccessWindow, localHitcountWindow,
           globalHitcountWindow, inferSize, inferLimit, nearMissWindowMs, pairDecayThreshold,
           detectDangerousPairs, trapUnknownPoints, lockApis, lastRunPlanFile, lastRunBugFile,
           plans }

end LearnedParams

-- The names that a configuration may give an algorithm; the first of each is the written one.
def Algorithm.names : List (String × Algorithm) :=
  [("none", .none), ("randomized", .randomized), ("learned_history", .learned),
    ("learnedHistory", .learned), ("learned", .learned)]

def ReportFormat.names : List (String × ReportFormat) := [("text", .text), ("json", .json)]

def ReportFormat.name : ReportFormat → String
  | .text => "text"
  | .json => "json"

namespace RuntimeConfig

def toDatum (config : RuntimeConfig) : Datum :=
  .table <|
    [("algorithm", .text config.algorithm.name), ("raise_on_race", .bool config.raiseOnRace)] ++
      Datum.optional "log_directory" .text config.logDirectory ++
      Datum.optional "report_file" .text config.reportFile ++
      [("report_format", .text config.reportFormat.name), ("log_traps", .bool config.logTraps)] ++
      Datum.optional "randomized" RandomizedParams.toDatum config.randomized ++
      Datum.optional "learned" LearnedParams.toDatum config.learned ++
      [("group", .list (config.groups.map Group.toDatum))]

def decode (dialect : Dialect) (datum : Datum) : Except DecodeError RuntimeConfig := do
  let fields ← Decode.fields dialect 9 datum
  let algorithm ← fields.get 0 "algorithm" (Decode.choice dialect Algorithm.names) .none
  let raiseOnRace ← fields.get 1 "raise_on_race" Decode.boolean false
  let logDirectory ← fields.get 2 "log_directory" (Decode.optional Decode.text) none
  let reportFile ← fields.get 3 "report_file" (Decode.optional Decode.text) none
  let reportFormat ← fields.get 4 "report_format" (Decode.choice dialect ReportFormat.names) .text
  let logTraps ← fields.get 5 "log_traps" Decode.boolean false
  let randomized ←
    fields.get 6 "randomized" (Decode.optional (RandomizedParams.decode dialect)) none
  let learned ← fields.get 7 "learned" (Decode.optional (LearnedParams.decode dialect)) none
  let groups ← fields.get 8 "group" (Decode.listOf (Group.decode dialect)) []
  return { algorithm, raiseOnRace, logDirectory, reportFile, reportFormat, logTraps, randomized,
           learned, groups }

end RuntimeConfig

end DelayInjection
