import DelayInjection.Config.Validate
import DelayInjection.Control.Session

-- The detector of a process: built from a configuration and what earlier runs left behind, it
-- numbers the intercepted calls and hands them to its controller.

namespace DelayInjection

-- What a detector takes from the process around it. Draws without a seed come from entropy.
structure Host where
  process : ProcessInfo
  entropy : RandomSource
  limit : RegexLimit

-- The session of an enabled detector, and the calls it has seen.
structure Detector where
  session? : Option Session := none
  calls : Int64 := 0

namespace Detector

def seeded (seed : Option UInt64) (entropy : RandomSource) : RandomSource :=
  match seed with
  | some seed => if seed = 0 then entropy else .ofSeed seed
  | none => entropy

def patternError {α : Type} : Except String α → Except ConfigError α :=
  Except.mapError .invalidPattern

def compileGroups (limit : RegexLimit) (groups : List Group) : Except ConfigError Classifier :=
  (Classifier.compile limit groups).mapError fun
    | .duplicateGroup name => .duplicateGroup name
    | .invalidPattern pattern => .invalidPattern pattern

-- Adds plans to a store; the error is the first refused pattern.
def addPlans (limit : RegexLimit) (store : PlanStore) (plans : List TrapPlan) :
    Except ConfigError PlanStore :=
  match store.extend limit plans with
  | (none, store) => .ok store
  | (some pattern, _) => .error (.invalidPattern pattern)

def newRandomized (config : RuntimeConfig) (classifier : Classifier) (entropy : RandomSource)
    (blacklist : List LocationPair) : Controller :=
  let params := config.randomized.getD {}
  .randomized
    { shared := { classifier, ledger := .ofBlacklist blacklist, raiseOnRace := config.raiseOnRace }
      delayProbability := params.delayProbability
      maxDelayMs := params.maxDelayMs.toNat
      random := seeded params.randomSeed entropy }

def newLearned (config : RuntimeConfig) (classifier : Classifier) (entropy : RandomSource)
    (plans : PlanStore) (blacklist : List LocationPair) (lockApis : PatternSet) : Controller :=
  let params := config.learned.getD {}
  .learned
    { shared := { classifier, ledger := .ofBlacklist blacklist, raiseOnRace := config.raiseOnRace }
      params
      plans
      lockApis
      random := seeded params.randomSeed entropy
      recent := .ofCapacity params.historyWindow.toNat
      accesses := .ofWindow params.lastAccessWindow.toNat }

def infoLine (message : String) (fields : List (String × String)) : LogLine :=
  { level := .info, message, fields }

-- Opens the report file that a configuration asks for. Detection goes on without it.
def openReport (config : RuntimeConfig) (process : ProcessInfo) (files : LoggedDisk) :
    List Sink × LoggedDisk :=
  match config.reportFile with
  | none => ([], files)
  | some report =>
      let path := config.resolveLogPath report
      let file : ReportFile :=
        { path := ReportFile.pathFor path process.executionId
          format := config.reportFormat
          logTraps := config.logTraps }
      match file.create process files.disk with
      | (none, disk) =>
          ([.file file],
            { files with disk := disk }.write
              (infoLine ("Writing race reports to " ++ file.path) []))
      | (some e, disk) =>
          ([], { files with disk := disk }.warn
            ("Failed to open report file " ++ path ++ ": " ++ e.message))

-- A learned controller with what the previous runs left. The plan file has been read and deleted
-- even when the plans in it are refused.
def startLearned (config : RuntimeConfig) (classifier : Classifier) (host : Host)
    (sinks : List Sink) (files : LoggedDisk) : Except ConfigError Session × LoggedDisk :=
  let params := config.learned.getD {}
  let planPath := params.lastRunPlanFile.map config.resolveLogPath
  let bugPath := params.lastRunBugFile.map config.resolveLogPath
  match addPlans host.limit {} params.plans with
  | .error e => (.error e, files)
  | .ok plans =>
      let (replayed, files) := match planPath with
        | some path => PlanFile.load files path params.dangerousDelayMs
        | none => ([], files)
      match addPlans host.limit plans replayed with
      | .error e => (.error e, files)
      | .ok plans =>
          let (blacklist, files) := match bugPath with
            | some path => BugFile.load files path
            | none => ([], files)
          let files := files.write <| infoLine "learned controller ready"
            [("plans", Text.ofNat plans.size), ("blacklisted", Text.ofNat blacklist.length)]
          match PatternSet.compile host.limit params.lockApis with
          | .error pattern => (.error (.invalidPattern pattern), files)
          | .ok lockApis =>
              (.ok
                { run := { controller :=
                    newLearned config classifier host.entropy plans blacklist lockApis }
                  recorder := { planLog := { path := planPath }, bugFile := bugPath, sinks } },
                files)

-- Builds a detector. The configuration may log traps and races, and extra sinks come last.
def build (config : RuntimeConfig) (logEvents : Bool) (extra : List Sink) (host : Host)
    (files : LoggedDisk) : Except ConfigError Detector × LoggedDisk :=
  match config.validate with
  | .error e => (.error e, files)
  | .ok () =>
      if config.algorithm = .none then
        (.ok {}, files.write (infoLine "racetrap detection disabled" []))
      else
        match compileGroups host.limit config.groups with
        | .error e => (.error e, files)
        | .ok classifier =>
            let (reports, files) := openReport config host.process files
            let sinks := (if logEvents then [.log] else []) ++ reports ++ extra
            let (session, files) :=
              if config.algorithm = .randomized then
                (.ok { run := { controller := newRandomized config classifier host.entropy [] }
                       recorder := { sinks } }, files)
              else startLearned config classifier host sinks files
            match session with
            | .error e => (.error e, files)
            | .ok session =>
                (.ok { session? := some session },
                  files.write (infoLine "racetrap detector started"
                    [("algorithm", config.algorithm.name)]))

-- Builds a detector, or disables detection when the configuration is not usable.
def ofConfig (config : RuntimeConfig) (host : Host) (files : LoggedDisk) :
    Detector × LoggedDisk :=
  match build config true [] host files with
  | (.ok detector, files) => (detector, files)
  | (.error e, files) =>
      ({}, files.write
        { level := .error
          message := "Invalid racetrap configuration, detection disabled: " ++ e.message })

-- A controller for a checked configuration that leaves the disk alone: its plans and blacklist
-- are the given ones besides the configured plans.
def standalone (limit : RegexLimit) (config : RuntimeConfig) (lines : List PlanLine)
    (blacklist : List LocationPair) (entropy : RandomSource) : Except ConfigError Controller := do
  config.validate
  let classifier ← compileGroups limit config.groups
  if config.algorithm = .randomized then
    return newRandomized config classifier entropy blacklist
  else
    let params := config.learned.getD {}
    let plans ← addPlans limit {} params.plans
    let plans ← addPlans limit plans (plansFromPairs lines params.dangerousDelayMs)
    let lockApis ← patternError (PatternSet.compile limit params.lockApis)
    return newLearned config classifier entropy plans blacklist lockApis

def isEnabled (detector : Detector) : Bool := detector.session?.isSome

def algorithm (detector : Detector) : Algorithm :=
  match detector.session? with
  | none => .none
  | some session => session.run.controller.algorithm

-- What the entry point makes of a call: nothing when detection is disabled or the thread is
-- parked. A call that is made gets the number of the calls before it.
def call (detector : Detector) (call : Call) (files : LoggedDisk) :
    Option (Arrival × Detector × LoggedDisk) :=
  match detector.session? with
  | none => some ({ outcome := .returned (.ok ()) }, detector, files)
  | some session =>
      match session.call { call with globalHits := detector.calls } files with
      | none => none
      | some (arrival, session, files) =>
          some (arrival, { session? := some session, calls := detector.calls + 1 }, files)

def withSession {α : Type} (detector : Detector) (otherwise : α) (change : Session → α × Session) :
    α × Detector :=
  match detector.session? with
  | none => (otherwise, detector)
  | some session =>
      let (answer, session) := change session
      (answer, { detector with session? := some session })

def wake (detector : Detector) (thread : ThreadId) : Option CallResult × Detector :=
  detector.withSession none fun session =>
    match session.wake thread with
    | some (result, session) => (some result, session)
    | none => (none, session)

def wakeReleased (detector : Detector) : List (ThreadId × CallResult) × Detector :=
  detector.withSession [] Session.wakeReleased

def wakeParked (detector : Detector) : List (ThreadId × CallResult) × Detector :=
  detector.withSession [] Session.wakeParked

def forget (detector : Detector) (address : Address) (files : LoggedDisk) :
    Option ObjectId × Detector × LoggedDisk :=
  let ((id?, files), detector) := detector.withSession (none, files) fun session =>
    let (id?, session, files) := session.forget address files
    ((id?, files), session)
  (id?, detector, files)

def shutdown (detector : Detector) (files : LoggedDisk) : Detector × LoggedDisk :=
  let (files, detector) := detector.withSession files fun session =>
    let (session, files) := session.shutdown files
    (files, session)
  (detector, files)

def shared? (detector : Detector) : Option Shared :=
  detector.session?.map (·.run.controller.shared)

def dangerousPairs (detector : Detector) : List LocationPair :=
  (detector.session?.map (·.run.controller.dangerousPairs)).getD []

def reportedRaces (detector : Detector) : List LocationPair :=
  (detector.shared?.map (·.ledger.reported)).getD []

def outstandingTraps (detector : Detector) : Nat :=
  (detector.shared?.map (·.traps.outstanding)).getD 0

def peakActiveTraps (detector : Detector) : Nat :=
  (detector.shared?.map (·.active.peak)).getD 0

end Detector

end DelayInjection
