import DelayInjection.CommandLine.Arguments
import DelayInjection.Config.Read
import DelayInjection.Persist.PlanFile
import DelayInjection.Plan.Store

-- What the inspection command prints: the summary of a configuration, the merged plans of a plan
-- file, or the races of a bug file.

namespace DelayInjection.CommandLine

structure Output where
  exit : Nat := 0
  stdout : String := ""
  stderr : String := ""
deriving DecidableEq

-- An error with what led to it, nearest first.
structure Failure where
  message : String
  causes : List String := []

-- Lines of a cause after its first are indented like the first one.
def indentLines (margin cause : String) : String :=
  String.ofList <| cause.toList.flatMap fun c => if c = '\n' then '\n' :: margin.toList else [c]

-- A single cause stands alone, several are numbered.
def causesText : List String → String
  | [] => ""
  | [cause] => "\n\nCaused by:\n    " ++ indentLines "    " cause
  | causes =>
      "\n\nCaused by:" ++
        String.join (causes.mapIdx fun index cause =>
          "\n    " ++ Text.ofNat index ++ ": " ++ indentLines "       " cause)

def Failure.output (failure : Failure) : Output where
  exit := 1
  stderr := "Error: " ++ failure.message ++ causesText failure.causes ++ "\n"

def UsageError.output (error : UsageError) : Output where
  exit := 2
  stderr := "error: " ++ error.message ++ "\n"

def version : String := "racetrap 0.3.1\n"

def usage : String :=
  "Inspect racetrap configurations, plan files and bug files\n\n" ++
    "Usage: racetrap [OPTIONS] <COMMAND>\n\n" ++
    "Commands:\n" ++
    "  check <CONFIG>                  Validate a runtime configuration and summarize it\n" ++
    "  plans <FILE> [--delay-ms <MS>]  Print the merged plans a plan file would produce\n" ++
    "  bugs <FILE>                     Print the confirmed races in a bug file\n\n" ++
    "Options:\n" ++
    "  --format <text|json>  Output format\n" ++
    "  --debug               Enable debug tracing output to stderr\n"

def boolText (value : Bool) : String := if value then "true" else "false"

def configuredPlans (config : RuntimeConfig) : Nat :=
  match config.algorithm, config.learned with
  | .learned, some params => params.plans.length
  | _, _ => 0

def checkJson (config : RuntimeConfig) : Datum :=
  .table
    [("valid", .bool true), ("algorithm", .text config.algorithm.name),
      ("raise_on_race", .bool config.raiseOnRace),
      ("groups", .list (config.groups.map fun group =>
        .table
          [("name", .text group.name), ("is_static", .bool group.isStatic),
            ("write_apis", .integer group.writeApis.length),
            ("read_apis", .integer group.readApis.length)])),
      ("configured_plans", .integer (configuredPlans config))]

def groupLine (group : Group) : String :=
  "  " ++ group.name ++ " (" ++ (if group.isStatic then "static" else "instance") ++ "): " ++
    Text.ofNat group.writeApis.length ++ " write, " ++ Text.ofNat group.readApis.length ++ " read\n"

def checkText (path : String) (config : RuntimeConfig) : String :=
  "Configuration OK: " ++ path ++ "\n" ++
    "Algorithm: " ++ config.algorithm.name ++ "\n" ++
    "Raise on race: " ++ boolText config.raiseOnRace ++ "\n" ++
    "Groups: " ++ Text.ofNat config.groups.length ++ "\n" ++
    String.join (config.groups.map groupLine) ++
    if config.algorithm = .learned then
      "Configured plans: " ++ Text.ofNat (configuredPlans config) ++ "\n"
    else ""

def check (format : OutputFormat) (path : String) (content : Except FileError String) :
    Except Failure String :=
  match RuntimeConfig.ofTomlFile path content with
  | .error e =>
      .error { message := "Invalid configuration: " ++ path
               causes := e.message :: e.cause?.toList }
  | .ok config =>
      .ok (match format with
        | .json => Json.pretty (checkJson config) ++ "\n"
        | .text => checkText path config)

def hitsText (record : HitCount) : String :=
  "local=" ++ Text.ofInt record.localHits.toInt ++ " global=" ++
    Text.ofInt record.globalHits.toInt

def planLine (plan : TrapPlan) : String :=
  "  " ++ plan.callee ++ "|" ++ plan.caller.getD "*" ++ "|" ++ Text.ofInt plan.offset.toInt ++
    "  repeat=" ++ boolText plan.repeats ++
    "  delay=" ++ Text.ofNat (plan.fixedDelayMs.getD 0).toNat ++ "ms  hits=[" ++
    String.intercalate ", " (plan.hitCounts.map hitsText) ++ "]\n"

-- The plans as the next run would merge them.
def mergedPlans (limit : RegexLimit) (path : String) (delayMs : UInt64)
    (content : Except FileError String) : Except Failure (List TrapPlan) :=
  match PlanFile.parseStrict content delayMs with
  | .error e =>
      .error { message := "Failed to read plan file: " ++ path
               causes := e.message :: e.cause?.toList }
  | .ok plans =>
      match PlanStore.extend limit {} plans with
      | (none, store) => .ok store.plans
      | (some pattern, _) =>
          let e := ConfigError.invalidPattern pattern
          .error { message := e.message, causes := e.cause?.toList }

def plans (limit : RegexLimit) (format : OutputFormat) (path : String) (delayMs : UInt64)
    (content : Except FileError String) : Except Failure String :=
  (mergedPlans limit path delayMs content).map fun merged =>
    match format with
    | .json => Json.pretty (.list (merged.map TrapPlan.toDatum)) ++ "\n"
    | .text =>
        "Plans: " ++ Text.ofNat merged.length ++ "\n" ++ String.join (merged.map planLine)

def bugs (format : OutputFormat) (path : String) (content : Except FileError String) :
    Except Failure String :=
  match BugFile.parseStrict content with
  | .error e =>
      .error { message := "Failed to read bug file: " ++ path
               causes := e.message :: e.cause?.toList }
  | .ok pairs =>
      .ok (match format with
        | .json =>
            Json.pretty (.list (pairs.map fun pair =>
              .table [("first", .text pair.first), ("second", .text pair.second)])) ++ "\n"
        | .text =>
            "Confirmed races: " ++ Text.ofNat pairs.length ++ "\n" ++
              String.join (pairs.map fun pair =>
                "  " ++ pair.first ++ " <-> " ++ pair.second ++ "\n"))

-- The file that a command reads.
def Command.path : Command → String
  | .check config => config
  | .plans file _ => file
  | .bugs file => file

def Invocation.run (limit : RegexLimit) (invocation : Invocation)
    (content : Except FileError String) : Output :=
  let result := match invocation.command with
    | .check path => check invocation.format path content
    | .plans path delayMs => plans limit invocation.format path delayMs content
    | .bugs path => bugs invocation.format path content
  match result with
  | .ok stdout => { stdout }
  | .error failure => failure.output

-- Answers arguments, with the files at hand.
def answer (limit : RegexLimit) (arguments : List String)
    (read : String → Except FileError String) : Output :=
  match parse arguments with
  | .error e => e.output
  | .ok .version => { stdout := version }
  | .ok .help => { stdout := usage }
  | .ok (.run invocation) => invocation.run limit (read invocation.command.path)

end DelayInjection.CommandLine
