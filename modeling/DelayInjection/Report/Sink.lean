import DelayInjection.Log
import DelayInjection.Report.Written

-- Where traps and races are reported: the log, a report file, or a list in memory.

namespace DelayInjection

inductive ReportFormat
  | text
  | json
deriving DecidableEq

structure ProcessInfo where
  name : String
  pid : Nat
  executionId : String

structure ReportFile where
  path : String
  format : ReportFormat
  logTraps : Bool

namespace ReportFile

-- Puts the execution id before the extension of the file name.
def pathFor (path executionId : String) : String :=
  let path := path.toList
  let name := Path.stem path ++ '-' :: executionId.toList ++
    match Path.extension? path with
    | some extension => '.' :: extension
    | none => []
  String.ofList (Path.withFileName path name)

def header (format : ReportFormat) (process : ProcessInfo) : String :=
  match format with
  | .text =>
      "Process: " ++ process.name ++ " (pid " ++ Text.ofNat process.pid ++ ")\n" ++
        Report.line "Execution" process.executionId ++ "\n"
  | .json =>
      Report.event "process"
        [("name", .text process.name), ("pid", .integer process.pid),
          ("execution_id", .text process.executionId)]

-- Makes the report file at exactly this path, or goes on with the one that is there.
def create (file : ReportFile) (process : ProcessInfo) (disk : Disk) : Disk.Attempt :=
  disk.appendBelow file.path (header file.format process)

def append (file : ReportFile) (text : String) (files : LoggedDisk) : LoggedDisk :=
  match files.disk.append file.path text with
  | (none, disk) => { files with disk := disk }
  | (some e, _) => files.warn ("Failed to write report " ++ file.path ++ ": " ++ e.message)

def trapSet (file : ReportFile) (trap : Trap) (files : LoggedDisk) : LoggedDisk :=
  if file.logTraps then
    match file.format with
    | .text => file.append (Report.trapText trap ++ "\n") files
    | .json => file.append (Report.trapEvent trap) files
  else files

def raceFound (file : ReportFile) (trap : Trap) (racing : Point) (files : LoggedDisk) :
    LoggedDisk :=
  match file.format with
  | .text => file.append (Report.raceText trap racing) files
  | .json => file.append (Report.raceEvent trap racing) files

end ReportFile

structure MemoryReport where
  traps : List Trap := []
  races : List (Trap × Point) := []

inductive Sink
  | log
  | file (report : ReportFile)
  | memory (report : MemoryReport)

namespace Sink

def trapLine (trap : Trap) : LogLine where
  level := .debug
  message := "trap set"
  fields :=
    [("trap_id", Text.ofNat trap.id), ("group", trap.group), ("object_id", Text.ofNat trap.object),
      ("location", trap.point.location), ("delay_ms", Text.ofNat trap.delayMs)]

def raceLine (trap : Trap) (racing : Point) : LogLine where
  level := .warn
  message := "thread-safety violation"
  fields :=
    [("group", trap.group), ("object_id", Text.ofNat trap.object),
      ("trapped", trap.point.location), ("racing", racing.location)]

-- A trap was registered and its thread is about to wait.
def trapSet (trap : Trap) (sink : Sink) (files : LoggedDisk) : Sink × LoggedDisk :=
  match sink with
  | .log => (.log, files.write (trapLine trap))
  | .file report => (.file report, report.trapSet trap files)
  | .memory report => (.memory { report with traps := report.traps ++ [trap] }, files)

-- An access ran into a trap on the same object.
def raceFound (trap : Trap) (racing : Point) (sink : Sink) (files : LoggedDisk) :
    Sink × LoggedDisk :=
  match sink with
  | .log => (.log, files.write (raceLine trap racing))
  | .file report => (.file report, report.raceFound trap racing files)
  | .memory report => (.memory { report with races := report.races ++ [(trap, racing)] }, files)

def tellAll (tell : Sink → LoggedDisk → Sink × LoggedDisk) :
    List Sink → LoggedDisk → List Sink × LoggedDisk
  | [], files => ([], files)
  | sink :: rest, files =>
      let (sink, files) := tell sink files
      let (rest, files) := tellAll tell rest files
      (sink :: rest, files)

end Sink

end DelayInjection
