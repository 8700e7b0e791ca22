import DelayInjection.Control.Shared
import DelayInjection.Persist.PlanLog
import DelayInjection.Report.Sink

namespace DelayInjection

-- What a run leaves behind: the plan file for the next run, the bug file, and reports.
structure Recorder where
  planLog : PlanLog := { path := none }
  bugFile : Option String := none
  sinks : List Sink := []

namespace Recorder

def debugLine (message : String) (fields : List (String × String)) : LogLine :=
  { level := .debug, message, fields }

-- Makes lasting what an event tells.
def observe (recorder : Recorder) (event : Event) (files : LoggedDisk) : Recorder × LoggedDisk :=
  match event with
  | .planMatched point =>
      (recorder,
        files.write <| debugLine "plan matched"
          [("location", point.location), ("hit", Text.ofInt point.localHits.toInt)])
  | .dangerousPair earlier later =>
      let files := files.write <| debugLine "dangerous pair"
        [("first", earlier.location), ("second", later.location)]
      let (_, planLog, files) :=
        recorder.planLog.record (PlanLine.format earlier.planText later.planText) files
      ({ recorder with planLog := planLog }, files)
  | .pairPruned point blocker =>
      (recorder,
        files.write <| debugLine "pair pruned by happens-before"
          [("first", point.location), ("second", blocker.location)])
  | .raceConfirmed pair => (recorder, BugFile.append files recorder.bugFile pair)
  | .raceFound trap racing =>
      let (sinks, files) := Sink.tellAll (Sink.raceFound trap racing) recorder.sinks files
      ({ recorder with sinks := sinks }, files)
  | .duplicateRace trap racing =>
      (recorder,
        files.write <| debugLine "duplicate race suppressed"
          [("trapped", trap.point.location), ("racing", racing.location)])
  | .trapSet trap =>
      let (sinks, files) := Sink.tellAll (Sink.trapSet trap) recorder.sinks files
      ({ recorder with sinks := sinks }, files)
  | .objectForgotten object queues =>
      (recorder,
        files.write
          { level := .trace
            message := "object forgotten"
            fields := [("object", Text.ofNat object), ("queues", Text.ofNat queues)] })

def observeAll (recorder : Recorder) (events : List Event) (files : LoggedDisk) :
    Recorder × LoggedDisk :=
  events.foldl (fun (recorder, files) event => recorder.observe event files) (recorder, files)

def flush (recorder : Recorder) (files : LoggedDisk) : Recorder × LoggedDisk :=
  let (planLog, files) := recorder.planLog.flush files
  ({ recorder with planLog := planLog }, files)

end Recorder

end DelayInjection
