import DelayInjection.Json.Written
import DelayInjection.Trap.Basic

-- What a report says about traps and races: text blocks for people, JSON records for machines.

namespace DelayInjection.Report

def line (name value : String) : String := name ++ ": " ++ value ++ "\n"

def pointText (point : Point) : String :=
  line "Id" (Text.ofInt point.globalHits.toInt) ++
    line "ThreadId" (Text.ofNat point.thread.toNat) ++
    line "Timestamp" (Text.ofNat point.unixMs) ++
    line "API" point.callee ++
    line "Method" point.caller ++
    line "ILOffset" (Text.ofInt point.offset.toInt) ++
    line "ObjectId" (Text.ofNat point.object) ++
    match point.stackTrace? with
    | some stack => "StackTrace:\n" ++ stack ++ "\n"
    | none => ""

def trapText (trap : Trap) : String :=
  "---Trap---\n" ++ pointText trap.point ++ line "Delay" (Text.ofNat trap.delayMs ++ "ms")

def raceText (trap : Trap) (racing : Point) : String :=
  "---Race Condition---\n" ++ trapText trap ++ "---Trapped---\n" ++ pointText racing ++ "\n"

def pointRecord (point : Point) : Datum :=
  .table <|
    [("id", .integer point.globalHits.toInt),
      ("thread_id", .integer point.thread.toNat),
      ("timestamp_ms", .integer point.unixMs),
      ("callee", .text point.callee),
      ("caller", .text point.caller),
      ("offset", .integer point.offset.toInt),
      ("location", .text point.location),
      ("local_hit_count", .integer point.localHits.toInt),
      ("object_id", .integer point.object),
      ("is_write", .bool point.isWrite)] ++
    match point.stackTrace? with
    | some stack => [("stack", .text stack)]
    | none => []

def trapMembers (trap : Trap) : List (String × Datum) :=
  [("trap_id", .integer trap.id),
    ("group", .text trap.group),
    ("object_id", .integer trap.object),
    ("delay_ms", .integer trap.delayMs),
    ("point", pointRecord trap.point)]

def trapRecord (trap : Trap) : Datum := .table (trapMembers trap)

-- The lines of a JSON report are objects that name their event first.
def event (name : String) (members : List (String × Datum)) : String :=
  Json.compact (.table (("event", .text name) :: members)) ++ "\n"

def trapEvent (trap : Trap) : String := event "trap" (trapMembers trap)

def raceEvent (trap : Trap) (racing : Point) : String :=
  event "race" [("trap", trapRecord trap), ("racing", pointRecord racing)]

end DelayInjection.Report
