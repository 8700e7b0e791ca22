import DelayInjection.Log

namespace DelayInjection

-- The buffered writer of the plan file for the next run. A line is kept once; lines are written
-- in batches, when the flush interval has passed or on demand.
structure PlanLog where
  path : Option String
  pending : List String := []
  seen : List String := []
  intervalOver : Bool := false

namespace PlanLog

def intervalPasses (log : PlanLog) : PlanLog := { log with intervalOver := true }

-- Writes all pending lines. They are given up when the file cannot be written.
def flush (log : PlanLog) (files : LoggedDisk) : PlanLog × LoggedDisk :=
  let written := { log with pending := [], intervalOver := false }
  match log.pending, log.path with
  | [], _ => (written, files)
  | _, none => (written, files)
  | lines, some path => (written, files.appendLines "plan" path lines)

-- Queues a line; a line that was recorded before is refused.
def record (log : PlanLog) (line : String) (files : LoggedDisk) : Bool × PlanLog × LoggedDisk :=
  if line ∈ log.seen then (false, log, files)
  else
    let queued := { log with pending := log.pending ++ [line], seen := log.seen ++ [line] }
    if queued.intervalOver then
      let (log, files) := queued.flush files
      (true, log, files)
    else (true, queued, files)

end PlanLog

end DelayInjection
