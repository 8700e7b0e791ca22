import DelayInjection.Control.Learned
import DelayInjection.Control.Randomized

-- Runs of a controller: calls of free threads, wake-ups of threads parked in their traps, and
-- freed instances.

namespace DelayInjection

inductive Controller
  | randomized (c : Randomized)
  | learned (c : Learned)

namespace Controller

def algorithm : Controller → Algorithm
  | .randomized _ => .randomized
  | .learned _ => .learned

def shared : Controller → Shared
  | .randomized c => c.shared
  | .learned c => c.shared

def onCall (call : Call) : Controller → Arrival × Controller
  | .randomized c => let (arrival, c) := c.onCall call; (arrival, .randomized c)
  | .learned c => let (arrival, c) := c.onCall call; (arrival, .learned c)

def resume (wait : Waiting) : Controller → CallResult × Controller
  | .randomized c => let (result, c) := c.resume wait; (result, .randomized c)
  | .learned c => let (result, c) := c.resume wait; (result, .learned c)

def forget (address : Address) : Controller → Option ObjectId × List Event × Controller
  | .randomized c => let (id?, events, c) := c.forget address; (id?, events, .randomized c)
  | .learned c => let (id?, events, c) := c.forget address; (id?, events, .learned c)

def dangerousPairs : Controller → List LocationPair
  | .randomized _ => []
  | .learned c => c.danger.toList

end Controller

-- A thread that waits in its trap, with the signal that a racing thread may set.
structure Parked where
  wait : Waiting
  latch : Latch := {}

-- A controller together with the threads that wait in its traps.
structure Run where
  controller : Controller
  parked : Table ThreadId Parked := .empty

namespace Run

def signal (released : List Nat) (parked : Table ThreadId Parked) : Table ThreadId Parked :=
  parked.mapEntries fun _ thread =>
    if thread.wait.trap.id ∈ released then { thread with latch := thread.latch.release }
    else thread

-- One call of a free thread, up to its return or its wait. A parked thread makes no calls.
def call (run : Run) (call : Call) : Option (Arrival × Run) :=
  if run.parked.contains call.thread then none
  else
    let (arrival, controller) := run.controller.onCall call
    let parked := signal arrival.released run.parked
    some (arrival,
      { controller
        parked := match arrival.outcome with
          | .returned _ => parked
          | .waiting wait => parked.insert call.thread { wait } })

-- A parked thread wakes up, released or after its time, and its call returns.
def wake (run : Run) (thread : ThreadId) : Option (CallResult × Run) :=
  match run.parked.get? thread with
  | none => none
  | some parked =>
      let (result, controller) := run.controller.resume parked.wait
      some (result, { controller, parked := run.parked.erase thread })

def forget (run : Run) (address : Address) : Option ObjectId × List Event × Run :=
  let (id?, events, controller) := run.controller.forget address
  (id?, events, { run with controller := controller })

def wakeAll (run : Run) : List ThreadId → List (ThreadId × CallResult) × Run
  | [] => ([], run)
  | thread :: rest =>
      match run.wake thread with
      | none => run.wakeAll rest
      | some (result, run) =>
          let (results, run) := run.wakeAll rest
          ((thread, result) :: results, run)

def parkedThreads (run : Run) : List ThreadId := run.parked.keys.mergeSort (· ≤ ·)

-- The parked threads whose traps were released, in order of their numbers.
def releasedThreads (run : Run) : List ThreadId :=
  run.parkedThreads.filter fun thread =>
    (run.parked.get? thread).any fun parked => parked.latch.wait.1 == .released

end Run

end DelayInjection
