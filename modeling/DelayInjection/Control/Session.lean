import DelayInjection.Control.Recorder
import DelayInjection.Control.Run

namespace DelayInjection

-- A run that is being recorded.
structure Session where
  run : Run
  recorder : Recorder := {}

namespace Session

def observe (session : Session) (events : List Event) (files : LoggedDisk) :
    Session × LoggedDisk :=
  let (recorder, files) := session.recorder.observeAll events files
  ({ session with recorder := recorder }, files)

def call (session : Session) (call : Call) (files : LoggedDisk) :
    Option (Arrival × Session × LoggedDisk) :=
  match session.run.call call with
  | none => none
  | some (arrival, run) => some (arrival, { session with run := run }.observe arrival.events files)

def wake (session : Session) (thread : ThreadId) : Option (CallResult × Session) :=
  (session.run.wake thread).map fun (result, run) => (result, { session with run := run })

def wakeReleased (session : Session) : List (ThreadId × CallResult) × Session :=
  let (results, run) := session.run.wakeAll session.run.releasedThreads
  (results, { session with run := run })

def wakeParked (session : Session) : List (ThreadId × CallResult) × Session :=
  let (results, run) := session.run.wakeAll session.run.parkedThreads
  (results, { session with run := run })

def forget (session : Session) (address : Address) (files : LoggedDisk) :
    Option ObjectId × Session × LoggedDisk :=
  let (id?, events, run) := session.run.forget address
  (id?, { session with run := run }.observe events files)

def shutdown (session : Session) (files : LoggedDisk) : Session × LoggedDisk :=
  let (recorder, files) := session.recorder.flush files
  ({ session with recorder := recorder }, files)

end Session

end DelayInjection
