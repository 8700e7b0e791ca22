import DelayInjection.ObjectTable
import DelayInjection.RaceLedger
import DelayInjection.Trap.Active
import DelayInjection.Trap.Store

-- What both controllers share: classification, identities, waiting traps and reported races.

namespace DelayInjection

-- An intercepted call as it arrives. The clock and the stack are those of the calling thread.
structure Call where
  thread : ThreadId
  caller : String
  callee : String
  offset : Int32
  instance? : Option Address := none
  time : Nat := 0
  wallMs : Int := 0
  globalHits : Int64 := 0
  stack : String := ""

def Call.point (call : Call) (serial : Nat) : Point where
  callee := call.callee
  caller := call.caller
  offset := call.offset
  thread := call.thread
  time := call.time
  wallMs := call.wallMs
  globalHits := call.globalHits
  stack := call.stack
  serial := serial

structure Race where
  object : ObjectId
  trapped : String
  racing : String
deriving DecidableEq

def Race.message (race : Race) : String :=
  "Thread-safety violation on object " ++ Text.ofNat race.object ++ ": " ++ race.trapped ++
    " <-> " ++ race.racing

-- What a controller has to tell, in the order in which it happens.
inductive Event
  | planMatched (point : Point)
  | dangerousPair (earlier later : Point)
  | pairPruned (point blocker : Point)
  | raceConfirmed (pair : LocationPair)
  | raceFound (trap : Trap) (racing : Point)
  | duplicateRace (trap : Trap) (racing : Point)
  | trapSet (trap : Trap)
  | objectForgotten (object : ObjectId) (queues : Nat)
deriving DecidableEq

structure Shared where
  classifier : Classifier
  ledger : RaceLedger
  raiseOnRace : Bool
  objects : ObjectTable := {}
  traps : TrapStore := {}
  active : ActiveTraps := {}

abbrev CallResult := Except Race Unit

-- A call that waits in its trap, with the first race it found before.
structure Waiting where
  trap : Trap
  race? : Option Race
deriving DecidableEq

inductive Outcome
  | returned (result : CallResult)
  | waiting (wait : Waiting)

-- What a call did up to its return or its wait; `released` names the traps that it set free.
structure Arrival where
  outcome : Outcome
  events : List Event := []
  released : List Nat := []

namespace Shared

-- The group of a callee. Groups with instance scope have no claim on a call without instance.
def classify (shared : Shared) (callee : String) (instance? : Option Address) :
    Option Classification × Shared :=
  let (answer, classifier) := shared.classifier.classify callee
  (answer.filter fun c => !c.requiresInstance || instance?.isSome,
    { shared with classifier := classifier })

def objectFor (shared : Shared) (classification : Classification) (instance? : Option Address) :
    ObjectId × Shared :=
  if classification.requiresInstance then
    let (id, objects) := shared.objects.idOf instance?
    (id, { shared with objects := objects })
  else (staticObject, shared)

-- The traps on an object of a group, in order of registration.
def trapsOn (shared : Shared) (group : String) (object : ObjectId) : List Trap :=
  (shared.traps.bucket group).on object

structure Handled where
  shared : Shared
  race? : Option Race := none
  events : List Event := []
  released : List Nat := []

def pairOf (trap : Trap) (racing : Point) : LocationPair := .of trap.point.location racing.location

-- Reports a conflict. A blacklisted one is passed over; any other releases its trap, and the
-- first of them is the race that the caller learns of. A new one is confirmed, for later runs,
-- before it is reported.
def handleConflict (racing : Point) (handled : Handled) (trap : Trap) : Handled :=
  let (verdict, ledger) := handled.shared.ledger.record (pairOf trap racing)
  let race : Race :=
    { object := trap.object, trapped := trap.point.location, racing := racing.location }
  match verdict with
  | .blacklisted => handled
  | .new =>
      { shared := { handled.shared with ledger := ledger }
        race? := handled.race?.or (some race)
        events := handled.events ++
          [.raceConfirmed (pairOf trap racing), .raceFound trap racing.captureStack]
        released := handled.released ++ [trap.id] }
  | .duplicate =>
      { handled with
        race? := handled.race?.or (some race)
        events := handled.events ++ [.duplicateRace trap racing]
        released := handled.released ++ [trap.id] }

def handleConflicts (shared : Shared) (conflicts : List Trap) (racing : Point) : Handled :=
  conflicts.foldl (handleConflict racing) { shared }

-- Races are errors of the call only on request.
def finish (shared : Shared) (race? : Option Race) : CallResult :=
  match race? with
  | some race => if shared.raiseOnRace then .error race else .ok ()
  | none => .ok ()

-- Sets a trap for a point, whose stack is captured first because a racing thread may report the
-- trap at once.
def setTrap (shared : Shared) (point : Point) (classification : Classification) (delayMs : Nat) :
    Trap × Shared :=
  let (id, traps) := shared.traps.nextId
  let trap : Trap := { id, point := point.captureStack, classification, delayMs }
  (trap, { shared with traps := traps.register trap })

def removeTrap (shared : Shared) (trap : Trap) : Shared :=
  { shared with traps := shared.traps.remove trap }

-- Counts a trap that has been taken out as no longer active.
def leave (shared : Shared) : Shared := { shared with active := shared.active.exit }

end Shared

end DelayInjection
