import DelayInjection.Control.Shared

-- The randomized controller: a write without conflict is trapped with a fixed probability while
-- no other trap is active, so that at most one thread is ever parked.

namespace DelayInjection

structure Randomized where
  shared : Shared
  delayProbability : Float
  maxDelayMs : Nat
  random : RandomSource
  nextSerial : Nat := 0

namespace Randomized

def identify (c : Randomized) (call : Call) : Option (Point × Classification) × Randomized :=
  let (answer, shared) := c.shared.classify call.callee call.instance?
  match answer with
  | none => (none, { c with shared := shared })
  | some classification =>
      let (object, shared) := shared.objectFor classification call.instance?
      let point := { call.point c.nextSerial with object, isWrite := classification.isWrite }
      (some (point, classification), { c with shared := shared, nextSerial := c.nextSerial + 1 })

-- The traps of other threads on the same object that the access conflicts with.
def conflicts (c : Randomized) (point : Point) (classification : Classification) : List Trap :=
  (c.shared.trapsOn classification.group.name point.object).filter fun trap =>
    trap.point.thread != point.thread && trap.conflictsWith point.isWrite

-- Draws for a trap; if the draw and the single slot allow it, draws the delay and sets the trap.
def tryTrap (c : Randomized) (point : Point) (classification : Classification) :
    Option Trap × Randomized :=
  let (draw, random) := c.random.unit
  let c := { c with random := random }
  if draw < c.delayProbability then
    match c.shared.active.tryEnterExclusive with
    | (false, _) => (none, c)
    | (true, active) =>
        let (delayMs, random) := c.random.below c.maxDelayMs
        let (trap, shared) :=
          { c.shared with active := active }.setTrap point classification delayMs
        (some trap, { c with shared := shared, random := random })
  else (none, c)

-- What is decided while the bucket of the group is locked.
def decide (c : Randomized) (point : Point) (classification : Classification) :
    List Trap × Option Trap × Randomized :=
  let found := c.conflicts point classification
  if found.isEmpty && point.isWrite then
    let (trap?, c) := c.tryTrap point classification
    (found, trap?, c)
  else (found, none, c)

-- Reports the conflicts of a call, and returns from it unless it has set a trap.
def settle (c : Randomized) (point : Point) (conflicts : List Trap) (trap? : Option Trap) :
    Arrival × Randomized :=
  let handled := c.shared.handleConflicts conflicts point
  let c := { c with shared := handled.shared }
  match trap? with
  | none =>
      ({ outcome := .returned (c.shared.finish handled.race?), events := handled.events,
         released := handled.released }, c)
  | some trap =>
      ({ outcome := .waiting { trap, race? := handled.race? },
         events := handled.events ++ [.trapSet trap], released := handled.released }, c)

def onCall (c : Randomized) (call : Call) : Arrival × Randomized :=
  match c.identify call with
  | (none, c) => ({ outcome := .returned (.ok ()) }, c)
  | (some (point, classification), c) =>
      let (conflicts, trap?, c) := c.decide point classification
      c.settle point conflicts trap?

-- The rest of a call after its wait: the trap leaves its bucket, then the slot is free again.
def resume (c : Randomized) (wait : Waiting) : CallResult × Randomized :=
  let c := { c with shared := (c.shared.removeTrap wait.trap).leave }
  (c.shared.finish wait.race?, c)

def forget (c : Randomized) (address : Address) : Option ObjectId × List Event × Randomized :=
  let (id?, objects) := c.shared.objects.forget address
  (id?, [], { c with shared := { c.shared with objects := objects } })

end Randomized

end DelayInjection
