import DelayInjection.Point
import DelayInjection.Classifier

namespace DelayInjection

-- A delayed access that waits for a conflicting one.
structure Trap where
  id : Nat
  point : Point
  classification : Classification
  delayMs : Nat
deriving DecidableEq

namespace Trap

def object (trap : Trap) : ObjectId := trap.point.object

def isWrite (trap : Trap) : Bool := trap.classification.isWrite

def group (trap : Trap) : String := trap.classification.group.name

-- Two accesses conflict when one of them is a write.
def conflictsWith (trap : Trap) (isWrite : Bool) : Bool := trap.isWrite || isWrite

end Trap

inductive WaitOutcome
  | released
  | timedOut
deriving DecidableEq

-- The signal that ends a wait early. It holds one release at most.
structure Latch where
  isSet : Bool := false
deriving DecidableEq

namespace Latch

def release (_ : Latch) : Latch := ⟨true⟩

-- A wait uses up the release that was buffered; without one it lasts until its time is over.
def wait (latch : Latch) : WaitOutcome × Latch :=
  (if latch.isSet then .released else .timedOut, ⟨false⟩)

end Latch

end DelayInjection
