import DelayInjection.Table
import DelayInjection.Point

namespace DelayInjection

-- The latest access of a thread, and the point it seems to have waited for.
structure ThreadRecord where
  last : Option Point := none
  blockedBy : Option Point := none
deriving DecidableEq

structure ThreadRecords where
  records : Table ThreadId ThreadRecord := .empty

-- A limit of nothing accepts every distance.
abbrev TimeLimit := Option Nat

def TimeLimit.admits (limit : TimeLimit) (distance : Nat) : Bool := limit.all (distance ≤ ·)

namespace ThreadRecords

def record (threads : ThreadRecords) (thread : ThreadId) : ThreadRecord :=
  (threads.records.get? thread).getD {}

def last (threads : ThreadRecords) (thread : ThreadId) : Option Point :=
  (threads.record thread).last

def blockedBy (threads : ThreadRecords) (thread : ThreadId) : Option Point :=
  (threads.record thread).blockedBy

def setLast (threads : ThreadRecords) (point : Point) : ThreadRecords where
  records := threads.records.insert point.thread
    { threads.record point.thread with last := some point }

def clearBlockedBy (threads : ThreadRecords) (thread : ThreadId) : ThreadRecords :=
  match threads.records.get? thread with
  | none => threads
  | some record =>
      { records := threads.records.insert thread { record with blockedBy := none } }

def isNear (blocker : Point) (limit : TimeLimit) (thread : ThreadId) (record : ThreadRecord) :
    Bool :=
  thread != blocker.thread && record.last.any fun last => limit.admits (last.distance blocker)

-- Marks every other thread that is near the blocker, and tells how many there are.
def markBlockedNear (threads : ThreadRecords) (blocker : Point) (limit : TimeLimit) :
    Nat × ThreadRecords :=
  (threads.records.entries.countP fun entry => isNear blocker limit entry.1 entry.2,
    { records := threads.records.mapEntries fun thread record =>
        if isNear blocker limit thread record then { record with blockedBy := some blocker }
        else record })

end ThreadRecords

end DelayInjection
