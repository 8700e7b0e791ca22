import DelayInjection.Table
import DelayInjection.Point

namespace DelayInjection

-- The recent accesses to every object of every group, oldest first.
structure AccessLog where
  window : Nat
  queues : Table (String × ObjectId) (List Point) := .empty

namespace AccessLog

-- A window of zero works as one.
def ofWindow (window : Nat) : AccessLog := { window := max window 1 }

def queue (log : AccessLog) (group : String) (object : ObjectId) : List Point :=
  (log.queues.get? (group, object)).getD []

def newest {α : Type} (count : Nat) (items : List α) : List α := items.drop (items.length - count)

-- Appends an access and gives the accesses that were kept before it.
def push (log : AccessLog) (group : String) (point : Point) : List Point × AccessLog :=
  let previous := log.queue group point.object
  (previous,
    { log with
      queues := log.queues.insert (group, point.object) (newest log.window (previous ++ [point])) })

-- Drops the queues of a freed object in every group, and tells how many there were.
def forget (log : AccessLog) (object : ObjectId) : Nat × AccessLog :=
  let kept := log.queues.filterKeys fun key => key.2 != object
  (log.queues.size - kept.size, { log with queues := kept })

def size (log : AccessLog) : Nat := log.queues.size

def isEmpty (log : AccessLog) : Bool := log.size == 0

end AccessLog

end DelayInjection
