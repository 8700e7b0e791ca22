import DelayInjection.Table
import DelayInjection.LocationPair

-- Dangerous pairs: call sites seen touching one object from different threads close together.
-- Every location of a live pair counts how often it was weighed since it was last refreshed.

namespace DelayInjection

structure DangerTracker where
  pairs : List LocationPair := []
  membership : Table String Nat := .empty
  hits : Table String Nat := .empty

namespace DangerTracker

def keysOf (pair : LocationPair) : List String :=
  if pair.first = pair.second then [pair.first] else [pair.first, pair.second]

def hitsAt (tracker : DangerTracker) (location : String) : Nat :=
  (tracker.hits.get? location).getD 0

def joinLocation (membership : Table String Nat) (location : String) : Table String Nat :=
  membership.insert location ((membership.get? location).getD 0 + 1)

-- One pair fewer holds the location; a count that reaches zero is dropped.
def leaveLocation (membership : Table String Nat) (location : String) : Table String Nat :=
  match membership.get? location with
  | none => membership
  | some count =>
      if count - 1 = 0 then membership.erase location else membership.insert location (count - 1)

-- Offers a candidate. A pair that is known and whose keys were weighed often enough is left as
-- it is; any other becomes live, with both counts at zero.
def consider (tracker : DangerTracker) (pair : LocationPair) (threshold : Nat) :
    Bool × DangerTracker :=
  let known := pair ∈ tracker.pairs
  if known ∧ threshold ≤ tracker.hitsAt pair.first + tracker.hitsAt pair.second then
    (false, tracker)
  else
    let hits := (tracker.hits.insert pair.first 0).insert pair.second 0
    if known then (true, { tracker with hits := hits })
    else
      (true,
        { pairs := pair :: tracker.pairs
          membership := (keysOf pair).foldl joinLocation tracker.membership
          hits := hits })

def remove (tracker : DangerTracker) (pair : LocationPair) : Bool × DangerTracker :=
  if pair ∈ tracker.pairs then
    (true,
      { tracker with
        pairs := tracker.pairs.erase pair
        membership := (keysOf pair).foldl leaveLocation tracker.membership })
  else (false, tracker)

-- The danger level of a location, which counts this question. A location of no live pair has
-- no level.
def weigh (tracker : DangerTracker) (location : String) : Option Nat × DangerTracker :=
  if tracker.membership.contains location then
    let level := tracker.hitsAt location
    (some level, { tracker with hits := tracker.hits.insert location (level + 1) })
  else (none, tracker)

def isDangerous (tracker : DangerTracker) (location : String) : Bool :=
  tracker.membership.contains location

def contains (tracker : DangerTracker) (pair : LocationPair) : Bool := pair ∈ tracker.pairs

def toList (tracker : DangerTracker) : List LocationPair := LocationPair.sort tracker.pairs

def size (tracker : DangerTracker) : Nat := tracker.pairs.length

def isEmpty (tracker : DangerTracker) : Bool := tracker.pairs.isEmpty

end DangerTracker

end DelayInjection
