import DelayInjection.Table
import DelayInjection.Point

namespace DelayInjection

-- The threads behind the most recent calls, oldest first, with a count for each.
structure RecentThreads where
  capacity : Nat
  ring : List ThreadId := []
  counts : Table ThreadId Nat := .empty

namespace RecentThreads

-- A capacity of zero works as one.
def ofCapacity (capacity : Nat) : RecentThreads := { capacity := max capacity 1 }

-- One entry of a thread leaves the ring; a thread without entries is dropped.
def release (counts : Table ThreadId Nat) (thread : ThreadId) : Table ThreadId Nat :=
  match counts.get? thread with
  | none => counts
  | some count =>
      if count - 1 = 0 then counts.erase thread else counts.insert thread (count - 1)

-- Drops entries from the front until the ring fits its capacity.
def evict (capacity : Nat) : List ThreadId → Table ThreadId Nat →
    List ThreadId × Table ThreadId Nat
  | [], counts => ([], counts)
  | thread :: rest, counts =>
      if capacity < (thread :: rest).length then evict capacity rest (release counts thread)
      else (thread :: rest, counts)

-- Records a call and tells how many different threads are in the ring now.
def push (history : RecentThreads) (thread : ThreadId) : Nat × RecentThreads :=
  let counts := history.counts.insert thread ((history.counts.get? thread).getD 0 + 1)
  let (ring, counts) := evict history.capacity (history.ring ++ [thread]) counts
  (counts.size, { history with ring := ring, counts := counts })

def size (history : RecentThreads) : Nat := history.ring.length

def isEmpty (history : RecentThreads) : Bool := history.ring.isEmpty

end RecentThreads

end DelayInjection
