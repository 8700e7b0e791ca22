import DelayInjection.Table
import DelayInjection.Trap.Basic

namespace DelayInjection

-- The waiting traps of one group, by object and in order of registration.
structure TrapBucket where
  traps : Table ObjectId (List Trap) := .empty

namespace TrapBucket

def on (bucket : TrapBucket) (object : ObjectId) : List Trap :=
  (bucket.traps.get? object).getD []

def register (bucket : TrapBucket) (trap : Trap) : TrapBucket where
  traps := bucket.traps.insert trap.object (bucket.on trap.object ++ [trap])

-- Removes a trap by its number from the list of its object; an empty list is dropped.
def remove (bucket : TrapBucket) (trap : Trap) : TrapBucket :=
  match bucket.traps.get? trap.object with
  | none => bucket
  | some traps =>
      let kept := traps.filter (·.id != trap.id)
      if kept.isEmpty then { traps := bucket.traps.erase trap.object }
      else { traps := bucket.traps.insert trap.object kept }

def size (bucket : TrapBucket) : Nat :=
  bucket.traps.values.foldr (fun traps rest => traps.length + rest) 0

def isEmpty (bucket : TrapBucket) : Bool := bucket.size == 0

end TrapBucket

-- The buckets by group name, and the number of the last trap.
structure TrapStore where
  buckets : Table String TrapBucket := .empty
  lastId : Nat := 0

namespace TrapStore

def bucket (store : TrapStore) (group : String) : TrapBucket :=
  (store.buckets.get? group).getD {}

def nextId (store : TrapStore) : Nat × TrapStore :=
  (store.lastId + 1, { store with lastId := store.lastId + 1 })

def register (store : TrapStore) (trap : Trap) : TrapStore :=
  { store with
    buckets := store.buckets.insert trap.group ((store.bucket trap.group).register trap) }

def removeFrom (store : TrapStore) (group : String) (trap : Trap) : TrapStore :=
  { store with buckets := store.buckets.insert group ((store.bucket group).remove trap) }

def remove (store : TrapStore) (trap : Trap) : TrapStore := store.removeFrom trap.group trap

def outstanding (store : TrapStore) : Nat :=
  store.buckets.values.foldr (fun bucket rest => bucket.size + rest) 0

end TrapStore

end DelayInjection
