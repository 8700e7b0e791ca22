import DelayInjection.Table
import DelayInjection.Point

namespace DelayInjection

-- Identities of live instances by address. `next` is larger than every identity given out.
structure ObjectTable where
  ids : Table Address ObjectId := .empty
  next : ObjectId := 1

namespace ObjectTable

-- The identity of an instance, which gets a fresh one when its address is not known. Without an
-- instance the access is static.
def idOf (table : ObjectTable) : Option Address → ObjectId × ObjectTable
  | none => (staticObject, table)
  | some address =>
      match table.ids.get? address with
      | some id => (id, table)
      | none =>
          (table.next, { ids := table.ids.insert address table.next, next := table.next + 1 })

-- Drops the identity of a freed instance, so that its address gets a fresh one next time.
def forget (table : ObjectTable) (address : Address) : Option ObjectId × ObjectTable :=
  (table.ids.get? address, { table with ids := table.ids.erase address })

def size (table : ObjectTable) : Nat := table.ids.size

def isEmpty (table : ObjectTable) : Bool := table.size == 0

end ObjectTable

end DelayInjection
