import DelayInjection.Datum

-- Tables under construction. A table that was only mentioned on the way to another one can still
-- be opened by a header, a table made by dotted keys only be extended by dotted keys, and a value
-- by nothing.

namespace DelayInjection.Toml

-- How a table came to be: by its own header or braces, on the way of a header, or by dotted keys.
inductive Origin
  | explicit
  | passed
  | dotted
deriving DecidableEq

inductive Item
  | value (datum : Datum)
  | table (origin : Origin) (members : List (String × Item))
  | tables (items : List (List (String × Item)))

abbrev Members := List (String × Item)

-- Replaces the member of a name, or adds it at the end.
def Members.put (name : String) (item : Item) : Members → Members
  | [] => [(name, item)]
  | member :: rest =>
      if member.1 = name then (name, item) :: rest else member :: Members.put name item rest

-- Changes the table at the end of a path; tables that are missing on the way get the given
-- origin. The last element of an array of tables stands for the array. Dotted keys cannot pass
-- through a table with a header of its own.
def Members.at (origin : Origin) (change : Origin → Members → Option Members) :
    List String → Origin → Members → Option Members
  | [], own, members => change own members
  | name :: path, _, members =>
      match members.lookup name with
      | none => do
          let inner ← Members.at origin change path origin []
          return members.put name (.table origin inner)
      | some (.value _) => none
      | some (.tables items) =>
          match items.getLast? with
          | none => none
          | some last => do
              let inner ← Members.at origin change path .explicit last
              return members.put name (.tables (items.dropLast ++ [inner]))
      | some (.table own inner) =>
          if origin = .dotted ∧ own = .explicit then none
          else do
            let inner ← Members.at origin change path own inner
            return members.put name (.table own inner)

-- Adds a key with its value. Keys with dots go into tables made by dotted keys only, others
-- into any other table.
def Members.addValue (path : List String) (name : String) (datum : Datum) (own : Origin)
    (members : Members) : Option Members :=
  Members.at .dotted
    (fun origin members =>
      if (origin == .dotted) == path.isEmpty then none
      else if (members.lookup name).isSome then none
      else some (members.put name (.value datum)))
    path own members

def Members.openTable (path : List String) (name : String) (members : Members) : Option Members :=
  Members.at .passed
    (fun _ members =>
      match members.lookup name with
      | none => some (members.put name (.table .explicit []))
      | some (.table .passed inner) => some (members.put name (.table .explicit inner))
      | some _ => none)
    path .explicit members

def Members.openElement (path : List String) (name : String) (members : Members) :
    Option Members :=
  Members.at .passed
    (fun _ members =>
      match members.lookup name with
      | none => some (members.put name (.tables [[]]))
      | some (.tables items) => some (members.put name (.tables (items ++ [[]])))
      | some _ => none)
    path .explicit members

mutual

def Item.toDatum : Item → Datum
  | .value datum => datum
  | .table _ members => .table (membersToData members)
  | .tables items => .list (elementsToData items)

def membersToData : List (String × Item) → List (String × Datum)
  | [] => []
  | (name, item) :: rest => (name, item.toDatum) :: membersToData rest

def elementsToData : List (List (String × Item)) → List Datum
  | [] => []
  | members :: rest => .table (membersToData members) :: elementsToData rest

end

end DelayInjection.Toml
