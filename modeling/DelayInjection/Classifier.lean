import DelayInjection.Table
import DelayInjection.Pattern

namespace DelayInjection

-- A set of write and read APIs that must not run concurrently on one object, or not at all when
-- the group is static.
structure Group where
  name : String
  isStatic : Bool := false
  writeApis : List String := []
  readApis : List String := []
deriving DecidableEq

structure Classification where
  group : Group
  isWrite : Bool
deriving DecidableEq

-- Calls of groups with instance scope are skipped when they carry no instance.
def Classification.requiresInstance (c : Classification) : Bool := !c.group.isStatic

structure CompiledGroup where
  group : Group
  writes : PatternSet
  reads : PatternSet

namespace CompiledGroup

inductive Error
  | duplicateGroup (name : String)
  | invalidPattern (pattern : String)
deriving DecidableEq

def compile (limit : RegexLimit) (group : Group) : Except String CompiledGroup := do
  let writes ← PatternSet.compile limit group.writeApis
  let reads ← PatternSet.compile limit group.readApis
  return { group, writes, reads }

-- Compiles groups in order; a repeated name is found before the patterns of its group are read.
def compileAll (limit : RegexLimit) (seen : List String) :
    List Group → Except Error (List CompiledGroup)
  | [] => .ok []
  | group :: rest =>
      if group.name ∈ seen then .error (.duplicateGroup group.name)
      else
        match compile limit group with
        | .error pattern => .error (.invalidPattern pattern)
        | .ok compiled =>
            (compileAll limit (group.name :: seen) rest).map fun others => compiled :: others

-- What the group makes of a callee: writes are asked before reads.
def classify? (compiled : CompiledGroup) (callee : String) : Option Classification :=
  if compiled.writes.matchesAny callee then some ⟨compiled.group, true⟩
  else if compiled.reads.matchesAny callee then some ⟨compiled.group, false⟩
  else none

end CompiledGroup

-- The groups in configured order and the answers given so far, misses included.
structure Classifier where
  groups : List CompiledGroup
  cache : Table String (Option Classification) := .empty

namespace Classifier

def compile (limit : RegexLimit) (groups : List Group) :
    Except CompiledGroup.Error Classifier :=
  (CompiledGroup.compileAll limit [] groups).map fun compiled => { groups := compiled }

def scan (classifier : Classifier) (callee : String) : Option Classification :=
  classifier.groups.findSome? (·.classify? callee)

def classify (classifier : Classifier) (callee : String) :
    Option Classification × Classifier :=
  match classifier.cache.get? callee with
  | some answer => (answer, classifier)
  | none =>
      let answer := classifier.scan callee
      (answer, { classifier with cache := classifier.cache.insert callee answer })

def cachedSignatures (classifier : Classifier) : Nat := classifier.cache.size

end Classifier

end DelayInjection
