import Mathlib.Logic.Function.Basic
import DelayInjection.Proofs.Plan.Versions

-- Plans that a store and kept handles share in memory. A plan to which only the store refers is
-- changed where it stands when another one is merged into it; if a handle refers to it as well, the
-- store gets a copy.

namespace DelayInjection

-- A stored pattern, which refers to its plan.
structure PatternCell where
  cell : Nat
  callee : Pattern
  caller : Option Pattern

-- The cells below a bound are in use; the tables of a store and the kept handles refer to some of
-- them. The plan in a cell has its injections so far.
structure PlanMemory where
  cells : Nat → TrapPlan := fun _ => { callee := "" }
  used : Nat := 0
  exact : Table String Nat := .empty
  patterns : List PatternCell := []
  patternIndex : Table String Nat := .empty
  kept : List Nat := []

namespace PlanMemory

def accepts (memory : PlanMemory) (pattern : PatternCell) (point : Point)
    (globalWindow localWindow : Int64) : Bool :=
  let plan := memory.cells pattern.cell
  pattern.callee.accepts point.callee && pattern.caller.all (·.accepts point.caller) &&
    (plan.offset.toInt < 0 || plan.offset == point.offset) &&
    plan.acceptsPoint point globalWindow localWindow

def find? (memory : PlanMemory) (point : Point) (globalWindow localWindow : Int64) : Option Nat :=
  match memory.exact.get? (TrapPlan.keyOf point.callee point.caller point.offset) with
  | some cell =>
      if (memory.cells cell).acceptsPoint point globalWindow localWindow then some cell
      else none
  | none =>
      (memory.patterns.find? (memory.accepts · point globalWindow localWindow)).map (·.cell)

def listed (memory : PlanMemory) : List Nat :=
  (memory.exact.entries.mergeSort fun a b => a.1 ≤ b.1).map (·.2) ++
    memory.patterns.map (·.cell)

def ask? (memory : PlanMemory) : PlanQuery → Option Nat
  | .listed index => memory.listed[index]?
  | .found point globalWindow localWindow => memory.find? point globalWindow localWindow

def pattern? (memory : PlanMemory) (key : String) : Option PatternCell :=
  (memory.patternIndex.get? key).bind (memory.patterns[·]?)

-- How many handles there are of a plan, those that the store holds among them.
def references (memory : PlanMemory) (cell : Nat) : Nat :=
  (memory.kept ++ memory.listed).count cell

def write (memory : PlanMemory) (cell : Nat) (plan : TrapPlan) : PlanMemory :=
  { memory with cells := Function.update memory.cells cell plan }

def allocate (memory : PlanMemory) (plan : TrapPlan) : Nat × PlanMemory :=
  (memory.used, { memory.write memory.used plan with used := memory.used + 1 })

-- What an added plan makes of the plan that it is merged into, if there is one.
def contentFor (memory : PlanMemory) (host? : Option Nat) (plan : TrapPlan) : TrapPlan :=
  host?.elim plan fun host => (memory.cells host).merge plan

-- Where an added plan goes: into the cell of the plan that it is merged into, if this plan has no
-- other handle than that of the store, and into a new cell if it has, or if there is no such plan.
def place (memory : PlanMemory) (host? : Option Nat) (plan : TrapPlan) : Nat × PlanMemory :=
  let content := memory.contentFor host? plan
  match host? with
  | none => memory.allocate content
  | some host =>
      if memory.references host = 1 then (host, memory.write host content)
      else memory.allocate content

def addExact (memory : PlanMemory) (key : String) (plan : TrapPlan) : PlanMemory :=
  let (cell, next) := memory.place (memory.exact.get? key) plan
  { next with exact := next.exact.insert key cell }

end PlanMemory

namespace PatternCell

def compile (limit : RegexLimit) (plan : TrapPlan) (cell : Nat) : Except String PatternCell :=
  (PatternPlan.compile limit { plan, counter := cell }).map fun pattern =>
    { cell, callee := pattern.callee, caller := pattern.caller }

end PatternCell

namespace PlanMemory

-- A plan that is merged into a pattern leaves its matchers as they are; a new pattern is compiled
-- before anything of it is stored.
def addPattern (limit : RegexLimit) (memory : PlanMemory) (key : String) (plan : TrapPlan) :
    Option String × PlanMemory :=
  match memory.patternIndex.get? key with
  | some index =>
      match memory.patterns[index]? with
      | some pattern =>
          let (cell, next) := memory.place (some pattern.cell) plan
          (none, { next with patterns := next.patterns.set index { pattern with cell } })
      | none => (none, memory)
  | none =>
      let (cell, next) := memory.place none plan
      match PatternCell.compile limit plan cell with
      | .error text => (some text, memory)
      | .ok pattern =>
          (none,
            { next with
              patternIndex := next.patternIndex.insert key next.patterns.length
              patterns := next.patterns ++ [pattern] })

def add (limit : RegexLimit) (memory : PlanMemory) (plan : TrapPlan) :
    Option String × PlanMemory :=
  if plan.isExact then (none, memory.addExact plan.identityKey plan)
  else memory.addPattern limit plan.identityKey plan

def recordInjection (memory : PlanMemory) (cell : Nat) : PlanMemory :=
  memory.write cell { memory.cells cell with injections := (memory.cells cell).injections + 1 }

def taken? (memory : PlanMemory) : PlanOperation → Option Nat
  | .keep query => memory.ask? query
  | _ => none

def recorded? (memory : PlanMemory) : PlanOperation → Option Nat
  | .record query => memory.ask? query
  | .recordKept index => memory.kept[index]?
  | _ => none

def perform (limit : RegexLimit) (memory : PlanMemory) (operation : PlanOperation) : PlanMemory :=
  let next := match operation with
    | .add plan => (memory.add limit plan).2
    | operation => (memory.recorded? operation).elim memory memory.recordInjection
  { next with kept := next.kept ++ (memory.taken? operation).toList }

def run (limit : RegexLimit) (memory : PlanMemory) (operations : List PlanOperation) :
    PlanMemory :=
  operations.foldl (perform limit) memory

section

variable {memory : PlanMemory} {host? : Option Nat} {other : Nat} {plan : TrapPlan}

-- A plan is merged in place, or it gets a new cell.
theorem place_cases (memory : PlanMemory) (host? : Option Nat) (plan : TrapPlan) :
    memory.place host? plan = memory.allocate (memory.contentFor host? plan) ∨
      ∃ host, host? = some host ∧ memory.references host = 1 ∧
        memory.place host? plan = (host, memory.write host (memory.contentFor host? plan)) := by
  unfold place
  split
  · exact .inl rfl
  · rename_i host
    by_cases hunique : memory.references host = 1
    · rw [if_pos hunique]
      exact .inr ⟨host, rfl, hunique, rfl⟩
    · rw [if_neg hunique]
      exact .inl rfl

theorem place_eq (memory : PlanMemory) (host? : Option Nat) (plan : TrapPlan) :
    (memory.place host? plan).2 =
      { memory with
        cells := Function.update memory.cells (memory.place host? plan).1
          (memory.contentFor host? plan)
        used := (memory.place host? plan).2.used } := by
  rcases memory.place_cases host? plan with hplace | ⟨host, -, -, hplace⟩
  · rw [hplace]
    rfl
  · rw [hplace]
    rfl

theorem exact_place (memory : PlanMemory) (host? : Option Nat) (plan : TrapPlan) :
    (memory.place host? plan).2.exact = memory.exact := by rw [place_eq]

theorem patterns_place (memory : PlanMemory) (host? : Option Nat) (plan : TrapPlan) :
    (memory.place host? plan).2.patterns = memory.patterns := by rw [place_eq]

theorem patternIndex_place (memory : PlanMemory) (host? : Option Nat) (plan : TrapPlan) :
    (memory.place host? plan).2.patternIndex = memory.patternIndex := by rw [place_eq]

theorem kept_place (memory : PlanMemory) (host? : Option Nat) (plan : TrapPlan) :
    (memory.place host? plan).2.kept = memory.kept := by rw [place_eq]

theorem used_place (memory : PlanMemory) (host? : Option Nat) (plan : TrapPlan)
    (hhost : ∀ host, host? = some host → host < memory.used) :
    memory.used ≤ (memory.place host? plan).2.used ∧
      (memory.place host? plan).1 < (memory.place host? plan).2.used := by
  rcases memory.place_cases host? plan with hplace | ⟨host, hfound, -, hplace⟩
  · rw [hplace]
    exact ⟨Nat.le_succ _, Nat.lt_succ_self _⟩
  · rw [hplace]
    exact ⟨Nat.le_refl _, hhost host hfound⟩

-- Nobody but the store refers to a cell that is changed in place.
theorem place_ne (hother : other < memory.used)
    (hlisted : ∀ host, host? = some host → host ∈ memory.listed)
    (hkept : other ∈ memory.kept ∨ host? ≠ some other) :
    other ≠ (memory.place host? plan).1 := by
  rcases memory.place_cases host? plan with hplace | ⟨host, hfound, hunique, hplace⟩
  · rw [hplace]
    exact Nat.ne_of_lt hother
  · rw [hplace]
    rintro rfl
    rcases hkept with hkept | hne
    · have hkept := List.count_pos_iff.mpr hkept
      have hlisted := List.count_pos_iff.mpr (hlisted _ hfound)
      rw [references, List.count_append] at hunique
      omega
    · exact hne hfound

end

end PlanMemory

end DelayInjection
