namespace DelayInjection

-- How many traps are waiting, and the most there ever were.
structure ActiveTraps where
  current : Nat := 0
  peak : Nat := 0
deriving DecidableEq

namespace ActiveTraps

def enter (active : ActiveTraps) : ActiveTraps where
  current := active.current + 1
  peak := max active.peak (active.current + 1)

-- Claims the single slot, which is refused while any trap is active.
def tryEnterExclusive (active : ActiveTraps) : Bool × ActiveTraps :=
  if active.current = 0 then (true, { current := 1, peak := max active.peak 1 })
  else (false, active)

-- A count of zero stays zero.
def exit (active : ActiveTraps) : ActiveTraps := { active with current := active.current - 1 }

def anyActive (active : ActiveTraps) : Bool := 0 < active.current

end ActiveTraps

end DelayInjection
