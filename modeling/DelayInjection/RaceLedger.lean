import DelayInjection.Persist.PlanFile

namespace DelayInjection

inductive RaceVerdict
  | new
  | duplicate
  | blacklisted
deriving DecidableEq

-- The races reported in this run, and those confirmed in earlier ones.
structure RaceLedger where
  blacklist : List LocationPair := []
  seen : List LocationPair := []

namespace RaceLedger

def ofBlacklist (pairs : List LocationPair) : RaceLedger := { blacklist := distinct pairs }

def blacklistSize (ledger : RaceLedger) : Nat := ledger.blacklist.length

def isBlacklisted (ledger : RaceLedger) (pair : LocationPair) : Bool := pair ∈ ledger.blacklist

def record (ledger : RaceLedger) (pair : LocationPair) : RaceVerdict × RaceLedger :=
  if pair ∈ ledger.blacklist then (.blacklisted, ledger)
  else if pair ∈ ledger.seen then (.duplicate, ledger)
  else (.new, { ledger with seen := ledger.seen ++ [pair] })

-- Records a race, and adds a new one to the bug file at once.
def recordIn (ledger : RaceLedger) (bugFile : Option String) (pair : LocationPair)
    (files : LoggedDisk) : RaceVerdict × RaceLedger × LoggedDisk :=
  match ledger.record pair with
  | (.new, ledger) => (.new, ledger, BugFile.append files bugFile pair)
  | (verdict, ledger) => (verdict, ledger, files)

theorem record_blacklist (ledger : RaceLedger) (pair : LocationPair) :
    (ledger.record pair).2.blacklist = ledger.blacklist := by
  unfold record
  split
  · rfl
  · split <;> rfl

def reported (ledger : RaceLedger) : List LocationPair := LocationPair.sort ledger.seen

end RaceLedger

end DelayInjection
