namespace DelayInjection

-- An unordered pair of location keys, kept with the larger key first.
structure LocationPair where
  first : String
  second : String
  ordered : second ≤ first
deriving DecidableEq

namespace LocationPair

def of (a b : String) : LocationPair :=
  if h : b ≤ a then ⟨a, b, h⟩ else ⟨b, a, (String.le_total a b).resolve_right h⟩

def contains (pair : LocationPair) (location : String) : Bool :=
  pair.first == location || pair.second == location

def partner? (pair : LocationPair) (location : String) : Option String :=
  if pair.first == location then some pair.second
  else if pair.second == location then some pair.first
  else none

-- The line of a bug file.
def text (pair : LocationPair) : String := pair.first ++ " " ++ pair.second

-- Pairs are ordered by their first keys, then by their second.
def le (a b : LocationPair) : Bool :=
  a.first < b.first || (a.first == b.first && a.second ≤ b.second)

def sort (pairs : List LocationPair) : List LocationPair := pairs.mergeSort le

theorem of_comm (a b : String) : of a b = of b a := by
  unfold of
  by_cases hab : b ≤ a <;> by_cases hba : a ≤ b
  · have := String.le_antisymm hab hba
    subst this
    rfl
  · simp [hab, hba]
  · simp [hab, hba]
  · exact absurd ((String.le_total a b).resolve_left hba) hab

end LocationPair

end DelayInjection
