-- Lines of a text. A line ends at a line feed, or at a carriage return and a line feed; a last
-- line without a line feed counts when it is not empty, and keeps a final carriage return.

namespace DelayInjection.Text

-- A line that ended in a line feed gives up one carriage return before it.
def dropReturn (line : List Char) : List Char :=
  if line.getLast? = some '\r' then line.dropLast else line

-- Reads lines with the reversed beginning of the current one at hand.
def linesFrom (current : List Char) : List Char → List (List Char)
  | [] => if current.isEmpty then [] else [current.reverse]
  | c :: rest =>
      if c = '\n' then dropReturn current.reverse :: linesFrom [] rest
      else linesFrom (c :: current) rest

def lines (text : List Char) : List (List Char) := linesFrom [] text

-- Pairs every item with its number, counted from one.
def numbered {α : Type} (items : List α) : List (Nat × α) :=
  items.mapIdx fun index item => (index + 1, item)

end DelayInjection.Text
