-- Texts cut at separators: at every separator character, or once at the first separator text.

namespace DelayInjection.Text

-- The pieces between separator characters; there is always one piece more than separators.
def splitAll (separator : Char) : List Char → List (List Char)
  | [] => [[]]
  | c :: rest =>
      if c = separator then [] :: splitAll separator rest
      else
        match splitAll separator rest with
        | [] => [[c]]
        | piece :: pieces => (c :: piece) :: pieces

-- What stands before and after the first occurrence of the separator text.
def splitOnce (separator : List Char) : List Char → Option (List Char × List Char)
  | [] => if separator.isEmpty then some ([], []) else none
  | c :: rest =>
      if separator.isPrefixOf (c :: rest) then some ([], (c :: rest).drop separator.length)
      else (splitOnce separator rest).map fun sides => (c :: sides.1, sides.2)

-- The pieces put together again with the separator between them.
def joinWith (separator : List Char) : List (List Char) → List Char
  | [] => []
  | [piece] => piece
  | piece :: pieces => piece ++ separator ++ joinWith separator pieces

theorem splitAll_ne_nil (separator : Char) (text : List Char) : splitAll separator text ≠ [] := by
  cases text with
  | nil => simp [splitAll]
  | cons c rest =>
      simp only [splitAll]
      split
      · simp
      · split <;> simp

theorem joinWith_splitAll (separator : Char) (text : List Char) :
    joinWith [separator] (splitAll separator text) = text := by
  induction text with
  | nil => rfl
  | cons c rest ih =>
      simp only [splitAll]
      split
      · rename_i h
        cases hs : splitAll separator rest with
        | nil => exact absurd hs (splitAll_ne_nil separator rest)
        | cons piece pieces => rw [hs] at ih; simp [joinWith, ih, h]
      · cases hs : splitAll separator rest with
        | nil => exact absurd hs (splitAll_ne_nil separator rest)
        | cons piece pieces =>
            rw [hs] at ih
            cases pieces with
            | nil => simpa [joinWith] using ih
            | cons next others => simpa [joinWith] using ih

end DelayInjection.Text
