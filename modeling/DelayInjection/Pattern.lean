-- Signature patterns. A star stands for any run of characters without a line feed, every other
-- character for itself, and a pattern has to cover the whole signature.

namespace DelayInjection

namespace Wildcard

-- A row says for every suffix of a signature, from the longest to the empty one, whether a
-- pattern covers it. The empty pattern covers only the empty suffix.
def emptyRow (signature : List Char) : List Bool := signature.map (fun _ => false) ++ [true]

-- The row of a pattern with one more literal character in front.
def literalRow (c : Char) : List Char → List Bool → List Bool
  | x :: signature, _ :: row => (x == c && row.headD false) :: literalRow c signature row
  | _, _ => [false]

-- The row of a pattern with one more star in front: the star ends here, or takes one character.
def starRow : List Char → List Bool → List Bool
  | x :: signature, here :: row =>
      let later := starRow signature row
      (here || (x != '\n' && later.headD false)) :: later
  | _, row => row

def row (pattern signature : List Char) : List Bool :=
  pattern.foldr
    (fun c row => if c = '*' then starRow signature row else literalRow c signature row)
    (emptyRow signature)

-- Whether the pattern covers the whole signature.
def covers (pattern signature : List Char) : Bool := (row pattern signature).headD false

-- The characters that a regular expression would read as operators.
def isOperator (c : Char) : Bool :=
  ['\\', '.', '+', '*', '?', '(', ')', '|', '[', ']', '\x7b', '\x7d', '^', '$', '#', '&', '-',
    '~'].contains c

-- How one pattern character is written in a regular expression.
def regexPiece (c : Char) : List Char :=
  if c = '*' then ['.', '*'] else if isOperator c then ['\\', c] else [c]

-- The anchored regular expression with the same meaning.
def regex (pattern : List Char) : List Char := '^' :: pattern.flatMap regexPiece ++ ['$']

def stars (pattern : List Char) : Nat := pattern.countP (· == '*')

end Wildcard

-- The regular expressions that an engine takes. It refuses those that compile to more than its
-- size limit, which is the engine's own.
structure RegexLimit where
  admits : String → Bool

-- A text that was taken as a pattern.
structure Pattern where
  text : String

namespace Pattern

def regexText (text : String) : String := String.ofList (Wildcard.regex text.toList)

def compile? (limit : RegexLimit) (text : String) : Option Pattern :=
  if limit.admits (regexText text) then some ⟨text⟩ else none

def accepts (pattern : Pattern) (signature : String) : Bool :=
  Wildcard.covers pattern.text.toList signature.toList

-- Whether a text has a star at all; one without names a single signature.
def isWildcard (text : String) : Bool := text.toList.contains '*'

-- Compiles a pattern for one question; a pattern that is refused matches nothing.
def matchesText (limit : RegexLimit) (text signature : String) : Bool :=
  match compile? limit text with
  | some pattern => pattern.accepts signature
  | none => false

theorem text_of_compile? {limit : RegexLimit} {text : String} {pattern : Pattern}
    (h : compile? limit text = some pattern) : pattern.text = text := by
  unfold compile? at h
  split at h
  · exact (Option.some.inj h) ▸ rfl
  · cases h

end Pattern

-- Patterns that are asked together, in configured order.
structure PatternSet where
  patterns : List Pattern := []

namespace PatternSet

-- Compiles every text, or names the first one that is refused.
def compile (limit : RegexLimit) : List String → Except String PatternSet
  | [] => .ok {}
  | text :: rest =>
      match Pattern.compile? limit text with
      | none => .error text
      | some pattern => (compile limit rest).map fun set => { patterns := pattern :: set.patterns }

def matchesAny (set : PatternSet) (signature : String) : Bool :=
  set.patterns.any (·.accepts signature)

def size (set : PatternSet) : Nat := set.patterns.length

def isEmpty (set : PatternSet) : Bool := set.patterns.isEmpty

end PatternSet

end DelayInjection
