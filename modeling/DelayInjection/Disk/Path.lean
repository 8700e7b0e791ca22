import DelayInjection.Text.Fields

-- Paths as text. A path has an optional lead, `/` or a first `.`, and pieces between slashes.
-- Empty pieces and later dots name nothing.

namespace DelayInjection.Path

def isAbsolute (path : List Char) : Bool := path.head? == some '/'

-- Puts a path under a directory. An absolute path stands for itself.
def join (directory path : List Char) : List Char :=
  if isAbsolute path then path
  else if directory.isEmpty || directory.getLast? == some '/' then directory ++ path
  else directory ++ '/' :: path

def joinText (directory path : String) : String :=
  String.ofList (join directory.toList path.toList)

-- The lead of a path and the text after it.
def lead : List Char → List Char × List Char
  | '/' :: rest => (['/'], rest)
  | ['.'] => (['.'], [])
  | '.' :: '/' :: rest => (['.'], '/' :: rest)
  | path => ([], path)

-- Pieces that name nothing.
def isIdle (piece : List Char) : Bool := piece == [] || piece == ['.']

-- The pieces of a path from its end, without idle ones at the end.
def reversedPieces (path : List Char) : List (List Char) :=
  (Text.splitAll '/' (lead path).2).reverse.dropWhile isIdle

def ofReversed (path : List Char) (pieces : List (List Char)) : List Char :=
  (lead path).1 ++ Text.joinWith ['/'] pieces.reverse

-- The last component when it names a file.
def fileName? (path : List Char) : Option (List Char) :=
  match reversedPieces path with
  | [] => none
  | piece :: _ => if piece == ['.', '.'] then none else some piece

-- The path without its last component; the root and the empty path have none.
def parent? (path : List Char) : Option (List Char) :=
  match reversedPieces path with
  | _ :: rest => some (ofReversed path (rest.dropWhile isIdle))
  | [] => if (lead path).1 == ['.'] then some [] else none

-- A file name cut at its last dot, unless that dot is its first character.
def splitName (name : List Char) : List Char × Option (List Char) :=
  let back := name.reverse
  let extension := (back.takeWhile (· != '.')).reverse
  match (back.dropWhile (· != '.')) with
  | [] => (name, none)
  | _ :: [] => (name, none)
  | _ :: stem => (stem.reverse, some extension)

def stem (path : List Char) : List Char :=
  match fileName? path with
  | none => []
  | some name => (splitName name).1

def extension? (path : List Char) : Option (List Char) :=
  (fileName? path).bind fun name => (splitName name).2

-- Replaces the file name; a path without one gets the name below it.
def withFileName (path name : List Char) : List Char :=
  match fileName? path with
  | none => join path name
  | some _ => join ((parent? path).getD []) name

-- The names to walk through, dots included, and whether the path insists on a directory.
def steps (path : List Char) : List (List Char) :=
  (Text.splitAll '/' path).filter (!·.isEmpty)

def wantsDirectory (path : List Char) : Bool :=
  match (Text.splitAll '/' path).getLast? with
  | some piece => isIdle piece
  | none => true

end DelayInjection.Path
