import DelayInjection.Table
import DelayInjection.Disk.Path

-- The files that runs leave to each other: a tree of directories with text files, and files that
-- hold no text. Failures have the words of the system calls.

namespace DelayInjection

inductive FileError
  | notFound
  | denied
  | notDirectory
  | isDirectory
  | alreadyThere
  | nameTooLong
  | nulInName
  | notText
deriving DecidableEq

def FileError.message : FileError → String
  | .notFound => "No such file or directory (os error 2)"
  | .denied => "Permission denied (os error 13)"
  | .alreadyThere => "File exists (os error 17)"
  | .notDirectory => "Not a directory (os error 20)"
  | .isDirectory => "Is a directory (os error 21)"
  | .nameTooLong => "File name too long (os error 36)"
  | .nulInName => "file name contained an unexpected NUL byte"
  | .notText => "stream did not contain valid UTF-8"

inductive Node
  | text (content : String)
  | binary (content : List UInt8)
  | directory
deriving DecidableEq

-- The names on the way from the start, or `/` and the names from there. What lies above the start
-- has a key that begins with `..`, once for every step up.
abbrev FileKey := List String

namespace FileKey

-- Whether a key names the start or a directory above it.
def isAbove (key : FileKey) : Bool := key.all (· == "..")

def parent (key : FileKey) : FileKey :=
  if key = ["/"] then key else if key.isAbove then key ++ [".."] else key.dropLast

end FileKey

-- What lies where, and the directories in which nothing may be made or removed.
structure Disk where
  nodes : Table FileKey Node := .empty
  guarded : List FileKey := []

namespace Disk

def node? (disk : Disk) (key : FileKey) : Option Node :=
  if key.isAbove ∨ key = ["/"] then some .directory else disk.nodes.get? key

def isDirectoryKey (disk : Disk) (key : FileKey) : Bool := disk.node? key == some .directory

-- Whether the directory of an entry is guarded.
def isGuarded (disk : Disk) (key : FileKey) : Bool := key.parent ∈ disk.guarded

-- One step down from a directory, or up, or nowhere.
def descend (disk : Disk) (key : FileKey) (name : List Char) : Except FileError FileKey :=
  match disk.node? key with
  | none => .error .notFound
  | some .directory =>
      if name = ['.'] then .ok key
      else if name = ['.', '.'] then .ok key.parent
      else if 255 < (String.ofList name).utf8ByteSize then .error .nameTooLong
      else .ok (key ++ [String.ofList name])
  | some _ => .error .notDirectory

-- Paths that lead nowhere on any disk.
def checkPath (path : List Char) : Except FileError Unit :=
  if path.contains '\x00' then .error .nulInName
  else if path.isEmpty then .error .notFound
  else if 4096 ≤ (String.ofList path).utf8ByteSize then .error .nameTooLong
  else .ok ()

-- Follows steps from where a path starts; everything on the way has to be a directory.
def walk (disk : Disk) (path : List Char) (steps : List (List Char)) :
    Except FileError FileKey :=
  steps.foldlM disk.descend (if Path.isAbsolute path then ["/"] else [])

-- Where a path leads.
def resolve (disk : Disk) (path : List Char) : Except FileError FileKey := do
  checkPath path
  disk.walk path (Path.steps path)

def resolveText (disk : Disk) (path : String) : Except FileError FileKey :=
  disk.resolve path.toList

-- Where a file to write lies. A slash at the end asks for a directory, whatever the last name
-- leads to, so that only the way up to that name is followed.
def resolveFile (disk : Disk) (path : String) : Except FileError FileKey := do
  let path := path.toList
  checkPath path
  if path.getLast? = some '/' then
    let _ ← disk.walk path ((Path.steps path).dropLast ++ [['.']])
    .error .isDirectory
  else disk.walk path (Path.steps path)

-- The text of a file.
def read (disk : Disk) (path : String) : Except FileError String := do
  let key ← disk.resolveText path
  match disk.node? key with
  | none => .error .notFound
  | some .directory => .error .isDirectory
  | some node =>
      if Path.wantsDirectory path.toList then .error .notDirectory
      else match node with
        | .text content => .ok content
        | _ => .error .notText

-- Whether a path leads to anything.
def hasPath (disk : Disk) (path : String) : Bool :=
  match disk.resolveText path with
  | .error _ => false
  | .ok key => (disk.node? key).isSome

def put (disk : Disk) (key : FileKey) (node : Node) : Disk :=
  { disk with nodes := disk.nodes.insert key node }

-- Puts a file below a directory, with the directories on the way.
def place (disk : Disk) (start : FileKey) (path : String) (node : Node) : Disk :=
  let names := (Path.steps path.toList).map String.ofList
  let disk := (List.range (names.length - 1)).foldl
    (fun disk n => disk.put (start ++ names.take (n + 1)) .directory) disk
  disk.put (start ++ names) node

-- A directory with files in it.
def ofFiles (start : FileKey) (files : List (String × Node)) : Disk :=
  let disk : Disk := {}
  let disk := if start.isEmpty then disk else disk.put start .directory
  files.foldl (fun disk file => disk.place start file.1 file.2) disk

-- What lies below a directory, by the path from there.
def below (disk : Disk) (start : FileKey) : List (String × Node) :=
  disk.nodes.entries.filterMap fun (key, node) =>
    if start.isPrefixOf key && start.length < key.length then
      some (String.intercalate "/" (key.drop start.length), node)
    else none

-- What changes the disk gives the failure, if there was one, and the disk afterwards.
abbrev Attempt := Option FileError × Disk

-- Appends to a file, which is made when it is missing.
def append (disk : Disk) (path added : String) : Attempt :=
  match disk.resolveFile path with
  | .error e => (some e, disk)
  | .ok key =>
      match disk.node? key with
      | none =>
          if disk.isGuarded key then (some .denied, disk) else (none, disk.put key (.text added))
      | some .directory => (some .isDirectory, disk)
      | some (.text content) => (none, disk.put key (.text (content ++ added)))
      | some (.binary content) =>
          (none, disk.put key (.binary (content ++ added.toUTF8.toList)))

def remove (disk : Disk) (path : String) : Attempt :=
  match disk.resolveText path with
  | .error e => (some e, disk)
  | .ok key =>
      match disk.node? key with
      | none => (some .notFound, disk)
      | some node =>
          if disk.isGuarded key then (some .denied, disk)
          else if node = .directory then (some .isDirectory, disk)
          else (none, { disk with nodes := disk.nodes.erase key })

def makeDirectory (disk : Disk) (path : List Char) : Attempt :=
  match disk.resolve path with
  | .error e => (some e, disk)
  | .ok key =>
      match disk.node? key with
      | some _ => (some .alreadyThere, disk)
      | none =>
          if disk.isGuarded key then (some .denied, disk) else (none, disk.put key .directory)

def isDirectory (disk : Disk) (path : List Char) : Bool :=
  match disk.resolve path with
  | .error _ => false
  | .ok key => disk.isDirectoryKey key

-- Takes a directory that is there for a success.
def settle (path : List Char) (attempt : Attempt) : Attempt :=
  if attempt.2.isDirectory path then (none, attempt.2) else attempt

-- Makes a directory and those above it. Parents are shorter than their paths, so the length of
-- the path bounds the recursion.
def makeDirectoriesIn : Nat → Disk → List Char → Attempt
  | 0, disk, _ => (some .notFound, disk)
  | fuel + 1, disk, path =>
      if path.isEmpty then (none, disk)
      else
        match disk.makeDirectory path with
        | (some .notFound, disk) =>
            match Path.parent? path with
            | none => (some .notFound, disk)
            | some parent =>
                match makeDirectoriesIn fuel disk parent with
                | (some e, disk) => (some e, disk)
                | (none, disk) => settle path (disk.makeDirectory path)
        | attempt => settle path attempt

def makeDirectories (disk : Disk) (path : List Char) : Attempt :=
  makeDirectoriesIn (path.length + 1) disk path

-- Appends to a file below directories that are made when they are missing.
def appendBelow (disk : Disk) (path added : String) : Attempt :=
  match Path.parent? path.toList with
  | none => disk.append path added
  | some parent =>
      match disk.makeDirectories parent with
      | (some e, disk) => (some e, disk)
      | (none, disk) => disk.append path added

-- Appends lines, each with a line feed.
def appendLines (disk : Disk) (path : String) (lines : List String) : Attempt :=
  disk.appendBelow path (String.join (lines.map (· ++ "\n")))

end Disk

end DelayInjection
