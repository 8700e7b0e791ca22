import DelayInjection.Log
import DelayInjection.Text.Lines
import DelayInjection.Persist.Replay

namespace DelayInjection

inductive PersistenceError
  | io (error : FileError)
  | malformedLine (line : Nat) (reason : LineError)
deriving DecidableEq

def PersistenceError.message : PersistenceError → String
  | .io error => "IO error: " ++ error.message
  | .malformedLine line reason => "Malformed line " ++ Text.ofNat line ++ ": " ++ reason.message

-- The text of the error below this one, for errors that only pass it on.
def PersistenceError.cause? : PersistenceError → Option String
  | .io error => some error.message
  | .malformedLine _ _ => none

-- What the log is told of a line that a reader leaves out.
def skippedLine (kind path : String) (number : Nat) (reason : LineError) : LogLine where
  level := .warn
  message := "Skipping malformed " ++ kind ++ " line " ++ Text.ofNat number ++ " in " ++ path ++
    ": " ++ reason.message

namespace PlanFile

-- The strict reader ends at the first malformed line.
def readLineStrict (pairs : List PlanLine) (line : Nat × List Char) :
    Except PersistenceError (List PlanLine) := do
  let parsed ← (PlanLine.ofChars line.2).mapError (.malformedLine line.1)
  return pairs ++ parsed.toList

-- The plans of a text in which every line is well-formed, blank or a comment.
def parseStrict (content : Except FileError String) (delayMs : UInt64) :
    Except PersistenceError (List TrapPlan) := do
  let content ← content.mapError .io
  let pairs ← (Text.numbered (Text.lines content.toList)).foldlM readLineStrict []
  return plansFromPairs pairs delayMs

def readStrict (disk : Disk) (path : String) (delayMs : UInt64) :
    Except PersistenceError (List TrapPlan) := parseStrict (disk.read path) delayMs

-- The forgiving reader leaves malformed lines out and warns of them.
def readLine (path : String) (read : List PlanLine × LoggedDisk) (line : Nat × List Char) :
    List PlanLine × LoggedDisk :=
  match PlanLine.ofChars line.2 with
  | .ok (some pair) => (read.1 ++ [pair], read.2)
  | .ok none => read
  | .error reason => (read.1, read.2.write (skippedLine "plan" path line.1 reason))

def delete (files : LoggedDisk) (path : String) : LoggedDisk :=
  match files.disk.remove path with
  | (none, disk) => { files with disk := disk }
  | (some e, _) => files.warn ("Failed to delete plan file " ++ path ++ ": " ++ e.message)

-- The plans of the previous run. A file that could be read is deleted.
def load (files : LoggedDisk) (path : String) (delayMs : UInt64) : List TrapPlan × LoggedDisk :=
  match files.readOptional path with
  | (none, files) => ([], files)
  | (some content, files) =>
      let (pairs, files) :=
        (Text.numbered (Text.lines content.toList)).foldl (readLine path) ([], files)
      (plansFromPairs pairs delayMs, delete files path)

end PlanFile

namespace BugFile

-- The strict reader lists a pair where it comes first.
def readLineStrict (pairs : List LocationPair) (line : Nat × List Char) :
    Except PersistenceError (List LocationPair) := do
  match ← (BugLine.ofChars line.2).mapError (.malformedLine line.1) with
  | some pair => return if pairs.contains pair then pairs else pairs ++ [pair]
  | none => return pairs

-- The different pairs of a text in which every line is well-formed, blank or a comment.
def parseStrict (content : Except FileError String) :
    Except PersistenceError (List LocationPair) := do
  let content ← content.mapError .io
  (Text.numbered (Text.lines content.toList)).foldlM readLineStrict []

def readStrict (disk : Disk) (path : String) : Except PersistenceError (List LocationPair) :=
  parseStrict (disk.read path)

-- The forgiving reader makes a set of the pairs, whose order means nothing.
def readLine (path : String) (read : List LocationPair × LoggedDisk) (line : Nat × List Char) :
    List LocationPair × LoggedDisk :=
  match BugLine.ofChars line.2 with
  | .ok (some pair) => (read.1.insert pair, read.2)
  | .ok none => read
  | .error reason => (read.1, read.2.write (skippedLine "bug" path line.1 reason))

-- The races confirmed so far. The file stays.
def load (files : LoggedDisk) (path : String) : List LocationPair × LoggedDisk :=
  match files.readOptional path with
  | (none, files) => ([], files)
  | (some content, files) =>
      (Text.numbered (Text.lines content.toList)).foldl (readLine path) ([], files)

-- Adds a confirmed race at the end; without a path nothing is kept.
def append (files : LoggedDisk) (path? : Option String) (pair : LocationPair) : LoggedDisk :=
  match path? with
  | none => files
  | some path => files.appendLines "bug" path [pair.text]

end BugFile

end DelayInjection
