import DelayInjection.Disk.Basic

namespace DelayInjection

inductive Level
  | trace
  | debug
  | info
  | warn
  | error
deriving DecidableEq

def Level.text : Level → String
  | .trace => "TRACE"
  | .debug => "DEBUG"
  | .info => "INFO"
  | .warn => "WARN"
  | .error => "ERROR"

structure LogLine where
  level : Level
  message : String
  fields : List (String × String) := []
deriving DecidableEq

def LogLine.text (line : LogLine) : String :=
  line.level.text ++ " " ++ line.message ++
    String.join (line.fields.map fun field => " " ++ field.1 ++ "=" ++ field.2)

-- The disk together with the log that its users write, newest line last.
structure LoggedDisk where
  disk : Disk := {}
  log : List LogLine := []

namespace LoggedDisk

def write (files : LoggedDisk) (line : LogLine) : LoggedDisk :=
  { files with log := files.log ++ [line] }

def warn (files : LoggedDisk) (message : String) : LoggedDisk :=
  files.write { level := .warn, message }

-- A failed read of a file that need not be there: a missing file is no matter for the log.
def readOptional (files : LoggedDisk) (path : String) : Option String × LoggedDisk :=
  match files.disk.read path with
  | .ok content => (some content, files)
  | .error .notFound => (none, files)
  | .error e => (none, files.warn ("Failed to read " ++ path ++ ": " ++ e.message))

-- Appends lines to a file, or warns that this kind of file cannot be written.
def appendLines (files : LoggedDisk) (kind path : String) (lines : List String) : LoggedDisk :=
  match files.disk.appendLines path lines with
  | (none, disk) => { files with disk := disk }
  | (some e, disk) =>
      { files with disk := disk }.warn
        ("Failed to write " ++ kind ++ " file " ++ path ++ ": " ++ e.message)

end LoggedDisk

end DelayInjection
