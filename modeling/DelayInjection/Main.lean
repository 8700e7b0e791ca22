import DelayInjection.CommandLine.Answer

namespace DelayInjection.CommandLine

-- The number of a system error, which comes with either sign.
def errorNumber (code : UInt32) : Nat := min code.toNat (Nat.pow 2 32 - code.toNat)

-- The failure that the system reports for a file.
def failureOf : IO.Error → FileError
  | .inappropriateType _ code _ => if errorNumber code = 20 then .notDirectory else .isDirectory
  | .invalidArgument _ code _ => if errorNumber code = 36 then .nameTooLong else .nulInName
  | .permissionDenied .. => .denied
  | _ => .notFound

def readFile (path : String) : IO (Except FileError String) := do
  try
    let bytes ← IO.FS.readBinFile path
    match String.fromUTF8? bytes with
    | some text => return .ok text
    | none => return .error .notText
  catch e => return .error (failureOf e)

-- Patterns are taken whatever their size.
def unlimited : RegexLimit := { admits := fun _ => true }

end DelayInjection.CommandLine

open DelayInjection.CommandLine in
def main (arguments : List String) : IO UInt32 := do
  let content ← match parse arguments with
    | .ok (.run invocation) => readFile invocation.command.path
    | _ => pure (.ok "")
  let output := answer unlimited arguments fun _ => content
  IO.print output.stdout
  IO.eprint output.stderr
  return UInt32.ofNat output.exit
