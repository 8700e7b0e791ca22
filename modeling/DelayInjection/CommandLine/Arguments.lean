import DelayInjection.Text.Numeral

-- The arguments of the inspection command. Options may stand before the command and after it; the
-- ones after it win. An option is given once at each of the two places.

namespace DelayInjection.CommandLine

inductive OutputFormat
  | text
  | json
deriving DecidableEq

inductive Command
  | check (config : String)
  | plans (file : String) (delayMs : UInt64)
  | bugs (file : String)
deriving DecidableEq

structure Invocation where
  command : Command
  format : OutputFormat
  debug : Bool
deriving DecidableEq

inductive UsageError
  | unknownArgument (argument : String)
  | unknownCommand (name : String)
  | repeated (option : String)
  | valueMissing (option : String)
  | valueRefused (option value : String)
  | commandMissing
  | fileMissing
deriving DecidableEq

def UsageError.message : UsageError → String
  | .unknownArgument argument => "unexpected argument '" ++ argument ++ "'"
  | .unknownCommand name => "unrecognized subcommand '" ++ name ++ "'"
  | .repeated option => "the argument '" ++ option ++ "' cannot be used multiple times"
  | .valueMissing option => "a value is required for '" ++ option ++ "'"
  | .valueRefused option value => "invalid value '" ++ value ++ "' for '" ++ option ++ "'"
  | .commandMissing => "a subcommand is required"
  | .fileMissing => "a file is required"

-- What the arguments ask for.
inductive Request
  | run (invocation : Invocation)
  | version
  | help
deriving DecidableEq

-- The options and the file given at one place.
structure Given where
  format : Option OutputFormat := none
  debug : Bool := false
  delayMs : Option UInt64 := none
  file : Option String := none

inductive CommandName
  | check
  | plans
  | bugs
deriving DecidableEq

def CommandName.ofText? : String → Option CommandName
  | "check" => some .check
  | "plans" => some .plans
  | "bugs" => some .bugs
  | _ => none

def looksLikeOption (argument : String) : Bool :=
  argument.startsWith "-" && argument != "-"

def format? : String → Option OutputFormat
  | "text" => some .text
  | "json" => some .json
  | _ => none

-- A natural number below 2^64, with an optional plus sign.
def word? (text : String) : Option UInt64 :=
  let digits := match text.toList with
    | '+' :: rest => rest
    | digits => digits
  (Text.natural? digits).bind fun n => Text.word64? n

def setFormat (given : Given) (value : String) : Except UsageError Given :=
  if given.format.isSome then .error (.repeated "--format")
  else match format? value with
    | some format => .ok { given with format := some format }
    | none => .error (.valueRefused "--format" value)

def setDelay (given : Given) (value : String) : Except UsageError Given :=
  if given.delayMs.isSome then .error (.repeated "--delay-ms")
  else match word? value with
    | some ms => .ok { given with delayMs := some ms }
    | none => .error (.valueRefused "--delay-ms" value)

def setDebug (given : Given) : Except UsageError Given :=
  if given.debug then .error (.repeated "--debug") else .ok { given with debug := true }

def setFile (given : Given) (value : String) : Except UsageError Given :=
  if given.file.isSome then .error (.unknownArgument value)
  else if value.isEmpty then .error (.valueMissing "file")
  else .ok { given with file := some value }

-- An option whose value stands behind an equals sign.
def attached? (option argument : String) : Option String :=
  if argument.startsWith (option ++ "=") then
    some (String.ofList (argument.toList.drop (option.length + 1)))
  else none

-- Reads the option at the head of the arguments, if one of those allowed at this place is there.
-- The value of an option may not look like an option.
def option? (delayAllowed : Bool) (given : Given) (argument : String) (rest : List String) :
    Option (Except UsageError (Given × List String)) :=
  let withValue (option : String) (set : Given → String → Except UsageError Given) :=
    match rest with
    | value :: rest =>
        if looksLikeOption value then some (.error (.valueMissing option))
        else some ((set given value).map (·, rest))
    | [] => some (.error (.valueMissing option))
  if argument == "--debug" then some ((setDebug given).map (·, rest))
  else if argument == "--format" then withValue "--format" setFormat
  else if delayAllowed && argument == "--delay-ms" then withValue "--delay-ms" setDelay
  else match attached? "--format" argument with
    | some value => some ((setFormat given value).map (·, rest))
    | none =>
        if delayAllowed then
          (attached? "--delay-ms" argument).map fun value => (setDelay given value).map (·, rest)
        else none

-- Everything after a double dash is a file.
def filesOnly (given : Given) : List String → Except UsageError Given
  | [] => .ok given
  | value :: rest => do
      let given ← setFile given value
      filesOnly given rest

-- The command that its options and file make up.
def complete (name : CommandName) (outer inner : Given) : Except UsageError Request :=
  match inner.file with
  | none => .error .fileMissing
  | some file =>
      let command := match name with
        | .check => .check file
        | .plans => .plans file (inner.delayMs.getD 100)
        | .bugs => .bugs file
      .ok (.run
        { command
          format := (inner.format.or outer.format).getD .text
          debug := inner.debug || outer.debug })

-- The arguments after the command. The fuel is their number, and each step takes one at least.
def inner (name : CommandName) (outer : Given) :
    Nat → Given → List String → Except UsageError Request
  | 0, _, _ => .error .commandMissing
  | _ + 1, given, [] => complete name outer given
  | fuel + 1, given, argument :: rest =>
      if argument == "--" then do
        let given ← filesOnly given rest
        complete name outer given
      else if argument == "--help" || argument == "-h" then .ok .help
      else match option? (name == .plans) given argument rest with
        | some result => do
            let (given, rest) ← result
            inner name outer fuel given rest
        | none =>
            if looksLikeOption argument then .error (.unknownArgument argument)
            else do
              let given ← setFile given argument
              inner name outer fuel given rest

-- The arguments up to the command.
def outer : Nat → Given → List String → Except UsageError Request
  | 0, _, _ => .error .commandMissing
  | _ + 1, _, [] => .error .commandMissing
  | fuel + 1, given, argument :: rest =>
      if argument == "--" then
        match rest with
        | [] => .error .commandMissing
        | value :: _ => .error (.unknownArgument value)
      else if argument == "--version" || argument.startsWith "-V" then .ok .version
      else if argument == "--help" || argument.startsWith "-h" || argument == "help" then .ok .help
      else match option? false given argument rest with
        | some result => do
            let (given, rest) ← result
            outer fuel given rest
        | none =>
            if looksLikeOption argument then .error (.unknownArgument argument)
            else match CommandName.ofText? argument with
              | some name => inner name given (rest.length + 1) {} rest
              | none => .error (.unknownCommand argument)

def parse (arguments : List String) : Except UsageError Request :=
  outer (arguments.length + 1) {} arguments

end DelayInjection.CommandLine
