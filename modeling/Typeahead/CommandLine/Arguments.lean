/-!
# Command-line arguments

Options may stand anywhere before `--`; all other arguments are words of the input. A switch is given at
most once and takes no value. A short option may be joined to others and to its value. Arguments are read
from left to right, and the first mistake ends the reading, as a request for the version does.

| here | there |
| --- | --- |
| `Invocation` | `Cli` |
| `AddOn` | `EXTENSIONS` |
| `Request.ofArguments` | `Cli::parse` |
-/

namespace Typeahead.CommandLine

/-- The extensions that can be asked for. -/
inductive AddOn where
  | extraApps
  | workContacts
  deriving DecidableEq

structure Invocation where
  words : List String := []
  fuzzy : Bool := false
  ignoreCase : Bool := false
  json : Bool := false
  color : Bool := false
  noColor : Bool := false
  limit : Option Nat := none
  extensions : List AddOn := []
  deriving DecidableEq

inductive Request where
  | version
  | help
  | read (invocation : Invocation)
  deriving DecidableEq

/-- What is wrong with the arguments. -/
inductive ArgumentError where
  | unknown (argument : String)
  | repeated (option : String)
  | missingValue (option : String)
  | unexpectedValue (option : String)
  | invalidValue (option value : String)
  | colorConflict
  deriving DecidableEq

def ArgumentError.message : ArgumentError → String
  | .unknown argument => "unexpected argument '" ++ argument ++ "'"
  | .repeated option => "'" ++ option ++ "' is given more than once"
  | .missingValue option => "'" ++ option ++ "' needs a value"
  | .unexpectedValue option => "'" ++ option ++ "' takes no value"
  | .invalidValue option value => "invalid value '" ++ value ++ "' for '" ++ option ++ "'"
  | .colorConflict => "'--color' cannot be used with '--no-color'"

/-- Options that are on or off. -/
inductive Switch where
  | fuzzy
  | ignoreCase
  | json
  | color
  | noColor

/-- Options that take a value. -/
inductive Parameter where
  | limit
  | extension

inductive Flag where
  | switch (switch : Switch)
  | parameter (parameter : Parameter)
  | version
  | help

/-- Options by their long names. -/
def Flag.ofLong? : String → Option Flag
  | "fuzzy" => some (.switch .fuzzy)
  | "ignore-case" => some (.switch .ignoreCase)
  | "json" => some (.switch .json)
  | "color" => some (.switch .color)
  | "no-color" => some (.switch .noColor)
  | "limit" => some (.parameter .limit)
  | "extension" => some (.parameter .extension)
  | "version" => some .version
  | "help" => some .help
  | _ => none

/-- Options by their letters. -/
def Flag.ofShort? : Char → Option Flag
  | 'i' => some (.switch .ignoreCase)
  | 'n' => some (.parameter .limit)
  | 'e' => some (.parameter .extension)
  | 'V' => some .version
  | 'h' => some .help
  | _ => none

def Switch.name : Switch → String
  | .fuzzy => "--fuzzy"
  | .ignoreCase => "--ignore-case"
  | .json => "--json"
  | .color => "--color"
  | .noColor => "--no-color"

def Parameter.name : Parameter → String
  | .limit => "--limit"
  | .extension => "--extension"

/-- A count of 64 bits: decimal digits, after at most one plus sign. -/
def readCount? (text : String) : Option Nat :=
  let digits := match text.toList with
    | '+' :: rest => rest
    | all => all
  if digits.isEmpty || !digits.all Char.isDigit then none
  else
    let count := digits.foldl (fun acc c => 10 * acc + (c.toNat - '0'.toNat)) 0
    if count ≤ 0xffffffffffffffff then some count else none

def AddOn.ofName? : String → Option AddOn
  | "extra-apps" => some .extraApps
  | "work-contacts" => some .workContacts
  | _ => none

namespace Invocation

/-- Turn a switch on, if it is not on already. -/
def turnOn (invocation : Invocation) (switch : Switch) : Except ArgumentError Invocation :=
  let (isOn, turned) := match switch with
    | .fuzzy => (invocation.fuzzy, { invocation with fuzzy := true })
    | .ignoreCase => (invocation.ignoreCase, { invocation with ignoreCase := true })
    | .json => (invocation.json, { invocation with json := true })
    | .color => (invocation.color, { invocation with color := true })
    | .noColor => (invocation.noColor, { invocation with noColor := true })
  if isOn then .error (.repeated switch.name) else .ok turned

def assign (invocation : Invocation) (parameter : Parameter) (value : String) :
    Except ArgumentError Invocation :=
  match parameter with
  | .limit =>
    match readCount? value, invocation.limit with
    | some count, none => .ok { invocation with limit := some count }
    | some _, some _ => .error (.repeated parameter.name)
    | none, _ => .error (.invalidValue parameter.name value)
  | .extension =>
    match AddOn.ofName? value with
    | some extension => .ok { invocation with extensions := invocation.extensions ++ [extension] }
    | none => .error (.invalidValue parameter.name value)

/-- The last check, when all arguments are read. -/
def finish (invocation : Invocation) : Except ArgumentError Request :=
  if invocation.color && invocation.noColor then .error .colorConflict else .ok (.read invocation)

end Invocation

/-- How one argument leaves the reading. -/
inductive Progression where
  | continue (invocation : Invocation)
  /-- A parameter waits for its value. -/
  | await (parameter : Parameter) (invocation : Invocation)
  | stop (request : Request)

/-- Read a long option, with the value after its equals sign if it has one. -/
def readLong (invocation : Invocation) (name : String) (value : Option String) :
    Except ArgumentError Progression :=
  match Flag.ofLong? name, value with
  | none, _ => .error (.unknown ("--" ++ name))
  | some (.switch switch), none => (invocation.turnOn switch).map .continue
  | some (.parameter parameter), some value => (invocation.assign parameter value).map .continue
  | some (.parameter parameter), none => .ok (.await parameter invocation)
  | some .version, none => .ok (.stop .version)
  | some .help, none => .ok (.stop .help)
  | some _, some _ => .error (.unexpectedValue ("--" ++ name))

/-- Read joined short options. The first one that takes a value takes all that follows, without an equals
sign before it. -/
def readShort (invocation : Invocation) : List Char → Except ArgumentError Progression
  | [] => .ok (.continue invocation)
  | letter :: rest =>
    match Flag.ofShort? letter with
    | none => .error (.unknown ("-" ++ String.singleton letter))
    | some (.switch switch) =>
      match invocation.turnOn switch with
      | .ok invocation => readShort invocation rest
      | .error mistake => .error mistake
    | some (.parameter parameter) =>
      match rest with
      | [] => .ok (.await parameter invocation)
      | '=' :: value => (invocation.assign parameter (String.ofList value)).map .continue
      | value => (invocation.assign parameter (String.ofList value)).map .continue
    | some .version => .ok (.stop .version)
    | some .help => .ok (.stop .help)

/-- Read one argument, not `--`. A dash alone is a word. -/
def readArgument (invocation : Invocation) (argument : String) : Except ArgumentError Progression :=
  match argument.toList with
  | '-' :: '-' :: long =>
    let name := long.takeWhile (· ≠ '=')
    let value := match long.dropWhile (· ≠ '=') with
      | [] => none
      | _ :: value => some (String.ofList value)
    readLong invocation (String.ofList name) value
  | '-' :: letter :: letters => readShort invocation (letter :: letters)
  | _ => .ok (.continue { invocation with words := invocation.words ++ [argument] })

/-- Whether an argument can be a value that stands by itself. -/
def isValue (argument : String) : Bool :=
  match argument.toList with
  | '-' :: _ :: _ => false
  | _ => true

/-- Read arguments from left to right. -/
def readArguments (invocation : Invocation) : List String → Except ArgumentError Request
  | [] => invocation.finish
  | argument :: rest =>
    if argument = "--" then
      { invocation with words := invocation.words ++ rest }.finish
    else
      match readArgument invocation argument with
      | .error mistake => .error mistake
      | .ok (.stop request) => .ok request
      | .ok (.continue invocation) => readArguments invocation rest
      | .ok (.await parameter invocation) =>
        match rest with
        | [] => .error (.missingValue parameter.name)
        | value :: rest =>
          if isValue value then
            match invocation.assign parameter value with
            | .error mistake => .error mistake
            | .ok invocation => readArguments invocation rest
          else .error (.missingValue parameter.name)

def Request.ofArguments (arguments : List String) : Except ArgumentError Request :=
  readArguments {} arguments

end Typeahead.CommandLine
