import Typeahead.CommandLine.Commands
import Typeahead.CommandLine.Report

/-!
# The command line

The arguments ask for the version, for help, or for a line of input to be read against the command grammar.
The input is the words among the arguments, or, if there are none, what stands on standard input. Exit
codes: 0 on success, 1 on a grammar with a defect, 2 on invalid arguments or unreadable input.

| here | there |
| --- | --- |
| `respond` | `main` |
| `Invocation.input` | `read_stdin_input`, and the words of `Cli::input` |
| `Invocation.findings` | `main`, through `parse_verbose` and `rank` |
| `Invocation.report` | `main`, from there on, with `Cli::color` |
-/

namespace Typeahead.CommandLine

/-- What the program says and how it exits. -/
structure Reply where
  code : Nat
  out : String := ""
  err : String := ""

def versionText : String := "parlance 0.1.0\n"

def helpText : String :=
  "Usage: parlance [OPTIONS] [INPUT]...\n\n" ++
  "  --fuzzy            Treat every literal as fuzzy\n" ++
  "  -i, --ignore-case  Compare characters case-insensitively\n" ++
  "  -n, --limit N      Stop after this many interpretations\n" ++
  "  -e, --extension NAME\n                     Enable a demo extension: extra-apps, work-contacts\n" ++
  "  --json             Print interpretations as JSON\n" ++
  "  --color            Force ANSI color output\n" ++
  "  --no-color         Disable ANSI color output\n"

/-- What to do about the arguments: answer at once, or read input. -/
inductive Plan where
  | answer (reply : Reply)
  | read (invocation : Invocation)

def Plan.ofArguments (arguments : List String) : Plan :=
  match Request.ofArguments arguments with
  | .error mistake => .answer { code := 2, err := "error: " ++ mistake.message ++ "\n" }
  | .ok .version => .answer { code := 0, out := versionText }
  | .ok .help => .answer { code := 0, out := helpText }
  | .ok (.read invocation) => .read invocation

/-- The reply when standard input is not text. -/
def unreadable : Reply := { code := 2, err := "error: failed to read stdin\n" }

namespace Invocation

/-- Whether the input is taken from standard input. -/
def wantsInput (invocation : Invocation) : Bool := invocation.words.isEmpty

/-- The input: the words with single blanks between them, or the given text without line ends at its
end. -/
def input (invocation : Invocation) (standard : String) : Text :=
  if invocation.wantsInput then
    (standard.toList.reverse.dropWhile fun c => c = '\r' || c = '\n').reverse
  else (" ".intercalate invocation.words).toList

/-- Read the input against the command grammar, the best readings first. -/
def findings (invocation : Invocation) (input : Text) : Except String Findings :=
  match invocation.session with
  | .error defect => .error defect.message
  | .ok session =>
    match (session.parse input).1 with
    | .error fault => .error fault.message
    | .ok findings => .ok { findings with outputs := rank findings.outputs }

def report (invocation : Invocation) (terminal : Bool) (timing : Timing) :
    Except String Findings → Reply
  | .error message => { code := 1, err := "error: " ++ message ++ "\n" }
  | .ok findings =>
    let color := invocation.color || (!invocation.noColor && terminal)
    { code := 0, out := if invocation.json then jsonReport findings timing
        else textReport color findings timing }

end Invocation

/-- The whole reply to arguments and standard input, which is missing if it is not text. -/
def respond (arguments : List String) (standard : Option String) (terminal : Bool) (timing : Timing) :
    Reply :=
  match Plan.ofArguments arguments with
  | .answer reply => reply
  | .read invocation =>
    match if invocation.wantsInput then standard else some "" with
    | none => unreadable
    | some standard =>
      invocation.report terminal timing (invocation.findings (invocation.input standard))

end Typeahead.CommandLine
