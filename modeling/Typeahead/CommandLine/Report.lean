import Typeahead.Output.Words
import Typeahead.Session.Pass
import Typeahead.Text.Quoted
import Typeahead.Value.Printer

/-!
# Reports

What is printed about a pass: a text for people, with or without colour, or JSON.

| here | there |
| --- | --- |
| `Style`, `paint` | `Palette::paint`, `Palette::bold`, `Palette::dim` |
| `renderSegments`, `renderOutput` | `render_segments`, `print_output` |
| `renderCounts` | a line of `print_metrics` |
| `textReport` | `print_run` |
| `jsonReport` | `JsonReport::from`, printed |
-/

namespace Typeahead.CommandLine

/-- How long a pass took, in words and in microseconds. -/
structure Timing where
  text : String
  micros : Nat

namespace Timing

/-- A count of thousandfold parts of a unit, without zeros at the end. -/
def inUnit (nanos places : Nat) (unit : String) : String :=
  let digits := Nat.toDigits 10 (nanos % Nat.pow 10 places)
  let tail := List.replicate (places - digits.length) '0' ++ digits
  let kept := (tail.reverse.dropWhile (· = '0')).reverse
  toString (nanos / Nat.pow 10 places) ++
    (if places = 0 || kept.isEmpty then "" else "." ++ String.ofList kept) ++ unit

/-- A time in nanoseconds, told in the largest unit that it fills. -/
def ofNanos (nanos : Nat) : Timing where
  micros := nanos / 1000
  text :=
    if 1000000000 ≤ nanos then inUnit nanos 9 "s"
    else if 1000000 ≤ nanos then inUnit nanos 6 "ms"
    else if 1000 ≤ nanos then inUnit nanos 3 "\u00b5s"
    else inUnit nanos 0 "ns"

end Timing

/-! ## Colour -/

/-- The ways a text can stand out on a terminal. -/
inductive Style where
  | bold
  | dim
  | underline
  | green
  | yellow
  | blue
  | cyan
  | gray

/-- The number of a style in a terminal's control sequences. -/
def Style.code : Style → String
  | .bold => "1"
  | .dim => "2"
  | .underline => "4"
  | .green => "32"
  | .yellow => "33"
  | .blue => "34"
  | .cyan => "36"
  | .gray => "90"

/-- A text in a style, if there is colour. -/
def paint (color : Bool) (style : Style) (text : String) : String :=
  if color then "\x1b[" ++ style.code ++ "m" ++ text ++ "\x1b[0m" else text

/-! ## The text report -/

/-- The runs of a reading: typed ones bold, and underlined where a word starts, the others dim. -/
def renderSegments (color : Bool) (segments : List Segment) : String :=
  String.join (segments.map fun segment =>
    let text := String.ofList segment.text
    if segment.typed then
      let bold := paint color .bold text
      if segment.startsWord then paint color .underline bold else bold
    else paint color .dim text)

/-- Two lines about a reading. -/
def renderOutput (color : Bool) (index : Nat) (out : Output) : List String :=
  ["  " ++ paint color .gray ("[" ++ toString index ++ "]") ++ " " ++ renderSegments color out.segments ++
      " " ++ paint color .dim "│" ++ " " ++ paint color .yellow ("score " ++ out.score.fixed 3),
   "      " ++ paint color .dim "value:" ++ " " ++ paint color .green out.result.compact ++ "  " ++
      paint color .dim "│ completes:" ++ " " ++ paint color .cyan (quoted out.suggestion)]

def renderNothing (color : Bool) : List String :=
  [paint color .dim "  No interpretations",
   "", paint color .yellow "Possible reasons:",
   "  • The input is not a prefix of any command (try --fuzzy)",
   "  • Letter case differs (try --ignore-case)",
   "  • A phrase filter rejected every candidate",
   "", paint color .dim "  Tip: Set PARLANCE_LOG=trace to see pruning and extension decisions"]

/-- A line of three counts. -/
def renderCounts (color : Bool) (counts : List (String × Nat × Style)) : String :=
  "  " ++ "  │  ".intercalate (counts.map fun count =>
    paint color .dim (count.1 ++ ":") ++ " " ++ paint color count.2.2 (toString count.2.1))

def reportLines (color : Bool) (findings : Findings) (timing : Timing) : List String :=
  let metrics := findings.metrics
  ["", paint color .bold
      (paint color .cyan ("⚙  Parsing: \"" ++ String.ofList findings.input ++ "\""))] ++
  (if findings.extensions.isEmpty then []
    else ["   " ++ paint color .dim "extensions:" ++ " " ++
      paint color .blue (", ".intercalate findings.extensions)]) ++
  ["", paint color .gray "━━━ Interpretations ━━━"] ++
  (if findings.outputs.isEmpty then renderNothing color
    else findings.outputs.zipIdx.flatMap fun entry => renderOutput color entry.2 entry.1) ++
  ["", paint color .gray "━━━ Pass ━━━",
   renderCounts color [("nodes", metrics.nodes, .blue), ("literals", metrics.literals, .blue),
     ("outputs", metrics.outputs, .green)],
   renderCounts color [("pruned", metrics.pruned, .yellow), ("filtered", metrics.filtered, .yellow),
     ("depth", metrics.depth, .yellow)],
   "  Total: " ++ paint color .green timing.text, ""]

def textReport (color : Bool) (findings : Findings) (timing : Timing) : String :=
  String.join ((reportLines color findings timing).map (· ++ "\n"))

/-! ## The JSON report -/

def segmentValue (segment : Segment) : Value :=
  .obj [("text", .str (String.ofList segment.text)), ("is_input", .bool segment.typed),
    ("starts_word", .bool segment.startsWord)]

def outputValue (out : Output) : Value :=
  .obj [("result", out.result), ("remaining", .str (String.ofList out.remaining)),
    ("segments", .arr (out.segments.map segmentValue)), ("score", .float out.score)]

def jsonReport (findings : Findings) (timing : Timing) : String :=
  Value.pretty 0 (.obj
    [("input", .str (String.ofList findings.input)),
     ("extensions", .arr (findings.extensions.map .str)),
     ("outputs", .arr (findings.outputs.map outputValue)),
     ("elapsed_us", .int timing.micros)]) ++ "\n"

end Typeahead.CommandLine
