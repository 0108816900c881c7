import Typeahead.Output.Ranking
import Typeahead.Resolution
import Typeahead.Session

/-!
# Passes

A pass reads input against a fixed set of extensions, in an epoch of its own. Its readings are those of
every sentence in turn that leave nothing of the input, up to the limit. Several inputs can be read side by
side, their streams pulled in any order; they share the counts and marks of the pass.

| here | there |
| --- | --- |
| `Session.pass` | `Parser::pass` |
| `handOut`, `stream` | `Pass::parse` |
| `Findings` | `ParseDetails` |
| `Session.parse` | `Parser::parse_verbose` |
-/

namespace Typeahead

variable {n : Nat}

structure Pass (n : Nat) where
  context : Context n
  sentences : List (Placed n)
  limit : Option Nat
  progress : Progress

/-- Start a pass: a new epoch, the extensions active now, nothing counted yet. -/
def Session.pass (session : Session n) : Pass n where
  context := ⟨session.phrases, session.registry, session.settings.leniency⟩
  sentences := session.sentences
  limit := session.settings.limit
  progress := ⟨session.freshness.beginPass, session.described, {}⟩

/-- The session after a pass has got so far. -/
def Session.absorb (session : Session n) (progress : Progress) : Session n :=
  { session with freshness := progress.freshness, described := progress.described }

namespace Pass

/-- Hand out a reading if it leaves nothing of the input. -/
def handOut (out : Output) : Run Output :=
  if out.isComplete then .event .emit fun _ => Run.pure out else .done

/-- The readings of all sentences, in order, without regard to the limit. -/
def unlimited (pass : Pass n) (input : Text) : Run Output :=
  (Run.ofList pass.sentences fun sentence => pass.context.resolve sentence input).bind handOut

/-- The readings of all sentences, in order, up to the limit. -/
def stream (pass : Pass n) (input : Text) : Run Output :=
  match pass.limit with
  | some limit => (pass.unlimited input).take limit
  | none => pass.unlimited input

end Pass

/-- Streams of one pass, pulled side by side. -/
structure Streams where
  runs : List (Run Output)
  progress : Progress

namespace Streams

/-- A stream for each input; nothing is read yet. -/
def ofInputs (pass : Pass n) (inputs : List Text) : Streams :=
  ⟨inputs.map pass.stream, pass.progress⟩

/-- Pull once on the stream at a place. An exhausted stream stays so. -/
def pull (streams : Streams) (place : Nat) : Except Fault (Option Output) × Streams :=
  match streams.runs[place]? with
  | none => (.ok none, streams)
  | some run =>
    match run.pull streams.progress with
    | (.output out rest, progress) => (.ok (some out), ⟨streams.runs.set place rest, progress⟩)
    | (.exhausted, progress) => (.ok none, ⟨streams.runs.set place .done, progress⟩)
    | (.fault f, progress) => (.error f, ⟨streams.runs.set place .done, progress⟩)

end Streams

/-- What a whole pass over one input found out. -/
structure Findings where
  input : Text
  outputs : List Output
  metrics : Metrics
  /-- Identities of the extensions active in the pass. -/
  extensions : List String

namespace Session

def parse (session : Session n) (input : Text) : Except Fault Findings × Session n :=
  let pass := session.pass
  let (outputs, progress) := (pass.stream input).drain pass.progress
  (outputs.map fun outputs => ⟨input, outputs, progress.metrics, session.extensionIdentities⟩,
    session.absorb progress)

end Session

end Typeahead
