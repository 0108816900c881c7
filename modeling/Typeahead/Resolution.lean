import Typeahead.Registry
import Typeahead.Run

/-!
# Reading input as a grammar node

`Context.resolve` enumerates, lazily and depth first, every way to read input as a node. A literal gives
at most one reading. A sequence threads the input through its children, a choice tries one after the
other. A phrase element is expanded unless the trace forbids it: into what stands in for its phrase, or
else into its own description and then its supplements. Results of the description pass the phrase's
filter and get its value, results of supplements pass the filter alone. A label is put on last.

Expansion counts down from a bound on how deep phrases can nest. Along a path the frames of one identity
have different counts of characters left, so the bound below is never reached.

| here | there |
| --- | --- |
| `Context` | `Resolver`, less what it counts and keeps |
| `Node.read` | `Resolver::dispatch` |
| `Node.readSequence` | `match_sequence`, `extend_sequence` |
| `Node.readChoice` | `match_choice` |
| `putLabel` | `wrap_id`, on all outputs |
| `Phrase.screen` | `admit` |
| `Phrase.revalue` | `derive`, after the filter |
| `expandOnce` | `Resolver::expand` |
| `resolveTraced`, `resolve` | `Resolver::resolve_traced`, `Resolver::resolve` |
-/

namespace Typeahead

/-- What stays fixed during a pass. -/
structure Context (n : Nat) where
  phrases : Phrasebook n
  registry : Registry n
  leniency : Leniency

/-- How a phrase element, given where it stands, is expanded against a trace and input. -/
abbrev Expansion (n : Nat) := Address → Element n → Trace → Text → Run Output

variable {n : Nat}

def putLabel (label : Option String) (run : Run Output) : Run Output :=
  match label with
  | some name => run.map (·.label name)
  | none => run

mutual

/-- Read input as a node, given how elements are expanded. -/
def Node.read (leniency : Leniency) (expand : Expansion n) :
    Node n → Address → Trace → Text → Run Output
  | .literal label l, here, _, input =>
    .event (.visit here) fun _ => .event .attempt fun _ =>
      putLabel label (Run.ofOption (l.read? leniency input))
  | .sequence label children, here, trace, input =>
    .event (.visit here) fun _ =>
      putLabel label (Node.readSequence leniency expand children 0 here trace (Output.seed input))
  | .choice label children, here, trace, input =>
    .event (.visit here) fun _ =>
      putLabel label (Node.readChoice leniency expand children 0 here trace input)
  | .element label e, here, trace, input =>
    .event (.visit here) fun _ => putLabel label (expand here e trace input)
  | .nothing _, here, _, _ => .event (.visit here) fun _ => .done

/-- Thread what is left of the input through the children from a position on. -/
def Node.readSequence (leniency : Leniency) (expand : Expansion n) :
    List (Node n) → Nat → Address → Trace → Output → Run Output
  | [], _, _, _, acc => Run.pure acc
  | child :: rest, position, here, trace, acc =>
    (Node.read leniency expand child (here.child position) trace acc.remaining).bind fun out =>
      Node.readSequence leniency expand rest (position + 1) here trace (acc.merge position out)

def Node.readChoice (leniency : Leniency) (expand : Expansion n) :
    List (Node n) → Nat → Address → Trace → Text → Run Output
  | [], _, _, _, _ => .done
  | child :: rest, position, here, trace, input =>
    (Node.read leniency expand child (here.child position) trace input).append fun _ =>
      Node.readChoice leniency expand rest (position + 1) here trace input

end

/-- Let a reading through if the phrase accepts its result. -/
def Phrase.screen (phrase : Phrase n) (props : Props) (out : Output) : Run Output :=
  match phrase.accepts props out.result with
  | .ok true => Run.pure out
  | .ok false => .event .reject fun _ => .done
  | .error f => .fault f

/-- Replace the result by the phrase's value, if the phrase has a value function. -/
def Phrase.revalue (phrase : Phrase n) (props : Props) (out : Output) : Run Output :=
  match phrase.value with
  | none => Run.pure out
  | some value =>
    match value props out.result with
    | .ok result => Run.pure { out with result }
    | .error f => .fault f

namespace Context

def frame (ctx : Context n) (phrase : Fin n) (input : Text) : Frame :=
  ⟨(ctx.phrases phrase).identity, input.length⟩

/-- Read input as the description of an element. -/
def readDescription (ctx : Context n) (expand : Expansion n) (here : Address) (e : Element n)
    (description : Node n) (inner : Trace) (input : Text) : Run Output :=
  let phrase := ctx.phrases e.phrase
  ((Node.read ctx.leniency expand description here.description inner input).bind
    (phrase.screen e.props)).bind (phrase.revalue e.props)

def readSupplements (ctx : Context n) (expand : Expansion n) (e : Element n) (inner : Trace)
    (input : Text) : Run Output :=
  let phrase := ctx.phrases e.phrase
  (Run.ofList (ctx.registry.supplementsFor phrase.identity) fun supplement =>
    Node.read ctx.leniency expand supplement.node supplement.address inner input).bind
    (phrase.screen e.props)

/-- Expand an element, given how the elements inside it are expanded. -/
def expandOnce (ctx : Context n) (expand : Expansion n) : Expansion n := fun here e trace input =>
  let phrase := ctx.phrases e.phrase
  if trace.admits (ctx.frame e.phrase input) then
    let inner := ctx.frame e.phrase input :: trace
    .event (.enter inner) fun _ =>
      match ctx.registry.override? phrase.identity with
      | some replacement =>
        Node.read ctx.leniency expand replacement.node replacement.address inner input
      | none =>
        match phrase.describe e.props with
        | .error f => .fault f
        | .ok description =>
          .event (.describe here) fun _ =>
            (ctx.readDescription expand here e description inner input).append fun _ =>
              ctx.readSupplements expand e inner input
  else .event .prune fun _ => .done

/-- Expand an element, phrases nesting no deeper than the given bound. -/
def expandWithin (ctx : Context n) : Nat → Expansion n
  | 0, _, _, _, _ => .done
  | bound + 1, here, e, trace, input => ctx.expandOnce (ctx.expandWithin bound) here e trace input

/-- More phrases than can ever nest while input of this length is read. -/
def depthBound (n : Nat) (input : Text) : Nat := n * (input.length + 1) + 1

/-- Every way to read input as a node, on a path that already has some frames. -/
def resolveTraced (ctx : Context n) (placed : Placed n) (trace : Trace) (input : Text) : Run Output :=
  Node.read ctx.leniency (ctx.expandWithin (depthBound n input)) placed.node placed.address trace input

/-- Every way to read input as a node. -/
def resolve (ctx : Context n) (placed : Placed n) (input : Text) : Run Output :=
  ctx.resolveTraced placed [] input

end Context

end Typeahead
