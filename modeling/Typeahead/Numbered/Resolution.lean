import Typeahead.Numbered.Inquiry
import Typeahead.Resolution

/-!
# Reading input as a numbered tree

The same reading as that of unnumbered trees, but with kept descriptions: where an element is expanded into its
own description, the inquiry asks for that description and reads the tree it is given, with the numbers it has. In
what happens a node goes by its number, as if it stood at a root of its own.

| here | there |
| --- | --- |
| `NumberedTree.read` | `Resolver::dispatch` |
| `NumberedTree.readSequence`, `NumberedTree.readChoice` | `match_sequence` with `extend_sequence`, `match_choice` |
| `Context.inquireOnce` | `Resolver::expand` |
| `Context.inquire` | `Resolver::resolve` |
-/

namespace Typeahead

variable {n : Nat}

/-- Where a node is said to be that goes by its number. -/
def Address.ofUid (uid : Nat) : Address := ⟨uid, []⟩

/-- A registered extension as a numbered tree: an element with the number of its root. -/
def Placed.tree : Placed n → NumberedTree n
  | ⟨here, .element label e⟩ => .element here.root label e
  | ⟨here, node⟩ => .nothing here.root node.label?

/-- How an element of some number is expanded against a trace and input. -/
abbrev NumberedTree.Expansion (n : Nat) := Nat → Element n → Trace → Text → Inquiry n Output

def Inquiry.putLabel (label : Option String) (inquiry : Inquiry n Output) : Inquiry n Output :=
  match label with
  | some name => inquiry.map (·.label name)
  | none => inquiry

mutual

/-- Read input as a tree, given how elements are expanded. -/
def NumberedTree.read (leniency : Leniency) (expand : NumberedTree.Expansion n) :
    NumberedTree n → Trace → Text → Inquiry n Output
  | .literal uid label l, _, input =>
    .event (.visit (.ofUid uid)) fun _ => .event .attempt fun _ =>
      .putLabel label (Run.ofOption (l.read? leniency input)).inquiry
  | .sequence uid label children, trace, input =>
    .event (.visit (.ofUid uid)) fun _ =>
      .putLabel label (NumberedTree.readSequence leniency expand children 0 trace (Output.seed input))
  | .choice uid label children, trace, input =>
    .event (.visit (.ofUid uid)) fun _ =>
      .putLabel label (NumberedTree.readChoice leniency expand children trace input)
  | .element uid label e, trace, input =>
    .event (.visit (.ofUid uid)) fun _ => .putLabel label (expand uid e trace input)
  | .nothing uid _, _, _ => .event (.visit (.ofUid uid)) fun _ => .done

/-- Thread what is left of the input through the children from a position on. -/
def NumberedTree.readSequence (leniency : Leniency) (expand : NumberedTree.Expansion n) :
    List (NumberedTree n) → Nat → Trace → Output → Inquiry n Output
  | [], _, _, acc => (Run.pure acc).inquiry
  | child :: rest, position, trace, acc =>
    (NumberedTree.read leniency expand child trace acc.remaining).bind fun out =>
      NumberedTree.readSequence leniency expand rest (position + 1) trace (acc.merge position out)

def NumberedTree.readChoice (leniency : Leniency) (expand : NumberedTree.Expansion n) :
    List (NumberedTree n) → Trace → Text → Inquiry n Output
  | [], _, _ => .done
  | child :: rest, trace, input =>
    (NumberedTree.read leniency expand child trace input).append fun _ =>
      NumberedTree.readChoice leniency expand rest trace input

end

namespace Context

/-- Read input as the description an element has. -/
def inquireDescription (ctx : Context n) (expand : NumberedTree.Expansion n) (e : Element n)
    (description : NumberedTree n) (inner : Trace) (input : Text) : Inquiry n Output :=
  let phrase := ctx.phrases e.phrase
  ((description.read ctx.leniency expand inner input).bind fun out =>
    (phrase.screen e.props out).inquiry).bind fun out => (phrase.revalue e.props out).inquiry

def inquireSupplements (ctx : Context n) (expand : NumberedTree.Expansion n) (e : Element n) (inner : Trace)
    (input : Text) : Inquiry n Output :=
  let phrase := ctx.phrases e.phrase
  (Inquiry.ofList (ctx.registry.supplementsFor phrase.identity) fun supplement =>
    supplement.tree.read ctx.leniency expand inner input).bind fun out => (phrase.screen e.props out).inquiry

/-- Expand an element, given how the elements inside it are expanded. -/
def inquireOnce (ctx : Context n) (expand : NumberedTree.Expansion n) :
    NumberedTree.Expansion n := fun uid e trace input =>
  let phrase := ctx.phrases e.phrase
  if trace.admits (ctx.frame e.phrase input) then
    let inner := ctx.frame e.phrase input :: trace
    .event (.enter inner) fun _ =>
      match ctx.registry.override? phrase.identity with
      | some replacement => replacement.tree.read ctx.leniency expand inner input
      | none =>
        .ask uid e fun description => .event (.describe (.ofUid uid)) fun _ =>
          (ctx.inquireDescription expand e description inner input).append fun _ =>
            ctx.inquireSupplements expand e inner input
  else .event .prune fun _ => .done

/-- Expand an element, phrases nesting no deeper than the given bound. -/
def inquireWithin (ctx : Context n) : Nat → NumberedTree.Expansion n
  | 0, _, _, _, _ => .done
  | bound + 1, uid, e, trace, input => ctx.inquireOnce (ctx.inquireWithin bound) uid e trace input

/-- Every way to read input as a tree. -/
def inquire (ctx : Context n) (tree : NumberedTree n) (input : Text) : Inquiry n Output :=
  tree.read ctx.leniency (ctx.inquireWithin (depthBound n input)) [] input

end Context

end Typeahead
