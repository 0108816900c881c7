import Typeahead.Progress
import Typeahead.Registry

/-!
# Snapshots of a grammar

A snapshot shows a tree as it stands: every node with its address, label and last visit, and under each
element the description that has been built for it, if one has. It is shown as the phrase describes it; the trees
that are kept, with the numbers of their nodes, are in `Typeahead.Numbered.Store`.

| here | there |
| --- | --- |
| `Sighting` | `result_id`, `identity`, `is_fresh`, `last_visited` of a node |
| `Placed.snapshot` | a walk by `GrammarNode::kind` and, where `is_described`, `Element::description` |
-/

namespace Typeahead

variable {n : Nat}

structure Sighting where
  address : Address
  label : Option String
  /-- Identity of the phrase, for an element. -/
  identity : Option String
  fresh : Bool
  lastVisited : Option Nat

/-- A tree as it stands. -/
inductive Snapshot where
  | literal (sighting : Sighting) (literal : Literal)
  | sequence (sighting : Sighting) (children : List Snapshot)
  | choice (sighting : Sighting) (children : List Snapshot)
  | element (sighting : Sighting) (props : Props) (description : Option Snapshot)
  | nothing (sighting : Sighting)

def Sighting.of (book : Phrasebook n) (freshness : Freshness) (node : Node n) (here : Address) :
    Sighting where
  address := here
  label := node.label?
  identity := node.identity? book
  fresh := freshness.isFresh here
  lastVisited := freshness.lastVisited? here

mutual

/-- Show a tree, given what stands under its elements. -/
def Node.depict (book : Phrasebook n) (freshness : Freshness)
    (under : Address → Element n → Option Snapshot) : Node n → Address → Snapshot
  | .literal label l, here => .literal (Sighting.of book freshness (.literal label l) here) l
  | .sequence label children, here =>
    .sequence (Sighting.of book freshness (.sequence label children) here)
      (Node.depictAll book freshness under children 0 here)
  | .choice label children, here =>
    .choice (Sighting.of book freshness (.choice label children) here)
      (Node.depictAll book freshness under children 0 here)
  | .element label e, here =>
    .element (Sighting.of book freshness (.element label e) here) e.props (under here e)
  | .nothing label, here => .nothing (Sighting.of book freshness (.nothing label) here)

/-- Show the children from a position on. -/
def Node.depictAll (book : Phrasebook n) (freshness : Freshness)
    (under : Address → Element n → Option Snapshot) :
    List (Node n) → Nat → Address → List Snapshot
  | [], _, _ => []
  | child :: rest, position, here =>
    Node.depict book freshness under child (here.child position) ::
      Node.depictAll book freshness under rest (position + 1) here

end

/-- What stands under an element, descriptions nesting no deeper than the given bound. -/
def depictedUnder (book : Phrasebook n) (freshness : Freshness) (described : List Address) :
    Nat → Address → Element n → Option Snapshot
  | 0, _, _ => none
  | bound + 1, here, e =>
    if here ∈ described then
      match (book e.phrase).describe e.props with
      | .ok node =>
        some (Node.depict book freshness (depictedUnder book freshness described bound) node
          here.description)
      | .error _ => none
    else none

/-- Show a tree as it stands. Every description on a way down is one of those built, so their count bounds
how deep they nest. -/
def Placed.snapshot (placed : Placed n) (book : Phrasebook n) (freshness : Freshness)
    (described : List Address) : Snapshot :=
  Node.depict book freshness (depictedUnder book freshness described described.length) placed.node
    placed.address

end Typeahead
