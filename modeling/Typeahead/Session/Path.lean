import Typeahead.Session.Pass

/-!
# Finding nodes of a session

A node of a session is found from a sentence or an extension by steps down. A step to a description builds
it if need be, which the session remembers; it may fail as the phrase's describe function may.

| here | there |
| --- | --- |
| `Placed.follow` | a walk by `GrammarNode::kind` and `Element::description` |
| `Session.resolveAt` | `Resolver::resolve` of a new pass |
-/

namespace Typeahead

variable {n : Nat}

/-- Where a way through a session starts. -/
inductive Anchor where
  | sentence (index : Nat)
  | extension (index : Nat)

def Session.root? (session : Session n) : Anchor → Option (Placed n)
  | .sentence index => session.sentences[index]?
  | .extension index => session.extensions[index]?.map (·.placed)

/-- Follow steps down from a node. Gives the node reached, if there is one, and the elements whose
description is built afterwards. -/
def Placed.follow (book : Phrasebook n) (placed : Placed n) (described : List Address) :
    List Step → Except Fault (Option (Placed n)) × List Address
  | [] => (.ok (some placed), described)
  | .child index :: rest =>
    match placed.node.children[index]? with
    | some node => Placed.follow book ⟨placed.address.child index, node⟩ described rest
    | none => (.ok none, described)
  | .description :: rest =>
    match placed.node.element? with
    | none => (.ok none, described)
    | some e =>
      match (book e.phrase).describe e.props with
      | .error f => (.error f, described)
      | .ok node =>
        Placed.follow book ⟨placed.address.description, node⟩
          (Progress.noteDescribed described placed.address) rest

namespace Session

def locate (session : Session n) (anchor : Anchor) (steps : List Step) :
    Except Fault (Option (Placed n)) × Session n :=
  match session.root? anchor with
  | none => (.ok none, session)
  | some root =>
    let (found, described) := root.follow session.phrases session.described steps
    (found, { session with described })

/-- Start a pass, find a node, and gather up to `count` readings of input as that node, whether or not
they leave some of it. -/
def resolveAt (session : Session n) (anchor : Anchor) (steps : List Step) (input : Text)
    (count : Option Nat) : Except Fault (Option (List Output × Metrics)) × Session n :=
  let pass := session.pass
  let (found, session) := (session.absorb pass.progress).locate anchor steps
  match found with
  | .error f => (.error f, session)
  | .ok none => (.ok none, session)
  | .ok (some placed) =>
    let run := pass.context.resolve placed input
    let run := match count with
      | some count => run.take count
      | none => run
    let (outputs, progress) := run.drain { pass.progress with described := session.described }
    (outputs.map fun outputs => some (outputs, progress.metrics), session.absorb progress)

end Session

end Typeahead
