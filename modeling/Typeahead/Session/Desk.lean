import Typeahead.Session.Path

/-!
# Sessions at work

A desk is a session together with the passes that are open on it. A request changes the session, or starts a
pass, or pulls on a stream of a pass that is still open. Passes hold on to the grammar, so they end when
sentences, extensions or settings are replaced. They share the session's marks and built descriptions, and keep
counts of their own. A phrase that gives up ends the request, and what was done before stays done.

| here | there |
| --- | --- |
| `Desk` | `Parser`, and each `Pass` that borrows from it |
| `openPass` | `Parser::pass`, and `Pass::parse` for each input |
| `pull` | `next` on a stream |
| `read` | `Resolver::resolve`, by way of `Pass::resolver` |
-/

namespace Typeahead

variable {n : Nat}

/-- Something asked of a session. -/
inductive Request (n : Nat) where
  | setSentences (nodes : List (Node n))
  | setExtensions (phrases : List (Fin n))
  | setSettings (settings : Settings)
  | parse (input : Text)
  /-- Start a pass, with a stream for each input. -/
  | openPass (inputs : List Text)
  /-- Pull on a stream of a pass. -/
  | pull (pass place : Nat)
  /-- Read input as a node in a pass of its own, and take so many readings. -/
  | resolveAt (anchor : Anchor) (steps : List Step) (input : Text) (count : Option Nat)
  /-- Go to a node, building the descriptions on the way. -/
  | locate (anchor : Anchor) (steps : List Step)
  | mark (address : Address)
  | clearFreshness
  | beginEpoch

/-- Something done with a session and the passes open on it: a request; or a node is found, and a stream that
reads input as this node is added to a pass. -/
inductive Act (n : Nat) where
  | request (request : Request n)
  | read (pass : Nat) (anchor : Anchor) (steps : List Step) (input : Text)

/-- A session and the passes open on it, oldest first. -/
structure Desk (n : Nat) where
  session : Session n
  passes : List Streams := []

namespace Desk

/-- A new session, with some settings. -/
def ofSettings (phrases : Phrasebook n) (settings : Settings) : Desk n := ⟨{ phrases, settings }, []⟩

/-- Replace a part of the session, unless it has a defect. All passes end. -/
def replace (desk : Desk n) : Except Defect (Session n) → Desk n
  | .ok session => ⟨session, []⟩
  | .error _ => ⟨desk.session, []⟩

def openPass (desk : Desk n) (inputs : List Text) : Desk n :=
  let pass := desk.session.pass
  ⟨desk.session.absorb pass.progress, desk.passes ++ [Streams.ofInputs pass inputs]⟩

/-- Pull on a stream of an open pass, with the marks and descriptions as they are now. -/
def pull (desk : Desk n) (pass place : Nat) : Desk n :=
  match desk.passes[pass]? with
  | none => desk
  | some streams =>
    let progress := ⟨desk.session.freshness, desk.session.described, streams.progress.metrics⟩
    let (_, after) := Streams.pull { streams with progress } place
    ⟨desk.session.absorb after.progress, desk.passes.set pass after⟩

def handle (desk : Desk n) : Request n → Desk n
  | .setSentences nodes => desk.replace (desk.session.setSentences nodes)
  | .setExtensions phrases => desk.replace (desk.session.setExtensions phrases)
  | .setSettings settings => ⟨desk.session.setSettings settings, []⟩
  | .parse input => { desk with session := (desk.session.parse input).2 }
  | .openPass inputs => desk.openPass inputs
  | .pull pass place => desk.pull pass place
  | .resolveAt anchor steps input count =>
    { desk with session := (desk.session.resolveAt anchor steps input count).2 }
  | .locate anchor steps => { desk with session := (desk.session.locate anchor steps).2 }
  | .mark address => { desk with session := desk.session.mark address }
  | .clearFreshness => { desk with session := desk.session.clearFreshness }
  | .beginEpoch => { desk with session := desk.session.beginEpoch }

def handleAll (desk : Desk n) (requests : List (Request n)) : Desk n := requests.foldl handle desk

/-- Find a node and add a stream that reads input as it to an open pass. Nothing is read yet. -/
def read (desk : Desk n) (pass : Nat) (anchor : Anchor) (steps : List Step) (input : Text) : Desk n :=
  let (found, session) := desk.session.locate anchor steps
  match found, desk.passes[pass]? with
  | .ok (some placed), some streams =>
    let runs := streams.runs ++ [session.pass.context.resolve placed input]
    ⟨session, desk.passes.set pass { streams with runs }⟩
  | _, _ => { desk with session }

def perform (desk : Desk n) : Act n → Desk n
  | .request request => desk.handle request
  | .read pass anchor steps input => desk.read pass anchor steps input

def performAll (desk : Desk n) (acts : List (Act n)) : Desk n := acts.foldl perform desk

end Desk

end Typeahead
