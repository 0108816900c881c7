import Typeahead.Numbered.Session
import Typeahead.Session.Desk

/-!
# Numbered sessions at work

A session with numbered trees, together with the passes that are open on it. All of them ask the one store for
descriptions, so what one stream has had made is there for the others. What can be done is what can be done with a
session whose nodes go by addresses.

| here | there |
| --- | --- |
| `Streams` | `Pass`, with streams that are pulled |
| `openPass` | `Parser::pass`, and `Pass::parse` for each input |
| `pull` | `next` on a stream |
| `read` | `Resolver::resolve`, by way of `Pass::resolver` |
-/

namespace Typeahead.Numbered

variable {n : Nat}

/-- Streams of one pass, pulled side by side, and what the pass has counted. -/
structure Streams (n : Nat) where
  inquiries : List (Inquiry n Output)
  metrics : Metrics := {}

/-- A session and the passes open on it, oldest first. -/
structure Desk (n : Nat) where
  session : Session n
  passes : List (Streams n) := []

/-- What a pull says, and what is left to pull on. -/
def answer {α : Type} : Inquiry.Stop n α → Except Fault (Option α) × Inquiry n α
  | .output a rest => (.ok (some a), rest)
  | .exhausted => (.ok none, .done)
  | .fault f => (.error f, .done)

namespace Desk

/-- A new session, with some settings and some describer. -/
def ofSettings (phrases : Phrasebook n) (describer : Describer n) (settings : Settings) : Desk n :=
  ⟨{ phrases, describer, settings }, []⟩

def openPass (desk : Desk n) (inputs : List Text) : Desk n :=
  ⟨desk.session.beginEpoch, desk.passes ++ [⟨inputs.map desk.session.stream, {}⟩]⟩

def pull (desk : Desk n) (pass place : Nat) : Except Fault (Option Output) × Desk n :=
  match desk.passes[pass]? with
  | none => (.ok none, desk)
  | some streams =>
    match streams.inquiries[place]? with
    | none => (.ok none, desk)
    | some inquiry =>
      let course := inquiry.pull desk.session.describer desk.session.store
      let (metrics, session) := desk.session.settle streams.metrics course.events course.store
      let (said, rest) := answer course.stop
      (said, ⟨session, desk.passes.set pass ⟨streams.inquiries.set place rest, metrics⟩⟩)

/-- Do what is asked. Passes end when sentences, extensions or settings are replaced. -/
def handle (desk : Desk n) : Request n → Desk n
  | .setSentences nodes => ⟨(desk.session.setSentences nodes).2, []⟩
  | .setExtensions phrases => ⟨(desk.session.setExtensions phrases).2, []⟩
  | .setSettings settings => ⟨desk.session.setSettings settings, []⟩
  | .parse input => { desk with session := (desk.session.parse input).2 }
  | .openPass inputs => desk.openPass inputs
  | .pull pass place => (desk.pull pass place).2
  | .resolveAt anchor steps input count =>
    { desk with session := (desk.session.resolveAt anchor steps input count).2 }
  | .locate anchor steps => { desk with session := (desk.session.locate anchor steps).2 }
  | .mark address => { desk with session := desk.session.mark address }
  | .clearFreshness => { desk with session := desk.session.clearFreshness }
  | .beginEpoch => { desk with session := desk.session.beginEpoch }

/-- Find a node and add a stream that reads input as it to an open pass. Nothing is read yet. -/
def read (desk : Desk n) (pass : Nat) (anchor : Anchor) (steps : List Step) (input : Text) : Desk n :=
  let (found, session) := desk.session.locate anchor steps
  match found, desk.passes[pass]? with
  | .ok (some tree), some streams =>
    let inquiries := streams.inquiries ++ [session.context.inquire tree input]
    ⟨session, desk.passes.set pass { streams with inquiries }⟩
  | _, _ => { desk with session }

def perform (desk : Desk n) : Act n → Desk n
  | .request request => desk.handle request
  | .read pass anchor steps input => desk.read pass anchor steps input

def performAll (desk : Desk n) (acts : List (Act n)) : Desk n := acts.foldl perform desk

end Desk

end Typeahead.Numbered
