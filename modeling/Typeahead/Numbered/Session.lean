import Typeahead.Numbered.Resolution
import Typeahead.Session.Path

/-!
# Sessions with numbered trees

A session whose trees are numbered, and whose descriptions are kept in a store. Sentences are made before they are
checked, so their numbers are used up even if they are refused. In all else the session is used like one whose
nodes go by addresses, and shares with it the settings, the marks, and how extensions are renewed.

| here | there |
| --- | --- |
| `Session` | `Parser` |
| `setSentences`, `setExtensions` | `Parser::set_sentences`, `Parser::set_extensions` |
| `stream`, `parse` | `Pass::parse`, `Parser::parse_verbose` |
| `locate` | a walk by `GrammarNode::kind` and `Element::description` |
-/

namespace Typeahead.Numbered

variable {n : Nat}

structure Session (n : Nat) where
  phrases : Phrasebook n
  /-- What describe functions answer, in place of what the phrases say. -/
  describer : Describer n := phrases.describer
  settings : Settings := {}
  sentences : List (NumberedTree n) := []
  extensions : List (Extension n) := []
  freshness : Freshness := {}
  store : Store n := {}

namespace Session

/-! ## Setting up -/

/-- Replace the sentences, unless one of them has a defect. -/
def setSentences (session : Session n) (nodes : List (Node n)) : Except Defect Unit × Session n :=
  let (sentences, store) := session.store.make nodes
  match Node.checkAll session.phrases nodes with
  | .error defect => (.error defect, { session with store })
  | .ok () => (.ok (), { session with sentences, store })

/-- Replace the active extensions, unless one of the phrases has a defect. -/
def setExtensions (session : Session n) (phrases : List (Fin n)) : Except Defect Unit × Session n :=
  match Session.checkExtensions session.phrases phrases with
  | .error defect => (.error defect, session)
  | .ok () =>
    let (extensions, next) := Session.renew session.extensions session.store.next phrases
    (.ok (), { session with extensions, store := { session.store with next } })

def setSettings (session : Session n) (settings : Settings) : Session n := { session with settings }

def mark (session : Session n) (address : Address) : Session n :=
  { session with freshness := session.freshness.mark address }

def clearFreshness (session : Session n) : Session n :=
  { session with freshness := session.freshness.clear }

def beginEpoch (session : Session n) : Session n :=
  { session with freshness := session.freshness.beginPass }

def extensionIdentities (session : Session n) : List String :=
  session.extensions.map fun extension => (session.phrases extension.phrase).identity

/-! ## Reading -/

/-- What stays fixed during a pass. -/
def context (session : Session n) : Context n where
  phrases := session.phrases
  registry := Registry.ofExtensions session.phrases (session.extensions.map (·.placed))
  leniency := session.settings.leniency

/-- The readings of all sentences, in order, that leave nothing of the input, up to the limit. -/
def stream (session : Session n) (input : Text) : Inquiry n Output :=
  let unlimited := (Inquiry.ofList session.sentences fun sentence => session.context.inquire sentence input).bind
    fun out => (Pass.handOut out).inquiry
  match session.settings.limit with
  | some limit => unlimited.take limit
  | none => unlimited

/-- Take note of what happened in a pass, which has counted so much before. Gives what it has counted then. -/
def settle (session : Session n) (metrics : Metrics) (events : List Event) (store : Store n) :
    Metrics × Session n :=
  let progress := events.foldl Progress.record { freshness := session.freshness, metrics }
  (progress.metrics, { session with freshness := progress.freshness, store })

def parse (session : Session n) (input : Text) : Except Fault Findings × Session n :=
  let (outputs, events, store) := (session.stream input).drain session.describer session.store
  let (metrics, after) := session.beginEpoch.settle {} events store
  (outputs.map fun outputs => ⟨input, outputs, metrics, session.extensionIdentities⟩, after)

/-! ## Finding nodes -/

def root? (session : Session n) : Anchor → Option (NumberedTree n)
  | .sentence index => session.sentences[index]?
  | .extension index => session.extensions[index]?.map (·.placed.tree)

/-- Find a node. Descriptions on the way are made unless they are there. -/
def locate (session : Session n) (anchor : Anchor) (steps : List Step) :
    Except Fault (Option (NumberedTree n)) × Session n :=
  match session.root? anchor with
  | none => (.ok none, session)
  | some root =>
    let (found, store) := session.store.follow session.describer root steps
    (found, { session with store })

/-- Start a pass, find a node, and gather up to `count` readings of input as that node, whether or not
they leave some of it. -/
def resolveAt (session : Session n) (anchor : Anchor) (steps : List Step) (input : Text)
    (count : Option Nat) : Except Fault (Option (List Output × Metrics)) × Session n :=
  let (found, session) := session.beginEpoch.locate anchor steps
  match found with
  | .error f => (.error f, session)
  | .ok none => (.ok none, session)
  | .ok (some tree) =>
    let inquiry := session.context.inquire tree input
    let inquiry := match count with
      | some count => inquiry.take count
      | none => inquiry
    let (outputs, events, store) := inquiry.drain session.describer session.store
    let (metrics, after) := session.settle {} events store
    (outputs.map fun outputs => some (outputs, metrics), after)

end Session

end Typeahead.Numbered
