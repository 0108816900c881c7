import Typeahead.CommandLine.Arguments
import Typeahead.Numbered.Session

/-!
# The commands

Two commands: opening an app and calling a contact. One extension adds apps; another stands in for the
contacts.

| here | there |
| --- | --- |
| `appPhrase`, `contactPhrase` | `app`, `contact` |
| `extraAppsPhrase`, `workContactsPhrase` | `extra_apps`, `work_contacts` |
| `personNode` | `people` |
| `commandSentences` | `sentences` |
| `AddOn.phrase` | `extension` |
| `Invocation.settings` | `Cli::options` |
| `Invocation.session` | `build_parser` |
-/

namespace Typeahead.CommandLine

/-- A literal with a value of its own, matched fuzzily. -/
def appNode {n : Nat} (name bundle : String) : Node n := ((Node.text name).fuzzily).valued (.str bundle)

def personNode {n : Nat} (name : String) : Node n :=
  (((Node.text name).fuzzily).valued (.str name)).labelled "name"

/-- The name out of a person's result. -/
def nameOf (_ : Props) (result : Value) : Except Fault Value := .ok ((result.field? "name").getD .null)

/-- Nine tenths, the score of the people at work. -/
def workScore : Binary64 := ⟨0x3feccccccccccccd⟩

def appPhrase : Phrase 4 where
  identity := "App"
  describe _ := .ok (.choice none
    [appNode "Safari" "com.apple.Safari", appNode "Mail" "com.apple.mail",
     appNode "Calendar" "com.apple.iCal", appNode "Maps" "com.apple.Maps"])

def contactPhrase : Phrase 4 where
  identity := "Contact"
  describe _ := .ok (.choice none [personNode "Alice Liddell", personNode "Bob Dobbs"])
  value := some nameOf

def extraAppsPhrase : Phrase 4 where
  identity := "ExtraApps"
  describe _ := .ok (.choice none
    [appNode "Terminal" "com.apple.Terminal", appNode "Notes" "com.apple.Notes"])
  supplements := ["App"]

/-- The people at work, in place of all others. -/
def workContactsPhrase : Phrase 4 where
  identity := "WorkContacts"
  describe _ := .ok (.choice none
    [(personNode "Carol Danvers").scored workScore, (personNode "Dave Lister").scored workScore])
  value := some nameOf
  overrides := ["Contact"]

def commandBook : Phrasebook 4
  | 0 => appPhrase
  | 1 => contactPhrase
  | 2 => extraAppsPhrase
  | 3 => workContactsPhrase

/-- A verb and what it applies to. -/
def commandNode (verb : String) (phrase : Fin 4) (label : String) : Node 4 :=
  .sequence (some "command")
    [((Node.text (verb ++ " ")).valued (.str verb)).labelled "verb", .element (some label) ⟨phrase, []⟩]

def commandSentences : List (Node 4) := [commandNode "open" 0 "app", commandNode "call" 1 "contact"]

def AddOn.phrase : AddOn → Fin 4
  | .extraApps => 2
  | .workContacts => 3

def Invocation.settings (invocation : Invocation) : Settings where
  leniency := ⟨invocation.ignoreCase, invocation.fuzzy⟩
  limit := invocation.limit

/-- A session with the command grammar and the extensions asked for. -/
def Invocation.session (invocation : Invocation) : Except Defect (Numbered.Session 4) := do
  let session : Numbered.Session 4 := { phrases := commandBook, settings := invocation.settings }
  let (done, session) := session.setSentences commandSentences
  done
  let (done, session) := session.setExtensions (invocation.extensions.map (·.phrase))
  done
  return session

end Typeahead.CommandLine
