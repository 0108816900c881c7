import Typeahead.Grammar.Defect
import Typeahead.Progress
import Typeahead.Registry
import Typeahead.Search.Patterns

/-!
# Sessions

A session holds the sentences to read input as, the active extensions and the settings, and remembers
across passes which nodes were visited and which descriptions are built. Sentences and extensions are
checked before they replace the old ones. An extension that stays active keeps its element, and with it
its address and its description.

| here | there |
| --- | --- |
| `Settings` | `Options` |
| `Session` | `Parser` |
| `setSentences` | `Parser::set_sentences` |
| `swapRemove`, `reuse?`, `renew` | the pool in `Parser::set_extensions`, and `swap_remove` |
| `setExtensions` | `Parser::set_extensions` |
| `setSettings` | `Parser::set_options` |
| `mark`, `clearFreshness`, `beginEpoch` | `mark_visited`, `clear`, `begin_pass` of `Parser::freshness` |
-/

namespace Typeahead

structure Settings where
  leniency : Leniency := {}
  /-- The most readings to hand out. -/
  limit : Option Nat := none

/-- An active extension: an element of a phrase, with no props, at a root of its own. -/
structure Extension (n : Nat) where
  root : Nat
  phrase : Fin n
  deriving DecidableEq

/-- The element of an extension. -/
def Extension.placed {n : Nat} (extension : Extension n) : Placed n :=
  ⟨⟨extension.root, []⟩, .element none ⟨extension.phrase, []⟩⟩

structure Session (n : Nat) where
  phrases : Phrasebook n
  settings : Settings := {}
  sentences : List (Placed n) := []
  extensions : List (Extension n) := []
  freshness : Freshness := {}
  /-- Elements whose description has been built. -/
  described : List Address := []
  /-- The serial number of the next root. -/
  nextRoot : Nat := 0

namespace Session

variable {n : Nat}

/-! ## Sentences -/

/-- Give nodes roots of their own, numbered from `root` on. -/
def placeFrom (root : Nat) : List (Node n) → List (Placed n)
  | [] => []
  | node :: rest => ⟨⟨root, []⟩, node⟩ :: placeFrom (root + 1) rest

/-- Replace the sentences, unless one of them has a defect. -/
def setSentences (session : Session n) (nodes : List (Node n)) : Except Defect (Session n) :=
  match Node.checkAll session.phrases nodes with
  | .error defect => .error defect
  | .ok () =>
    .ok { session with
      sentences := placeFrom session.nextRoot nodes
      nextRoot := session.nextRoot + nodes.length }

/-! ## Extensions -/

/-- Take out the member at a place and move the last one there. -/
def swapRemove {α : Type} (items : List α) (place : Nat) : List α :=
  match items.getLast? with
  | some last => (items.set place last).dropLast
  | none => []

/-- Take the first extension of a phrase out of a pool. -/
def reuse? (pool : List (Extension n)) (phrase : Fin n) : Option (Extension n × List (Extension n)) :=
  match pool.findIdx? (·.phrase == phrase) with
  | some place => pool[place]?.map fun kept => (kept, swapRemove pool place)
  | none => none

/-- An extension for each phrase in turn: one from the pool while it has any, else a new one, numbered
from `root` on. Also gives the next number. -/
def renew (pool : List (Extension n)) (root : Nat) : List (Fin n) → List (Extension n) × Nat
  | [] => ([], root)
  | phrase :: rest =>
    match reuse? pool phrase with
    | some (kept, pool) =>
      let (renewed, next) := renew pool root rest
      (kept :: renewed, next)
    | none =>
      let (renewed, next) := renew pool (root + 1) rest
      (⟨root, phrase⟩ :: renewed, next)

/-- The first defect of the phrases as extensions. -/
def checkExtensions (book : Phrasebook n) : List (Fin n) → Except Defect Unit
  | [] => .ok ()
  | phrase :: rest =>
    match (book phrase).checkExtension with
    | .error defect => .error defect
    | .ok () => checkExtensions book rest

/-- Replace the active extensions, unless one of the phrases has a defect. -/
def setExtensions (session : Session n) (phrases : List (Fin n)) : Except Defect (Session n) :=
  match checkExtensions session.phrases phrases with
  | .error defect => .error defect
  | .ok () =>
    let (extensions, nextRoot) := renew session.extensions session.nextRoot phrases
    .ok { session with extensions, nextRoot }

def extensionIdentities (session : Session n) : List String :=
  session.extensions.map fun extension => (session.phrases extension.phrase).identity

def registry (session : Session n) : Registry n :=
  Registry.ofExtensions session.phrases (session.extensions.map (·.placed))

/-! ## Other settings -/

def setSettings (session : Session n) (settings : Settings) : Session n := { session with settings }

def mark (session : Session n) (address : Address) : Session n :=
  { session with freshness := session.freshness.mark address }

def clearFreshness (session : Session n) : Session n :=
  { session with freshness := session.freshness.clear }

/-- Start an epoch without reading anything. -/
def beginEpoch (session : Session n) : Session n :=
  { session with freshness := session.freshness.beginPass }

end Session

end Typeahead
