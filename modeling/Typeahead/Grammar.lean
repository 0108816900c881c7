import Typeahead.Literal

/-!
# Grammars

A grammar is a tree of nodes: literals, sequences, choices, phrase elements, and a node that matches
nothing. A phrase is a named unit that describes itself as another tree, from the props of the element
that mentions it; so a tree may be finite and still unfold without end. Phrases are kept in a finite book
and mentioned by their place in it.

| here | there |
| --- | --- |
| `Node` | `GrammarNode`, with its `NodeKind` and its `id` |
| `Element` | `Element`, less the description |
| `Phrase` | `Phrase`, as `PhraseDef` builds it |
| `Node.text` | `literal` |
| `labelled`, `fuzzily`, `scored`, `valued`, `withProp` | `GrammarNode::id`, `fuzzy`, `score`, `value`, `prop` |
| `Node.identity?` | `GrammarNode::identity` |
| `Fault` | a panic in `describe`, `get_value` or `filter` |
-/

namespace Typeahead

/-- Why a phrase's describe, value or filter function gave up. -/
structure Fault where
  message : String
  deriving DecidableEq

/-- A mention of a phrase, with its props. -/
structure Element (n : Nat) where
  phrase : Fin n
  props : Props := []

/-- A grammar tree over a book of `n` phrases. The label names a node's result for its parent. -/
inductive Node (n : Nat) where
  | literal (label : Option String) (literal : Literal)
  | sequence (label : Option String) (children : List (Node n))
  | choice (label : Option String) (children : List (Node n))
  | element (label : Option String) (element : Element n)
  | nothing (label : Option String)

/-- A named unit of grammar. -/
structure Phrase (n : Nat) where
  /-- What recursion and extensions go by. -/
  identity : String
  /-- The tree the phrase stands for. -/
  describe : Props → Except Fault (Node n)
  /-- The value reported for a result of the description; without it the result itself is. -/
  value : Option (Props → Value → Except Fault Value) := none
  /-- Whether a result is acceptable. -/
  accepts : Props → Value → Except Fault Bool := fun _ _ => .ok true
  /-- Identities the phrase adds alternatives to while it is an active extension. -/
  supplements : List String := []
  /-- Identities the phrase stands in for while it is an active extension. -/
  overrides : List String := []

abbrev Phrasebook (n : Nat) := Fin n → Phrase n

namespace Node

variable {n : Nat}

/-! ## Building trees

A setting that does not apply to a kind of node leaves it as it is. -/

/-- A plain literal. -/
def text (s : String) : Node n := .literal none ⟨s.toList, false, none, none⟩

/-- Name the result. -/
def labelled (name : String) : Node n → Node n
  | .literal _ l => .literal (some name) l
  | .sequence _ children => .sequence (some name) children
  | .choice _ children => .choice (some name) children
  | .element _ e => .element (some name) e
  | .nothing _ => .nothing (some name)

def mapLiteral (f : Literal → Literal) : Node n → Node n
  | .literal label l => .literal label (f l)
  | other => other

def fuzzily : Node n → Node n := mapLiteral fun l => { l with fuzzy := true }

def scored (score : Binary64) : Node n → Node n := mapLiteral fun l => { l with score := some score }

def valued (value : Value) : Node n → Node n := mapLiteral fun l => { l with value := some value }

def withProp (name : String) (value : Value) : Node n → Node n
  | .element label e => .element label { e with props := e.props.insert name value }
  | other => other

/-! ## Looking at trees -/

def label? : Node n → Option String
  | .literal label _ | .sequence label _ | .choice label _ | .element label _ | .nothing label => label

def children : Node n → List (Node n)
  | .sequence _ children | .choice _ children => children
  | _ => []

/-- The mention of a phrase, if the node is one. -/
def element? : Node n → Option (Element n)
  | .element _ e => some e
  | _ => none

def identity? (book : Phrasebook n) (node : Node n) : Option String :=
  node.element?.map fun e => (book e.phrase).identity

end Node

end Typeahead
