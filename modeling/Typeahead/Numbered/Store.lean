import Typeahead.Address
import Typeahead.Numbered.Tree

/-!
# Descriptions that are kept

An element has room for one description. It is made when it is first asked for, by a call of the phrase's describe
function, and is there from then on; a function that gives up leaves the room empty. What the functions answer is
up to them: the same phrase may be described differently on every call. The store of a session has the counter of
numbers, the descriptions made so far, and the calls that were made for them.

| here | there |
| --- | --- |
| `Store.cells` | `Element.description`, a `OnceCell` |
| `Store.describe` | `Element::description`, by `get_or_init` |
| `Store.description?` | `Element::is_described`, and the cell's content |
| `Describer` | `Phrase::describe`, each time it is called |
-/

namespace Typeahead

variable {n : Nat}

/-- What a call of a describe function comes to. -/
structure Answer (n : Nat) where
  /-- Nodes that were made on the way and are not in the tree. -/
  spare : Nat := 0
  tree : Except Fault (Node n)

/-- What describe functions answer. Their calls are counted, from zero on, and no two need be answered alike. -/
abbrev Describer (n : Nat) := Nat → Fin n → Props → Answer n

/-- The describer of functions that depend on nothing but the props. -/
def Phrasebook.describer (book : Phrasebook n) : Describer n :=
  fun _ phrase props => { tree := (book phrase).describe props }

/-- A call of a describe function, for an element of some number. -/
structure Call (n : Nat) where
  uid : Nat
  element : Element n

structure Store (n : Nat) where
  /-- The number of the next node. -/
  next : Nat := 0
  /-- Descriptions, each with the number of its element, the latest first. -/
  cells : List (Nat × NumberedTree n) := []
  /-- All calls so far, in order. -/
  calls : List (Call n) := []

namespace Store

def description? (store : Store n) (uid : Nat) : Option (NumberedTree n) := store.cells.lookup uid

def make (store : Store n) (nodes : List (Node n)) : List (NumberedTree n) × Store n :=
  let (trees, next) := Node.numberAll nodes store.next
  (trees, { store with next })

/-- A call was answered. Nodes that were made besides the tree have used up numbers. -/
def note (store : Store n) (uid : Nat) (e : Element n) (spare : Nat) : Store n :=
  { store with next := store.next + spare, calls := store.calls ++ [⟨uid, e⟩] }

/-- Make a tree and keep it as the description of an element. -/
def keep (store : Store n) (uid : Nat) (node : Node n) : NumberedTree n × Store n :=
  let (tree, next) := node.number store.next
  (tree, { store with next, cells := (uid, tree) :: store.cells })

/-- The description of an element, which is made unless it is there. -/
def describe (store : Store n) (describer : Describer n) (uid : Nat) (e : Element n) :
    Except Fault (NumberedTree n) × Store n :=
  match store.description? uid with
  | some tree => (.ok tree, store)
  | none =>
    let answer := describer store.calls.length e.phrase e.props
    let called := store.note uid e answer.spare
    match answer.tree with
    | .error f => (.error f, called)
    | .ok node =>
      let (tree, kept) := called.keep uid node
      (.ok tree, kept)

/-- Follow steps down from a node. Descriptions on the way are made unless they are there. -/
def follow (describer : Describer n) :
    Store n → NumberedTree n → List Step → Except Fault (Option (NumberedTree n)) × Store n
  | store, tree, [] => (.ok (some tree), store)
  | store, tree, .child index :: rest =>
    match tree.children[index]? with
    | some child => follow describer store child rest
    | none => (.ok none, store)
  | store, .element uid _ e, .description :: rest =>
    match store.describe describer uid e with
    | (.ok tree, store) => follow describer store tree rest
    | (.error f, store) => (.error f, store)
  | store, _, .description :: _ => (.ok none, store)

end Store

end Typeahead
