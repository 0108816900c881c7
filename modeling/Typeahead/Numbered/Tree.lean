import Typeahead.Grammar

/-!
# Numbered trees

When a tree is made, each of its nodes gets the next number of a counter that only goes up, and keeps it for
good. Children are made before the node they hang from, from left to right. Two trees of one shape have no number
in common, so numbers tell nodes apart where shapes do not.

| here | there |
| --- | --- |
| `NumberedTree`, `NumberedTree.uid` | `GrammarNode`, `GrammarNode::uid` |
| `Node.number` | `GrammarNode::new`, with `NodeUid::next` |
-/

namespace Typeahead

variable {n : Nat}

/-- A grammar tree whose nodes have numbers. -/
inductive NumberedTree (n : Nat) where
  | literal (uid : Nat) (label : Option String) (literal : Literal)
  | sequence (uid : Nat) (label : Option String) (children : List (NumberedTree n))
  | choice (uid : Nat) (label : Option String) (children : List (NumberedTree n))
  | element (uid : Nat) (label : Option String) (element : Element n)
  | nothing (uid : Nat) (label : Option String)

namespace NumberedTree

def uid : NumberedTree n → Nat
  | .literal uid _ _ | .sequence uid _ _ | .choice uid _ _ | .element uid _ _ | .nothing uid _ => uid

def children : NumberedTree n → List (NumberedTree n)
  | .sequence _ _ children | .choice _ _ children => children
  | _ => []

mutual

/-- The tree without its numbers. -/
def node : NumberedTree n → Node n
  | .literal _ label l => .literal label l
  | .sequence _ label children => .sequence label (nodes children)
  | .choice _ label children => .choice label (nodes children)
  | .element _ label e => .element label e
  | .nothing _ label => .nothing label

def nodes : List (NumberedTree n) → List (Node n)
  | [] => []
  | tree :: rest => tree.node :: nodes rest

end

mutual

/-- All nodes of a tree, each with what is below it, in the order in which they were made. -/
def parts : NumberedTree n → List (NumberedTree n)
  | .literal uid label l => [.literal uid label l]
  | .sequence uid label children => partsAll children ++ [.sequence uid label children]
  | .choice uid label children => partsAll children ++ [.choice uid label children]
  | .element uid label e => [.element uid label e]
  | .nothing uid label => [.nothing uid label]

def partsAll : List (NumberedTree n) → List (NumberedTree n)
  | [] => []
  | tree :: rest => tree.parts ++ partsAll rest

end

def uids (tree : NumberedTree n) : List Nat := tree.parts.map uid

end NumberedTree

mutual

/-- Make a tree, with numbers from `next` on. Also gives the number after the last one. -/
def Node.number : Node n → Nat → NumberedTree n × Nat
  | .literal label l, next => (.literal next label l, next + 1)
  | .sequence label children, next =>
    let (children, next) := Node.numberAll children next
    (.sequence next label children, next + 1)
  | .choice label children, next =>
    let (children, next) := Node.numberAll children next
    (.choice next label children, next + 1)
  | .element label e, next => (.element next label e, next + 1)
  | .nothing label, next => (.nothing next label, next + 1)

def Node.numberAll : List (Node n) → Nat → List (NumberedTree n) × Nat
  | [], next => ([], next)
  | node :: rest, next =>
    let (tree, next) := Node.number node next
    let (trees, next) := Node.numberAll rest next
    (tree :: trees, next)

end

end Typeahead
