/-!
# Addresses

A node is known by where it stands: the serial number of the root it hangs from, and the way down to it.
A way down goes to a child of a sequence or choice, or from an element to its description. Serial numbers
are never used twice, so an address stays with its node for good.

In `Typeahead.Numbered.Tree` nodes have numbers that are drawn from a counter; `Numbered.numbers_steer_nothing` says
that reading comes to the same.

| here | there |
| --- | --- |
| `Address` | `NodeUid`: what tells the nodes of a parser apart, and marks them as visited |
| `Step.description` | the way into `Element::description` |
-/

namespace Typeahead

inductive Step where
  | child (index : Nat)
  | description
  deriving DecidableEq

/-- Where a node stands. -/
structure Address where
  root : Nat
  /-- The steps down from it, last one first. -/
  steps : List Step := []
  deriving DecidableEq

namespace Address

/-- One step further down. -/
def down (address : Address) (step : Step) : Address := ⟨address.root, step :: address.steps⟩

def child (address : Address) (index : Nat) : Address := address.down (.child index)

def description (address : Address) : Address := address.down .description

theorem down_injective {a b : Address} {s t : Step} (h : a.down s = b.down t) : a = b ∧ s = t := by
  cases a; cases b
  simp only [down, Address.mk.injEq, List.cons.injEq] at h
  simp [h]

end Address

end Typeahead
