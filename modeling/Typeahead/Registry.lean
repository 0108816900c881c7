import Typeahead.Address
import Typeahead.Grammar

/-!
# Active extensions

An extension is a phrase element that adds an alternative to other phrases, or stands in for them, by
identity. The registry lists the active ones for each identity they name, in order of registration. Of
several that stand in for one phrase, the last one does.

| here | there |
| --- | --- |
| `Registry` | `ExtensionRegistry`, with its two indexes |
| `enlist`, `register`, `ofExtensions` | `ExtensionRegistry::new` |
| `supplementsFor`, `overridesFor` | `supplements_for`, `overrides_for` |
| `override?` | `override_for` |
-/

namespace Typeahead

/-- A node and where it stands. -/
structure Placed (n : Nat) where
  address : Address
  node : Node n

/-- Active extensions by the identity they name. -/
structure Registry (n : Nat) where
  count : Nat := 0
  supplements : Fields (List (Placed n)) := []
  overrides : Fields (List (Placed n)) := []

namespace Registry

variable {n : Nat}

/-- List a node under each of some identities, after those already there. -/
def enlist (fields : Fields (List (Placed n))) (targets : List String) (placed : Placed n) :
    Fields (List (Placed n)) :=
  targets.foldl (fun acc target => acc.insert target ((acc.get? target).getD [] ++ [placed])) fields

/-- Register one more node; a node that is not a phrase element is passed over. -/
def register (book : Phrasebook n) (registry : Registry n) (placed : Placed n) : Registry n :=
  match placed.node.element? with
  | some e =>
    { count := registry.count + 1
      supplements := enlist registry.supplements (book e.phrase).supplements placed
      overrides := enlist registry.overrides (book e.phrase).overrides placed }
  | none => registry

def ofExtensions (book : Phrasebook n) (extensions : List (Placed n)) : Registry n :=
  extensions.foldl (register book) {}

/-- What is added to a phrase, in order of registration. -/
def supplementsFor (registry : Registry n) (identity : String) : List (Placed n) :=
  (registry.supplements.get? identity).getD []

/-- What would stand in for a phrase, in order of registration. -/
def overridesFor (registry : Registry n) (identity : String) : List (Placed n) :=
  (registry.overrides.get? identity).getD []

/-- What stands in for a phrase. -/
def override? (registry : Registry n) (identity : String) : Option (Placed n) :=
  (registry.overridesFor identity).getLast?

/-- Looking up a list after enlisting: the node is there as often as its targets name the identity. -/
theorem get?_enlist (fields : Fields (List (Placed n))) (targets : List String) (placed : Placed n)
    (identity : String) :
    ((enlist fields targets placed).get? identity).getD [] =
      (fields.get? identity).getD [] ++ List.replicate (targets.count identity) placed := by
  induction targets generalizing fields with
  | nil => simp [enlist]
  | cons target rest ih =>
    have step := ih (fields.insert target ((fields.get? target).getD [] ++ [placed]))
    simp only [enlist, List.foldl_cons] at step ⊢
    rw [step, Fields.get?_insert]
    by_cases h : target = identity
    · subst h
      simp [List.replicate_succ]
    · simp [h]

end Registry

end Typeahead
