import Typeahead.Text.Case

/-!
# Searching for input in one piece

Before its letters are scattered over a text, input is looked for in one piece. The search comes from outside: a
pattern is built from the input, which is refused if it takes too much room, and is then tried on texts. Whether a
pattern is refused is not said of it; but where it is tried, it is found at the leftmost place where the input
occurs, up to the case of letters if that is ignored, and nowhere else. A `Search` does this, and all that is said of
reading holds whatever the search is. `Typeahead.Search.Patterns` has the one that is used.

| here | there |
| --- | --- |
| `Search.builds` | whether `contiguous_pattern` gives a pattern for an input |
| `Search.find?` | `find`, by that pattern in a text |
-/

namespace Typeahead

/-- A text as a search sees it: if case is ignored, with the representative of each letter in its place. -/
def folded (ignoreCase : Bool) (text : Text) : Text := if ignoreCase then text.map foldCase else text

def OccursAt (ignoreCase : Bool) (text input : Text) (place : Nat) : Prop :=
  ∃ before after, folded ignoreCase text = before ++ folded ignoreCase input ++ after ∧ before.length = place

/-- A search, and what is known of it. -/
class Search where
  /-- Whether a pattern can be built from an input. -/
  builds (ignoreCase : Bool) (input : Text) : Bool
  find? (ignoreCase : Bool) (text input : Text) : Option Nat
  /-- The leftmost place is found where the input occurs. -/
  find?_eq_some_iff {ignoreCase : Bool} {text input : Text} {place : Nat} :
    find? ignoreCase text input = some place ↔
      OccursAt ignoreCase text input place ∧ ∀ other, OccursAt ignoreCase text input other → place ≤ other

/-- A search for which no pattern can be built. -/
abbrev Search.disabled (search : Search) : Search := { search with builds := fun _ _ => false }

end Typeahead
