/-!
# Text

What is typed and what is offered is text: a list of characters, so that a position in it is a count of
characters and a rest of it is a suffix.
-/

namespace Typeahead

abbrev Text := List Char

/-- Whether a code point lies in one of a list of ascending closed ranges. -/
def inRanges : List (Nat × Nat) → Nat → Bool
  | [], _ => false
  | (low, high) :: rest, code =>
    if code < low then false else if code ≤ high then true else inRanges rest code

end Typeahead
