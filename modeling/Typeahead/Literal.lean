import Typeahead.Alignment

/-!
# Literals

A literal is text to be typed. Read against input it gives at most one reading, which carries the
literal's value and either its own score or that of the alignment.

| here | there |
| --- | --- |
| `Literal` | `Literal` |
| `ownScore?` | `explicit_score` |
| `readingOf` | the output that `match_literal` builds |
| `read?` | `match_literal` |
-/

namespace Typeahead

/-- Text to be typed. -/
structure Literal where
  text : Text
  /-- Whether the input may lie anywhere in the text. -/
  fuzzy : Bool := false
  /-- A score in place of the alignment's, if it lies above zero and is at most one. -/
  score : Option Binary64 := none
  value : Option Value := none

namespace Literal

/-- The literal's own score, unless it is out of range. -/
def ownScore? (literal : Literal) : Option Binary64 := literal.score.filter (·.inUnit)

/-- The reading that an alignment gives. -/
def readingOf (literal : Literal) (alignment : Alignment) : Output where
  result := literal.value.getD .null
  remaining := alignment.remaining
  segments := segmentsOf literal.text alignment.marks
  score := literal.ownScore?.getD alignment.score

def read? (literal : Literal) (leniency : Leniency) (input : Text) : Option Output :=
  (alignWith leniency.search (literal.fuzzy || leniency.fuzzy) leniency.ignoreCase literal.text input).map
    literal.readingOf

end Literal

end Typeahead
