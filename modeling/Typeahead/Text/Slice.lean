import Typeahead.Text

/-!
# Slices of a text

A text is stored as bytes, and a place in it is a count of bytes. A character takes from one to four of them, so
not every place lies between two characters. A text can be cut only at places that do, and a slice of it is what
lies between two of them.

| here | there |
| --- | --- |
| `slice` | a text indexed by a range of bytes, as in `match_literal` |
| `Misplaced` | the panic of such an index |
-/

namespace Typeahead

def byteLength (text : Text) : Nat := (String.ofList text).utf8ByteSize

/-- A place at which a text cannot be cut. -/
structure Misplaced where
  place : Nat
  deriving DecidableEq

/-- What lies between two places of a text. There is no such slice if a place is inside a character or beyond the
end, or if the places are out of order. -/
def slice (text : Text) (start stop : Nat) : Except Misplaced Text :=
  let stored := String.ofList text
  if ¬String.Pos.Raw.isValid stored ⟨stop⟩ then .error ⟨stop⟩
  else if stop < start ∨ ¬String.Pos.Raw.isValid stored ⟨start⟩ then .error ⟨start⟩
  else .ok (String.Pos.Raw.extract stored ⟨start⟩ ⟨stop⟩).toList

end Typeahead
