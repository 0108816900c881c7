import Typeahead.Text.Case

/-!
# Spellings

How letters are spelled in bytes. Characters that follow on one another and differ in the final byte only
share a spelling, so a letter together with its case variants has at most as many spellings as variants.
-/

namespace Typeahead

/-- The bytes of characters that differ in the final byte only: the bytes that they share, then any one
from `first` to `last`. -/
structure Spelling where
  lead : List UInt8
  first : UInt8
  last : UInt8
  deriving DecidableEq

namespace Spelling

def ofChar (c : Char) : Spelling :=
  let bytes := String.utf8EncodeChar c
  let final := bytes.getLastD 0
  ⟨bytes.dropLast, final, final⟩

/-- Puts a spelling in front of others, as one with the first of them if that one continues it. -/
def joinTo (spelling : Spelling) : List Spelling → List Spelling
  | [] => [spelling]
  | next :: rest =>
    if spelling.lead = next.lead ∧ spelling.last.toNat + 1 = next.first.toNat then
      ⟨spelling.lead, spelling.first, next.last⟩ :: rest
    else spelling :: next :: rest

/-- The bytes that may stand at each position of a spelling, as closed ranges. -/
def ranges (spelling : Spelling) : List (UInt8 × UInt8) :=
  spelling.lead.map (fun byte => (byte, byte)) ++ [(spelling.first, spelling.last)]

/-- What is left of a spelling after its first bytes, if these are `read`. -/
def after? (spelling : Spelling) (read : List UInt8) : Option Spelling :=
  if read.isPrefixOf spelling.lead then
    some ⟨spelling.lead.drop read.length, spelling.first, spelling.last⟩
  else none

theorem length_ranges (spelling : Spelling) :
    spelling.ranges.length = spelling.lead.length + 1 := by
  simp [ranges]

/-- Nothing read leaves all of a spelling. -/
theorem after?_nil (spelling : Spelling) : spelling.after? [] = some spelling := by
  simp [after?]

theorem length_joinTo_le (spelling : Spelling) (others : List Spelling) :
    (spelling.joinTo others).length ≤ others.length + 1 := by
  cases others with
  | nil => simp [joinTo]
  | cons next rest => simp only [joinTo]; split <;> simp

end Spelling

/-- The spellings of characters in ascending order. -/
def spellings (chars : List Char) : List Spelling :=
  chars.foldr (fun c rest => (Spelling.ofChar c).joinTo rest) []

/-- Characters have at most one spelling each. -/
theorem length_spellings_le (chars : List Char) : (spellings chars).length ≤ chars.length := by
  induction chars with
  | nil => simp [spellings]
  | cons c rest ih =>
    have h := (Spelling.ofChar c).length_joinTo_le (spellings rest)
    simp only [spellings, List.foldr_cons, List.length_cons] at h ih ⊢
    omega

/-- The non-empty beginnings of a list, shortest first. -/
def beginnings (bytes : List UInt8) : List (List UInt8) :=
  (List.range bytes.length).map fun i => bytes.take (i + 1)

/-- What may have been read of spellings before a final byte, once each: nothing at all comes first. -/
def leads (several : List Spelling) : List (List UInt8) :=
  ([] :: several.flatMap fun spelling => beginnings spelling.lead).eraseDups

end Typeahead
