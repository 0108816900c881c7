import Typeahead.Literal
import Typeahead.Text.Slice

/-!
# Literals read by slices

Text and input are stored as bytes. The walk in lockstep, the search in one piece and the walk from letter to
letter report the bytes they have come to, and the segments of a reading are slices of the text, cut there and
put one after the other. `Literal.readSliced` reads a literal in this way; it fails if a slice is misplaced.

| here | there |
| --- | --- |
| `sharedBytes` | `shared_prefix` |
| `pushSegment` | `SegmentRun::push` |
| `foundBytes` | the bounds of the match in `fuzzy_align` |
| `sliceScattered` | `scattered_align` |
| `sliceFuzzily` | `fuzzy_align` |
| `readSliced` | `match_literal` |
-/

namespace Typeahead

/-- The bytes of text and input up to which they agree. -/
def sharedBytes (same : Char → Char → Bool) : Text → Text → Nat × Nat
  | c :: text, d :: input =>
    if same c d then
      let (inText, inInput) := sharedBytes same text input
      (c.utf8Size + inText, d.utf8Size + inInput)
    else (0, 0)
  | _, _ => (0, 0)

/-- Add a piece of a literal's text to the segments before it: it joins the last one if that has the same mark. No
segment is empty, and the first one starts the word. -/
def pushSegment (segments : List Segment) (piece : Text) (typed : Bool) : List Segment :=
  if piece.isEmpty then segments
  else
    match segments.getLast? with
    | none => [⟨piece, typed, true⟩]
    | some last =>
      if last.typed = typed then segments.dropLast ++ [{ last with text := last.text ++ piece }]
      else segments ++ [⟨piece, typed, false⟩]

/-- The bytes between which the input lies in one piece, leftmost in the text. -/
def foundBytes (search : Search) (ignoreCase : Bool) (text input : Text) : Option (Nat × Nat) :=
  (search.find? ignoreCase text input).map fun start =>
    (byteLength (text.take start), byteLength (text.take (start + input.length)))

/-- The first character of a text that fits, and the bytes before it. -/
def firstFit (same : Char → Char → Bool) (wanted : Char) : Text → Option (Nat × Char)
  | [] => none
  | c :: text =>
    if same c wanted then some (0, c)
    else (firstFit same wanted text).map fun (bytes, found) => (c.utf8Size + bytes, found)

/-- The segments of a text when each character of the input takes the first place that fits, from a place on. -/
def sliceScattered (same : Char → Char → Bool) (text : Text) (place : Nat) (segments : List Segment) :
    Text → Except Misplaced (Option (List Segment))
  | [] => do
    let rest ← slice text place (byteLength text)
    return some (pushSegment segments rest false)
  | wanted :: input => do
    let rest ← slice text place (byteLength text)
    match firstFit same wanted rest with
    | none => return none
    | some (bytes, found) =>
      let start := place + bytes
      let stop := start + found.utf8Size
      let skipped ← slice text place start
      let taken ← slice text start stop
      sliceScattered same text stop (pushSegment (pushSegment segments skipped false) taken true) input

/-- The segments of a text that has all of the input inside it, with their score. -/
def sliceFuzzily (search : Search) (ignoreCase : Bool) (text input : Text) :
    Except Misplaced (Option (List Segment × Binary64)) :=
  match if search.builds ignoreCase input then foundBytes search ignoreCase text input else none with
  | some (start, stop) => do
    let before ← slice text 0 start
    let piece ← slice text start stop
    let after ← slice text stop (byteLength text)
    let segments := pushSegment (pushSegment (pushSegment [] before false) piece true) after false
    return some (segments, if start = 0 then .one else .half)
  | none => do
    let segments? ← sliceScattered (sameLetter ignoreCase) text 0 [] input
    return segments?.map fun segments => (segments, .quarter)

namespace Literal

def readingWith (literal : Literal) (remaining : Text) (segments : List Segment) (score : Binary64) :
    Output where
  result := literal.value.getD .null
  remaining
  segments
  score := literal.ownScore?.getD score

/-- Read input as a literal by slices of text and input. -/
def readSliced (literal : Literal) (leniency : Leniency) (input : Text) :
    Except Misplaced (Option Output) :=
  let (inText, inInput) := sharedBytes (sameLetter leniency.ignoreCase) literal.text input
  if inText = byteLength literal.text then do
    let rest ← slice input inInput (byteLength input)
    return some (literal.readingWith rest (pushSegment [] literal.text true) .one)
  else if inInput = byteLength input then do
    let typed ← slice literal.text 0 inText
    let untyped ← slice literal.text inText (byteLength literal.text)
    return some (literal.readingWith [] (pushSegment (pushSegment [] typed true) untyped false) .one)
  else if literal.fuzzy || leniency.fuzzy then do
    let found? ← sliceFuzzily leniency.search leniency.ignoreCase literal.text input
    return found?.map fun (segments, score) => literal.readingWith [] segments score
  else return none

end Literal

end Typeahead
