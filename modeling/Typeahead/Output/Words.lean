import Typeahead.Output

/-!
# The words of a reading

A word is what one literal put into a reading. The words fall into three runs: those typed in full before
the first incomplete one, those from there through the last with anything typed, and the rest.

| here | there |
| --- | --- |
| `wordsOf` | the words in `Split::of`, by `chunk_by` |
| `WordSplit.of` | `Split::of` |
| `textOf` | `concat` |
| `matched`, `suggestion`, `completion` | `matched`, `suggestion`, `completion` |
-/

namespace Typeahead

/-- Put a segment before words: it joins the first of them unless that one starts afresh. -/
def joinWord (segment : Segment) : List (List Segment) → List (List Segment)
  | [] => [[segment]]
  | [] :: words => [segment] :: words
  | (next :: rest) :: words =>
    if next.startsWord then [segment] :: (next :: rest) :: words
    else (segment :: next :: rest) :: words

/-- Segments cut into words. -/
def wordsOf (segments : List Segment) : List (List Segment) := segments.foldr joinWord []

/-- Nothing is lost by cutting into words. -/
theorem flatten_wordsOf (segments : List Segment) : (wordsOf segments).flatten = segments := by
  induction segments with
  | nil => rfl
  | cons segment rest ih =>
    change (joinWord segment (wordsOf rest)).flatten = _
    revert ih
    generalize wordsOf rest = words
    intro ih
    match words with
    | [] => simpa [joinWord] using ih
    | [] :: words => simpa [joinWord] using ih
    | (next :: more) :: words =>
      simp only [joinWord]
      split <;> simpa using ih

/-- Where the words are split for display. -/
structure WordSplit where
  words : List (List Segment)
  /-- Count of words before the first incomplete one. -/
  firstIncomplete : Nat
  /-- Count of words before those with nothing typed that are still to come. -/
  completionStart : Nat

/-- Find the split: from the first word with a suggested run, through the last word with a typed run or,
when that one lies before, through that same word. -/
def WordSplit.of (segments : List Segment) : WordSplit :=
  let words := wordsOf segments
  let firstIncomplete := words.findIdx (·.any (!·.typed))
  let afterTyped := words.length - words.reverse.findIdx (·.any (·.typed))
  { words, firstIncomplete
    completionStart :=
      if firstIncomplete < afterTyped then afterTyped else min (firstIncomplete + 1) words.length }

def textOf (words : List (List Segment)) : Text := words.flatten.flatMap (·.text)

namespace Output

/-- The words typed in full before the first incomplete one. -/
def matched (out : Output) : Text :=
  let split := WordSplit.of out.segments
  textOf (split.words.take split.firstIncomplete)

/-- From the first incomplete word through the last with anything typed. -/
def suggestion (out : Output) : Text :=
  let split := WordSplit.of out.segments
  textOf ((split.words.take split.completionStart).drop split.firstIncomplete)

/-- The words after the suggestion. -/
def completion (out : Output) : Text :=
  let split := WordSplit.of out.segments
  textOf (split.words.drop split.completionStart)

end Output

end Typeahead
