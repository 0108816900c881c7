import Typeahead.Text
import Typeahead.Value

/-!
# Readings of the input

An `Output` is one way to read what was typed: the value it stands for, the text that is still to be
read, the text of the reading as typed and suggested runs, and a score. Sequences build theirs child by
child with `Output.merge`: fields are merged and later ones win, any other value but `null` is kept under
the position of its child, runs are joined, scores are multiplied.

| here | there |
| --- | --- |
| `Segment` | `Segment` |
| `Output` | `Output` |
| `seed`, `text`, `isComplete` | `Output::seed`, `text`, `is_complete` |
| `label` | `wrap_id` |
| `merge` | `merge_step` |
-/

namespace Typeahead

/-- A run of text that was typed, or that is suggested. -/
structure Segment where
  text : Text
  /-- Whether the run was matched against typed characters. -/
  typed : Bool
  /-- Whether the run is the first one of its literal. -/
  startsWord : Bool := false
  deriving DecidableEq

structure Output where
  result : Value
  /-- What of the input is still to be read. -/
  remaining : Text
  segments : List Segment
  score : Binary64

namespace Output

/-- Where a sequence starts: nothing read, nothing gathered. -/
def seed (input : Text) : Output := ⟨.obj [], input, [], .one⟩

def isComplete (out : Output) : Bool := out.remaining.isEmpty

def text (out : Output) : Text := out.segments.flatMap (·.text)

/-- The reading with its value put under a name. -/
def label (out : Output) (name : String) : Output := { out with result := .obj [(name, out.result)] }

/-- The fields gathered so far. -/
def fields (out : Output) : List (String × Value) :=
  match out.result with
  | .obj fields => fields
  | _ => []

/-- The fields that the child at a position adds to its sequence. -/
def contribution (position : Nat) (value : Value) : List (String × Value) :=
  match value with
  | .obj fields => fields
  | .null => []
  | other => [(toString position, other)]

/-- Extend a sequence's reading by that of its child at a position. -/
def merge (acc : Output) (position : Nat) (child : Output) : Output where
  result := .obj (Fields.insertAll acc.fields (contribution position child.result))
  remaining := child.remaining
  segments := acc.segments ++ child.segments
  score := acc.score.mul child.score

@[simp] theorem remaining_merge (acc : Output) (position : Nat) (child : Output) :
    (acc.merge position child).remaining = child.remaining := rfl

@[simp] theorem text_merge (acc : Output) (position : Nat) (child : Output) :
    (acc.merge position child).text = acc.text ++ child.text := by
  simp [merge, text]

end Output

end Typeahead
