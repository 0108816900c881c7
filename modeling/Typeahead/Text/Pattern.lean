import Typeahead.Text.Spelling

/-!
# Search patterns

A contiguous search runs two machines compiled from what was typed. One reads forward, to where a match
ends; the other reads from there back to where the match begins. A machine has a bounded size in bytes:
that of its states, of the branches by which a state goes on with the next byte, and of the jumps by
which it goes on without reading. A pattern is searched for only if both of its machines fit.

Where the spellings of a letter begin alike, the machine that reads back has one chain of states for the
common beginning, as far as it remembers having built it. It remembers each step at one of a thousand
places, and a later step at the same place drives out the earlier one; a step that is forgotten is built
again.

| here | there |
| --- | --- |
| `sizeLimit` | the bound on the size of a pattern, which `contiguous_pattern` leaves as it is |
| `fits` | whether `contiguous_pattern` can build a pattern |
-/

namespace Typeahead.Pattern

structure Machine where
  states : Nat
  branches : Nat
  jumps : Nat

/-- The bytes a machine takes: 32 for a state, 8 for a branch and 4 for a jump. -/
def Machine.size (machine : Machine) : Nat :=
  32 * machine.states + 8 * machine.branches + 4 * machine.jumps

def sizeLimit : Nat := 10485760

/-- The loop that passes over what comes before a match: a state that jumps into the loop or out of it, a
state with a branch on any byte, and a state that leads back. -/
def skip : Machine := ⟨3, 1, 2⟩

/-- The characters that a typed letter finds, in ascending order. -/
def found (ignoreCase : Bool) (c : Char) : List Char :=
  if ignoreCase then (caseVariants c).mergeSort fun a b => a.toNat ≤ b.toNat else [c]

/-! ## Reading forward -/

/-- The states that tell several spellings apart: each is given by what may still follow, and is there
once, however it is reached. -/
def choices (several : List Spelling) : List (List Spelling) :=
  ((leads several).map fun read => several.filterMap (·.after? read)).eraseDups

def ways (choice : List Spelling) : Nat :=
  (choice.map fun spelling => spelling.ranges.head?).eraseDups.length

/-- Adds a letter to the machine that reads forward. A single character is a chain of states, one for each
byte. Several have their choices, and one state more where they meet. -/
def Machine.readForward (machine : Machine) : List Char → Machine
  | [c] => { machine with states := machine.states + (String.utf8EncodeChar c).length }
  | several =>
    (choices (spellings several)).foldl
      (fun built choice =>
        { built with states := built.states + 1, branches := built.branches + ways choice })
      { machine with states := machine.states + 1 }

/-! ## Reading back -/

/-- A step of the machine that reads back: it reads a byte from `first` to `last`, and the state `next`
goes on from there. States are numbered in the order in which they are built. -/
structure Step where
  next : Nat
  first : UInt8
  last : UInt8
  deriving DecidableEq

def stir (hash word : UInt64) : UInt64 := (hash ^^^ word) * 1099511628211

/-- The place at which a step is remembered, one of a thousand. -/
def Step.place (step : Step) : Nat :=
  let start := stir 14695981039346656037 step.next.toUInt64
  (stir (stir start step.first.toUInt64) step.last.toUInt64).toNat % 1000

/-- Steps of one letter while it is built: the number of states so far, and the steps that were built,
each with its place and its state, the latest first. -/
structure Draft where
  states : Nat
  built : List (Nat × Step × Nat)

/-- The state of a step, if the step is still remembered: it must be the latest at its place. -/
def Draft.remembered? (draft : Draft) (step : Step) : Option Nat :=
  match draft.built.lookup step.place with
  | some (latest, state) => if latest = step then some state else none
  | none => none

/-- The state of a step, which is built unless it is remembered. -/
def Draft.take (draft : Draft) (step : Step) : Nat × Draft :=
  match draft.remembered? step with
  | some state => (state, draft)
  | none => (draft.states, ⟨draft.states + 1, (step.place, step, draft.states) :: draft.built⟩)

def Draft.spell (meet : Nat) (draft : Draft) (spelling : Spelling) : Draft :=
  (spelling.ranges.foldl
    (fun (next, draft) (first, last) => draft.take ⟨next, first, last⟩) (meet, draft)).2

/-- Adds a letter to the machine that reads back. Several characters of more than one byte have a state
that jumps to each spelling, the steps of the spellings, and one state more where they meet. All else is
as in the machine that reads forward. -/
def Machine.readBack (machine : Machine) (chars : List Char) : Machine :=
  let several := spellings chars
  if chars.length = 1 ∨ several.all (·.lead.isEmpty) then machine.readForward chars
  else
    let meet := machine.states + 1
    { machine with
      states := (several.foldl (Draft.spell meet) ⟨meet + 1, []⟩).states
      jumps := machine.jumps + several.length }

theorem Draft.remembered?_of_built {draft : Draft} {step : Step} {state : Nat}
    {earlier : List (Nat × Step × Nat)} (h : draft.built = (step.place, step, state) :: earlier) :
    draft.remembered? step = some state := by
  have latest (place : Nat) (entry : Step × Nat) :
      ((place, entry) :: earlier).lookup place = some entry := by simp
  rw [remembered?, h, latest]
  exact if_pos rfl

/-- A step is remembered once it has been taken. -/
theorem Draft.remembered?_take (draft : Draft) (step : Step) :
    (draft.take step).2.remembered? step = some (draft.take step).1 := by
  cases h : draft.remembered? step with
  | some state => simp only [take, h]
  | none =>
    simp only [take, h]
    exact remembered?_of_built rfl

theorem Draft.states_take_le (draft : Draft) (step : Step) :
    (draft.take step).2.states ≤ draft.states + 1 := by
  unfold take
  split <;> simp

/-! ## Patterns -/

/-- The machine that reads forward: the loop, the letters in order, a state for either end of the match,
and one to accept in. -/
def forward (ignoreCase : Bool) (text : Text) : Machine :=
  let machine := text.foldl (fun built c => built.readForward (found ignoreCase c)) skip
  { machine with states := machine.states + 3 }

/-- The machine that reads back: the loop, the letters from the last to the first, and a state to accept
in. -/
def backward (ignoreCase : Bool) (text : Text) : Machine :=
  let machine := text.foldr (fun c built => built.readBack (found ignoreCase c)) skip
  { machine with states := machine.states + 1 }

def fits (ignoreCase : Bool) (text : Text) : Bool :=
  (forward ignoreCase text).size ≤ sizeLimit && (backward ignoreCase text).size ≤ sizeLimit

end Typeahead.Pattern
