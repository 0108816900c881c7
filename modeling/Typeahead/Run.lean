import Typeahead.Address
import Typeahead.Grammar
import Typeahead.Trace

/-!
# Lazy runs

A run is the course of an evaluation, produced on demand: events in the order in which they happen, and
outputs between them. Nothing past the point that was asked for is worked out. `Run.events` and
`Run.outputs` are the two views of a run; joining and extending runs is described through them.

| here | there |
| --- | --- |
| `Run` | `Outputs` |
| `append`, `map`, `take` | `chain`, `map`, `take` |
| `bind`, `ofList` | `flat_map`, also where it is a `filter` |
| `Event` | what counters, marks and description cells are told |
-/

namespace Typeahead

/-- Something that happens while input is read. -/
inductive Event where
  /-- A node is tried. -/
  | visit (address : Address)
  /-- A literal is compared with the input. -/
  | attempt
  /-- A phrase is not entered again. -/
  | prune
  /-- A phrase is entered, as the innermost of a path. -/
  | enter (path : Trace)
  /-- The description of an element is called for. -/
  | describe (address : Address)
  /-- A phrase rejects a result. -/
  | reject
  /-- A reading is handed out. -/
  | emit
  deriving DecidableEq

/-- An evaluation that yields outputs on demand. -/
inductive Run (α : Type) where
  | done
  | fault (fault : Fault)
  | event (event : Event) (rest : Unit → Run α)
  | output (a : α) (rest : Unit → Run α)

namespace Run

variable {α β : Type}

/-- A run with a single output. -/
def pure (a : α) : Run α := .output a fun _ => .done

/-- A run with at most one output. -/
def ofOption : Option α → Run α
  | some a => pure a
  | none => .done

def append (run : Run α) (next : Unit → Run α) : Run α :=
  match run with
  | .done => next ()
  | .fault f => .fault f
  | .event e rest => .event e fun _ => (rest ()).append next
  | .output a rest => .output a fun _ => (rest ()).append next

/-- Each output replaced by a run of its own. -/
def bind (run : Run α) (k : α → Run β) : Run β :=
  match run with
  | .done => .done
  | .fault f => .fault f
  | .event e rest => .event e fun _ => (rest ()).bind k
  | .output a rest => (k a).append fun _ => (rest ()).bind k

def map (f : α → β) (run : Run α) : Run β :=
  match run with
  | .done => .done
  | .fault f => .fault f
  | .event e rest => .event e fun _ => (rest ()).map f
  | .output a rest => .output (f a) fun _ => (rest ()).map f

/-- The runs of a list's members, one after the other. -/
def ofList (items : List β) (run : β → Run α) : Run α :=
  match items with
  | [] => .done
  | item :: rest => (run item).append fun _ => ofList rest run

/-- No more than so many outputs, and nothing after the last of them. -/
def take (count : Nat) (run : Run α) : Run α :=
  match count, run with
  | 0, _ => .done
  | _ + 1, .done => .done
  | _ + 1, .fault f => .fault f
  | count + 1, .event e rest => .event e fun _ => (rest ()).take (count + 1)
  | count + 1, .output a rest => .output a fun _ => (rest ()).take count

/-! ## Views -/

def events : Run α → List Event
  | .done => []
  | .fault _ => []
  | .event e rest => e :: (rest ()).events
  | .output _ rest => (rest ()).events

def outputs : Run α → List α
  | .done => []
  | .fault _ => []
  | .event _ rest => (rest ()).outputs
  | .output a rest => a :: (rest ()).outputs

/-- The fault that ends the run, if one does. -/
def fault? : Run α → Option Fault
  | .done => none
  | .fault f => some f
  | .event _ rest => (rest ()).fault?
  | .output _ rest => (rest ()).fault?

theorem outputs_append (run : Run α) (next : Unit → Run α) (h : run.fault? = none) :
    (run.append next).outputs = run.outputs ++ (next ()).outputs := by
  induction run with
  | done => rfl
  | fault f => simp [fault?] at h
  | event e rest ih => exact ih () h
  | output a rest ih => simp only [append, outputs, List.cons_append, ih () h]

/-- Events of joined runs, when the first ends well. -/
theorem events_append (run : Run α) (next : Unit → Run α) (h : run.fault? = none) :
    (run.append next).events = run.events ++ (next ()).events := by
  induction run with
  | done => rfl
  | fault f => simp [fault?] at h
  | event e rest ih => simp only [append, events, List.cons_append, ih () h]
  | output a rest ih => exact ih () h

@[simp] theorem outputs_pure (a : α) : (pure a).outputs = [a] := rfl

@[simp] theorem outputs_map (f : α → β) (run : Run α) : (run.map f).outputs = run.outputs.map f := by
  induction run with
  | done => rfl
  | fault => rfl
  | event e rest ih => exact ih ()
  | output a rest ih => simp only [map, outputs, List.map_cons, ih ()]

@[simp] theorem events_map (f : α → β) (run : Run α) : (run.map f).events = run.events := by
  induction run with
  | done => rfl
  | fault => rfl
  | event e rest ih => simp only [map, events, ih ()]
  | output a rest ih => exact ih ()

@[simp] theorem outputs_take (count : Nat) (run : Run α) :
    (run.take count).outputs = run.outputs.take count := by
  induction run generalizing count with
  | done => cases count <;> simp [take, outputs]
  | fault => cases count <;> simp [take, outputs]
  | event e rest ih =>
    cases count with
    | zero => simp [take, outputs]
    | succ count => simp only [take, outputs, ih ()]
  | output a rest ih =>
    cases count with
    | zero => simp [take, outputs]
    | succ count => simp only [take, outputs, List.take_succ_cons, ih ()]

end Run

end Typeahead
