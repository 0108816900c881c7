import Typeahead.Numbered.Store
import Typeahead.Run

/-!
# Inquiries

An inquiry is a run that asks for descriptions as it goes, and goes on with what it is given. Which tree that is,
and whether it has to be made first, is up to the store at the time of asking; between two outputs of one inquiry
others may have asked for the same.

| here | there |
| --- | --- |
| `Inquiry` | `Outputs`, whose elements are described on the way |
| `Inquiry.pull` | `next` |
-/

namespace Typeahead

/-- An evaluation that yields outputs on demand, and asks for descriptions of elements. -/
inductive Inquiry (n : Nat) (α : Type) where
  | done
  | fault (fault : Fault)
  | event (event : Event) (rest : Unit → Inquiry n α)
  | output (a : α) (rest : Unit → Inquiry n α)
  | ask (uid : Nat) (element : Element n) (rest : NumberedTree n → Inquiry n α)

variable {n : Nat} {α β : Type}

/-- A run, as an inquiry that asks for nothing. -/
def Run.inquiry : Run α → Inquiry n α
  | .done => .done
  | .fault f => .fault f
  | .event e rest => .event e fun _ => (rest ()).inquiry
  | .output a rest => .output a fun _ => (rest ()).inquiry

namespace Inquiry

def append (inquiry : Inquiry n α) (next : Unit → Inquiry n α) : Inquiry n α :=
  match inquiry with
  | .done => next ()
  | .fault f => .fault f
  | .event e rest => .event e fun _ => (rest ()).append next
  | .output a rest => .output a fun _ => (rest ()).append next
  | .ask uid e rest => .ask uid e fun tree => (rest tree).append next

/-- Each output replaced by an inquiry of its own. -/
def bind (inquiry : Inquiry n α) (k : α → Inquiry n β) : Inquiry n β :=
  match inquiry with
  | .done => .done
  | .fault f => .fault f
  | .event e rest => .event e fun _ => (rest ()).bind k
  | .output a rest => (k a).append fun _ => (rest ()).bind k
  | .ask uid e rest => .ask uid e fun tree => (rest tree).bind k

def map (f : α → β) (inquiry : Inquiry n α) : Inquiry n β :=
  inquiry.bind fun a => (Run.pure (f a)).inquiry

/-- The inquiries of a list's members, one after the other. -/
def ofList (items : List β) (inquiry : β → Inquiry n α) : Inquiry n α :=
  match items with
  | [] => .done
  | item :: rest => (inquiry item).append fun _ => ofList rest inquiry

/-- No more than so many outputs, and nothing after the last of them. -/
def take (count : Nat) (inquiry : Inquiry n α) : Inquiry n α :=
  match count, inquiry with
  | 0, _ => .done
  | _ + 1, .done => .done
  | _ + 1, .fault f => .fault f
  | count + 1, .event e rest => .event e fun _ => (rest ()).take (count + 1)
  | count + 1, .output a rest => .output a fun _ => (rest ()).take count
  | count + 1, .ask uid e rest => .ask uid e fun tree => (rest tree).take (count + 1)

/-- All outputs at once, when there are no more; those so far are in `acc`, last one first. -/
def gather (acc : List α) : Inquiry n α → Inquiry n (List α)
  | .done => .output acc.reverse fun _ => .done
  | .fault f => .fault f
  | .event e rest => .event e fun _ => (rest ()).gather acc
  | .output a rest => (rest ()).gather (a :: acc)
  | .ask uid e rest => .ask uid e fun tree => (rest tree).gather acc

inductive Stop (n : Nat) (α : Type) where
  | output (a : α) (rest : Inquiry n α)
  | exhausted
  | fault (fault : Fault)

/-- What a pull on an inquiry comes to. -/
structure Course (n : Nat) (α : Type) where
  stop : Stop n α
  /-- What happened on the way, in order. -/
  events : List Event
  store : Store n

/-- Go on to the next output, or to the end. -/
def pull (describer : Describer n) : Inquiry n α → Store n → Course n α
  | .done, store => ⟨.exhausted, [], store⟩
  | .fault f, store => ⟨.fault f, [], store⟩
  | .event e rest, store =>
    let course := (rest ()).pull describer store
    { course with events := e :: course.events }
  | .output a rest, store => ⟨.output a (rest ()), [], store⟩
  | .ask uid e rest, store =>
    match store.describe describer uid e with
    | (.ok tree, store) => (rest tree).pull describer store
    | (.error f, store) => ⟨.fault f, [], store⟩

def drain (describer : Describer n) (inquiry : Inquiry n α) (store : Store n) :
    Except Fault (List α) × List Event × Store n :=
  let course := (inquiry.gather []).pull describer store
  match course.stop with
  | .output outputs _ => (.ok outputs, course.events, course.store)
  | .exhausted => (.ok [], course.events, course.store)
  | .fault f => (.error f, course.events, course.store)

end Inquiry

end Typeahead
