import Typeahead.Binary64
import Typeahead.Fields

/-!
# Values

What a reading stands for: a piece of structured data. Whole numbers and floating-point numbers are
different kinds of value, so `2` and `2.0` are not equal.

| here | there |
| --- | --- |
| `Value` | `Value`, of results and props |
| `Value.field?` | `Value::get` |
-/

namespace Typeahead

/-- Structured data. -/
inductive Value where
  | null
  | bool (b : Bool)
  | int (n : Int)
  | float (x : Binary64)
  | str (s : String)
  | arr (items : List Value)
  | obj (fields : List (String × Value))

/-- Named settings of a phrase element. -/
abbrev Props := Fields Value

namespace Value

instance : Inhabited Value := ⟨null⟩

mutual

/-- Equality of data: kinds differ, floating-point numbers are compared as numbers. -/
def same : Value → Value → Bool
  | null, null => true
  | bool a, bool b => a == b
  | int a, int b => a == b
  | float a, float b => a.sameNumber b
  | str a, str b => a == b
  | arr a, arr b => sameItems a b
  | obj a, obj b => sameFields a b
  | _, _ => false

def sameItems : List Value → List Value → Bool
  | [], [] => true
  | a :: as, b :: bs => same a b && sameItems as bs
  | _, _ => false

def sameFields : List (String × Value) → List (String × Value) → Bool
  | [], [] => true
  | (j, a) :: as, (k, b) :: bs => j == k && same a b && sameFields as bs
  | _, _ => false

end

/-- The field of an object; nothing for other values. -/
def field? (value : Value) (name : String) : Option Value :=
  match value with
  | obj fields => Fields.get? fields name
  | _ => none

end Value

end Typeahead
