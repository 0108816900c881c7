import Typeahead.Decimal
import Typeahead.Grammar
import Typeahead.Text.Quoted
import Typeahead.Value.Printer

/-!
# Inspection texts

One-line texts that show what a literal, an element or a phrase holds, for people who write grammars.

| here | there |
| --- | --- |
| `Literal.inspect` | the debug form of a `Literal` |
| `Element.inspect` | `Element::fmt` |
| `Phrase.inspect` | `PhraseDef::fmt` |
-/

namespace Typeahead

/-- Numbers have an exponent below `10 ^ (-4)` and from `10 ^ 16` on, and keep a zero after the point of a
whole number. -/
def inspectLayout : Layout := ⟨some (-4), some 15, true, false, .up⟩

/-- Items between brackets, separated by commas and blanks. -/
def inspectList (left right : String) (items : List String) : String :=
  left ++ ", ".intercalate items ++ right

def inspectRecord (name : String) (fields : List (String × String)) : String :=
  name ++ " \x7b " ++ ", ".intercalate (fields.map fun field => field.1 ++ ": " ++ field.2) ++ " \x7d"

def inspectOption : Option String → String
  | some text => "Some(" ++ text ++ ")"
  | none => "None"

def inspectBool (b : Bool) : String := if b then "true" else "false"

mutual

/-- A value with the kind of each part. -/
def Value.inspect : Value → String
  | .null => "Null"
  | .bool b => "Bool(" ++ inspectBool b ++ ")"
  | .int n => "Number(" ++ toString n ++ ")"
  | .float x => "Number(" ++ Value.jsonFloat x ++ ")"
  | .str s => "String(" ++ quoted s.toList ++ ")"
  | .arr items => "Array " ++ inspectList "[" "]" (Value.inspectItems items)
  | .obj fields => "Object " ++ inspectList "\x7b" "\x7d" (Value.inspectFields fields)

def Value.inspectItems : List Value → List String
  | [] => []
  | item :: rest => Value.inspect item :: Value.inspectItems rest

def Value.inspectFields : List (String × Value) → List String
  | [] => []
  | (name, value) :: rest =>
    (quoted name.toList ++ ": " ++ Value.inspect value) :: Value.inspectFields rest

end

def Literal.inspect (literal : Literal) : String :=
  inspectRecord "Literal"
    [("text", quoted literal.text), ("fuzzy", inspectBool literal.fuzzy),
     ("score", inspectOption (literal.score.map inspectLayout.render)),
     ("value", inspectOption (literal.value.map Value.inspect))]

/-- What an element holds, and whether its description is built. -/
def Element.inspect {n : Nat} (element : Element n) (book : Phrasebook n) (described : Bool) : String :=
  inspectRecord "Element"
    [("identity", quoted (book element.phrase).identity.toList),
     ("props", inspectList "\x7b" "\x7d" (Value.inspectFields element.props)),
     ("described", inspectBool described)]

/-- What a phrase holds; its functions are not shown. -/
def Phrase.inspect {n : Nat} (phrase : Phrase n) : String :=
  let names (identities : List String) :=
    inspectList "[" "]" (identities.map fun identity => quoted identity.toList)
  inspectRecord "PhraseDef"
    [("identity", quoted phrase.identity.toList), ("describe", quoted "<function>".toList),
     ("supplements", names phrase.supplements), ("overrides", names phrase.overrides)]

end Typeahead
