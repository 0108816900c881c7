import Typeahead.Decimal
import Typeahead.Value

/-!
# JSON text of values

The compact form has no blanks at all. The pretty form puts every item and field on a line of its own,
two blanks further in for each level, and leaves empty arrays and objects closed up.

| here | there |
| --- | --- |
| `compact` | the text of a `Value`, as `print_output` shows it |
| `pretty` | `to_string_pretty` |
-/

namespace Typeahead.Value

/-- Numbers are positional while the leading digit stands for `10 ^ (-5)` to `10 ^ 15`, keep a zero after
the point of a whole number, and give every exponent a sign. -/
def numberLayout : Layout := ⟨some (-5), some 15, true, true, .even⟩

/-- A lowercase hexadecimal code of four digits. -/
def escapeUnit (c : Char) : List Char :=
  let digits := Nat.toDigits 16 c.toNat
  '\\' :: 'u' :: (List.replicate (4 - digits.length) '0' ++ digits)

/-- How a character is written in a JSON string. -/
def jsonChar (c : Char) : List Char :=
  match c with
  | '\"' => ['\\', '\"']
  | '\\' => ['\\', '\\']
  | '\x08' => ['\\', 'b']
  | '\x0c' => ['\\', 'f']
  | '\n' => ['\\', 'n']
  | '\r' => ['\\', 'r']
  | '\t' => ['\\', 't']
  | c => if c.toNat < 32 then escapeUnit c else [c]

def jsonString (s : String) : String :=
  String.ofList ('\"' :: s.toList.flatMap jsonChar ++ ['\"'])

/-- A floating-point number; one that is not finite has no JSON form. -/
def jsonFloat (x : Binary64) : String :=
  if x.isNaN || x.isInfinite then "null" else numberLayout.render x

/-- Items between brackets, separated by commas. -/
def enclose (left right : String) (items : List String) : String :=
  left ++ ",".intercalate items ++ right

mutual

def compact : Value → String
  | null => "null"
  | bool b => if b then "true" else "false"
  | int n => toString n
  | float x => jsonFloat x
  | str s => jsonString s
  | arr items => enclose "[" "]" (compactItems items)
  | obj fields => enclose "\x7b" "\x7d" (compactFields fields)

def compactItems : List Value → List String
  | [] => []
  | item :: rest => compact item :: compactItems rest

def compactFields : List (String × Value) → List String
  | [] => []
  | (name, value) :: rest => (jsonString name ++ ":" ++ compact value) :: compactFields rest

end

/-- Items on lines of their own, inside brackets at the given level. -/
def block (left right : String) (level : Nat) (items : List String) : String :=
  if items.isEmpty then left ++ right
  else
    let inner := "\n" ++ String.ofList (List.replicate (2 * level + 2) ' ')
    let outer := "\n" ++ String.ofList (List.replicate (2 * level) ' ')
    left ++ inner ++ ("," ++ inner).intercalate items ++ outer ++ right

mutual

/-- The pretty JSON text, at a level of nesting. -/
def pretty (level : Nat) : Value → String
  | arr items => block "[" "]" level (prettyItems (level + 1) items)
  | obj fields => block "\x7b" "\x7d" level (prettyFields (level + 1) fields)
  | null => "null"
  | bool b => if b then "true" else "false"
  | int n => toString n
  | float x => jsonFloat x
  | str s => jsonString s

def prettyItems (level : Nat) : List Value → List String
  | [] => []
  | item :: rest => pretty level item :: prettyItems level rest

def prettyFields (level : Nat) : List (String × Value) → List String
  | [] => []
  | (name, value) :: rest =>
    (jsonString name ++ ": " ++ pretty level value) :: prettyFields level rest

end

end Typeahead.Value
