import Typeahead.Text
import Typeahead.Text.GraphemeExtend
import Typeahead.Text.Unprintable

/-!
# Quoted text

Text in double quotes, safe to show on one line: quotes, backslashes and the usual control characters
get a short escape, and every other character that has no visible form of its own is written as its code
point in braces.

| here | there |
| --- | --- |
| `quoted` | the debug form of a text, as `print_output` shows it |
-/

namespace Typeahead

/-- Whether a character shows as itself, without leaning on its neighbour. -/
def isVisible (c : Char) : Bool :=
  !inRanges graphemeExtendRanges c.toNat && !inRanges unprintableRanges c.toNat

/-- A character by its code point in lowercase hexadecimal. -/
def escapeCode (c : Char) : Text :=
  '\\' :: 'u' :: '\x7b' :: Nat.toDigits 16 c.toNat ++ ['\x7d']

/-- How a character is written between double quotes. -/
def quoteChar (c : Char) : Text :=
  match c with
  | '\x00' => ['\\', '0']
  | '\t' => ['\\', 't']
  | '\r' => ['\\', 'r']
  | '\n' => ['\\', 'n']
  | '\"' => ['\\', '\"']
  | '\\' => ['\\', '\\']
  | c => if isVisible c then [c] else escapeCode c

def quoted (text : Text) : String :=
  String.ofList ('\"' :: text.flatMap quoteChar ++ ['\"'])

/-- A visible character without an escape of its own stands for itself. -/
theorem quoteChar_of_isVisible {c : Char} (hc : c ∉ ['\x00', '\t', '\r', '\n', '\"', '\\'])
    (hv : isVisible c = true) : quoteChar c = [c] := by
  unfold quoteChar
  split <;> simp_all

/-- A hidden character without an escape of its own is written by its code point. -/
theorem quoteChar_of_not_isVisible {c : Char}
    (hc : c ∉ ['\x00', '\t', '\r', '\n', '\"', '\\']) (hv : isVisible c = false) :
    quoteChar c = escapeCode c := by
  unfold quoteChar
  split <;> simp_all

end Typeahead
