import ToolBindings.Text.Extending
import ToolBindings.Text.Hidden

/-!
# Quoted text

A quoted text stands between double quotes. Quotes, backslashes and the common controls are written
with a backslash; a character that attaches to its neighbour or leaves no mark is written by its
code point in hexadecimal digits.
-/
namespace ToolBindings.Text

def hexText (n : Nat) : String := String.ofList (Nat.toDigits 16 n)

def quotedChar (c : Char) : String :=
  match c with
  | '\x22' => "\\\x22"
  | '\x5c' => "\\\\"
  | '\n' => "\\n"
  | '\r' => "\\r"
  | '\t' => "\\t"
  | '\x00' => "\\0"
  | c =>
    if isExtending c ∨ isHidden c then "\\u\x7b" ++ hexText c.toNat ++ "\x7d" else String.singleton c

def quoted (s : String) : String := "\x22" ++ String.join (s.toList.map quotedChar) ++ "\x22"

end ToolBindings.Text
