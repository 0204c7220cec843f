import ToolBindings.Json.Value
import ToolBindings.Number.Text

/-!
# JSON as text

`compact` leaves out every blank. `pretty` gives each item and each member a line of its own, two
spaces deeper than its container; an empty container stays in one piece.
-/
namespace ToolBindings.Json

def escapedChar (c : Char) : String :=
  match c with
  | '\x22' => "\\\x22"
  | '\x5c' => "\\\\"
  | '\x08' => "\\b"
  | '\x0c' => "\\f"
  | '\n' => "\\n"
  | '\r' => "\\r"
  | '\t' => "\\t"
  | c =>
    if c.toNat < 0x20 then
      "\\u00" ++ (if c.toNat < 0x10 then "0" else "") ++ String.ofList (Nat.toDigits 16 c.toNat)
    else String.singleton c

def stringText (s : String) : String :=
  "\x22" ++ String.join (s.toList.map escapedChar) ++ "\x22"

mutual

def compact : Json → String
  | null => "null"
  | bool b => if b then "true" else "false"
  | int n => intText n
  | double x => FloatLayout.json.write x
  | str s => stringText s
  | arr xs => "[" ++ ",".intercalate (compactItems xs) ++ "]"
  | obj ms => "\x7b" ++ ",".intercalate (compactMembers ms) ++ "\x7d"

def compactItems : List Json → List String
  | [] => []
  | x :: xs => x.compact :: compactItems xs

def compactMembers : List (String × Json) → List String
  | [] => []
  | (k, x) :: ms => (stringText k ++ ":" ++ x.compact) :: compactMembers ms

end

def indentation (depth : Nat) : String := String.join (List.replicate depth "  ")

def block (opening closing : String) (depth : Nat) (pieces : List String) : String :=
  match pieces with
  | [] => opening ++ closing
  | ps =>
    let pad := indentation (depth + 1)
    opening ++ "\n" ++ ",\n".intercalate (ps.map (pad ++ ·)) ++ "\n" ++ indentation depth ++ closing

mutual

def prettyAt (depth : Nat) : Json → String
  | arr xs => block "[" "]" depth (prettyItems (depth + 1) xs)
  | obj ms => block "\x7b" "\x7d" depth (prettyMembers (depth + 1) ms)
  | null => compact null
  | bool b => compact (bool b)
  | int n => compact (int n)
  | double x => compact (double x)
  | str s => compact (str s)

def prettyItems (depth : Nat) : List Json → List String
  | [] => []
  | x :: xs => prettyAt depth x :: prettyItems depth xs

def prettyMembers (depth : Nat) : List (String × Json) → List String
  | [] => []
  | (k, x) :: ms => (stringText k ++ ": " ++ prettyAt depth x) :: prettyMembers depth ms

end

def pretty (v : Json) : String := v.prettyAt 0

end ToolBindings.Json
