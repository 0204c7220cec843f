import ToolBindings.Binding.ValueType
import ToolBindings.Text.Quoted

/-!
# Types in other languages

A type is spelled in a target language, together with the imports that its spelling needs.
Structures and unions become the dynamic values of the target where it has no form for them.
Imports are listed once, in the order of their first use by the type and the types inside it.
-/
namespace ToolBindings

inductive Language
  | rust
  | python
  | typescript
  deriving DecidableEq, Repr

namespace Language

def name : Language → String
  | rust => "rust"
  | python => "python"
  | typescript => "typescript"

def ofName? (s : String) : Option Language := [rust, python, typescript].find? (·.name = s)

def rustSpelling : ValueType → String
  | .scalar .int => "i64"
  | .scalar .float => "f64"
  | .scalar .str => "String"
  | .scalar .path => "PathBuf"
  | .bool => "bool"
  | .count => "usize"
  | .literal (.int _) => "i64"
  | .literal (.str _) => "String"
  | .optional t | .nullable t => "Option<" ++ rustSpelling t ++ ">"
  | .list t => "Vec<" ++ rustSpelling t ++ ">"
  | .struct _ => "HashMap<String, Value>"
  | .union _ => "Value"

mutual

def pythonSpelling : ValueType → String
  | .scalar .int => "int"
  | .scalar .float => "float"
  | .scalar .str => "str"
  | .scalar .path => "pathlib.Path"
  | .bool => "bool"
  | .count => "int"
  | .literal (.int n) => "Literal[" ++ intText n ++ "]"
  | .literal (.str s) => "Literal[" ++ Text.quoted s ++ "]"
  | .optional t | .nullable t => pythonSpelling t ++ " | None"
  | .list t => "list[" ++ pythonSpelling t ++ "]"
  | .struct _ => "dict[str, Any]"
  | .union variants => " | ".intercalate (pythonSpellings variants)

def pythonSpellings : List (String × ValueType) → List String
  | [] => []
  | (_, t) :: rest => pythonSpelling t :: pythonSpellings rest

end

def isPlainKey (s : String) : Bool :=
  let isStart (c : Char) := c.isAlpha || c = '_' || c = '$'
  match s.toList with
  | [] => false
  | c :: r => isStart c && r.all fun c => isStart c || c.isDigit

def keySpelling (s : String) : String := if isPlainKey s then s else Text.quoted s

def isCompound : ValueType → Bool
  | .optional _ | .nullable _ | .union _ => true
  | _ => false

mutual

def typescriptSpelling : ValueType → String
  | .scalar .int | .scalar .float | .count => "number"
  | .scalar .str | .scalar .path => "string"
  | .bool => "boolean"
  | .literal (.int n) => intText n
  | .literal (.str s) => Text.quoted s
  | .optional t => typescriptSpelling t ++ " | undefined"
  | .nullable t => typescriptSpelling t ++ " | null"
  | .list t =>
    if isCompound t then "(" ++ typescriptSpelling t ++ ")[]" else typescriptSpelling t ++ "[]"
  | .struct [] => "\x7b\x7d"
  | .struct fields => "\x7b " ++ "; ".intercalate (typescriptFields fields) ++ " \x7d"
  | .union variants => " | ".intercalate (typescriptSpellings variants)

def typescriptFields : List (String × ValueType) → List String
  | [] => []
  | (name, t) :: rest => (keySpelling name ++ ": " ++ typescriptSpelling t) :: typescriptFields rest

def typescriptSpellings : List (String × ValueType) → List String
  | [] => []
  | (_, t) :: rest => typescriptSpelling t :: typescriptSpellings rest

end

def spelling : Language → ValueType → String
  | rust => rustSpelling
  | python => pythonSpelling
  | typescript => typescriptSpelling

def ownImports : Language → ValueType → List String
  | rust, .scalar .path => ["use std::path::PathBuf;"]
  | rust, .struct _ => ["use std::collections::HashMap;", "use serde_json::Value;"]
  | rust, .union _ => ["use serde_json::Value;"]
  | python, .scalar .path => ["import pathlib"]
  | python, .struct _ => ["from typing import Any"]
  | python, .literal _ => ["from typing import Literal"]
  | _, _ => []

def addLines (lines new : List String) : List String :=
  new.foldl (fun ls l => if l ∈ ls then ls else ls ++ [l]) lines

def imports (l : Language) (t : ValueType) : List String :=
  addLines [] (t.parts.flatMap l.ownImports)

end Language
end ToolBindings
