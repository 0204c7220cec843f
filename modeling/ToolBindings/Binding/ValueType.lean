import ToolBindings.Number.Text
import ToolBindings.OrderedMap

/-!
# Types of parameters

A type is written on one line where it can be; the fields of a structure and the variants of a
union stand on lines of their own, indented by depth. A structure with one field stays on one line,
and so does a union of literals only.
-/
namespace ToolBindings

inductive Scalar
  | int
  | float
  | str
  | path
  deriving DecidableEq, Repr

def Scalar.name : Scalar → String
  | .int => "int"
  | .float => "float"
  | .str => "str"
  | .path => "path"

inductive Literal
  | int (n : Int)
  | str (s : String)
  deriving DecidableEq, Repr

def Literal.text : Literal → String
  | .int n => intText n
  | .str s => "\x22" ++ s ++ "\x22"

/-- A count is a number of occurrences. Fields and variants stand in order of declaration. -/
inductive ValueType
  | scalar (s : Scalar)
  | bool
  | count
  | literal (l : Literal)
  | optional (t : ValueType)
  | list (t : ValueType)
  | struct (fields : List (String × ValueType))
  | union (variants : List (String × ValueType))
  | nullable (t : ValueType)
  deriving Repr, Inhabited

namespace ValueType

def isLiteral : ValueType → Bool
  | literal _ => true
  | _ => false

def isOmittable : ValueType → Bool
  | optional _ | nullable _ => true
  | _ => false

def padding (indent : Nat) : String := String.join (List.replicate indent "  ")

def block (keyword : String) (indent : Nat) (lines : List String) : String :=
  keyword ++ " \x7b\n" ++ "\n".intercalate lines ++ "\n" ++ padding indent ++ "\x7d"

mutual

def textAt (indent : Nat) : ValueType → String
  | scalar s => s.name
  | bool => "bool"
  | count => "count"
  | literal l => l.text
  | optional t => "optional<" ++ textAt (indent + 1) t ++ ">"
  | list t => "list<" ++ textAt (indent + 1) t ++ ">"
  | nullable t => "nullable<" ++ textAt (indent + 1) t ++ ">"
  | struct [] => "struct \x7b\x7d"
  | struct [(name, t)] => "struct \x7b " ++ name ++ ": " ++ textAt indent t ++ " \x7d"
  | struct fields => block "struct" indent (linesAt (padding indent ++ "  ") (indent + 1) fields)
  | union [] => "union \x7b\x7d"
  | union variants =>
    if variants.all fun v => v.2.isLiteral then " | ".intercalate (textsAt 0 variants)
    else block "union" indent (linesAt (padding indent ++ "  | ") (indent + 1) variants)

def linesAt (lead : String) (indent : Nat) : List (String × ValueType) → List String
  | [] => []
  | (name, t) :: rest => (lead ++ name ++ ": " ++ textAt indent t) :: linesAt lead indent rest

def textsAt (indent : Nat) : List (String × ValueType) → List String
  | [] => []
  | (_, t) :: rest => textAt indent t :: textsAt indent rest

end

def text (t : ValueType) : String := t.textAt 0

mutual

def parts : ValueType → List ValueType
  | scalar s => [scalar s]
  | bool => [bool]
  | count => [count]
  | literal l => [literal l]
  | optional t => optional t :: parts t
  | list t => list t :: parts t
  | nullable t => nullable t :: parts t
  | struct fields => struct fields :: partsAll fields
  | union variants => union variants :: partsAll variants

def partsAll : List (String × ValueType) → List ValueType
  | [] => []
  | (_, t) :: rest => parts t ++ partsAll rest

end

end ValueType
end ToolBindings
